import UwuSsh.Sync.Pulls
import UwuSsh.Sync.Edits
import UwuSsh.Store.ManifestFacts
import UwuSsh.Store.KnownHosts
import UwuSsh.Sync.Checks
import UwuSsh.Lib.Seat
import UwuSsh.Store.Slots
import UwuSsh.Lib.Queue
import UwuSsh.Store.Outbox
import UwuSsh.Lib.Transaction
import UwuSsh.Store.Reseal
import UwuSsh.Store.Adopt
import UwuSsh.Lib.Script
import UwuSsh.Team.File
import UwuSsh.Team.Api
import UwuSsh.Team.Teams
import UwuSsh.Team.Ledger
import UwuSsh.Team.Contract
import UwuSsh.Team.Keeping
import UwuSsh.Team.Chain
import UwuSsh.Team.Debts
import UwuSsh.Team.Rotation
import UwuSsh.Spaces.Registry
import UwuSsh.Spaces.RegistryFacts
import UwuSsh.Store.Local
import UwuSsh.Spaces.Personal
import UwuSsh.Spaces.PersonalClear
import UwuSsh.Spaces.Main
import UwuSsh.Spaces.StateFacts
import UwuSsh.Spaces.MainFacts
import UwuSsh.Lock.State
import UwuSsh.Lock.Account
import UwuSsh.Lock.AccountFacts
import UwuSsh.Pairing.Flow
import UwuSsh.Pairing.FlowFacts
import UwuSsh.Lib.Relay
import UwuSsh.Pairing.Handshake
import UwuSsh.Pairing.HandshakeFacts
import UwuSsh.Sync.Invariant
import UwuSsh.Sync.BadRecords
import UwuSsh.Sync.Passes
import UwuSsh.Spaces.Import
import UwuSsh.Spaces.Records
import UwuSsh.Spaces.RecordsFacts
import UwuSsh.Proto.Base64
import UwuSsh.Lib.Fallible
import UwuSsh.Store.Transact
import UwuSsh.Store.Groups
import UwuSsh.Store.GroupsFacts
import UwuSsh.Store.Hosts
import UwuSsh.Store.HostsFacts
import UwuSsh.Spaces.ReadOnly
import UwuSsh.Store.Keys
import UwuSsh.Store.Tunnels
import UwuSsh.Store.Assist
import UwuSsh.Store.Keymaps
import UwuSsh.Store.LocalEdits
import UwuSsh.Store.OldClients
import UwuSsh.Store.ImportFacts
import UwuSsh.Spaces.Quiet
import UwuSsh.Spaces.Servers
import UwuSsh.Spaces.Leftovers
import UwuSsh.Team.Marks
import UwuSsh.Terminal.Flow
import UwuSsh.Terminal.FlowFacts
import UwuSsh.Lib.Shell
import UwuSsh.Sftp.RootCommand
import UwuSsh.Lib.Feed
import UwuSsh.Lib.Search
import UwuSsh.Lib.Utf8
import UwuSsh.Sftp.SudoConversation
import UwuSsh.Sftp.SudoFacts
import UwuSsh.Sftp.Download
import UwuSsh.Sftp.DownloadFacts
import UwuSsh.Chromium.LevelDbLog
import UwuSsh.Chromium.LogLayout
import UwuSsh.Lib.Fragments
import UwuSsh.Chromium.LogDamage
import UwuSsh.Chromium.LogWhole
import UwuSsh.Chromium.LogCut
import UwuSsh.Chromium.WriteBatch
import UwuSsh.Chromium.Table
import UwuSsh.Chromium.TableFacts
import UwuSsh.Chromium.Snapshot
import UwuSsh.Store.KeymapFacts
import UwuSsh.Lib.Intern
import UwuSsh.Store.Schema
import UwuSsh.Store.SchemaFacts
import UwuSsh.Lib.Contest
import UwuSsh.Store.Due
import UwuSsh.Store.Arrival
import UwuSsh.Lib.Attempt
import UwuSsh.Chromium.V8
import UwuSsh.Chromium.V8Facts
import UwuSsh.Importers.SshConfig
import UwuSsh.Importers.SshConfigFacts
import UwuSsh.Assist.Normalize
import UwuSsh.Assist.Similarity
import UwuSsh.Lib.Radix
import UwuSsh.Lock.AccountKey
import UwuSsh.Lock.AccountKeyFacts
import UwuSsh.Desktop.Keymap
import UwuSsh.Desktop.KeymapFacts
import UwuSsh.Desktop.Driver
import UwuSsh.Desktop.DriverFacts
import UwuSsh.Desktop.DriverCredit
import UwuSsh.Keygen.Ppk
import UwuSsh.Keygen.PpkFacts
import UwuSsh.Tunnel.Manager
import UwuSsh.Tunnel.ManagerFacts
import UwuSsh.Assist.Prompt
import UwuSsh.Assist.PromptFacts
import UwuSsh.Store.Superseded
import UwuSsh.Importers.SessionFiles
import UwuSsh.Importers.SessionFilesFacts
import UwuSsh.Tunnel.Alive
import UwuSsh.Tunnel.Reports
import UwuSsh.Tunnel.Truth
import UwuSsh.Store.Contents
import UwuSsh.Sync.Contents
import UwuSsh.Sync.Requests
import UwuSsh.Sync.Rising
import UwuSsh.Store.Lives
import UwuSsh.Store.BackupFacts
import UwuSsh.Store.Brought

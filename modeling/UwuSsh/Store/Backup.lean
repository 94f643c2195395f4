import UwuSsh.Spaces.Import
import UwuSsh.Store.Tunnels

/-!
Export files: every host, group, key, trusted host key, snippet and tunnel of a store in one value, and
back in. Reading one in goes through the import, so what is there already is skipped, and the tunnels of
the file go onto the hosts they belong to afterwards, each in a transaction of its own.
-/
namespace UwuSsh

open Text InTx

/-- A stored secret as text; the text of a record is up to the JSON writer. -/
def Plain.text (render : Payload → String) : Plain → Except LocalError String
  | .bytes content =>
      match String.fromUTF8? ⟨content.toArray⟩ with
      | none => .error (.exportFile "a stored secret is not text")
      | some text => .ok text
  | .json payload => .ok (render payload)

namespace Store

section exporting

variable (render : Payload → String) (s : Store)

/-- `ORDER BY address, port` -/
def listKnownHosts : List KnownHostRecord :=
  let known : List (Uuid × Row KnownHostCols) := s.liveRows .knownHost
  (known.map fun e => KnownHostRecord.ofCols e.2.cols).insertionSort fun a b =>
    ((compare a.address b.address).then (compare a.port b.port)).isLE = true

/-- `ORDER BY lower(label)` -/
def listSnippets : List SnippetInput :=
  let snippets : List (Uuid × Row SnippetCols) := s.liveRows .snippet
  (snippets.map fun e =>
    ({ label := e.2.cols.label, body := e.2.cols.body, groupPath := e.2.cols.groupPath } : SnippetInput)).insertionSort
      fun a b => (compare (asciiLower a.label) (asciiLower b.label)).isLE = true

/-- Every tunnel of every host there is, by host and name. -/
def listTunnels : List TunnelRecord :=
  let tunnels : List (Uuid × Row PortForwardCols) := s.liveRows .portForward
  ((tunnels.filter fun e => (s.live? .host e.2.cols.hostId).isSome).map tunnelFromRow).insertionSort fun a b =>
    ((compare a.hostId.toNat b.hostId.toNat).then ((compare (asciiLower a.name) (asciiLower b.name)).then
      (compare a.id.toNat b.id.toNat))).isLE = true

/-- A key's private half and passphrase, opened. -/
def revealKey (id : Uuid) : Except LocalError (Plain × Option Plain) :=
  match s.live? .key id with
  | none => .error (.unknownKey id)
  | some (row : Row KeyCols) => do
      let some secret := row.cols.privateSecretId | .error (.unknownKey id)
      let privateKey ← s.revealSecret secret
      let passphrase ← row.cols.passphraseSecretId.mapM s.revealSecret
      return (privateKey, passphrase)

/-- The stored password for a host. -/
def revealHostPassword (id : Uuid) : Except LocalError Plain :=
  match (s.live? .host id).bind fun (row : Row HostCols) => (s.loginOf row.cols).bind (·.passwordSecretId) with
  | none => .error (.unknownHost id)
  | some secret => s.revealSecret secret

/-- A key's private half and passphrase, when they come along. -/
def keySecrets (secrets : Bool) (id : Uuid) : Except LocalError (Option String × Option String) :=
  if secrets then do
    let revealed ← s.revealKey id
    let privateKey ← revealed.1.text render
    let passphrase ← revealed.2.mapM (Plain.text render)
    return (some privateKey, passphrase)
  else .ok (none, none)

def exportKey (secrets : Bool) (key : KeyRecord) : Except LocalError BackupKey := do
  let halves ← s.keySecrets render secrets key.id
  return { label := key.label, keyType := key.keyType, publicKey := key.publicKey
           privateKey := halves.1, passphrase := halves.2 }

def hostSecret (secrets : Bool) (host : HostRecord) : Except LocalError (Option String) :=
  if secrets && host.hasPassword then do
    let revealed ← s.revealHostPassword host.id
    let text ← revealed.text render
    return some text
  else .ok none

/-- A host names its key by its place among the keys of the file. -/
def exportHost (secrets : Bool) (keys : List KeyRecord) (host : HostRecord) : Except LocalError BackupHost := do
  let password ← s.hostSecret render secrets host
  return { name := host.name, address := host.address, port := host.port, username := host.username
           workspace := host.workspace, group := host.groupPath, position := host.position, auth := host.auth
           keyPath := host.keyPath, key := host.keyId.bind fun id => keys.findIdx? fun key => key.id == id, password }

/-- A tunnel of a host that is in the file. -/
def exportTunnel (hosts : List HostRecord) (tunnel : TunnelRecord) : Option BackupTunnel :=
  (hosts.findIdx? fun host => host.id == tunnel.hostId).map fun host =>
    { host, name := tunnel.name, kind := tunnel.kind, bindAddress := tunnel.bindAddress
      bindPort := tunnel.bindPort, targetHost := tunnel.targetHost, targetPort := tunnel.targetPort
      autostart := tunnel.autostart }

/-- Everything, ready to write. With secrets, stored passwords and vault keys come along, which needs
the vault unlocked. -/
def exportBackup (secrets : Bool) : Except LocalError Backup :=
  if secrets && s.vault.isNone then .error .vaultLocked
  else do
    let keys ← s.listKeys.mapM (s.exportKey render secrets)
    let hosts ← s.listHosts.mapM (s.exportHost render secrets s.listKeys)
    return { groups := s.listGroups.map fun group => { workspace := group.workspace, name := group.name }
             hosts, keys
             knownHosts := s.listKnownHosts.map fun known =>
               { address := known.address, port := known.port, algorithm := known.algorithm
                 publicKey := known.publicKey, fingerprint := known.fingerprint }
             snippets := s.listSnippets
             tunnels := s.listTunnels.filterMap (exportTunnel s.listHosts) }

end exporting

end Store

/-! ### Reading a file in -/

namespace Backup

variable (backup : Backup)

/-- A key that came with its private half; a host that pointed at another one asks for a password. -/
def usableKeys : List KeyInput := backup.keys.filterMap fun key => key.privateKey.map fun privateKey =>
  { label := key.label, keyType := key.keyType
    publicKey := (some key.publicKey).filter fun p => !p.isEmpty, privateKey, passphrase := key.passphrase }

/-- The place of a key among those that can be used. -/
def usableKey (index : ℕ) : Option ℕ :=
  (backup.keys[index]?.filter fun key => key.privateKey.isSome).map fun _ =>
    (backup.keys.take index).countP fun key => key.privateKey.isSome

def loginInput (host : BackupHost) : IdentityInput :=
  let key :=
    match host.auth with
    | .key => host.key.bind backup.usableKey
    | .password => none
  { label := none, username := some host.username, password := host.password, key
    keyPath :=
      match host.auth with
      | .key => if key.isNone then host.keyPath else none
      | .password => none }

def hostInput (index : ℕ) (host : BackupHost) : HostInput where
  name := host.name
  address := host.address
  port := host.port
  groupPath := host.group
  identity := some index
  workspace := host.workspace
  position := none

/-- A file's host keys only for the hosts it brings. -/
def brings (known : KnownHostInput) : Bool :=
  backup.hosts.any fun host => asciiLower (trim host.address) == asciiLower (trim known.address) &&
    host.port == known.port

/-- What of a file the import takes. -/
def importSet : ImportSet where
  groups := backup.groups
  hosts := backup.hosts.zipIdx.map fun e => hostInput e.2 e.1
  identities := backup.hosts.map backup.loginInput
  keys := backup.usableKeys
  knownHosts := backup.knownHosts.filter backup.brings
  snippets := backup.snippets

/-- Who each tunnel's host is, by what tells hosts apart on import. -/
def tunnelHosts : List (String × UInt16 × String) :=
  backup.hosts.map fun host => hostMatch host.address host.port host.username

end Backup

/-- What two tunnels have in common when an import takes them for one. -/
def tunnelMatch (host : Uuid) (kind bindAddress : String) (bindPort : UInt16) (targetHost : String)
    (targetPort : UInt16) : Uuid × String × String × UInt16 × String × UInt16 :=
  (host, kind, asciiLower (trim bindAddress), bindPort, asciiLower (trim targetHost), targetPort)

def BackupTunnel.match_ (tunnel : BackupTunnel) (host : Uuid) : Uuid × String × String × UInt16 × String × UInt16 :=
  tunnelMatch host tunnel.kind tunnel.bindAddress tunnel.bindPort tunnel.targetHost tunnel.targetPort

def TunnelRecord.match_ (tunnel : TunnelRecord) : Uuid × String × String × UInt16 × String × UInt16 :=
  tunnelMatch tunnel.hostId tunnel.kind tunnel.bindAddress tunnel.bindPort tunnel.targetHost tunnel.targetPort

/-- The form for a tunnel of a file. Only a host this import added keeps a tunnel's autostart. -/
def BackupTunnel.draft (tunnel : BackupTunnel) (host : Uuid) (before : List Uuid) : TunnelDraft where
  id := none
  hostId := host
  name := tunnel.name
  kind := tunnel.kind
  bindAddress := some tunnel.bindAddress
  bindPort := tunnel.bindPort
  targetHost := tunnel.targetHost
  targetPort := tunnel.targetPort
  autostart := tunnel.autostart && !before.contains host

/-- The tunnels of a file, one after the other, and how many were added. Every one that is saved has a
transaction of its own and draws on its own; one the form refuses is left out. -/
def importTunnels (draws : ℕ → Draws) (hostOf : BackupTunnel → Option Uuid) (before : List Uuid) :
    List BackupTunnel → List (Uuid × String × String × UInt16 × String × UInt16) → ℕ → Store →
      Store × Except LocalError ℕ
  | [], _, added, s => (s, .ok added)
  | tunnel :: rest, existing, added, s =>
      match hostOf tunnel with
      | none => importTunnels draws hostOf before rest existing added s
      | some host =>
          if existing.contains (tunnel.match_ host) then importTunnels draws hostOf before rest existing added s
          else
            match (saveTunnel (draws rest.length) (tunnel.draft host before)).commit s with
            | .ok (_, t) => importTunnels draws hostOf before rest (tunnel.match_ host :: existing) (added + 1) t
            | .error (.tx (.store (.invalid _ _))) => importTunnels draws hostOf before rest existing added s
            | .error e => (s, .error e)

namespace Store

variable (s : Store)

/-- The host that goes by a match; of several the last one listed. -/
def hostMatching (key : String × UInt16 × String) : Option Uuid :=
  (s.listHosts.reverse.find? fun host => hostMatch host.address host.port host.username == key).map (·.id)

/-- A file's tunnels, onto the hosts they belong to: added just now or already there. -/
def importTunnelsOf (draws : ℕ → Draws) (backup : Backup) (before : List Uuid) : Store × Except LocalError ℕ :=
  importTunnels draws (fun tunnel => backup.tunnelHosts[tunnel.host]?.bind s.hostMatching) before backup.tunnels
    (s.listTunnels.map TunnelRecord.match_) 0 s

/-- Read a backup into the store, skipping what is already there. -/
def importBackup (draws : Draws) (tunnelDraws : ℕ → Draws) (backup : Backup) : Store × Except LocalError ImportOutcome :=
  match (importInto draws backup.importSet).commit s with
  | .error e => (s, .error e)
  | .ok (outcome, t) =>
      let written := t.importTunnelsOf tunnelDraws backup (s.listHosts.map (·.id))
      (written.1, written.2.map fun tunnelsAdded => { outcome with tunnelsAdded })

end Store

end UwuSsh

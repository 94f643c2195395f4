import Mathlib.Data.List.Dedup
import UwuSsh.Lib.Intern
import UwuSsh.Store.Groups
import UwuSsh.Store.Keymap

/-!
The migrations that made groups of names. Up to schema 2 a host names its group by text. Schema 3 gives every
name a group record, and schema 4 has the hosts point at these records by id and drops the text. A database is
its tables, each in the order a query without one of its own reads them; ids are the text that is stored.
-/
namespace UwuSsh.Schema

open Text

/-- What a row of every syncable table has. -/
structure RowHeader where
  vaultId : String
  hlcWallMs : ℤ
  hlcCounter : ℤ
  hlcDevice : ℤ
  rev : ℤ
  deleted : Bool
deriving DecidableEq

/-- The columns a host has in every version. -/
structure HostColumns where
  id : String
  header : RowHeader
  name : String
  address : String
  port : ℤ
  identityId : Option String
  lastConnectedMs : Option ℤ
deriving DecidableEq

structure HostV2 extends HostColumns where
  groupPath : Option String
deriving DecidableEq

structure HostV3 extends HostV2 where
  workspace : Workspace
  position : Int64
  osId : Option String
deriving DecidableEq

structure HostV4 extends HostColumns where
  workspace : Workspace
  position : Int64
  osId : Option String
  dirty : Bool
  serverSeq : ℤ
  syncExtra : Option String
  groupId : Option String
deriving DecidableEq

structure GroupRow where
  id : String
  header : RowHeader
  workspace : Workspace
  name : String
  position : Int64
deriving DecidableEq

structure IdentityRow where
  id : String
  header : RowHeader
  label : String
  username : String
  authType : String
  keyPath : Option String
  passwordSecretId : Option String
  keyId : Option String
deriving DecidableEq

structure KeyRow where
  id : String
  header : RowHeader
  label : String
  keyType : String
  publicKey : String
  privateSecretId : Option String
  passphraseSecretId : Option String
deriving DecidableEq

structure SecretRow where
  id : String
  header : RowHeader
  nonce : List UInt8
  blob : List UInt8
deriving DecidableEq

/-- Sync bookkeeping beside a row; `secrets` has no `sync_extra`, there it stays empty. -/
structure Tracked (α : Type) where
  row : α
  dirty : Bool := true
  serverSeq : ℤ := 0
  syncExtra : Option String := none
deriving DecidableEq

structure DbV2 where
  vaultId : String
  deviceId : ℤ
  hosts : List HostV2
  identities : List IdentityRow
  keys : List KeyRow
  secrets : List SecretRow

structure DbV3 where
  vaultId : String
  deviceId : ℤ
  hosts : List HostV3
  groups : List GroupRow
  identities : List IdentityRow
  keys : List KeyRow
  secrets : List SecretRow

structure DbV4 where
  vaultId : String
  deviceId : ℤ
  hosts : List HostV4
  groups : List (Tracked GroupRow)
  identities : List (Tracked IdentityRow)
  keys : List (Tracked KeyRow)
  secrets : List (Tracked SecretRow)

/-- What `Uuid::now_v7` gives for a name whose group is written. -/
structure Ids where
  v3 : String → Uuid
  v4 : Workspace × String → Uuid

section v3

/-- The columns schema 3 adds to a host. -/
def HostV2.atV3 (host : HostV2) : HostV3 :=
  { host with workspace := .private_, position := 0, osId := none }

/-- `SELECT DISTINCT group_path … ORDER BY lower(group_path)` of the live hosts. -/
def namesOf (hosts : List HostV2) : List String :=
  ((hosts.filter fun h => !h.header.deleted).filterMap (·.groupPath)).dedup.insertionSort fun a b =>
    asciiLower a ≤ asciiLower b

/-- A group that is written by a migration. -/
def newGroup (vaultId : String) (deviceId : ℤ) (id : Uuid) (workspace : Workspace) (name : String)
    (position : Int64) : GroupRow :=
  { id := uuidText id
    header := { vaultId, hlcWallMs := 0, hlcCounter := 0, hlcDevice := deviceId, rev := 1, deleted := false }
    workspace, name, position }

/-- One group for each name, in their order; an id that is there already is refused by the primary key. -/
def insertGroups (ids : String → Uuid) (vaultId : String) (deviceId : ℤ) :
    ℕ → List String → List GroupRow → Except LocalError (List GroupRow)
  | _, [], groups => .ok groups
  | position, name :: rest, groups =>
    let group := newGroup vaultId deviceId (ids name) .private_ name (Int64.ofNat position)
    if groups.any fun g => g.id == group.id then .error .sqlite
    else insertGroups ids vaultId deviceId (position + 1) rest (groups ++ [group])

/-- The login of a live host comes back. -/
def liveLogins (hosts : List HostV3) (identities : List IdentityRow) : List IdentityRow :=
  identities.map fun identity =>
    if identity.header.deleted && hosts.any fun h => !h.header.deleted && h.identityId == some identity.id then
      { identity with header.deleted := false }
    else identity

/-- A secret that no live login or key points at goes. -/
def sweptSecrets (identities : List IdentityRow) (keys : List KeyRow) (secrets : List SecretRow) : List SecretRow :=
  secrets.map fun secret =>
    if !secret.header.deleted &&
        (!identities.any fun i => !i.header.deleted && i.passwordSecretId == some secret.id) &&
        (!keys.any fun k => !k.header.deleted && k.privateSecretId == some secret.id) &&
        (!keys.any fun k => !k.header.deleted && k.passphraseSecretId == some secret.id) then
      { secret with nonce := [], blob := [], header.deleted := true, header.rev := secret.header.rev + 1 }
    else secret

/-- What else is done in the migration to schema 3. -/
def DbV2.repaired (db : DbV2) (groups : List GroupRow) : DbV3 :=
  let hosts := db.hosts.map HostV2.atV3
  let identities := liveLogins hosts db.identities
  { vaultId := db.vaultId, deviceId := db.deviceId, hosts, groups, identities, keys := db.keys
    secrets := sweptSecrets identities db.keys db.secrets }

/-- The migration to schema 3. -/
def toV3 (ids : String → Uuid) (db : DbV2) : Except LocalError DbV3 :=
  (insertGroups ids db.vaultId db.deviceId 0 (namesOf db.hosts) []).map db.repaired

end v3

section v4

/-- The bookkeeping columns; a tombstone from before there was a server has nobody to tell. -/
def track {α : Type} (header : α → RowHeader) (row : α) : Tracked α := { row, dirty := !(header row).deleted }

/-- A host while it has both columns. -/
structure BothColumns extends Tracked HostV3 where
  groupId : Option String

def bothColumns (host : HostV3) : BothColumns :=
  { track (fun h : HostV3 => h.header) host with groupId := none }

/-- `ALTER TABLE hosts DROP COLUMN group_path`. -/
def BothColumns.dropGroupPath (host : BothColumns) : HostV4 :=
  { host.row.toHostColumns, host with
    workspace := host.row.workspace, position := host.row.position, osId := host.row.osId }

/-- `SELECT DISTINCT workspace, group_path … ORDER BY workspace, lower(group_path)` of the live hosts. -/
def namedBy (hosts : List HostV3) : List (Workspace × String) :=
  ((hosts.filter fun h => !h.header.deleted).filterMap fun h => h.groupPath.map fun name => (h.workspace, name)).dedup.insertionSort
    fun a b => a.1.asStr < b.1.asStr ∨ (a.1 = b.1 ∧ asciiLower a.2 ≤ asciiLower b.2)

/-- The workspace and name a live group goes by. -/
def shownAs (group : Tracked GroupRow) : Option (Workspace × String) :=
  if group.row.header.deleted then none else some (group.row.workspace, group.row.name)

/-- The group of a host that is live, as it names it. -/
def names (host : BothColumns) : Option (Workspace × String) :=
  if host.row.header.deleted then none else host.row.groupPath.map fun name => (host.row.workspace, name)

/-- The positions of the live groups of a workspace. -/
def positionsIn (workspace : Workspace) (groups : List (Tracked GroupRow)) : List Int64 :=
  (groups.filter fun g => !g.row.header.deleted && g.row.workspace == workspace).map fun g => g.row.position

/-- Write the group of a name behind those of its workspace. -/
def writeGroup (ids : Workspace × String → Uuid) (vaultId : String) (deviceId : ℤ) (named : Workspace × String)
    (groups : List (Tracked GroupRow)) : Except LocalError (Tracked GroupRow) :=
  (Store.nextAfter (positionsIn named.1 groups)).bind fun position =>
    let group := newGroup vaultId deviceId (ids named) named.1 named.2 position
    if groups.any fun g => g.row.id == group.id then .error .sqlite else .ok { row := group }

variable {ids : Workspace × String → Uuid} {vaultId : String} {deviceId : ℤ} {named : Workspace × String}
  {groups : List (Tracked GroupRow)} {g : Tracked GroupRow}

theorem writeGroup_eq_ok_iff : writeGroup ids vaultId deviceId named groups = .ok g ↔
    ∃ position, Store.nextAfter (positionsIn named.1 groups) = .ok position ∧
      uuidText (ids named) ∉ groups.map (·.row.id) ∧
      g = { row := newGroup vaultId deviceId (ids named) named.1 named.2 position } := by
  rw [writeGroup]
  cases Store.nextAfter (positionsIn named.1 groups) with
  | error e => simp [Except.bind]
  | ok position =>
    change (if groups.any fun g => g.row.id == uuidText (ids named) then Except.error LocalError.sqlite
      else .ok { row := newGroup vaultId deviceId (ids named) named.1 named.2 position }) = .ok g ↔ _
    have hused : (groups.any fun g => g.row.id == uuidText (ids named)) = true ↔
        uuidText (ids named) ∈ groups.map (·.row.id) := by
      simp [List.any_eq_true, List.mem_map]
    by_cases hin : uuidText (ids named) ∈ groups.map (·.row.id)
    · rw [if_pos (hused.mpr hin)]
      constructor
      · intro h
        cases h
      · intro ⟨_, _, hnew, _⟩
        exact absurd hin hnew
    · rw [if_neg (mt hused.mp hin)]
      constructor
      · intro h
        cases h
        exact ⟨position, rfl, hin, rfl⟩
      · rintro ⟨_, hsame, _, rfl⟩
        cases hsame
        rfl

/-- A group is found by its workspace and name, or is written. -/
def groupDesk (ids : Workspace × String → Uuid) (vaultId : String) (deviceId : ℤ) :
    Intern.Desk (Workspace × String) (Tracked GroupRow) LocalError where
  key := shownAs
  make := writeGroup ids vaultId deviceId
  key_make := by
    intro named groups e h
    obtain ⟨position, -, -, rfl⟩ := writeGroup_eq_ok_iff.mp h
    rfl

/-- `UPDATE hosts SET group_id` of one host. -/
def setGroup (group : Tracked GroupRow) (host : BothColumns) : BothColumns :=
  { host with groupId := some group.row.id }

/-- The migration to schema 4. -/
def toV4 (ids : Workspace × String → Uuid) (db : DbV3) : Except LocalError DbV4 := do
  let (groups, hosts) ← (groupDesk ids db.vaultId db.deviceId).assign names setGroup (namedBy db.hosts)
    (db.groups.map (track (·.header))) (db.hosts.map bothColumns)
  return { vaultId := db.vaultId, deviceId := db.deviceId, hosts := hosts.map BothColumns.dropGroupPath, groups
           identities := db.identities.map (track (·.header)), keys := db.keys.map (track (·.header))
           secrets := db.secrets.map (track (·.header)) }

end v4

/-- A database of an older version. -/
inductive Stored
  | v2 (db : DbV2)
  | v3 (db : DbV3)

/-- The steps of `migrate` to schema 4. -/
def migrate (ids : Ids) : Stored → Except LocalError DbV4
  | .v2 db => do
    let db ← toV3 ids.v3 db
    toV4 ids.v4 db
  | .v3 db => toV4 ids.v4 db

end UwuSsh.Schema

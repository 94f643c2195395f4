import Mathlib.Data.List.AList
import Mathlib.Logic.Function.Basic
import UwuSsh.Lib.Register
import UwuSsh.Proto.Sync

/-!
The local database. Every syncable table has one row per record id with the same
header (clock, tombstone flag, whether the row waits to be pushed, the server
version it was last told about) and its own columns. A store also keeps this
device's clock, the versions it gave up without a tombstone, what the last
manifest check found, and where it stands with its server.
-/
namespace UwuSsh

structure HostCols where
  name : String
  address : String
  port : UInt16
  workspace : String
  position : Int64
  groupId : Option Uuid
  identityId : Option Uuid
  syncExtra : Extra
  /-- Local only: when this device last connected, and the system it found. -/
  lastConnectedMs : Option UInt64
  osId : Option String
deriving DecidableEq

structure GroupCols where
  workspace : String
  name : String
  position : Int64
  syncExtra : Extra
deriving DecidableEq

structure IdentityCols where
  label : String
  username : String
  authType : String
  keyId : Option Uuid
  passwordSecretId : Option Uuid
  syncExtra : Extra
  /-- Local only: a key file on this machine. -/
  keyPath : Option String
deriving DecidableEq

structure KeyCols where
  label : String
  keyType : String
  publicKey : String
  privateSecretId : Option Uuid
  passphraseSecretId : Option Uuid
  syncExtra : Extra
deriving DecidableEq

structure SnippetCols where
  label : String
  body : String
  groupPath : Option String
  syncExtra : Extra
deriving DecidableEq

structure PortForwardCols where
  hostId : Uuid
  name : String
  kind : String
  bindAddress : String
  bindPort : UInt16
  targetHost : String
  targetPort : UInt16
  autostart : Bool
  syncExtra : Extra
deriving DecidableEq

structure KnownHostCols where
  address : String
  port : UInt16
  algorithm : String
  fingerprintSha256 : String
  publicKey : String
  firstSeenMs : UInt64
  syncExtra : Extra
deriving DecidableEq

structure AssistCacheCols where
  platform : String
  request : String
  normalized : String
  command : String
  explanation : String
  dangerous : Bool
  createdMs : UInt64
  syncExtra : Extra
  /-- Local only: when and how often this device used the answer. -/
  usedMs : UInt64
  hits : ℕ
deriving DecidableEq

/-- The columns a kind's table has beside the header. `terminalProfile` has no table. -/
def Cols : EntityKind → Type
  | .host => HostCols
  | .group => GroupCols
  | .identity => IdentityCols
  | .key => KeyCols
  | .snippet => SnippetCols
  | .portForward => PortForwardCols
  | .knownHost => KnownHostCols
  | .terminalProfile => Empty
  | .secret => Sealed
  | .manifest => List UInt8
  | .assistConfig => AssistConfigPayload
  | .assistCache => AssistCacheCols
  | .keymap => KeymapBody

instance : (kind : EntityKind) → DecidableEq (Cols kind)
  | .host => inferInstanceAs (DecidableEq HostCols)
  | .group => inferInstanceAs (DecidableEq GroupCols)
  | .identity => inferInstanceAs (DecidableEq IdentityCols)
  | .key => inferInstanceAs (DecidableEq KeyCols)
  | .snippet => inferInstanceAs (DecidableEq SnippetCols)
  | .portForward => inferInstanceAs (DecidableEq PortForwardCols)
  | .knownHost => inferInstanceAs (DecidableEq KnownHostCols)
  | .terminalProfile => inferInstanceAs (DecidableEq Empty)
  | .secret => inferInstanceAs (DecidableEq Sealed)
  | .manifest => inferInstanceAs (DecidableEq (List UInt8))
  | .assistConfig => inferInstanceAs (DecidableEq AssistConfigPayload)
  | .assistCache => inferInstanceAs (DecidableEq AssistCacheCols)
  | .keymap => inferInstanceAs (DecidableEq KeymapBody)

/-- A row: the sync header every table shares, and the columns of its own. -/
structure Row (α : Type) where
  vaultId : Uuid
  updatedAt : Hlc
  rev : ℕ
  deleted : Bool
  dirty : Bool
  serverSeq : ℕ
  cols : α
deriving DecidableEq

namespace Row

variable {α : Type}

def version (row : Row α) : Version := { updatedAt := row.updatedAt, deleted := row.deleted }

/-- The row as a copy of a replicated register, beside what its device gave up. -/
def cell (row : Row α) (mark : Version) : Register.Cell Version :=
  { version := row.version, dirty := row.dirty, base := row.serverSeq, mark }

end Row

/-- Whether a kind has a table in this build. -/
def EntityKind.hasTable (kind : EntityKind) : Bool := kind != .terminalProfile

abbrev Table (kind : EntityKind) := AList fun _ : Uuid => Row (Cols kind)

inductive Problem
  | missing
  | older
  | unchecked
  | incomplete
deriving DecidableEq, Repr

/-- One record the server should have handed over and did not. -/
structure Violation where
  kind : EntityKind
  id : Uuid
  problem : Problem
deriving DecidableEq, Repr

structure Store where
  /-- The device id that goes into this device's clocks. -/
  device : UInt32
  clockWallMs : UInt64
  clockCounter : UInt32
  vaultId : Uuid
  vault : Option UnlockedVault
  tables : (kind : EntityKind) → Table kind
  superseded : AList fun _ : Uuid => EntityKind × Hlc
  violations : List Violation
  cursor : ℕ
  /-- The manifest the device that added this one said it had published. -/
  floor : Option (Uuid × Hlc)

namespace Store

def empty (device : UInt32) (vaultId : Uuid) (vault : Option UnlockedVault) : Store where
  device
  clockWallMs := 0
  clockCounter := 0
  vaultId
  vault
  tables := fun _ => ∅
  superseded := ∅
  violations := []
  cursor := 0
  floor := none

/-- This device's clock as `meta` keeps it. -/
def clock (s : Store) : Hlc :=
  { wallMs := s.clockWallMs, counter := s.clockCounter, device := s.device }

def setClock (s : Store) (clock : Hlc) : Store :=
  { s with clockWallMs := clock.wallMs, clockCounter := clock.counter }

def row? (s : Store) (kind : EntityKind) (id : Uuid) : Option (Row (Cols kind)) :=
  (s.tables kind).lookup id

def setTable (s : Store) (kind : EntityKind) (table : Table kind) : Store :=
  { s with tables := Function.update s.tables kind table }

def putRow (s : Store) (kind : EntityKind) (id : Uuid) (row : Row (Cols kind)) : Store :=
  s.setTable kind ((s.tables kind).insert id row)

def dropRow (s : Store) (kind : EntityKind) (id : Uuid) : Store :=
  s.setTable kind ((s.tables kind).erase id)

/-- `UPDATE … WHERE id`: nothing happens to a row that is not there. -/
def updateRow (s : Store) (kind : EntityKind) (id : Uuid)
    (f : Row (Cols kind) → Row (Cols kind)) : Store :=
  match s.row? kind id with
  | none => s
  | some row => s.putRow kind id (f row)

/-- The version of a host key that was given up for its slot; only host keys have slots. -/
def mark (s : Store) (kind : EntityKind) (id : Uuid) : Version :=
  if kind = .knownHost then
    (s.superseded.lookup id).elim ⊥ fun gone => { updatedAt := gone.2, deleted := false }
  else ⊥

/-- A record as a copy of a replicated register; a record that is not here is a
copy that holds the least version. -/
def cell (s : Store) (kind : EntityKind) (id : Uuid) : Register.Cell Version :=
  match s.row? kind id with
  | none => { Register.Cell.blank with mark := s.mark kind id }
  | some row => row.cell (s.mark kind id)

section rows

variable (s : Store) {kind kind' : EntityKind} {id id' : Uuid} (row : Row (Cols kind))

@[simp] theorem row?_putRow_self : (s.putRow kind id row).row? kind id = some row := by
  simp [row?, putRow, setTable]

theorem row?_putRow_of_ne (h : id' ≠ id) :
    (s.putRow kind id row).row? kind' id' = s.row? kind' id' := by
  by_cases hk : kind' = kind
  · subst hk
    simp [row?, putRow, setTable, AList.lookup_insert_ne h]
  · simp [row?, putRow, setTable, hk]

theorem row?_putRow_of_kind_ne (h : kind' ≠ kind) :
    (s.putRow kind id row).row? kind' id' = s.row? kind' id' := by
  simp [row?, putRow, setTable, h]

@[simp] theorem row?_dropRow_self : (s.dropRow kind id).row? kind id = none := by
  simp [row?, dropRow, setTable]

theorem row?_dropRow_of_ne (h : id' ≠ id) :
    (s.dropRow kind id).row? kind' id' = s.row? kind' id' := by
  by_cases hk : kind' = kind
  · subst hk
    simp [row?, dropRow, setTable, AList.lookup_erase_ne h]
  · simp [row?, dropRow, setTable, hk]

theorem row?_dropRow_of_kind_ne (h : kind' ≠ kind) :
    (s.dropRow kind id).row? kind' id' = s.row? kind' id' := by
  simp [row?, dropRow, setTable, h]

variable {row} (f : Row (Cols kind) → Row (Cols kind))

theorem updateRow_of_none (h : s.row? kind id = none) : s.updateRow kind id f = s := by
  simp [updateRow, h]

theorem updateRow_of_some (h : s.row? kind id = some row) :
    s.updateRow kind id f = s.putRow kind id (f row) := by
  simp [updateRow, h]

end rows

end Store

end UwuSsh

import UwuSsh.Store.Records
import UwuSsh.Store.Reseal
import UwuSsh.Store.Transact

/-!
Groups, workspaces and the order of the host list. A group is a record and a host points at
it by id, while every call takes names and looks them up. Every move renumbers what it
touched in one transaction, and only rows whose place changed get a new revision.
-/
namespace UwuSsh

open Text Fallible InTx

/-- A group name that has to be there. -/
def requiredGroup (name : String) : Except LocalError String :=
  (groupName (some name)).bind fun name =>
    match name with
    | none => .error (.invalid "groupPath" "required")
    | some name => .ok name

def unknownGroup : LocalError := .invalid "groupPath" "unknown"

/-- Whether a host's row is in a workspace and a group of it. -/
def HostCols.isIn (workspace : Workspace) (group : Option Uuid) (cols : HostCols) : Bool :=
  cols.workspace == workspace.asStr && cols.groupId == group

namespace Store

/-- `ORDER BY position, lower(name)`. -/
def byPosition (a b : Int64 × String) : Ordering :=
  (compare a.1.toInt b.1.toInt).then (compare (asciiLower a.2) (asciiLower b.2))

/-- `coalesce(max(position) + 1, 0)`; past the last integer the sum is not one any more. -/
def nextAfter (positions : List Int64) : Except LocalError Int64 :=
  match (positions.map (·.toInt)).max? with
  | none => .ok 0
  | some last => if last = Int64.maxValue.toInt then .error .sqlite else .ok (Int64.ofInt (last + 1))

variable (s : Store)

/-- The ids of the live groups of a name, least first. -/
def groupsCalled (workspace : Workspace) (name : String) : List Uuid :=
  let groups : List (Uuid × Row GroupCols) := s.liveRows .group
  ((groups.filter fun e => e.2.cols.workspace == workspace.asStr && e.2.cols.name == name).map
    (·.1)).insertionSort fun a b => a.toNat ≤ b.toNat

/-- The id of a live group by workspace and name. -/
def groupId (workspace : Workspace) (name : String) : Option Uuid :=
  (s.groupsCalled workspace name).head?

/-- The live groups of a workspace, by position. -/
def groupsOf (workspace : Workspace) : List (Uuid × Row GroupCols) :=
  let groups : List (Uuid × Row GroupCols) := s.liveRows .group
  (groups.filter fun e => e.2.cols.workspace == workspace.asStr).insertionSort fun a b =>
    (byPosition (a.2.cols.position, a.2.cols.name) (b.2.cols.position, b.2.cols.name)).isLE = true

/-- The live hosts with a property, by position. -/
def hostsWhere (p : Uuid → HostCols → Bool) : List (Uuid × Row HostCols) :=
  let hosts : List (Uuid × Row HostCols) := s.liveRows .host
  (hosts.filter fun e => p e.1 e.2.cols).insertionSort fun a b =>
    (byPosition (a.2.cols.position, a.2.cols.name) (b.2.cols.position, b.2.cols.name)).isLE = true

def nextGroupPosition (workspace : Workspace) : Except LocalError Int64 :=
  nextAfter ((s.groupsOf workspace).map (·.2.cols.position))

/-- The position after the last host of a group. -/
def nextPosition (workspace : Workspace) (group : Option Uuid) : Except LocalError Int64 :=
  nextAfter ((s.hostsWhere fun _ cols => cols.isIn workspace group).map (·.2.cols.position))

/-- One `UPDATE` for each host that gets a place in a group. -/
def placeHosts (to_ : Workspace) (group : Option Uuid) (clock : Hlc) (places : List (Uuid × Int64)) :
    Store :=
  s.updateEach .host places fun position (row : Row HostCols) =>
    row.edited clock { row.cols with workspace := to_.asStr, groupId := group, position }

/-- One `UPDATE` for each group that gets a place. -/
def placeGroups (clock : Hlc) (places : List (Uuid × Int64)) : Store :=
  s.updateEach .group places fun position (row : Row GroupCols) =>
    row.edited clock { row.cols with position }

/-- `UPDATE hosts SET workspace … WHERE group_id = … AND deleted = 0` -/
def moveHostsOf (group : Uuid) (to_ : Workspace) (clock : Hlc) : Store :=
  s.mapTable .host fun (row : Row HostCols) =>
    if row.cols.groupId = some group ∧ row.deleted = false then
      row.edited clock { row.cols with workspace := to_.asStr }
    else row

/-- Rows whose place is not the index they have now, with that index. -/
def moved (order : List (Uuid × Int64)) : List (Uuid × Int64) :=
  (order.zipIdx.filter fun e => e.1.2 != Int64.ofNat e.2).map fun e => (e.1.1, Int64.ofNat e.2)

end Store

section operations

variable (draws : Draws)

/-- The id of the group a host names, creating the record if it is new. -/
def ensureGroup (workspace : Workspace) (name : String) : InTx Uuid := do
  match ← read (·.groupId workspace name) with
  | some id => pure id
  | none =>
    let position ← lift (← read (·.nextGroupPosition workspace))
    let clock ← tick draws
    let id ← newId draws
    insert .group id
      ({ workspace := workspace.asStr, name, position, syncExtra := [] } : GroupCols) clock
    pure id

/-- Every host of one group joins another one, or none, at its end. -/
def moveMembers (from_ : Uuid) (toWorkspace : Workspace) (to_ : Option Uuid) : InTx Unit := do
  let hosts ← read fun s => (s.hostsWhere fun _ cols => cols.groupId == some from_).map (·.1)
  if hosts.isEmpty then pure ()
  else
    let first ← lift (← read (·.nextPosition toWorkspace to_))
    let clock ← tick draws
    let places := hosts.zipIdx.map fun e => (e.1, first + Int64.ofNat e.2)
    write fun s => s.placeHosts toWorkspace to_ clock places

def tombstoneGroup (id : Uuid) : InTx Unit := do
  let clock ← tick draws
  update .group id fun row => if row.deleted then row else row.tombed clock

def createGroup (workspace : Workspace) (name : String) : InTx GroupRecord := do
  let name ← lift (requiredGroup name)
  if (← read (·.groupId workspace name)).isSome then throw (.invalid "groupPath" "exists")
  else
    let id ← ensureGroup draws workspace name
    let row ← read (·.row? .group id)
    pure { workspace, name, position := (row.map fun row => GroupCols.position row.cols).getD 0 }

/-- The hosts of a group stay as they are: they point at the record. Onto a group that
exists the two are merged. -/
def renameGroup (workspace : Workspace) (from_ to_ : String) : InTx Unit := do
  let to_ ← lift (requiredGroup to_)
  if from_ = to_ then pure ()
  else
    match ← read (·.groupId workspace from_) with
    | none => throw unknownGroup
    | some fromId =>
      match ← read (·.groupId workspace to_) with
      | some toId =>
        moveMembers draws fromId workspace (some toId)
        tombstoneGroup draws fromId
      | none =>
        let clock ← tick draws
        update .group fromId fun (row : Row GroupCols) =>
          row.edited clock { row.cols with name := to_ }

/-- The hosts of a deleted group stay, without a group, at the end of the list. -/
def deleteGroup (workspace : Workspace) (name : String) : InTx Unit := do
  match ← read (·.groupId workspace name) with
  | none => throw unknownGroup
  | some id =>
    moveMembers draws id workspace none
    tombstoneGroup draws id

/-- A group that changes its workspace, with its hosts; the id it has from then on. -/
def changeWorkspace (id : Uuid) (name : String) (to_ : Workspace) : InTx Uuid := do
  match ← read (·.groupId to_ name) with
  | some target =>
    moveMembers draws id to_ (some target)
    tombstoneGroup draws id
    pure target
  | none =>
    let clock ← tick draws
    update .group id fun (row : Row GroupCols) =>
      row.edited clock { row.cols with workspace := to_.asStr }
    write fun s => s.moveHostsOf id to_ clock
    pure id

/-- Put a group before another one, or at the end, in the same or the other workspace. -/
def moveGroup (workspace : Workspace) (name : String) (to_ : Workspace) (before : Option String) :
    InTx Unit := do
  match ← read (·.groupId workspace name) with
  | none => throw unknownGroup
  | some id =>
    let id ← if to_ = workspace then pure id else changeWorkspace draws id name to_
    let before ← read fun s => before.bind (s.groupId to_)
    let order ← read fun s => (s.groupsOf to_).map fun e => (e.1, e.2.cols.position)
    match order.find? (·.1 == id) with
    | none => pure ()
    | some self =>
      let order := order.filter (·.1 != id)
      let place := (before.bind fun before => order.findIdx? (·.1 == before)).getD order.length
      let clock ← tick draws
      write fun s => s.placeGroups clock (Store.moved (order.insertIdx place self))

/-- Move a host into a workspace and group, before another host of that group or at its end. -/
def moveHost (id : Uuid) (to_ : Workspace) (group : Option String) (before : Option Uuid) :
    InTx HostRecord := do
  let group ← lift (groupName group)
  match ← read (·.live? .host id) with
  | none => throw (.unknownHost id)
  | some row =>
    let current : HostCols := row.cols
    let group ← group.mapM (ensureGroup draws to_)
    let order ← read fun s =>
      (s.hostsWhere fun other cols => cols.isIn to_ group && other != id).map fun e =>
        (e.1, e.2.cols.position)
    let place := (before.bind fun before => order.findIdx? (·.1 == before)).getD order.length
    -- The moved host counts as changed if anything about its place is new.
    let changed := Workspace.parse current.workspace != to_ || current.groupId != group ||
      current.position != Int64.ofNat place
    let self := (id, if changed then -1 else current.position)
    let clock ← tick draws
    write fun s => s.placeHosts to_ group clock (Store.moved (order.insertIdx place self))
    match ← read (·.getHost id) with
    | none => throw (.unknownHost id)
    | some record => pure record

/-- The workspace and group of a place; without one the host stays in its own. -/
def placeOf (current : HostCols) (place : Option (Workspace × Option String)) :
    InTx (Workspace × Option Uuid) := do
  match place with
  | none => pure (.parse current.workspace, current.groupId)
  | some (to_, name) =>
    let name ← lift (groupName name)
    let group ← name.mapM (ensureGroup draws to_)
    pure (to_, group)

/-- Nothing is written when nothing changes. -/
def writePlace (id : Uuid) (current : HostCols) (to_ : Workspace) (group : Option Uuid)
    (position : Int64) : InTx Unit := do
  if Workspace.parse current.workspace = to_ ∧ current.groupId = group ∧
      current.position = position then pure ()
  else
    let clock ← tick draws
    update .host id fun (row : Row HostCols) =>
      row.edited clock { row.cols with workspace := to_.asStr, groupId := group, position }

/-- Put a host at a place, and at a position there. -/
def placeHost (id : Uuid) (place : Option (Workspace × Option String)) (position : Int64) :
    InTx HostRecord := do
  match ← read (·.live? .host id) with
  | none => throw (.unknownHost id)
  | some row =>
    let (to_, group) ← placeOf draws row.cols place
    writePlace draws id row.cols to_ group position
    match ← read (·.getHost id) with
    | none => throw (.unknownHost id)
    | some record => pure record

end operations

end UwuSsh

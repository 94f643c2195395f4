import UwuSsh.Team.Api

/-!
The registry: a small file beside the database that says which stores there are, which
server is main, where new entries go, and what was begun and is not finished. A file that
does not read, or names what this program would not have written, is set aside the next
time there is something to write, and until then only what can be trusted of it is opened.
-/
namespace UwuSsh

open Text

/-- The id of the database there is to begin with. -/
def firstSpace : String := "first"

/-- What the server being set up is called; never the id of a space. -/
def newSpace : String := "new"

def registryVersion : ℕ := 1

inductive SpaceKind
  /-- A store that syncs with a server of its own. -/
  | server
  /-- A team's vault, reached through the server it is a child of. -/
  | team
deriving DecidableEq

/-- Where a new entry of each workspace goes. -/
structure SpaceDefaults where
  private_ : String
  business : String
deriving DecidableEq

structure RegistryEntry where
  id : String
  file : String
  kind : SpaceKind
  readOnly : Bool
  parent : Option String
  team : Option Uuid
  label : Option String
  role : Option TeamRole
deriving DecidableEq

/-- A host on its way from one store to another. -/
structure Journal where
  host : Uuid
  /-- The id the host has in the target: its own, unless a row there already holds that. -/
  targetHost : Uuid
  from_ : String
  to_ : String
deriving DecidableEq

structure RegistryFile where
  version : ℕ
  main : String
  spaces : List RegistryEntry
  defaults : SpaceDefaults
  journal : Option Journal
  /-- The server that was main until the swap this file was written by. -/
  handover : Option String
  /-- A server whose entries began to move away and are not all gone. -/
  leaving : Option String
deriving DecidableEq

/-- The registry as it lies on disk. -/
inductive OnDisk
  | missing
  | unreadable
  | file (f : RegistryFile)
deriving DecidableEq

/-- Where a store lies: the database itself, or a file of the spaces folder. -/
inductive StorePath
  | base
  | space (id : Uuid)
deriving DecidableEq

/-- Where everything lies; the database's own name decides the rest. -/
structure Paths where
  baseName : String
deriving DecidableEq

/-- The path a registry entry names; a name from the file is never joined into one as it stands. -/
def Paths.resolve (paths : Paths) (file : String) : Option StorePath :=
  if file = paths.baseName then some .base
  else
    ((stripPrefix "spaces/" file).bind (stripSuffix ".db")).bind fun id =>
      (parseUuid id).bind fun uuid => if uuidText uuid = id then some (.space uuid) else none

def validId (id : String) : Bool :=
  !id.isEmpty && id != newSpace && id.utf8ByteSize ≤ 64 &&
    id.toList.all fun c => isAsciiAlphanumeric c || c == '-' || c == '_'

/-- What is open in memory. The entries' stores lie in the files they name. -/
structure Inner where
  main : String
  entries : List RegistryEntry
  defaults : SpaceDefaults
  journal : Option Journal
  handover : Option String
  leaving : Option String
  /-- The registry on disk could not be read whole; it is set aside, not overwritten. -/
  unreadable : Bool
deriving DecidableEq

structure SpaceHandle extends RegistryEntry where
  main : Bool
deriving DecidableEq

namespace RegistryEntry

def isServer (entry : RegistryEntry) : Bool := entry.kind == .server

/-- A team hangs on a server that is in the list, and names its team. -/
def whole (servers : List String) (entry : RegistryEntry) : Bool :=
  match entry.kind with
  | .server => true
  | .team => entry.team.isSome && entry.role.isSome && entry.parent.any fun p => servers.contains p

/-- An entry as it is opened: what does not belong to its kind is dropped. -/
def opened (entry : RegistryEntry) : RegistryEntry :=
  { entry with
    readOnly := match entry.kind with
      | .server => entry.readOnly
      | .team => !entry.role.any TeamRole.writes
    parent := entry.parent.filter fun _ => entry.kind == .team
    team := entry.team.filter fun _ => entry.kind == .team
    label := entry.label.map cleanLabel
    role := entry.role.filter fun _ => entry.kind == .team }

end RegistryEntry

/-- Without a registry there is one space. -/
def singleFile (paths : Paths) : RegistryFile where
  version := registryVersion
  main := firstSpace
  spaces := [{ id := firstSpace, file := paths.baseName, kind := .server, readOnly := false, parent := none
               team := none, label := none, role := none }]
  defaults := { private_ := firstSpace, business := firstSpace }
  journal := none
  handover := none
  leaving := none

def readRegistry : OnDisk → Except Unit (Option RegistryFile)
  | .missing => .ok none
  | .unreadable => .error ()
  | .file f => if f.version = registryVersion then .ok (some f) else .error ()

/-- Whether an entry may be opened beside the ones planned so far. -/
def plannable (paths : Paths) (planned : List RegistryEntry) (entry : RegistryEntry) : Bool :=
  (paths.resolve entry.file).isSome && validId entry.id &&
    planned.all fun other => other.id != entry.id &&
      paths.resolve other.file != paths.resolve entry.file

/-- The entries that are opened, and whether one was left out. -/
def planEntries (paths : Paths) (spaces : List RegistryEntry) : List RegistryEntry × Bool :=
  spaces.foldl (fun plan entry =>
    if plannable paths plan.1 entry then (plan.1 ++ [entry], plan.2) else (plan.1, true)) ([], false)

/-- Teams of no server that is in the list are left alone on disk. -/
def wholeTeams (planned : List RegistryEntry) : List RegistryEntry :=
  planned.filter (RegistryEntry.whole ((planned.filter RegistryEntry.isServer).map (·.id)))

namespace Inner

def isServer (inner : Inner) (id : String) : Bool :=
  inner.entries.any fun entry => entry.id == id && entry.isServer

def has (inner : Inner) (id : String) : Bool := inner.entries.any fun entry => entry.id == id

/-- What is written to disk. -/
def file (inner : Inner) : RegistryFile where
  version := registryVersion
  main := inner.main
  spaces := inner.entries
  defaults := inner.defaults
  journal := inner.journal
  handover := inner.handover
  leaving := inner.leaving

/-- What is kept of a file whose entries are opened. -/
def ofFile (file : RegistryFile) (planned : List RegistryEntry) (unreadable : Bool) : Inner :=
  let entries := planned.map RegistryEntry.opened
  let known := fun id => entries.any fun entry => entry.id == id && entry.isServer
  let any := fun id => entries.any fun entry => entry.id == id
  { main := file.main
    entries
    defaults :=
      { private_ := if known file.defaults.private_ then file.defaults.private_ else file.main
        business := if known file.defaults.business then file.defaults.business else file.main }
    journal := file.journal.filter fun journal =>
      journal.from_ != journal.to_ && any journal.from_ && any journal.to_
    handover := file.handover.filter fun old => old != file.main && known old
    leaving := file.leaving.filter known
    unreadable }

/-- The file that is opened: the one on disk, if it reads. -/
def opening (paths : Paths) (disk : OnDisk) : RegistryFile :=
  match readRegistry disk with
  | .ok (some file) => file
  | _ => singleFile paths

/-- What opening makes of the registry on disk. -/
def ofDisk (paths : Paths) (disk : OnDisk) : Inner :=
  let file := opening paths disk
  let plan := planEntries paths file.spaces
  let planned := wholeTeams plan.1
  if planned.any fun entry => entry.id == file.main && entry.isServer then
    ofFile file planned (plan.2 || !(readRegistry disk).isOk)
  else ofFile (singleFile paths) (singleFile paths).spaces true

def handle (inner : Inner) (entry : RegistryEntry) : SpaceHandle :=
  { entry with main := entry.id == inner.main }

def get (inner : Inner) (id : String) : Option SpaceHandle :=
  (inner.entries.find? fun entry => entry.id == id).map inner.handle

/-- Teams by name. -/
def teamBefore (a b : SpaceHandle) : Prop :=
  let name := fun (team : SpaceHandle) => asciiLower (team.label.getD "")
  name a < name b ∨ (name a = name b ∧ a.id ≤ b.id)

instance : DecidableRel teamBefore := fun _ _ => inferInstanceAs (Decidable (_ ∨ _))

/-- Every space: the main server first, and each server followed by the teams on it. -/
def all (inner : Inner) : List SpaceHandle :=
  let handles := inner.entries.map inner.handle
  let servers := handles.filter fun space => space.isServer
  let teams := (handles.filter fun space => !space.isServer).insertionSort teamBefore
  (servers.filter (·.main) ++ servers.filter fun space => !space.main).flatMap fun server =>
    server :: teams.filter fun team => team.parent == some server.id

def servers (inner : Inner) : List SpaceHandle := inner.all.filter fun space => space.isServer

/-- The one other server beside `id`, while there are two. -/
def other (inner : Inner) (id : String) : Option SpaceHandle :=
  inner.servers.find? fun space => space.id != id

end Inner

/-- Entries this program would have written. -/
structure Planned (paths : Paths) (entries : List RegistryEntry) : Prop where
  resolves : ∀ entry ∈ entries, (paths.resolve entry.file).isSome
  valid : ∀ entry ∈ entries, validId entry.id
  distinct : entries.Pairwise fun a b =>
    a.id ≠ b.id ∧ paths.resolve a.file ≠ paths.resolve b.file

end UwuSsh

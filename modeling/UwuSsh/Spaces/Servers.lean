import UwuSsh.Spaces.Quiet

/-!
Which servers and teams there are. A new store is marked as being set up before its file exists,
and the mark goes once the registry names it; what is taken away leaves the registry first, and then
its file goes. A start clears away what still has its mark and is not named, unless the registry
could not be read, or one that could not be read lies aside.
-/
namespace UwuSsh

open Script

/-- The ending of a file is all there is to a mark: it lies beside the store it is for. -/
def markerOf (id : String) : Option Uuid :=
  (parseUuid id).bind fun uuid => if uuidText uuid = id then some uuid else none

/-- What a registry calls the file of a store in the spaces folder. -/
def storeFile (id : String) : String := "spaces/" ++ id ++ ".db"

def maxServers : ℕ := 2

/-- What lies on disk beside the registry: the files of stores, and the marks of those that are being
set up or should be gone. -/
structure Folder where
  spaces : Spaces
  stores : List StorePath
  markers : List Uuid

abbrev FolderScript := Script Folder SpacesAsk SpacesAnswer LocalError

namespace Inner

def serverCount (inner : Inner) : ℕ := inner.entries.countP RegistryEntry.isServer

def teamCount (inner : Inner) : ℕ := inner.entries.countP fun entry => !entry.isServer

/-- The entries after a server went, with the teams on it. -/
def without (inner : Inner) (id rest : String) : Inner :=
  { inner with
    entries := inner.entries.filter fun entry => entry.id != id && entry.parent != some id
    defaults :=
      { private_ := if inner.defaults.private_ = id then rest else inner.defaults.private_
        business := if inner.defaults.business = id then rest else inner.defaults.business }
    journal := none
    leaving := inner.leaving.filter fun leaving => leaving != id }

end Inner

namespace Spaces

/-- The key of a space stays in memory for as long as somebody holds its store. -/
def lockVault (entry : RegistryEntry) : SpacesScript Unit :=
  .write (fun s => s.setStore entry (s.store entry).locked) (.done ()) (.ask .never nofun)

/-- Keep the key of an open vault, sealed by the main one. -/
def rememberChained (main space : RegistryEntry) (s : Spaces) (file : SpaceFile) : SpaceFile :=
  match (s.store main).vault, file.store.vault with
  | some vault, some own =>
      { file with kept := some (own.keptKey (.byVault (vault.sealForSpace space.id own.key))) }
  | _, _ => file

/-- A key that could not be kept is passed over. -/
def resealAll (main : RegistryEntry) : List SpaceHandle → SpacesScript Unit
  | [] => return ()
  | space :: rest => do
      match ← (vaultOpen space.toRegistryEntry).attempt with
      | .ok true =>
          .write (fun s => s.setFile space.toRegistryEntry (rememberChained main space.toRegistryEntry s))
            (.done ()) (.done ())
      | _ => pure ()
      resealAll main rest

def resealChain : SpacesScript Unit := do
  let main ← mainEntry
  match ← (vaultOpen main).attempt with
  | .ok true => resealAll main ((← get).inner.all.filter fun space => !space.main)
  | _ => return ()

def setDefault (workspace : Workspace) (id : String) : SpacesScript Unit := do
  if (← get).inner.isServer id then
    set fun inner =>
      { inner with
        defaults := match workspace with
          | .private_ => { inner.defaults with private_ := id }
          | .business => { inner.defaults with business := id } }
    persist
  else fail unknownSpace

variable (calls : StoreCalls)

/-- Move hosts one after another; what was moved before one that could not be stays moved. -/
def moveHosts (from_ to_ : String) : List HostRecord → Bool → SpacesScript (Except LocalError Unit × Bool)
  | [], moved => return (.ok (), moved)
  | host :: rest, moved => do
      match ← (moveBetween calls host.id from_ to_).attempt with
      | .error e => return (.error e, moved)
      | .ok _ => moveHosts from_ to_ rest true

def copyKeys (target : SpaceHandle) : List KeyRecord → SpacesScript Unit
  | [] => return ()
  | key :: rest => do
      let _ ← keyIn calls key.id target
      copyKeys target rest

/-- A group that is there, or has no name a group may have, is passed over. -/
def copyGroups (target : SpaceHandle) : List GroupRecord → SpacesScript Unit
  | [] => return ()
  | group :: rest => do
      match ← (onStore target (calls.createGroup group.workspace group.name)).attempt with
      | .ok _ => copyGroups target rest
      | .error (.tx (.store (.invalid _ _))) => copyGroups target rest
      | .error e => fail e

/-- What a server that goes has besides its hosts. -/
def copyRest (gone target : SpaceHandle) : SpacesScript Unit := do
  let keys ← reading fun s => (s.store gone.toRegistryEntry).listKeys
  copyKeys calls target keys
  let groups ← reading fun s => (s.store gone.toRegistryEntry).listGroups
  copyGroups calls target groups

/-- The entries of a server go over to another, and whether one did. -/
def carryOver (gone target : SpaceHandle) (moved : Bool) : SpacesScript (Except LocalError Unit × Bool) := do
  match ← (reading fun s => (s.store gone.toRegistryEntry).listHosts).attempt with
  | .error e => return (.error e, moved)
  | .ok hosts =>
      match ← moveHosts calls gone.id target.id hosts moved with
      | (.error e, moved) => return (.error e, moved)
      | (.ok (), moved) => do
          let rest ← (copyRest calls gone target).attempt
          return (rest, moved)

/-- A server whose entries move away is noted before the first one does: from then on it must not sync
until it is gone. -/
def noteLeaving (id : String) : SpacesScript Unit := do
  set fun inner => { inner with leaving := some id }
  match ← persist.attempt with
  | .ok () => return ()
  | .error e => do
      set fun inner => { inner with leaving := none }
      fail e

def leave (gone target : SpaceHandle) : SpacesScript Unit := do
  let resumed := (← get).inner.leaving == some gone.id
  if !resumed then noteLeaving gone.id
  match ← carryOver calls gone target resumed with
  | (.ok (), _) => return ()
  | (.error e, moved) => do
      if !moved then
        -- Nothing left it: it is as it was.
        set fun inner => { inner with leaving := none }
        let _ ← persist.attempt
      fail e

def makeMain (id : String) : SpacesScript Unit := do
  swapMain id
  settleHandover

end Spaces

namespace Folder

def setSpaces (spaces : Spaces) (f : Folder) : Folder := { f with spaces }

def onSpaces {α : Type} (p : SpacesScript α) : FolderScript α := p.onPart (·.spaces) setSpaces

/-- A new store where there is none. -/
def create (path : StorePath) (f : Folder) : Folder :=
  if path ∈ f.stores then f else { f with stores := path :: f.stores }

/-- A store as it is opened for the first time. -/
def newFile : SpaceFile := { store := .empty 0 0 none, kept := none, staged := none }

/-- A store's file goes with what lies beside it. -/
def remove (path : StorePath) (f : Folder) : Folder :=
  { f with
    stores := f.stores.filter fun other => other != path
    spaces := { f.spaces with files := Function.update f.spaces.files path newFile } }

def mark (id : Uuid) (f : Folder) : Folder := { f with markers := id :: f.markers }

def unmark (id : Uuid) (f : Folder) : Folder :=
  { f with markers := f.markers.filter fun other => other != id }

/-- A step on disk that is passed over when it goes wrong. -/
def trying (step : Folder → Folder) : FolderScript Unit := .write step (.done ()) (.done ())

def removeStoreFiles (path : StorePath) : FolderScript Unit := trying (remove path)

def orUnknown {α : Type} (o : Option α) : FolderScript α := ofExcept (o.elim (.error Spaces.unknownSpace) .ok)

/-- A new store file, marked as being set up before it exists. -/
def beginStore (id : String) : FolderScript Unit := do
  let path ← orUnknown ((← get).spaces.paths.resolve (storeFile id))
  let marker ← orUnknown (markerOf id)
  modify .io (mark marker)
  modify .sqlite (create path)

/-- A store that is in the registry is no longer being set up. -/
def settled (id : String) : FolderScript Unit :=
  match markerOf id with
  | none => return ()
  | some marker => trying (unmark marker)

def newId : FolderScript String := do
  let draws : Draws ← query SpacesAsk.draws
  match draws.id 0 with
  | none => fail .device
  | some id => return uuidText id

def prepare : FolderScript Unit := do
  if (← get).spaces.inner.serverCount < maxServers then beginStore (← newId)
  else fail (.invalid "space" "limit")

def serverEntry (id : String) : RegistryEntry :=
  { id, file := storeFile id, kind := .server, readOnly := false, parent := none, team := none, label := none
    role := none }

def push (entry : RegistryEntry) (inner : Inner) : Inner := { inner with entries := inner.entries ++ [entry] }

def drop (id : String) (inner : Inner) : Inner :=
  { inner with entries := inner.entries.filter fun entry => entry.id != id }

/-- An entry that could not be written is taken back. -/
def enter (entry : RegistryEntry) : SpacesScript Unit := do
  Spaces.set (push entry)
  match ← Spaces.persist.attempt with
  | .ok () => return ()
  | .error e => do
      Spaces.set (drop entry.id)
      fail e

/-- Make a prepared store the second server. -/
def register (id : String) : FolderScript Unit := do
  let s := (← get).spaces
  if !validId id || (s.paths.resolve (storeFile id)).isNone then fail Spaces.unknownSpace
  else if maxServers ≤ s.inner.serverCount then fail (.invalid "space" "limit")
  else if s.inner.has id then fail (.invalid "space" "exists")
  else do
    onSpaces (enter (serverEntry id))
    settled id
    onSpaces Spaces.resealChain

/-- Throw a prepared store away. -/
def discard (id : String) : FolderScript Unit := do
  let s := (← get).spaces
  if s.inner.has id then return ()
  else do
    match s.paths.resolve (storeFile id) with
    | none => pure ()
    | some path => removeStoreFiles path
    settled id

def teamEntry (id server : String) (team : Uuid) (name : String) (role : TeamRole) : RegistryEntry :=
  { id, file := storeFile id, kind := .team, readOnly := !role.writes, parent := some server, team := some team
    label := some (cleanLabel name), role := some role }

/-- Whether a server has a team already. -/
def hasTeam (server : String) (team : Uuid) (inner : Inner) : Bool :=
  inner.entries.any fun entry => !entry.isServer && entry.parent == some server && entry.team == some team

/-- The store of a team, with what makes it one. -/
def beginTeam (teamBegin : StoreScript Unit) (entry : RegistryEntry) : FolderScript Unit := do
  beginStore entry.id
  onSpaces (Spaces.onStore { entry with main := false } teamBegin)

/-- A team gets its store and joins the list; what was made of it goes if it does not get there. -/
def setUpTeam (teamBegin : StoreScript Unit) (entry : RegistryEntry) : FolderScript Unit := do
  match ← (beginTeam teamBegin entry).attempt with
  | .error e => do
      discard entry.id
      fail e
  | .ok () => pure ()
  match ← (onSpaces (enter entry)).attempt with
  | .error e => do
      onSpaces (Spaces.lockVault entry)
      discard entry.id
      fail e
  | .ok () => pure ()
  settled entry.id
  onSpaces Spaces.resealChain
  let _ ← onSpaces (Spaces.getSpace entry.id)

/-- Open a team on this device: a store of its own, a child of the server the team is on. -/
def addTeam (teamBegin : StoreScript Unit) (server : String) (team : Uuid) (name : String) (role : TeamRole) :
    FolderScript Unit := do
  let inner := (← get).spaces.inner
  if !inner.isServer server then fail Spaces.unknownSpace
  else if hasTeam server team inner then fail (.invalid "space" "exists")
  else if maxTeamSpaces ≤ inner.teamCount then fail (.invalid "space" "limit")
  else setUpTeam teamBegin (teamEntry (← newId) server team name role)

/-- A team's name, and what this account may do in it. -/
structure Standing where
  label : Option String
  role : Option TeamRole

def standingOf (entry : RegistryEntry) : Standing := { label := entry.label, role := entry.role }

def restand (id : String) (standing : Standing) (inner : Inner) : Inner :=
  { inner with
    entries := inner.entries.map fun entry =>
      if entry.id = id then
        { entry with
          label := standing.label
          role := standing.role
          readOnly := !standing.role.any TeamRole.writes }
      else entry }

/-- Take over a team's name and this account's role in it. -/
def updateTeam (id name : String) (role : TeamRole) : SpacesScript Bool := do
  let now : Standing := { label := some (cleanLabel name), role := some role }
  match (← get).inner.entries.find? fun entry => entry.id == id && !entry.isServer with
  | none => fail Spaces.unknownSpace
  | some entry =>
      if entry.label = now.label ∧ entry.role = now.role then return false
      else do
        Spaces.set (restand id now)
        match ← Spaces.persist.attempt with
        | .ok () => return true
        | .error e => do
            Spaces.set (restand id (standingOf entry))
            fail e

/-- Delete a store's file. Should it stay, the mark beside it has the next start clear it away. -/
def removeMarked (id : String) (path : StorePath) : FolderScript Unit := do
  match markerOf id with
  | none => removeStoreFiles path
  | some marker => do
      trying (mark marker)
      removeStoreFiles path
      if path ∈ (← get).stores then return () else trying (unmark marker)

/-- The teams on a server that name a file. -/
def teamsOn (paths : Paths) (id : String) (inner : Inner) : List (RegistryEntry × StorePath) :=
  inner.entries.filterMap fun entry =>
    if !entry.isServer && entry.parent == some id then (paths.resolve entry.file).map fun path => (entry, path)
    else none

def fileOf (paths : Paths) (id : String) (inner : Inner) : Option StorePath :=
  (inner.entries.find? fun entry => entry.id == id).bind fun entry => paths.resolve entry.file

def removeTeams : List (RegistryEntry × StorePath) → FolderScript Unit
  | [] => return ()
  | (team, path) :: rest => do
      onSpaces (Spaces.lockVault team)
      removeMarked team.id path
      removeTeams rest

/-- Take a server out of the list, with the teams on it, and delete their files. -/
def takeAway (gone : SpaceHandle) (rest : String) : FolderScript Unit := do
  let s := (← get).spaces
  let path := fileOf s.paths gone.id s.inner
  let teams := teamsOn s.paths gone.id s.inner
  onSpaces (Spaces.set fun inner => inner.without gone.id rest)
  onSpaces Spaces.persist
  onSpaces (Spaces.lockVault gone.toRegistryEntry)
  match path with
  | none => pure ()
  | some path => removeStoreFiles path
  removeTeams teams

variable (calls : StoreCalls)

/-- Take a server away from this device. With `keep`, what it holds moves to the other one first. -/
def removeServer (id : String) (keep : Bool) : FolderScript Unit := do
  let gone ← onSpaces (Spaces.getSpace id)
  if !gone.isServer then fail Spaces.unknownSpace
  else
    match (← get).spaces.inner.other id with
    | none => fail (.invalid "space" "last")
    | some rest => do
        if keep then onSpaces (Spaces.leave calls gone rest)
        if gone.main then onSpaces (Spaces.makeMain rest.id)
        takeAway gone rest.id

/-- Take a team from this device. The team itself is not touched. -/
def removeTeam (id : String) : FolderScript Unit := do
  let gone ← onSpaces (Spaces.getSpace id)
  if gone.isServer then fail Spaces.unknownSpace
  else do
    -- A host on its way in or out arrives or stays first.
    onSpaces (Spaces.recover calls)
    let s := (← get).spaces
    let path := fileOf s.paths id s.inner
    onSpaces (Spaces.set (drop id))
    onSpaces Spaces.persist
    onSpaces (Spaces.lockVault gone.toRegistryEntry)
    match path with
    | none => return ()
    | some path => removeMarked id path

def openStores : List RegistryEntry → FolderScript Unit
  | [] => return ()
  | entry :: rest => do
      let path := (← get).spaces.path entry
      modify .sqlite (create path)
      openStores rest

/-- Clear away the marked stores that are not kept, and every mark. -/
def clearAway (kept : List StorePath) : List Uuid → FolderScript Unit
  | [] => return ()
  | id :: rest => do
      if (.space id) ∈ kept then pure () else removeStoreFiles (.space id)
      trying (unmark id)
      clearAway kept rest

/-- The files the spaces in memory lie in. -/
def named (paths : Paths) (inner : Inner) : List StorePath :=
  inner.entries.filterMap fun entry => paths.resolve entry.file

/-- Stores whose setup never finished: a store without a mark is never touched, and none is while a
registry that could not be read lies beside the one in use. -/
def sweepLeftovers : FolderScript Unit := do
  let f ← get
  if f.spaces.aside then return ()
  else if ← query .reads then clearAway (named f.spaces.paths f.spaces.inner) f.markers
  else return ()

/-- A process starts: what is open is what the registry says. -/
def reopened (f : Folder) : Folder := { f with spaces := f.spaces.reopened }

/-- What a start does with what it opened. -/
def opening : FolderScript Unit := do
  openStores (← get).spaces.inner.entries
  if !(← get).spaces.inner.unreadable then sweepLeftovers
  onSpaces Spaces.settleHandover
  onSpaces (Spaces.recover calls)

end Folder

end UwuSsh

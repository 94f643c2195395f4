import UwuSsh.Spaces.Import
import UwuSsh.Spaces.Main

/-!
Records across stores. What the user sees is one list of hosts, groups, keys and tunnels; each
call finds the space a record lives in, or picks the one a new record goes to, and hands on to
that store. A host that moves from one server to another is noted in the registry first, so
that whatever was begun is finished or forgotten.
-/
namespace UwuSsh

open Script Text

/-- A program on one store. -/
abbrev StoreScript := Script Store SpacesAsk SpacesAnswer LocalError

/-- What the calls of one store that write do to it; whatever that is, they reach no other store. -/
structure StoreCalls where
  saveHost : HostDraft → StoreScript HostRecord
  placeHost : Uuid → Option (Workspace × Option String) → Int64 → StoreScript HostRecord
  deleteHost : Uuid → StoreScript Unit
  setHostPassword : Uuid → PasswordChange → StoreScript HostRecord
  markConnected : Uuid → StoreScript Unit
  setHostOs : Uuid → Option String → StoreScript Unit
  importMovedHost : MovedHost → Uuid → StoreScript Unit
  dropMovedHost : Uuid → StoreScript Unit
  createGroup : Workspace → String → StoreScript GroupRecord
  renameGroup : Workspace → String → String → StoreScript Unit
  deleteGroup : Workspace → String → StoreScript Unit
  moveGroup : Workspace → String → Workspace → Option String → StoreScript Unit
  addKey : KeyDraft → StoreScript KeyRecord
  renameKey : Uuid → String → StoreScript Unit
  deleteKey : Uuid → StoreScript Unit
  importMovedKey : MovedKey → StoreScript Uuid
  saveTunnel : TunnelDraft → StoreScript TunnelRecord
  deleteTunnel : Uuid → StoreScript Unit
  importSet : ImportSet → StoreScript ImportOutcome
  importBackup : Backup → StoreScript ImportOutcome

structure SpaceHost where
  host : HostRecord
  space : String
deriving DecidableEq

structure SpaceHostDraft where
  draft : HostDraft
  space : Option String
deriving DecidableEq

/-- Hosts as the list shows them. -/
def hostOrder (a b : SpaceHost) : Ordering :=
  (Store.hostsInOrder a.host b.host).then (compare a.host.id.toNat b.host.id.toNat)

/-- A host caught half way is shown where it was going, and every host once. -/
def shownHosts (journal : Option Journal) (hosts : List SpaceHost) : List SpaceHost :=
  let left := fun (journal : Journal) =>
    if hosts.any fun h => h.space == journal.to_ && h.host.id == journal.targetHost then
      hosts.filter fun h => !(h.space == journal.from_ && h.host.id == journal.host)
    else hosts
  ((journal.elim hosts left).eraseDupsBy fun a b => a.host.id == b.host.id).insertionSort
    fun a b => (hostOrder a b).isLE = true

namespace Spaces

/-- A call of the store of a space. -/
def onStore {α : Type} (space : SpaceHandle) (p : StoreScript α) : SpacesScript α :=
  p.onPart (·.store space.toRegistryEntry) fun store s => s.setStore space.toRegistryEntry store

def orElse {α : Type} (e : LocalError) : Option α → SpacesScript α
  | none => fail e
  | some a => return a

/-- Something of the store of each space, one after another. -/
def gather {α : Type} (f : SpaceHandle → Store → List α) : List SpaceHandle → SpacesScript (List α)
  | [] => return []
  | space :: rest => do
      let here ← reading fun s => f space (s.store space.toRegistryEntry)
      let others ← gather f rest
      return here ++ others

/-- Something of every space, in their order. -/
def ofAll {α : Type} (f : SpaceHandle → Store → List α) : SpacesScript (List α) := do
  gather f (← get).inner.all

/-- The spaces whose store has something. -/
def having (has : Store → Bool) : SpacesScript (List SpaceHandle) :=
  ofAll fun space store => if has store then [space] else []

/-- The first space whose store has something; the others are not asked. -/
def firstHaving (has : Store → Bool) : List SpaceHandle → SpacesScript (Option SpaceHandle)
  | [] => return none
  | space :: rest => do
      if ← reading fun s => has (s.store space.toRegistryEntry) then return some space
      else firstHaving has rest

def listHosts : SpacesScript (List SpaceHost) := do
  let hosts ← ofAll fun space store => store.listHosts.map fun host => ({ host, space := space.id } : SpaceHost)
  return shownHosts (← get).inner.journal hosts

/-- Where a host that is half way to another server lives. -/
def arrivedSpace (id : Uuid) (found : Option SpaceHandle) : Inner → Option SpaceHandle := fun inner =>
  match inner.journal, found with
  | some journal, some space =>
      if journal.host = id ∧ journal.targetHost = id ∧ space.id = journal.from_ then inner.get journal.to_
      else none
  | _, _ => none

def hostSpace (id : Uuid) : SpacesScript (Option SpaceHandle) := do
  let found ← firstHaving (fun store => (store.getHost id).isSome) (← get).inner.all
  match arrivedSpace id found (← get).inner with
  | none => return found
  | some target => do
      if ← reading fun s => ((s.store target.toRegistryEntry).getHost id).isSome then return some target
      else return found

/-- The space a host that is there lives in. -/
def homeOf (id : Uuid) : SpacesScript SpaceHandle := do
  orElse (.unknownHost id) (← hostSpace id)

def defaultFor (workspace : Workspace) : SpacesScript SpaceHandle := do
  let inner := (← get).inner
  let id := match workspace with
    | .private_ => inner.defaults.private_
    | .business => inner.defaults.business
  orElse unknownSpace ((inner.get id).or inner.all.head?)

variable (calls : StoreCalls)

/-- Whether the host of a note is in the store it was going to. A note that names one server
twice would take the host away from the only place it is in. -/
def arrived (journal : Journal) : SpacesScript Bool := do
  match (← get).inner.get journal.to_ with
  | none => return false
  | some target =>
      if journal.from_ = journal.to_ then return false
      else reading fun s => ((s.store target.toRegistryEntry).getHost journal.targetHost).isSome

def letGo (journal : Journal) : SpacesScript Unit := do
  match (← get).inner.get journal.from_ with
  | none => return ()
  | some source => onStore source (calls.dropMovedHost journal.host)

/-- Finish or forget a move that was interrupted. If the host arrived, the source lets go of it; if
it did not, it never left. -/
def recover : SpacesScript Unit := do
  match (← get).inner.journal with
  | none => return ()
  | some journal => do
      if ← arrived journal then letGo calls journal
      set fun inner => { inner with journal := none }
      persist

def freshId : SpacesScript Uuid := do
  let draws : Draws ← query SpacesAsk.draws
  orElse .device (draws.id 0)

/-- The id a host gets in the store it moves to: its own, unless a row there already holds that. -/
def movedId (target : SpaceHandle) (id : Uuid) : SpacesScript Uuid := do
  if ← reading fun s => ((s.store target.toRegistryEntry).hostRow id).isNone then return id
  else freshId

def note (journal : Option Journal) : SpacesScript Unit := do
  set fun inner => { inner with journal }
  persist

/-- A host that was read out goes to its target: noted before the target is written, and the note gone
after the source was cleaned up. -/
def handOver (id : Uuid) (source target : SpaceHandle) (moved : MovedHost) : SpacesScript Uuid := do
  let targetHost ← movedId target id
  note (some { host := id, targetHost, from_ := source.id, to_ := target.id })
  match ← (onStore target (calls.importMovedHost moved targetHost)).attempt with
  | .error e => do
      note none
      fail e
  | .ok () => do
      onStore source (calls.dropMovedHost id)
      note none
      return targetHost

def carry (id : Uuid) (from_ to_ : String) : SpacesScript Uuid := do
  let source ← getSpace from_
  let target ← getSpace to_
  -- Leaving a space is a write there as much as arriving is here.
  writable source
  writable target
  let exported ← reading fun s => (s.store source.toRegistryEntry).exportMovedHost id
  let moved ← ofExcept exported
  if moved.password.isSome || moved.key.isSome then requireOpen target.toRegistryEntry
  handOver calls id source target moved

/-- The move itself, once what was begun before is finished or forgotten. -/
def moveBetween (id : Uuid) (from_ to_ : String) : SpacesScript Uuid := do
  recover calls
  carry calls id from_ to_

def spacesWithKey (id : Uuid) : SpacesScript (List SpaceHandle) := having fun store => (store.getKey id).isSome

/-- The id a key has in a space, copied there from the one that has it when it is missing. -/
def keyIn (key : Uuid) (target : SpaceHandle) : SpacesScript Uuid := do
  if ← reading fun s => ((s.store target.toRegistryEntry).getKey key).isSome then return key
  else do
    let source ← orElse (.invalid "keyId" "unknown") (← spacesWithKey key).head?
    let exported ← reading fun s => (s.store source.toRegistryEntry).exportMovedKey key
    let moved ← ofExcept exported
    onStore target (calls.importMovedKey moved)

/-- The space a draft goes to, moving the host there if it lives in another. -/
def saveTarget (draft : HostDraft) (space : Option String) : SpacesScript (HostDraft × SpaceHandle) := do
  match draft.id, space with
  | some id, _ => do
      let current ← homeOf id
      writable current
      match space.filter fun space => space != current.id with
      | none => return (draft, current)
      | some to_ => do
          let moved ← moveBetween calls id current.id to_
          let target ← getSpace to_
          return ({ draft with id := some moved }, target)
  | none, some space => do
      let target ← getSpace space
      return (draft, target)
  | none, none => do
      let target ← defaultFor (draft.workspace.getD .private_)
      return (draft, target)

/-- A key that only lives on another server comes along. -/
def withKeyIn (draft : HostDraft) (target : SpaceHandle) : SpacesScript HostDraft :=
  match draft.keyId with
  | none => return draft
  | some key => do
      let here ← keyIn calls key target
      return { draft with keyId := some here }

/-- The last place taken in the group of a host, by another host. -/
def lastPlace (host : HostRecord) (hosts : List SpaceHost) : Option Int64 :=
  ((hosts.filter fun other => other.host.id != host.id && other.host.workspace == host.workspace &&
    other.host.groupPath == host.groupPath).map (·.host.position)).max?

/-- A new host goes to the end of its group, across every server. -/
def placeLast (target : SpaceHandle) (host : HostRecord) : SpacesScript HostRecord := do
  match (lastPlace host (← listHosts)).filter fun last => host.position ≤ last with
  | none => return host
  | some last => onStore target (calls.placeHost host.id none (last + 1))

/-- What a draft names has to be there. -/
def knownSpace (space : Option String) : SpacesScript Unit := do
  let inner := (← get).inner
  if space.all fun id => (inner.get id).isSome then return () else fail unknownSpace

/-- Write a draft into its space. -/
def saveIn (draft : HostDraft) (target : SpaceHandle) : SpacesScript SpaceHost := do
  writable target
  let draft ← withKeyIn calls draft target
  let host ← onStore target (calls.saveHost draft)
  if draft.id.isSome then return { host, space := target.id }
  else do
    let host ← placeLast calls target host
    return { host, space := target.id }

/-- Save the host form. Refused before anything moves, not after. -/
def saveHost (wanted : SpaceHostDraft) : SpacesScript SpaceHost := do
  let draft ← ofExcept wanted.draft.validated
  knownSpace wanted.space
  let (draft, target) ← saveTarget calls draft wanted.space
  saveIn calls draft target

def deleteHost (id : Uuid) : SpacesScript Unit := do
  let space ← homeOf id
  writable space
  onStore space (calls.deleteHost id)

def setHostPassword (id : Uuid) (change : PasswordChange) : SpacesScript SpaceHost := do
  let space ← homeOf id
  writable space
  let host ← onStore space (calls.setHostPassword id change)
  return { host, space := space.id }

/-- A call of the store a host lives in. In a team that is only read, nothing is noted: nobody else
would ever see it. -/
def noteOnHost (id : Uuid) (p : StoreScript Unit) : SpacesScript Unit := do
  let space ← homeOf id
  if space.readOnly then return () else onStore space p

def markConnected (id : Uuid) : SpacesScript Unit := noteOnHost id (calls.markConnected id)

def setHostOs (id : Uuid) (os : Option String) : SpacesScript Unit := noteOnHost id (calls.setHostOs id os)

def moveHostTo (id : Uuid) (to_ : String) : SpacesScript Uuid := do
  let current ← homeOf id
  if current.id = to_ then return id else moveBetween calls id current.id to_

/-- The place of a host of a group into which another is put at `at_`. -/
def placeBeside (at_ index : ℕ) : Int64 := .ofNat (if at_ ≤ index then index + 1 else index)

/-- Number the hosts of a group from where one was put in. A host in a team that is only read keeps
the place the team gave it. -/
def renumber (at_ : ℕ) : ℕ → List SpaceHost → SpacesScript Unit
  | _, [] => return ()
  | index, other :: rest => do
      if other.host.position = placeBeside at_ index then renumber at_ (index + 1) rest
      else
        match ((← get).inner.get other.space).filter fun space => !space.readOnly with
        | none => renumber at_ (index + 1) rest
        | some space => do
            let _ ← onStore space (calls.placeHost other.host.id none (placeBeside at_ index))
            renumber at_ (index + 1) rest

/-- Put a host into a workspace and group, before another host of that group or at its end. -/
def moveHost (id : Uuid) (to_ : Workspace) (group : Option String) (before : Option Uuid) :
    SpacesScript SpaceHost := do
  let space ← homeOf id
  writable space
  let group ← ofExcept (groupName group)
  let members := (← listHosts).filter fun other =>
    other.host.id != id && other.host.workspace == to_ && other.host.groupPath == group
  let at_ := (before.bind fun before => members.findIdx? fun other => other.host.id == before).getD members.length
  let host ← onStore space (calls.placeHost id (some (to_, group)) (.ofNat at_))
  renumber calls at_ 0 members
  return { host, space := space.id }

def hasGroup (workspace : Workspace) (name : String) (store : Store) : Bool :=
  store.listGroups.any fun group => group.workspace == workspace && group.name == name

/-- A group is one thing wherever it is: changing it on some servers and not in a team that is only
read would make two of it. -/
def spacesWithGroup (workspace : Workspace) (name : String) : SpacesScript (List SpaceHandle) := do
  let found ← having (hasGroup workspace name)
  if found.isEmpty then fail (.invalid "groupPath" "unknown")
  else if found.any (·.readOnly) then fail (.invalid "space" "read-only")
  else return found

def onEach (p : StoreScript Unit) : List SpaceHandle → SpacesScript Unit
  | [] => return ()
  | space :: rest => do
      onStore space p
      onEach p rest

def createGroup (workspace : Workspace) (name : String) : SpacesScript GroupRecord := do
  let wanted ← ofExcept (groupName (some name))
  let wanted ← orElse (.invalid "groupPath" "required") wanted
  if (← having (hasGroup workspace wanted)).isEmpty then
    let space ← defaultFor workspace
    onStore space (calls.createGroup workspace wanted)
  else fail (.invalid "groupPath" "exists")

def renameGroup (workspace : Workspace) (from_ to_ : String) : SpacesScript Unit := do
  onEach (calls.renameGroup workspace from_ to_) (← spacesWithGroup workspace from_)

def deleteGroup (workspace : Workspace) (name : String) : SpacesScript Unit := do
  onEach (calls.deleteGroup workspace name) (← spacesWithGroup workspace name)

def moveGroup (workspace : Workspace) (name : String) (to_ : Workspace) (before : Option String) :
    SpacesScript Unit := do
  onEach (calls.moveGroup workspace name to_ before) (← spacesWithGroup workspace name)

/-- The main server, as a space. -/
def mainSpace : SpacesScript SpaceHandle := do
  let entry ← mainEntry
  return (← get).inner.handle entry

def addKey (draft : KeyDraft) : SpacesScript KeyRecord := do
  onStore (← mainSpace) (calls.addKey draft)

/-- A key is changed wherever it may be; one that is only in teams that are only read is not. -/
def onKey (p : StoreScript Unit) (spaces : List SpaceHandle) : SpacesScript Unit := do
  if spaces.all (·.readOnly) then fail (.invalid "space" "read-only")
  else onEach p (spaces.filter fun space => !space.readOnly)

def renameKey (id : Uuid) (label : String) : SpacesScript Unit := do
  let spaces ← spacesWithKey id
  if spaces.isEmpty then fail (.unknownKey id) else onKey (calls.renameKey id label) spaces

/-- How many hosts on every server use a key, if there is one. -/
def keyUses (id : Uuid) : SpacesScript (Option ℕ) := do
  let uses ← ofAll fun _ store => ((store.getKey id).map (·.hosts)).toList
  return if uses.isEmpty then none else some uses.sum

/-- Delete a key everywhere. Refused while a host on any server uses it. -/
def deleteKey (id : Uuid) : SpacesScript Unit := do
  let hosts ← orElse (.unknownKey id) (← keyUses id)
  if 0 < hosts then fail (.keyInUse hosts) else onKey (calls.deleteKey id) (← spacesWithKey id)

def tunnelSpace (id : Uuid) : SpacesScript (Option SpaceHandle) := do
  firstHaving (fun store => (store.getTunnel id).isSome) (← get).inner.all

/-- A tunnel is saved where its host is. -/
def saveTunnel (draft : TunnelDraft) : SpacesScript TunnelRecord := do
  let space ← homeOf draft.hostId
  writable space
  onStore space (calls.saveTunnel draft)

def deleteTunnel (id : Uuid) : SpacesScript Unit := do
  let space ← orElse (.invalid "tunnel" "unknown") (← tunnelSpace id)
  writable space
  onStore space (calls.deleteTunnel id)

/-- Where what an import holds goes. -/
def destinations : SpacesScript Destinations := do
  let private_ ← defaultFor .private_
  let business ← defaultFor .business
  let inner := (← get).inner
  let hosts ← listHosts
  return {
    defaultFor := fun workspace => match workspace with
      | .private_ => private_.id
      | .business => business.id
    main := inner.main
    owners := hosts.map fun h => (hostMatch h.host.address h.host.port h.host.username, h.space)
    teams := (inner.all.filter fun space => !space.isServer).map (·.id) }

/-- Hand each part of an import to its store. -/
def importParts {α : Type} (p : α → StoreScript ImportOutcome) (total : ImportOutcome) :
    Parts α → SpacesScript ImportOutcome
  | [] => return total
  | part :: rest => do
      let space ← getSpace part.1
      let outcome ← onStore space (p part.2)
      importParts p (total.add outcome) rest

/-- Write an import: with one space, there is nothing to divide. -/
def importSet (set : ImportSet) : SpacesScript ImportOutcome := do
  match (← get).inner.all with
  | [only] => onStore only (calls.importSet set)
  | _ => do
      let to_ ← destinations
      importParts calls.importSet { hostsSkipped := set.inTeams to_ } (set.parts to_)

def importBackup (backup : Backup) : SpacesScript ImportOutcome := do
  match (← get).inner.all with
  | [only] => onStore only (calls.importBackup backup)
  | _ => do
      let to_ ← destinations
      importParts calls.importBackup { hostsSkipped := backup.inTeams to_ } (backup.parts to_)

/-- A key a server showed in the last connection attempt. -/
structure ObservedHostKey where
  algorithm : String
  fingerprint : String
  publicKey : String
deriving DecidableEq

/-- The spaces that hold a host at this address and port, as the list of hosts has them. -/
def spacesOfAddress (address : String) (port : UInt16) (hosts : List SpaceHost) : List String :=
  ((hosts.filter fun h => normalise h.host.address == normalise address && h.host.port == port).map
    (·.space)).eraseDups

def getSpaces : List String → SpacesScript (List SpaceHandle)
  | [] => return []
  | id :: rest => do
      let space ← getSpace id
      let others ← getSpaces rest
      return space :: others

/-- The spaces that hold a host at this address and port, or the main one when none does. -/
def storesOfAddress (address : String) (port : UInt16) : SpacesScript (List SpaceHandle) := do
  let stores ← getSpaces (spacesOfAddress address port (← listHosts))
  if stores.isEmpty then return [← mainSpace] else return stores

/-- Whether a store trusts another key for an address. -/
def replacing (address : String) (port : UInt16) (fingerprint : String) : List SpaceHandle → SpacesScript Bool
  | [] => return false
  | space :: rest => do
      let here ← reading fun s => ((s.store space.toRegistryEntry).knownHost address port).any fun known =>
        known.fingerprint != fingerprint
      let others ← replacing address port fingerprint rest
      return here || others

def trustIn (address : String) (port : UInt16) (key : ObservedHostKey) : List SpaceHandle → SpacesScript Unit
  | [] => return ()
  | space :: rest => do
      transact space.toRegistryEntry fun draws store => (draws.id 0).elim (.error .device) fun id =>
        .ok (store.trustHostKey id (draws.now 0) address port key.algorithm key.fingerprint key.publicKey)
      trustIn address port key rest

/-- Trust the key the server at an address just presented, wherever there is a host at it. Replacing
a key that was already trusted needs the user's explicit word. -/
def trustHostKey (presented : Option ObservedHostKey) (address : String) (port : UInt16) (fingerprint : String)
    (replace : Bool) : SpacesScript (Except String Unit) := do
  match presented.filter fun key => key.fingerprint == fingerprint with
  | none => return .error "this key was not presented by the server in the last connection attempt"
  | some key => do
      let stores ← storesOfAddress address port
      if (← replacing address port fingerprint stores) && !replace then
        return .error "replacing a trusted host key needs the user's confirmation"
      else do
        trustIn address port key stores
        return .ok ()

end Spaces

/-- What a user can do to records. -/
inductive RecordOp
  | saveHost (wanted : SpaceHostDraft)
  | deleteHost (id : Uuid)
  | setHostPassword (id : Uuid) (change : PasswordChange)
  | markConnected (id : Uuid)
  | setHostOs (id : Uuid) (os : Option String)
  | moveHostTo (id : Uuid) (to_ : String)
  | moveHost (id : Uuid) (to_ : Workspace) (group : Option String) (before : Option Uuid)
  | createGroup (workspace : Workspace) (name : String)
  | renameGroup (workspace : Workspace) (from_ to_ : String)
  | deleteGroup (workspace : Workspace) (name : String)
  | moveGroup (workspace : Workspace) (name : String) (to_ : Workspace) (before : Option String)
  | addKey (draft : KeyDraft)
  | renameKey (id : Uuid) (label : String)
  | deleteKey (id : Uuid)
  | saveTunnel (draft : TunnelDraft)
  | deleteTunnel (id : Uuid)
  | importSet (set : ImportSet)
  | importBackup (backup : Backup)
  | trustHostKey (presented : Option Spaces.ObservedHostKey) (address : String) (port : UInt16)
      (fingerprint : String) (replace : Bool)

/-- A call whose answer nobody looks at. -/
def Spaces.callOnly {α : Type} (p : SpacesScript α) : SpacesScript Unit := do
  let _ ← p
  return ()

def RecordOp.run (calls : StoreCalls) : RecordOp → SpacesScript Unit
  | saveHost wanted => Spaces.callOnly (Spaces.saveHost calls wanted)
  | deleteHost id => Spaces.deleteHost calls id
  | setHostPassword id change => Spaces.callOnly (Spaces.setHostPassword calls id change)
  | markConnected id => Spaces.markConnected calls id
  | setHostOs id os => Spaces.setHostOs calls id os
  | moveHostTo id to_ => Spaces.callOnly (Spaces.moveHostTo calls id to_)
  | moveHost id to_ group before => Spaces.callOnly (Spaces.moveHost calls id to_ group before)
  | createGroup workspace name => Spaces.callOnly (Spaces.createGroup calls workspace name)
  | renameGroup workspace from_ to_ => Spaces.renameGroup calls workspace from_ to_
  | deleteGroup workspace name => Spaces.deleteGroup calls workspace name
  | moveGroup workspace name to_ before => Spaces.moveGroup calls workspace name to_ before
  | addKey draft => Spaces.callOnly (Spaces.addKey calls draft)
  | renameKey id label => Spaces.renameKey calls id label
  | deleteKey id => Spaces.deleteKey calls id
  | saveTunnel draft => Spaces.callOnly (Spaces.saveTunnel calls draft)
  | deleteTunnel id => Spaces.deleteTunnel calls id
  | importSet set => Spaces.callOnly (Spaces.importSet calls set)
  | importBackup backup => Spaces.callOnly (Spaces.importBackup calls backup)
  | trustHostKey presented address port fingerprint replace =>
      Spaces.callOnly (Spaces.trustHostKey presented address port fingerprint replace)

end UwuSsh

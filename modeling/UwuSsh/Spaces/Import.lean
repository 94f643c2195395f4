import UwuSsh.Store.Import

/-!
An import, and how it is divided among several stores. Each host goes to the store that has it
already, where it will be skipped, or to the default one of its workspace, and takes its login
and key along; one that a team has is left to the team. What no host needs goes to the main
store, and trusted host keys go wherever anything goes.
-/
namespace UwuSsh

open Text

def ImportSet.trusting (part : ImportSet) (known : List KnownHostInput) : ImportSet :=
  { part with knownHosts := part.knownHosts ++ known }

def ImportOutcome.add (total part : ImportOutcome) : ImportOutcome where
  hostsAdded := total.hostsAdded + part.hostsAdded
  hostsSkipped := total.hostsSkipped + part.hostsSkipped
  identitiesAdded := total.identitiesAdded + part.identitiesAdded
  keysAdded := total.keysAdded + part.keysAdded
  knownHostsAdded := total.knownHostsAdded + part.knownHostsAdded
  snippetsAdded := total.snippetsAdded + part.snippetsAdded
  tunnelsAdded := total.tunnelsAdded + part.tunnelsAdded

structure BackupHost where
  name : String
  address : String
  port : UInt16
  username : String
  workspace : Workspace
  group : Option String
  position : Int64
  auth : AuthMethod
  keyPath : Option String
  /-- Index into the keys of the backup. -/
  key : Option ℕ
  password : Option String
deriving DecidableEq

structure BackupKey where
  label : String
  keyType : String
  publicKey : String
  privateKey : Option String
  passphrase : Option String
deriving DecidableEq

structure BackupTunnel where
  /-- Index into the hosts of the backup. -/
  host : ℕ
  name : String
  kind : String
  bindAddress : String
  bindPort : UInt16
  targetHost : String
  targetPort : UInt16
  autostart : Bool
deriving DecidableEq

/-- Everything on every server, as an export file holds it. -/
structure Backup where
  groups : List GroupInput := []
  hosts : List BackupHost := []
  keys : List BackupKey := []
  knownHosts : List KnownHostInput := []
  snippets : List SnippetInput := []
  tunnels : List BackupTunnel := []
deriving DecidableEq

def Backup.trusting (part : Backup) (known : List KnownHostInput) : Backup :=
  { part with knownHosts := part.knownHosts ++ known }

/-- What two hosts have in common when an import takes them for one. -/
def hostMatch (address : String) (port : UInt16) (username : String) : String × UInt16 × String :=
  (asciiLower (trim address), port, trim username)

/-- Parts of an import by the space each goes to. -/
abbrev Parts (α : Type) := List (String × α)

namespace Parts

variable {α : Type} {ids : String → Prop}

/-- Change the part of a space, which is empty until then. -/
def change (blank : α) (id : String) (f : α → α) : Parts α → Parts α
  | [] => [(id, f blank)]
  | part :: rest => if part.1 = id then (id, f part.2) :: rest else part :: change blank id f rest

/-- The parts, in the order of their ids. -/
def inOrder (parts : Parts α) : Parts α := parts.insertionSort fun a b => (compare a.1 b.1).isLE = true

/-- Parts go to these spaces alone. -/
def To (ids : String → Prop) (parts : Parts α) : Prop := ∀ part ∈ parts, ids part.1

theorem To.nil : To ids ([] : Parts α) := nofun

theorem To.change {parts : Parts α} (h : parts.To ids) {blank : α} {id : String} {f : α → α} (hid : ids id) :
    (parts.change blank id f).To ids := by
  induction parts with
  | nil =>
    intro part hmem
    rw [List.mem_singleton.mp hmem]
    exact hid
  | cons head rest ih =>
    have hhead : ids head.1 := h head List.mem_cons_self
    have hrest : To ids rest := fun part hmem => h part (List.mem_cons_of_mem _ hmem)
    unfold Parts.change
    split
    · intro part hmem
      rcases List.mem_cons.mp hmem with heq | hmem
      · rw [heq]
        exact hid
      · exact hrest part hmem
    · intro part hmem
      rcases List.mem_cons.mp hmem with heq | hmem
      · rw [heq]
        exact hhead
      · exact ih hrest part hmem

theorem To.map {β : Type} {parts : Parts α} (h : parts.To ids) (f : α → β) :
    To ids (parts.map fun part => (part.1, f part.2)) := by
  intro part hmem
  obtain ⟨old, hold, heq⟩ := List.mem_map.mp hmem
  rw [← heq]
  exact h old hold

theorem To.inOrder {parts : Parts α} (h : parts.To ids) : parts.inOrder.To ids :=
  fun part hmem => h part ((List.mem_insertionSort _).mp hmem)

theorem To.foldl {β : Type} (step : Parts α → β → Parts α)
    (hstep : ∀ parts b, To ids parts → To ids (step parts b)) (l : List β) {parts : Parts α} (h : To ids parts) :
    To ids (l.foldl step parts) := by
  induction l generalizing parts with
  | nil => exact h
  | cons b rest ih => exact ih (hstep parts b h)

end Parts

/-- Where what an import holds goes. -/
structure Destinations where
  defaultFor : Workspace → String
  main : String
  /-- The hosts there are, each with the space it is in, the first one first. -/
  owners : List ((String × UInt16 × String) × String)
  teams : List String

namespace Destinations

variable (to_ : Destinations)

def ofHost (address : String) (port : UInt16) (username : String) (workspace : Workspace) : String :=
  (to_.owners.lookup (hostMatch address port username)).getD (to_.defaultFor workspace)

end Destinations

/-- What of an import goes to one store, with where the logins and keys ended up in it. -/
structure ImportPart where
  set : ImportSet := {}
  identities : List (ℕ × ℕ) := []
  keys : List (ℕ × ℕ) := []

namespace ImportPart

/-- A key of the file, at its place in this part. -/
def withKey (keys : List KeyInput) (key : ℕ) (part : ImportPart) : ImportPart × ℕ :=
  match part.keys.lookup key, keys[key]? with
  | some place, _ => (part, place)
  | none, none => (part, 0)
  | none, some input =>
      ({ part with
         set := { part.set with keys := part.set.keys ++ [input] }
         keys := (key, part.set.keys.length) :: part.keys }, part.set.keys.length)

/-- A login of the file, at its place in this part. -/
def withIdentity (keys : List KeyInput) (index : ℕ) (identity : IdentityInput) (part : ImportPart) :
    ImportPart × ℕ :=
  match part.identities.lookup index with
  | some place => (part, place)
  | none =>
      let (part, key) : ImportPart × Option ℕ := match identity.key.filter (· < keys.length) with
        | none => (part, none)
        | some key => (part.withKey keys key).map id some
      let place := part.set.identities.length
      ({ part with
         set := { part.set with identities := part.set.identities ++ [{ identity with key }] }
         identities := (index, place) :: part.identities }, place)

def withHost (set : ImportSet) (host : HostInput) (part : ImportPart) : ImportPart :=
  let login := host.identity.bind fun index => set.identities[index]?.map fun identity => (index, identity)
  let (part, identity) : ImportPart × Option ℕ := match login with
    | none => (part, none)
    | some (index, identity) => (part.withIdentity set.keys index identity).map id some
  { part with set := { part.set with hosts := part.set.hosts ++ [{ host with identity }] } }

end ImportPart

namespace ImportSet

variable (to_ : Destinations) (set : ImportSet)

/-- The space a host of the set goes to. -/
def target (host : HostInput) : String :=
  let identity := host.identity.bind fun index => set.identities[index]?
  to_.ofHost host.address host.port ((identity.bind (·.username)).getD "") host.workspace

/-- One host of the set; nothing of an import goes to a team. -/
def divide (parts : Parts ImportPart) (host : HostInput) : Parts ImportPart :=
  if to_.teams.contains (set.target to_ host) then parts
  else parts.change {} (set.target to_ host) (·.withHost set host)

def inTeams : ℕ := (set.hosts.filter fun host => to_.teams.contains (set.target to_ host)).length

/-- Keys no login of the file points at. -/
def looseKeys : List KeyInput :=
  (set.keys.zipIdx.filter fun e => !set.identities.any fun identity => identity.key == some e.2).map (·.1)

def addGroup (parts : Parts ImportSet) (group : GroupInput) : Parts ImportSet :=
  parts.change {} (to_.defaultFor group.workspace) fun part => { part with groups := part.groups ++ [group] }

def parts : Parts ImportSet :=
  let hosts := set.hosts.foldl (set.divide to_) []
  let sets : Parts ImportSet := hosts.map fun part => (part.1, part.2.set)
  let groups := set.groups.foldl (addGroup to_) sets
  let loose : Parts ImportSet := groups.change {} to_.main fun part =>
    { part with keys := part.keys ++ set.looseKeys, snippets := part.snippets ++ set.snippets }
  Parts.inOrder (loose.map fun part => (part.1, part.2.trusting set.knownHosts))

end ImportSet

/-- What of a backup goes to one store, with where its keys ended up in it. -/
structure BackupPart where
  set : Backup := {}
  keys : List (ℕ × ℕ) := []

/-- A key of the file, at its place in this part. -/
def BackupPart.withKey (keys : List BackupKey) (key : ℕ) (part : BackupPart) : BackupPart × ℕ :=
  match part.keys.lookup key, keys[key]? with
  | some place, _ => (part, place)
  | none, none => (part, 0)
  | none, some input =>
      ({ set := { part.set with keys := part.set.keys ++ [input] }
         keys := (key, part.set.keys.length) :: part.keys }, part.set.keys.length)

def BackupPart.withHost (keys : List BackupKey) (host : BackupHost) (part : BackupPart) : BackupPart :=
  let (part, key) : BackupPart × Option ℕ := match host.key.filter (· < keys.length) with
    | none => (part, none)
    | some key => (part.withKey keys key).map id some
  { part with set := { part.set with hosts := part.set.hosts ++ [{ host with key }] } }

/-- What the hosts of a backup make of it so far. -/
structure Division where
  parts : Parts BackupPart := []
  /-- Where each host of the file went: its space and its index there, unless a team has it. -/
  hostAt : List (Option (String × ℕ)) := []

namespace Backup

variable (to_ : Destinations) (backup : Backup)

def target (host : BackupHost) : String := to_.ofHost host.address host.port host.username host.workspace

def inTeams : ℕ := (backup.hosts.filter fun host => to_.teams.contains (target to_ host)).length

/-- Keys no host that is taken uses. -/
def looseKeys : List BackupKey :=
  let used := (backup.hosts.filter fun host => !to_.teams.contains (target to_ host)).filterMap (·.key)
  (backup.keys.zipIdx.filter fun e => !used.contains e.2).map (·.1)

/-- One host of the file. -/
def divide (division : Division) (host : BackupHost) : Division :=
  let id := target to_ host
  if to_.teams.contains id then { division with hostAt := division.hostAt ++ [none] }
  else
    let parts := division.parts.change {} id (·.withHost backup.keys host)
    let hosts := ((parts.lookup id).map (·.set.hosts.length)).getD 0
    { parts, hostAt := division.hostAt ++ [some (id, hosts - 1)] }

/-- A tunnel goes where its host went. -/
def divideTunnel (hostAt : List (Option (String × ℕ))) (parts : Parts Backup) (tunnel : BackupTunnel) :
    Parts Backup :=
  match hostAt[tunnel.host]?.join with
  | none => parts
  | some (id, index) =>
      parts.change {} id fun part => { part with tunnels := part.tunnels ++ [{ tunnel with host := index }] }

def addGroup (parts : Parts Backup) (group : GroupInput) : Parts Backup :=
  parts.change {} (to_.defaultFor group.workspace) fun part => { part with groups := part.groups ++ [group] }

def parts : Parts Backup :=
  let division := backup.hosts.foldl (backup.divide to_) {}
  let sets : Parts Backup := division.parts.map fun part => (part.1, part.2.set)
  let tunnels := backup.tunnels.foldl (divideTunnel division.hostAt) sets
  let groups := backup.groups.foldl (addGroup to_) tunnels
  let loose : Parts Backup := groups.change {} to_.main fun part =>
    { part with keys := part.keys ++ backup.looseKeys to_, snippets := backup.snippets }
  Parts.inOrder (loose.map fun part => (part.1, part.2.trusting backup.knownHosts))

end Backup

/-- What goes to a team is left out, and everything else goes to a default space, to the main one, or
to one that has the host. -/
structure Destinations.In (to_ : Destinations) (ids : String → Prop) : Prop where
  defaultFor : ∀ workspace, ids (to_.defaultFor workspace)
  main : ids to_.main
  owners : ∀ owner ∈ to_.owners, owner.2 ∉ to_.teams → ids owner.2

section divided

variable {to_ : Destinations} {ids : String → Prop} (h : to_.In ids)
include h

theorem Destinations.In.ofHost {address : String} {port : UInt16} {username : String} {workspace : Workspace}
    (hteam : to_.ofHost address port username workspace ∉ to_.teams) :
    ids (to_.ofHost address port username workspace) := by
  unfold Destinations.ofHost at hteam ⊢
  cases hlookup : to_.owners.lookup (hostMatch address port username) with
  | none => exact h.defaultFor workspace
  | some id =>
    rw [hlookup] at hteam
    obtain ⟨before, rest, hsplit, _⟩ := List.lookup_eq_some_iff.mp hlookup
    exact h.owners (hostMatch address port username, id) (by simp [hsplit]) hteam

theorem ImportSet.divide_to (set : ImportSet) {parts : Parts ImportPart} (hparts : parts.To ids)
    (host : HostInput) : (set.divide to_ parts host).To ids := by
  unfold ImportSet.divide
  split
  · exact hparts
  · next hteam => exact hparts.change (h.ofHost (by simpa [ImportSet.target] using hteam))

/-- Nothing of an import goes anywhere but to the spaces that may take it. -/
theorem ImportSet.parts_to (set : ImportSet) : (set.parts to_).To ids := by
  have hhosts : (set.hosts.foldl (set.divide to_) []).To ids :=
    Parts.To.foldl _ (fun _ host hparts => set.divide_to h hparts host) set.hosts Parts.To.nil
  have hgroups := Parts.To.foldl (addGroup to_) (fun _ group hparts => hparts.change (h.defaultFor group.workspace))
    set.groups (hhosts.map ImportPart.set)
  exact ((hgroups.change h.main).map (·.trusting set.knownHosts)).inOrder

/-- Hosts divided so far went to spaces that take them. -/
structure Division.To (ids : String → Prop) (division : Division) : Prop where
  parts : division.parts.To ids
  hostAt : ∀ place ∈ division.hostAt, ∀ at_, place = some at_ → ids at_.1

omit h in
theorem Division.To.tunnel {division : Division} (hto : division.To ids) {parts : Parts Backup}
    (hparts : parts.To ids) (tunnel : BackupTunnel) :
    (Backup.divideTunnel division.hostAt parts tunnel).To ids := by
  unfold Backup.divideTunnel
  cases hat : division.hostAt[tunnel.host]? with
  | none => exact hparts
  | some place =>
    cases place with
    | none => exact hparts
    | some at_ => exact hparts.change (hto.hostAt (some at_) (List.mem_of_getElem? hat) at_ rfl)

theorem Backup.divide_to (backup : Backup) {division : Division} (hto : division.To ids) (host : BackupHost) :
    (backup.divide to_ division host).To ids := by
  unfold Backup.divide
  dsimp only
  split
  · refine ⟨hto.parts, fun place hmem at_ hat => ?_⟩
    rcases List.mem_append.mp hmem with hmem | hmem
    · exact hto.hostAt place hmem at_ hat
    · rw [List.mem_singleton.mp hmem] at hat
      cases hat
  · next hteam =>
    have hid : ids (Backup.target to_ host) := h.ofHost (by simpa [Backup.target] using hteam)
    refine ⟨hto.parts.change hid, fun place hmem at_ hat => ?_⟩
    rcases List.mem_append.mp hmem with hmem | hmem
    · exact hto.hostAt place hmem at_ hat
    · rw [List.mem_singleton.mp hmem, Option.some.injEq] at hat
      rw [← hat]
      exact hid

/-- Nothing of a backup goes anywhere but to the spaces that may take it. -/
theorem Backup.parts_to (backup : Backup) : (backup.parts to_).To ids := by
  have hdivide : ∀ (l : List BackupHost) (division : Division), division.To ids →
      (l.foldl (backup.divide to_) division).To ids := by
    intro l
    induction l with
    | nil => exact fun _ hto => hto
    | cons host rest ih => exact fun _ hto => ih _ (backup.divide_to h hto host)
  have hdivision := hdivide backup.hosts {} ⟨Parts.To.nil, nofun⟩
  have htunnels := Parts.To.foldl (divideTunnel (backup.hosts.foldl (backup.divide to_) {}).hostAt)
    (fun _ tunnel hparts => hdivision.tunnel hparts tunnel) backup.tunnels (hdivision.parts.map BackupPart.set)
  have hgroups := Parts.To.foldl (addGroup to_) (fun _ group hparts => hparts.change (h.defaultFor group.workspace))
    backup.groups htunnels
  exact ((hgroups.change h.main).map (·.trusting backup.knownHosts)).inOrder

end divided

end UwuSsh

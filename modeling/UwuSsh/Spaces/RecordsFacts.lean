import UwuSsh.Spaces.Records
import UwuSsh.Spaces.RegistryFacts

/-!
Calls on records keep out of teams that are only read. Every call is taken apart into what it
looks up and what it hands to a store; a store that is written is one the call may write, so the
files of the others stay as they are wherever the call is cut off. Two ways lead past the
check: a move that was interrupted before the team became one that is only read is finished in
it, and a host key is trusted wherever a host of its address is.
-/
namespace UwuSsh

open Script Text

/-- A team this account only reads. -/
def RegistryEntry.onlyRead (entry : RegistryEntry) : Bool :=
  !entry.isServer && !entry.role.any TeamRole.writes

theorem RegistryEntry.onlyRead_of_opened {entry : RegistryEntry} (h : entry.opened = entry)
    (hread : entry.onlyRead = true) : entry.readOnly = true := by
  cases hkind : entry.kind with
  | server => simp [onlyRead, isServer, hkind] at hread
  | team =>
    have hflag := congrArg RegistryEntry.readOnly h
    simp only [opened, hkind] at hflag
    rw [← hflag]
    simpa [onlyRead, isServer, hkind] using hread

theorem RegistryEntry.onlyRead_of_isServer {entry : RegistryEntry} (h : entry.isServer = true) :
    entry.onlyRead = false := by simp [onlyRead, h]

/-- The space a server's id names is that server. -/
theorem Inner.Sound.get_server {paths : Paths} {inner : Inner} (h : inner.Sound paths) {id : String}
    (hserver : inner.isServer id = true) : ∃ space, inner.get id = some space ∧ space.isServer = true := by
  obtain ⟨entry, hentry, hid⟩ := List.any_eq_true.mp hserver
  obtain ⟨hid, hkind⟩ := Bool.and_eq_true_iff.mp hid
  cases hget : inner.get id with
  | none =>
    have hnone := List.find?_eq_none.mp (Option.map_eq_none_iff.mp hget) entry hentry
    exact absurd hid hnone
  | some space =>
    obtain ⟨found, hfound, hfid, rfl⟩ := Inner.get_eq_some hget
    have hsame : found = entry := h.id_injective hfound hentry (hfid.trans (beq_iff_eq.mp hid).symm)
    exact ⟨_, rfl, by rwa [hsame]⟩

namespace Spaces

/-- The hosts there are, as the list shows them. -/
def hosts (s : Spaces) : List SpaceHost :=
  shownHosts s.inner.journal (s.inner.all.flatMap fun space =>
    (s.store space.toRegistryEntry).listHosts.map fun host => { host, space := space.id })

/-- The space a host lives in. -/
def home (s : Spaces) (id : Uuid) : Option SpaceHandle :=
  let has := fun (space : SpaceHandle) => ((s.store space.toRegistryEntry).getHost id).isSome
  let found := s.inner.all.find? has
  ((arrivedSpace id found s.inner).filter has).or found

/-- An interrupted move waits whose host has arrived, out of a team that is only read by now. -/
def Stranded (s : Spaces) : Prop :=
  ∃ journal source target, s.inner.journal = some journal ∧ s.inner.get journal.from_ = some source ∧
    source.onlyRead = true ∧ journal.from_ ≠ journal.to_ ∧ s.inner.get journal.to_ = some target ∧
    ((s.store target.toRegistryEntry).getHost journal.targetHost).isSome = true

/-- What a call on records leaves as it found it. -/
structure Beside (s t : Spaces) : Prop where
  paths : t.paths = s.paths
  entries : t.inner.entries = s.inner.entries
  main : t.inner.main = s.inner.main
  defaults : t.inner.defaults = s.inner.defaults
  handover : t.inner.handover = s.inner.handover
  leaving : t.inner.leaving = s.inner.leaving
  journal : ∀ journal, t.inner.journal = some journal →
    journal.from_ ≠ journal.to_ ∧ s.inner.has journal.from_ = true ∧ s.inner.has journal.to_ = true
  files : ∀ entry ∈ s.inner.entries, entry.onlyRead = true → t.files (s.path entry) = s.files (s.path entry)

namespace Beside

variable {s t : Spaces}

theorem refl (hsound : s.inner.Sound s.paths) : Beside s s :=
  ⟨rfl, rfl, rfl, rfl, rfl, rfl, hsound.journal, fun _ _ _ => rfl⟩

theorem sound (h : Beside s t) (hsound : s.inner.Sound s.paths) : t.inner.Sound t.paths where
  planned := by
    rw [h.paths, h.entries]
    exact hsound.planned
  opened := by
    rw [h.entries]
    exact hsound.opened
  whole := by
    rw [h.entries]
    exact hsound.whole
  main := by
    rw [Inner.isServer, h.entries, h.main]
    exact hsound.main
  defaults := by
    rw [Inner.isServer, Inner.isServer, h.entries, h.defaults]
    exact hsound.defaults
  journal := by
    simp only [Inner.has, h.entries]
    exact h.journal
  handover := by
    simp only [Inner.isServer, h.entries, h.handover, h.main]
    exact hsound.handover
  leaving := by
    simp only [Inner.isServer, h.entries, h.leaving]
    exact hsound.leaving

theorem mem_of_get (h : Beside s t) {id : String} {space : SpaceHandle} (hget : t.inner.get id = some space) :
    space.toRegistryEntry ∈ s.inner.entries ∧ space.id = id := by
  obtain ⟨entry, hentry, hid, rfl⟩ := Inner.get_eq_some hget
  rw [h.entries] at hentry
  exact ⟨hentry, hid⟩

theorem get (h : Beside s t) (id : String) : t.inner.get id = s.inner.get id := by
  have hhandle : t.inner.handle = s.inner.handle := by
    funext entry
    rw [Inner.handle, Inner.handle, h.main]
  rw [Inner.get, Inner.get, h.entries, hhandle]

theorem mem_of_all (h : Beside s t) (hsound : s.inner.Sound s.paths) {space : SpaceHandle}
    (hmem : space ∈ t.inner.all) : space.toRegistryEntry ∈ s.inner.entries := by
  obtain ⟨entry, hentry, rfl⟩ := (Inner.mem_all (h.sound hsound).whole).mp hmem
  rwa [h.entries] at hentry

theorem path (h : Beside s t) (entry : RegistryEntry) : t.path entry = s.path entry := by
  rw [Spaces.path, Spaces.path, h.paths]

/-- A write into a space that is not only read leaves the others as they are. -/
theorem setStore (h : Beside s t) (hsound : s.inner.Sound s.paths) {entry : RegistryEntry}
    (hmem : entry ∈ s.inner.entries) (hread : entry.onlyRead = false) (store : Store) :
    Beside s (t.setStore entry store) where
  __ := h
  files team hteam hteamRead := by
    have hne : s.path team ≠ t.path entry := by
      intro heq
      rw [h.path] at heq
      have hsame : team = entry := hsound.path_injective hteam hmem heq
      rw [hsame, hread] at hteamRead
      cases hteamRead
    have hstays : (t.setStore entry store).files (s.path team) = t.files (s.path team) :=
      Function.update_of_ne hne ..
    rw [hstays]
    exact h.files team hteam hteamRead

theorem onDisk (h : Beside s t) (disk : OnDisk) : Beside s { t with registry := disk } := { h with }

theorem asideOnDisk (h : Beside s t) : Beside s { t with aside := true, registry := .missing } := { h with }

theorem readable (h : Beside s t) : Beside s (t.edit fun inner => { inner with unreadable := false }) := { h with }

theorem noted (h : Beside s t) {journal : Option Journal} (hnote : ∀ j, journal = some j →
    j.from_ ≠ j.to_ ∧ s.inner.has j.from_ = true ∧ s.inner.has j.to_ = true) :
    Beside s (t.edit fun inner => { inner with journal }) := { h with journal := hnote }

end Beside

/-- A run is looked at for an invariant and for nothing else, whatever is answered. -/
def anyhow (inv : Spaces → Prop) : Contract Spaces SpacesAsk SpacesAnswer Unit where
  wrote _ _ _ := ()
  asked _ _ _ _ := ()
  rely _ _ _ _ := True
  allowed _ _ _ := True
  guarantee _ _ _ := True
  may _ _ _ := True
  inv _ := inv

/-- An invariant of what is in memory and in the stores: what lies in the registry, or beside it, does not
matter to it. -/
structure OffDisk (inv : Spaces → Prop) : Prop where
  onDisk : ∀ s disk, inv s → inv { s with registry := disk }
  aside : ∀ s, inv s → inv { s with aside := true, registry := .missing }
  readable : ∀ s, inv s → inv (s.edit fun inner => { inner with unreadable := false })

section persisting

variable {inv : Spaces → Prop}

theorem keeps_set {f : Inner → Inner} (h : ∀ s, inv s → inv (edit f s)) : Keeps (anyhow inv) (set f) :=
  fun _ s hinv => ⟨fun _ => ⟨trivial, h s hinv, h s hinv⟩, trivial, nofun⟩

theorem keeps_modify {e : LocalError} {f : Spaces → Spaces} (h : ∀ s, inv s → inv (f s)) :
    Keeps (anyhow inv) (modify e f : SpacesScript Unit) :=
  Keeps.modify fun _ s hinv _ => ⟨trivial, h s hinv⟩

theorem OffDisk.persist (h : OffDisk inv) : Keeps (anyhow inv) persist := by
  have hwrite : Keeps (anyhow inv) (modify .io (fun s => { s with registry := .file s.inner.file }) >>= fun _ =>
      query .folderSynced >>= fun synced => (if synced then return () else fail .io : SpacesScript Unit)) := by
    refine Keeps.bind (keeps_modify fun s hinv => h.onDisk s _ hinv) fun _ =>
      Keeps.bind (Keeps.query fun _ _ hinv => ⟨trivial, fun _ _ => hinv⟩) fun synced => ?_
    cases synced with
    | true => exact Keeps.done ()
    | false => exact Keeps.fail _
  have haside : Keeps (anyhow inv) setAside := fun _ s hinv =>
    ⟨fun _ => ⟨trivial, h.aside s hinv, h.aside s hinv⟩, hinv⟩
  unfold Spaces.persist
  refine Keeps.bind Keeps.get fun t => ?_
  split
  · exact Keeps.bind haside fun _ => Keeps.bind (keeps_set h.readable) fun _ => hwrite
  · exact hwrite

end persisting

section looks

variable {inv : Spaces → Prop}

theorem looks_query (q : SpacesAsk) :
    Looks (anyhow inv) (fun _ _ => True) (query q : SpacesScript (SpacesAnswer q)) :=
  Looks.query fun _ _ hinv => ⟨trivial, fun _ _ => hinv⟩

theorem looks_reading {α : Type} (f : Spaces → α) : Looks (anyhow inv) (fun s a => a = f s) (reading f) := by
  unfold reading
  refine Looks.bind (looks_query .reads) fun a => ?_
  cases a with
  | false => exact Looks.fail
  | true =>
    refine Looks.bind Looks.get fun t => Looks.done fun _ s _ heq _ => ?_
    rw [heq]

theorem looks_orElse {α : Type} (e : LocalError) (o : Option α) :
    Looks (anyhow inv) (fun _ a => o = some a) (orElse e o) := by
  cases o with
  | none => exact Looks.fail
  | some a => exact Looks.done fun _ _ _ => rfl

theorem looks_getSpace (id : String) :
    Looks (anyhow inv) (fun s space => s.inner.get id = some space) (getSpace id) := by
  unfold getSpace
  refine Looks.bind Looks.get fun t => ?_
  intro g s hinv
  rw [wp_ofExcept]
  cases hget : t.inner.get id with
  | none => exact ⟨hinv, rfl, nofun⟩
  | some space =>
    refine ⟨hinv, rfl, fun a ha heq => ?_⟩
    cases ha
    rw [← heq, hget]

theorem looks_writable (space : SpaceHandle) :
    Looks (anyhow inv) (fun _ _ => space.readOnly = false) (writable space) := by
  unfold writable
  split
  · exact Looks.fail
  · next hread => exact Looks.done fun _ _ _ => by simpa using hread

/-- The spaces looked through, with what was found in them. -/
theorem looks_gather {α : Type} (f : SpaceHandle → Store → List α) (spaces : List SpaceHandle) :
    Looks (anyhow inv) (fun s found => found = spaces.flatMap fun space => f space (s.store space.toRegistryEntry))
      (gather f spaces) := by
  induction spaces with
  | nil => exact Looks.done fun _ _ _ => rfl
  | cons space rest ih =>
    unfold gather
    refine Looks.bind (looks_reading _) fun here => Looks.bind ih fun others => ?_
    refine Looks.done fun _ s _ hothers hhere => ?_
    rw [hhere, hothers, List.flatMap_cons]

theorem looks_ofAll {α : Type} (f : SpaceHandle → Store → List α) :
    Looks (anyhow inv) (fun s found => found = s.inner.all.flatMap fun space => f space (s.store space.toRegistryEntry))
      (ofAll f) := by
  unfold ofAll
  refine Looks.bind Looks.get fun t => (looks_gather f t.inner.all).mono fun _ s found _ hfound heq => ?_
  rw [hfound, heq]

theorem looks_having (has : Store → Bool) :
    Looks (anyhow inv) (fun s found => ∀ space ∈ found, space ∈ s.inner.all) (having has) := by
  unfold having
  refine (looks_ofAll _).mono fun _ s found _ hfound space hmem => ?_
  rw [hfound, List.mem_flatMap] at hmem
  obtain ⟨other, hother, hmem⟩ := hmem
  split at hmem
  · rw [List.mem_singleton.mp hmem]
    exact hother
  · cases hmem

theorem looks_firstHaving (has : Store → Bool) (spaces : List SpaceHandle) :
    Looks (anyhow inv) (fun s found => found = spaces.find? fun space => has (s.store space.toRegistryEntry))
      (firstHaving has spaces) := by
  induction spaces with
  | nil => exact Looks.done fun _ _ _ => rfl
  | cons space rest ih =>
    unfold firstHaving
    refine Looks.bind (looks_reading _) fun here => ?_
    cases here with
    | true =>
      refine Looks.done fun _ s _ hhere => ?_
      rw [List.find?_cons, ← hhere]
    | false =>
      refine ih.mono fun _ s found _ hfound hhere => ?_
      rw [List.find?_cons, ← hhere]
      exact hfound

theorem looks_arrived (journal : Journal) : Looks (anyhow inv) (fun s there => there = true →
    ∃ target, s.inner.get journal.to_ = some target ∧ journal.from_ ≠ journal.to_ ∧
      ((s.store target.toRegistryEntry).getHost journal.targetHost).isSome = true) (arrived journal) := by
  unfold arrived
  refine Looks.bind Looks.get fun t => ?_
  cases htarget : t.inner.get journal.to_ with
  | none => exact Looks.done fun _ _ _ _ hthere => absurd hthere nofun
  | some target =>
    dsimp only
    split
    · exact Looks.done fun _ _ _ _ hthere => absurd hthere nofun
    · next hne =>
      refine (looks_reading _).mono fun _ s there _ hhost ht hthere => ⟨target, ?_, hne, ?_⟩
      · rw [← ht, htarget]
      · rw [← hhost, hthere]

theorem looks_listHosts : Looks (anyhow inv) (fun s found => found = s.hosts) listHosts := by
  unfold listHosts
  refine Looks.bind (looks_ofAll _) fun found => Looks.bind Looks.get fun t => ?_
  refine Looks.done fun _ s _ heq hfound => ?_
  rw [hosts, hfound, heq]

theorem looks_knownSpace (space : Option String) :
    Looks (anyhow inv) (fun s _ => space.all (fun id => (s.inner.get id).isSome) = true) (knownSpace space) := by
  unfold knownSpace
  refine Looks.bind Looks.get fun t => ?_
  dsimp only
  split
  · next hknown => exact Looks.done fun _ s _ ht => ht ▸ hknown
  · exact Looks.fail

theorem looks_replacing (address : String) (port : UInt16) (fingerprint : String) (spaces : List SpaceHandle) :
    Looks (anyhow inv) (fun s found => found = spaces.any fun space =>
      ((s.store space.toRegistryEntry).knownHost address port).any fun known => known.fingerprint != fingerprint)
      (replacing address port fingerprint spaces) := by
  induction spaces with
  | nil => exact Looks.done fun _ _ _ => rfl
  | cons space rest ih =>
    refine Looks.bind (looks_reading _) fun here => Looks.bind ih fun others => ?_
    refine Looks.done fun _ s _ hothers hhere => ?_
    rw [hhere, hothers, List.any_cons]

end looks

section finding

variable {s₀ : Spaces} (hsound : s₀.inner.Sound s₀.paths)
include hsound

theorem home_mem {s : Spaces} (hinv : Beside s₀ s) {id : Uuid} {space : SpaceHandle}
    (hhome : s.home id = some space) : space.toRegistryEntry ∈ s₀.inner.entries := by
  rcases Option.or_eq_some_iff.mp hhome with harrived | ⟨-, hfound⟩
  · have harrived := (Option.filter_eq_some_iff.mp harrived).1
    unfold arrivedSpace at harrived
    split at harrived
    · split at harrived
      · exact (hinv.mem_of_get harrived).1
      · cases harrived
    · cases harrived
  · exact hinv.mem_of_all hsound (List.mem_of_find?_eq_some hfound)

omit hsound in
theorem looks_hostSpace {inv : Spaces → Prop} (id : Uuid) :
    Looks (anyhow inv) (fun s found => found = s.home id) (hostSpace id) := by
  unfold hostSpace
  refine Looks.bind Looks.get fun t => Looks.bind (looks_firstHaving _ _) fun found => Looks.bind Looks.get fun u => ?_
  cases harrived : arrivedSpace id found u.inner with
  | none =>
    refine Looks.done fun _ s _ hu hfound ht => ?_
    rw [ht] at hfound
    rw [hu, hfound] at harrived
    rw [home, harrived, hfound]
    rfl
  | some target =>
    refine Looks.bind (looks_reading _) fun there => ?_
    have hhome : ∀ s : Spaces, there = ((s.store target.toRegistryEntry).getHost id).isSome → u = s →
        (found = t.inner.all.find? fun space => ((s.store space.toRegistryEntry).getHost id).isSome) → t = s →
        s.home id = if there then some target else found := by
      intro s hthere hu hfound ht
      rw [ht] at hfound
      rw [hu, hfound] at harrived
      rw [home, harrived, ← hfound]
      cases there with
      | true => simp [Option.filter, ← hthere]
      | false => simp [Option.filter, ← hthere]
    cases there with
    | true => exact Looks.done fun _ s _ hthere hu hfound ht => (hhome s hthere hu hfound ht).symm
    | false => exact Looks.done fun _ s _ hthere hu hfound ht => (hhome s hthere hu hfound ht).symm

omit hsound in
theorem looks_homeOf {inv : Spaces → Prop} (id : Uuid) :
    Looks (anyhow inv) (fun s space => s.home id = some space) (homeOf id) := by
  unfold homeOf
  refine Looks.bind (looks_hostSpace id) fun found => (looks_orElse _ _).mono ?_
  intro _ s space _ hspace hfound
  rw [← hfound, hspace]

/-- New records go to a server. -/
theorem looks_defaultFor (workspace : Workspace) : Looks (anyhow (Beside s₀))
    (fun _ space => space.toRegistryEntry ∈ s₀.inner.entries ∧ space.isServer = true) (defaultFor workspace) := by
  unfold defaultFor
  refine Looks.bind Looks.get fun t => ?_
  dsimp only
  refine (looks_orElse _ _).mono fun _ s space hinv hspace heq => ?_
  rw [heq] at hspace
  have hserver : ∀ id, s.inner.isServer id = true → (s.inner.get id).or s.inner.all.head? = some space →
      space.toRegistryEntry ∈ s₀.inner.entries ∧ space.isServer = true := by
    intro id hid hor
    obtain ⟨server, hget, hserver⟩ := (hinv.sound hsound).get_server hid
    rw [hget, Option.some_or, Option.some.injEq] at hor
    rw [← hor]
    exact ⟨(hinv.mem_of_get hget).1, hserver⟩
  cases workspace with
  | private_ => exact hserver _ (hinv.sound hsound).defaults.1 hspace
  | business => exact hserver _ (hinv.sound hsound).defaults.2 hspace

/-- The main space is a server. -/
theorem looks_mainSpace : Looks (anyhow (Beside s₀))
    (fun _ space => space.toRegistryEntry ∈ s₀.inner.entries ∧ space.isServer = true) mainSpace := by
  have hentry : Looks (anyhow (Beside s₀)) (fun _ entry => entry ∈ s₀.inner.entries ∧ entry.isServer = true)
      mainEntry := by
    unfold mainEntry
    refine Looks.bind Looks.get fun t => ?_
    dsimp only
    intro g s hinv
    cases hfind : (t.inner.entries.find? fun entry => entry.id == t.inner.main).or t.inner.entries.head? with
    | none => exact ⟨hinv, rfl, nofun⟩
    | some entry =>
      refine ⟨hinv, rfl, fun e he heq => ?_⟩
      cases he
      rw [heq] at hfind
      obtain ⟨server, hget, hserver⟩ := (hinv.sound hsound).get_server (hinv.sound hsound).main
      obtain ⟨found, hfound, rfl⟩ := Option.map_eq_some_iff.mp hget
      rw [hfound, Option.some_or, Option.some.injEq] at hfind
      rw [← hfind]
      exact ⟨(hinv.mem_of_get hget).1, hserver⟩
  unfold mainSpace
  refine Looks.bind hentry fun entry => Looks.bind Looks.get fun t => Looks.done ?_
  exact fun _ _ _ _ hmain => hmain

theorem looks_spacesWithKey (id : Uuid) : Looks (anyhow (Beside s₀))
    (fun _ found => ∀ space ∈ found, space.toRegistryEntry ∈ s₀.inner.entries) (spacesWithKey id) :=
  (looks_having _).mono fun _ _ _ hinv hfound space hmem => hinv.mem_of_all hsound (hfound space hmem)

/-- A group is changed nowhere when it is in a team that is only read. -/
theorem looks_spacesWithGroup (workspace : Workspace) (name : String) : Looks (anyhow (Beside s₀))
    (fun _ found => ∀ space ∈ found, space.toRegistryEntry ∈ s₀.inner.entries ∧ space.readOnly = false)
    (spacesWithGroup workspace name) := by
  unfold spacesWithGroup
  refine Looks.bind (looks_having _) fun found => ?_
  split
  · exact Looks.fail
  · split
    · exact Looks.fail
    · next hwrite =>
      refine Looks.done fun _ s hinv hfound space hmem => ⟨hinv.mem_of_all hsound (hfound space hmem), ?_⟩
      cases hread : space.readOnly with
      | false => rfl
      | true => exact absurd (List.any_eq_true.mpr ⟨space, hmem, hread⟩) hwrite

theorem looks_tunnelSpace (id : Uuid) : Looks (anyhow (Beside s₀))
    (fun _ found => ∀ space, found = some space → space.toRegistryEntry ∈ s₀.inner.entries) (tunnelSpace id) := by
  unfold tunnelSpace
  refine Looks.bind Looks.get fun t => (looks_firstHaving _ _).mono ?_
  intro _ s found hinv hfound ht space hspace
  rw [ht, hspace] at hfound
  exact hinv.mem_of_all hsound (List.mem_of_find?_eq_some hfound.symm)

/-- A server, by its id. -/
def ServerOf (s : Spaces) (id : String) : Prop :=
  ∀ entry ∈ s.inner.entries, entry.id = id → entry.isServer = true

/-- Every destination of an import is a server, unless a team has the host. -/
theorem looks_destinations : Looks (anyhow (Beside s₀)) (fun _ to_ => to_.In (ServerOf s₀)) destinations := by
  have hserver : ∀ space : SpaceHandle, space.toRegistryEntry ∈ s₀.inner.entries ∧ space.isServer = true →
      ServerOf s₀ space.id := by
    intro space hspace entry hentry hid
    rw [hsound.id_injective hentry hspace.1 hid]
    exact hspace.2
  unfold destinations
  refine Looks.bind (looks_defaultFor hsound .private_) fun private_ =>
    Looks.bind (looks_defaultFor hsound .business) fun business => Looks.bind Looks.get fun t =>
    Looks.bind looks_listHosts fun found => ?_
  refine Looks.done fun _ s hinv hfound ht hbusiness hprivate => ?_
  refine ⟨fun workspace => ?_, ?_, fun owner howner hteam => ?_⟩
  · cases workspace with
    | private_ => exact hserver private_ hprivate
    | business => exact hserver business hbusiness
  · rw [ht]
    intro entry hentry hid
    obtain ⟨main, hmain, heq⟩ := List.any_eq_true.mp (hinv.sound hsound).main
    obtain ⟨heq, hkind⟩ := Bool.and_eq_true_iff.mp heq
    rw [hinv.entries] at hmain
    rw [hsound.id_injective hentry hmain (hid.trans (beq_iff_eq.mp heq).symm)]
    exact hkind
  · intro entry hentry hid
    cases hkind : entry.isServer with
    | true => rfl
    | false =>
      refine absurd ?_ hteam
      rw [ht, List.mem_map]
      have hin : s.inner.handle entry ∈ s.inner.all := by
        refine (Inner.mem_all (hinv.sound hsound).whole).mpr ⟨entry, ?_, rfl⟩
        rw [hinv.entries]
        exact hentry
      refine ⟨s.inner.handle entry, List.mem_filter.mpr ⟨hin, ?_⟩, hid⟩
      show (!entry.isServer) = true
      rw [hkind]
      rfl

omit hsound in
theorem looks_getSpaces (ids : List String) : Looks (anyhow (Beside s₀))
    (fun s found => (∀ space ∈ found, space.toRegistryEntry ∈ s₀.inner.entries ∧ space.id ∈ ids) ∧
      ∀ id ∈ ids, ∃ space ∈ found, s.inner.get id = some space) (getSpaces ids) := by
  induction ids with
  | nil => exact Looks.done fun _ _ _ => ⟨nofun, nofun⟩
  | cons id rest ih =>
    unfold getSpaces
    refine Looks.bind (looks_getSpace id) fun space => Looks.bind ih fun others => ?_
    refine Looks.done fun _ s hinv hothers hspace => ⟨fun other hother => ?_, fun other hother => ?_⟩
    · rcases List.mem_cons.mp hother with heq | hmem
      · obtain ⟨hin, hid⟩ := hinv.mem_of_get hspace
        rw [heq, hid]
        exact ⟨hin, List.mem_cons_self⟩
      · exact ⟨(hothers.1 other hmem).1, List.mem_cons_of_mem _ (hothers.1 other hmem).2⟩
    · rcases List.mem_cons.mp hother with rfl | hmem
      · exact ⟨space, List.mem_cons_self, hspace⟩
      · obtain ⟨there, hthere, hget⟩ := hothers.2 other hmem
        exact ⟨there, List.mem_cons_of_mem _ hthere, hget⟩

/-- A host key is trusted in spaces that have a host of its address, or in the main one. -/
theorem looks_storesOfAddress (address : String) (port : UInt16) : Looks (anyhow (Beside s₀))
    (fun s found => (∀ space ∈ found, space.toRegistryEntry ∈ s₀.inner.entries ∧
      (space.isServer = true ∨ space.id ∈ spacesOfAddress address port s.hosts)) ∧
      ∀ id ∈ spacesOfAddress address port s.hosts, ∃ space ∈ found, s.inner.get id = some space)
    (storesOfAddress address port) := by
  unfold storesOfAddress
  refine Looks.bind looks_listHosts fun found => Looks.bind (looks_getSpaces _) fun stores => ?_
  split
  · next hempty =>
    refine Looks.bind (looks_mainSpace hsound) fun main => Looks.done ?_
    intro _ s _ hmain hstores hfound
    rw [hfound] at hstores
    refine ⟨fun space hmem => ?_, fun id hid => ?_⟩
    · rw [List.mem_singleton.mp hmem]
      exact ⟨hmain.1, Or.inl hmain.2⟩
    · obtain ⟨space, hspace, -⟩ := hstores.2 id hid
      rw [List.isEmpty_iff.mp hempty] at hspace
      exact absurd hspace List.not_mem_nil
  · refine Looks.done fun _ s _ hstores hfound => ?_
    rw [hfound] at hstores
    exact ⟨fun space hmem => ⟨(hstores.1 space hmem).1, Or.inr (hstores.1 space hmem).2⟩, hstores.2⟩

end finding

section writing

variable {s₀ : Spaces} (hsound : s₀.inner.Sound s₀.paths)

theorem Beside.offDisk : OffDisk (Beside s₀) :=
  ⟨fun _ disk h => h.onDisk disk, fun _ h => h.asideOnDisk, fun _ h => h.readable⟩

include hsound

/-- What the store of a space that is not only read does to itself. -/
theorem keeps_onStore {α : Type} {space : SpaceHandle} (hmem : space.toRegistryEntry ∈ s₀.inner.entries)
    (hread : space.onlyRead = false) (p : StoreScript α) : Keeps (anyhow (Beside s₀)) (onStore space p) := by
  refine Keeps.onPart _ _ (fun _ t store hinv _ => ⟨trivial, ?_⟩) (fun _ _ _ hinv => ⟨trivial, fun _ _ => hinv⟩) p
  exact Beside.setStore hinv hsound hmem hread store

theorem not_onlyRead {entry : RegistryEntry} (hmem : entry ∈ s₀.inner.entries) (hread : entry.readOnly = false) :
    entry.onlyRead = false := by
  cases honly : entry.onlyRead with
  | false => rfl
  | true =>
    have hflag := RegistryEntry.onlyRead_of_opened (hsound.opened entry hmem) honly
    rw [hread] at hflag
    cases hflag

theorem keeps_writableStore {α : Type} {space : SpaceHandle} (hmem : space.toRegistryEntry ∈ s₀.inner.entries)
    (hread : space.readOnly = false) (p : StoreScript α) : Keeps (anyhow (Beside s₀)) (onStore space p) :=
  keeps_onStore hsound hmem (not_onlyRead hsound hmem hread) p

theorem keeps_serverStore {α : Type} {space : SpaceHandle}
    (h : space.toRegistryEntry ∈ s₀.inner.entries ∧ space.isServer = true) (p : StoreScript α) :
    Keeps (anyhow (Beside s₀)) (onStore space p) :=
  keeps_onStore hsound h.1 (RegistryEntry.onlyRead_of_isServer h.2) p

omit hsound in
theorem keeps_note {journal : Option Journal} (hnote : ∀ j, journal = some j →
    j.from_ ≠ j.to_ ∧ s₀.inner.has j.from_ = true ∧ s₀.inner.has j.to_ = true) :
    Keeps (anyhow (Beside s₀)) (note journal) := by
  unfold note
  exact Keeps.bind (keeps_set fun _ hinv => hinv.noted hnote) fun _ => Beside.offDisk.persist

variable (calls : StoreCalls)

theorem keeps_letGo {journal : Journal} (hread : ∀ source, s₀.inner.get journal.from_ = some source →
    source.onlyRead = false) : Keeps (anyhow (Beside s₀)) (letGo calls journal) := by
  unfold letGo
  refine Looks.get.keeps_bind fun _ s t hinv heq => ?_
  have hget : t.inner.get journal.from_ = s₀.inner.get journal.from_ := by
    rw [heq]
    exact Beside.get hinv _
  rw [hget]
  cases hsource : s₀.inner.get journal.from_ with
  | none => exact Keeps.done ()
  | some source => exact keeps_onStore hsound (Beside.mem_of_get (.refl hsound) hsource).1 (hread source hsource) _

/-- Finishing a move writes where it left from, so that must not be a team that is only read. -/
theorem wp_recover (hnot : ¬ Stranded s₀) :
    (recover calls).wp (anyhow (Beside s₀)) (fun _ _ => Beside s₀) () s₀ := by
  have hforget : Keeps (anyhow (Beside s₀)) (set (fun inner => { inner with journal := none }) >>= fun _ => persist) :=
    keeps_note nofun
  unfold recover
  rw [wp_bind, wp_get]
  dsimp only
  cases hjournal : s₀.inner.journal with
  | none => exact .refl hsound
  | some journal =>
    refine (looks_arrived journal).bind_from (.refl hsound) (fun _ _ hinv => hinv) fun there _ hinv hthere => ?_
    cases there with
    | false => exact hforget () s₀ hinv
    | true =>
      refine Keeps.bind (keeps_letGo hsound calls ?_) (fun _ => hforget) () s₀ hinv
      intro source hsource
      obtain ⟨target, htarget, hne, hhost⟩ := hthere rfl
      cases hread : source.onlyRead with
      | false => rfl
      | true => exact absurd ⟨journal, source, target, hjournal, hsource, hread, hne, htarget, hhost⟩ hnot

omit hsound in
theorem has_of_mem {space : SpaceHandle} (hmem : space.toRegistryEntry ∈ s₀.inner.entries) :
    s₀.inner.has space.id = true := List.any_eq_true.mpr ⟨space.toRegistryEntry, hmem, beq_self_eq_true _⟩

omit hsound in
theorem keeps_movedId (target : SpaceHandle) (id : Uuid) : Keeps (anyhow (Beside s₀)) (movedId target id) := by
  unfold movedId
  refine (looks_reading _).keeps_bind fun _ _ blank _ _ => ?_
  split
  · exact Keeps.done id
  · exact (looks_query .draws).keeps.bind fun draws => (looks_orElse _ _).keeps

omit hsound in
theorem keeps_requireOpen (entry : RegistryEntry) : Keeps (anyhow (Beside s₀)) (requireOpen entry) := by
  have hopen : Keeps (anyhow (Beside s₀)) (vaultOpen entry) := by
    unfold vaultOpen
    refine Keeps.bind Keeps.get fun t => ?_
    split
    · exact Keeps.done true
    · exact (looks_reading _).keeps
  unfold requireOpen
  refine Keeps.bind hopen fun isOpen => ?_
  split
  · exact Keeps.done ()
  · exact Keeps.fail _

theorem keeps_handOver (id : Uuid) {source target : SpaceHandle} (moved : MovedHost)
    (hsource : source.toRegistryEntry ∈ s₀.inner.entries) (htarget : target.toRegistryEntry ∈ s₀.inner.entries)
    (hleaves : source.readOnly = false) (htakes : target.readOnly = false) (hne : source.id ≠ target.id) :
    Keeps (anyhow (Beside s₀)) (handOver calls id source target moved) := by
  have hforget : Keeps (anyhow (Beside s₀)) (note none) := keeps_note nofun
  unfold handOver
  refine (keeps_movedId target id).bind fun targetHost => ?_
  refine Keeps.bind (keeps_note ?_) fun _ => ?_
  · intro journal hjournal
    cases hjournal
    exact ⟨hne, has_of_mem hsource, has_of_mem htarget⟩
  refine Keeps.bind (keeps_writableStore hsound htarget htakes _).attempt fun outcome => ?_
  cases outcome with
  | error e => exact hforget.bind fun _ => Keeps.fail e
  | ok u =>
    exact (keeps_writableStore hsound hsource hleaves _).bind fun _ => hforget.bind fun _ => Keeps.done targetHost

theorem keeps_carry {id : Uuid} {from_ to_ : String} (hne : from_ ≠ to_) :
    Keeps (anyhow (Beside s₀)) (carry calls id from_ to_) := by
  unfold carry
  refine (looks_getSpace from_).keeps_bind fun _ _ source hinv hsource => ?_
  obtain ⟨hsource, hfrom⟩ := Beside.mem_of_get hinv hsource
  refine (looks_getSpace to_).keeps_bind fun _ _ target hinv htarget => ?_
  obtain ⟨htarget, hto⟩ := Beside.mem_of_get hinv htarget
  refine (looks_writable source).keeps_bind fun _ _ _ _ hleaves => ?_
  refine (looks_writable target).keeps_bind fun _ _ _ _ htakes => ?_
  refine (looks_reading _).keeps.bind fun exported => (Keeps.ofExcept exported).bind fun moved => ?_
  have hrest := keeps_handOver hsound calls id moved hsource htarget hleaves htakes
    (by rwa [hfrom, hto])
  dsimp only
  split
  · exact (keeps_requireOpen target.toRegistryEntry).bind fun _ => hrest
  · exact hrest

theorem wp_moveBetween (hnot : ¬ Stranded s₀) {id : Uuid} {from_ to_ : String} (hne : from_ ≠ to_) :
    (moveBetween calls id from_ to_).wp (anyhow (Beside s₀)) (fun _ _ => Beside s₀) () s₀ := by
  unfold moveBetween
  rw [wp_bind]
  refine wp_mono (wp_recover hsound calls hnot) fun r g t hinv => ?_
  cases r with
  | error e => exact hinv
  | ok u => exact keeps_carry hsound calls hne g t hinv

theorem keeps_keyIn {key : Uuid} {target : SpaceHandle} (hmem : target.toRegistryEntry ∈ s₀.inner.entries)
    (hwrite : target.readOnly = false) : Keeps (anyhow (Beside s₀)) (keyIn calls key target) := by
  unfold keyIn
  refine (looks_reading _).keeps.bind fun here => ?_
  split
  · exact Keeps.done key
  · refine (looks_spacesWithKey hsound key).keeps.bind fun found => (looks_orElse _ _).keeps.bind fun source => ?_
    exact (looks_reading _).keeps.bind fun exported => (Keeps.ofExcept exported).bind fun moved =>
      keeps_writableStore hsound hmem hwrite _

theorem keeps_withKeyIn {draft : HostDraft} {target : SpaceHandle}
    (hmem : target.toRegistryEntry ∈ s₀.inner.entries) (hwrite : target.readOnly = false) :
    Keeps (anyhow (Beside s₀)) (withKeyIn calls draft target) := by
  unfold withKeyIn
  split
  · exact Keeps.done draft
  · exact (keeps_keyIn hsound calls hmem hwrite).bind fun here => Keeps.done _

theorem keeps_placeLast {host : HostRecord} {target : SpaceHandle}
    (hmem : target.toRegistryEntry ∈ s₀.inner.entries) (hwrite : target.readOnly = false) :
    Keeps (anyhow (Beside s₀)) (placeLast calls target host) := by
  unfold placeLast
  refine looks_listHosts.keeps.bind fun found => ?_
  split
  · exact Keeps.done host
  · exact keeps_writableStore hsound hmem hwrite _

/-- What follows once a draft has its space. -/
theorem keeps_saveIn {draft : HostDraft} {target : SpaceHandle}
    (hmem : target.toRegistryEntry ∈ s₀.inner.entries) :
    Keeps (anyhow (Beside s₀)) (saveIn calls draft target) := by
  unfold saveIn
  refine (looks_writable target).keeps_bind fun _ _ _ _ hwrite => ?_
  refine (keeps_withKeyIn hsound calls hmem hwrite).bind fun draft => ?_
  refine (keeps_writableStore hsound hmem hwrite _).bind fun host => ?_
  split
  · exact Keeps.done _
  · exact (keeps_placeLast hsound calls hmem hwrite).bind fun host => Keeps.done _

theorem keeps_noteOnHost (id : Uuid) (p : StoreScript Unit) : Keeps (anyhow (Beside s₀)) (noteOnHost id p) := by
  unfold noteOnHost
  refine (looks_homeOf id).keeps_bind fun _ _ space hinv hhome => ?_
  split
  · exact Keeps.done ()
  · next hread =>
    exact keeps_writableStore hsound (home_mem hsound hinv hhome) (by simpa using hread) p

theorem keeps_renumber (at_ : ℕ) (members : List SpaceHost) (index : ℕ) :
    Keeps (anyhow (Beside s₀)) (renumber calls at_ index members) := by
  induction members generalizing index with
  | nil => exact Keeps.done ()
  | cons other rest ih =>
    unfold renumber
    split
    · exact ih (index + 1)
    · refine Looks.get.keeps_bind fun _ s t hinv heq => ?_
      split
      · exact ih (index + 1)
      · next space hspace =>
        obtain ⟨hget, hread⟩ := Option.filter_eq_some_iff.mp hspace
        rw [heq] at hget
        refine (keeps_writableStore hsound (Beside.mem_of_get hinv hget).1 (by simpa using hread) _).bind fun _ => ?_
        exact ih (index + 1)

theorem keeps_onEach (p : StoreScript Unit) (spaces : List SpaceHandle)
    (h : ∀ space ∈ spaces, space.toRegistryEntry ∈ s₀.inner.entries ∧ space.readOnly = false) :
    Keeps (anyhow (Beside s₀)) (onEach p spaces) := by
  induction spaces with
  | nil => exact Keeps.done ()
  | cons space rest ih =>
    obtain ⟨hmem, hread⟩ := h space List.mem_cons_self
    exact (keeps_writableStore hsound hmem hread p).bind fun _ =>
      ih fun other hother => h other (List.mem_cons_of_mem _ hother)

theorem keeps_onKey (p : StoreScript Unit) {spaces : List SpaceHandle}
    (h : ∀ space ∈ spaces, space.toRegistryEntry ∈ s₀.inner.entries) :
    Keeps (anyhow (Beside s₀)) (onKey p spaces) := by
  unfold onKey
  split
  · exact Keeps.fail _
  · refine keeps_onEach hsound p _ fun space hspace => ?_
    obtain ⟨hmem, hread⟩ := List.mem_filter.mp hspace
    exact ⟨h space hmem, by simpa using hread⟩

theorem keeps_importParts {α : Type} (p : α → StoreScript ImportOutcome) (parts : Parts α)
    (h : parts.To (ServerOf s₀)) (total : ImportOutcome) :
    Keeps (anyhow (Beside s₀)) (importParts p total parts) := by
  induction parts generalizing total with
  | nil => exact Keeps.done total
  | cons part rest ih =>
    unfold importParts
    refine (looks_getSpace part.1).keeps_bind fun _ _ space hinv hspace => ?_
    obtain ⟨hmem, hid⟩ := Beside.mem_of_get hinv hspace
    have hserver : space.isServer = true := h part List.mem_cons_self space.toRegistryEntry hmem hid
    refine (keeps_serverStore hsound ⟨hmem, hserver⟩ _).bind fun outcome => ?_
    exact ih (fun other hother => h other (List.mem_cons_of_mem _ hother)) _

theorem keeps_trustIn (address : String) (port : UInt16) (key : ObservedHostKey) (stores : List SpaceHandle)
    (h : ∀ space ∈ stores, space.toRegistryEntry ∈ s₀.inner.entries ∧ space.onlyRead = false) :
    Keeps (anyhow (Beside s₀)) (trustIn address port key stores) := by
  induction stores with
  | nil => exact Keeps.done ()
  | cons space rest ih =>
    obtain ⟨hmem, hread⟩ := h space List.mem_cons_self
    unfold trustIn
    refine Keeps.bind ?_ fun _ => ih fun other hother => h other (List.mem_cons_of_mem _ hother)
    unfold transact
    refine (looks_query .draws).keeps.bind fun draws => Keeps.get.bind fun t => ?_
    refine (Keeps.ofExcept _).bind fun store => keeps_modify fun u hinv => ?_
    exact Beside.setStore hinv hsound hmem hread store

/-- A move that starts with what was begun before. -/
def MovesFirst (s : Spaces) : RecordOp → Prop
  | .saveHost wanted => ∃ draft id to_ current, wanted.draft.validated = .ok draft ∧ draft.id = some id ∧
      wanted.space = some to_ ∧ (s.inner.get to_).isSome = true ∧ s.home id = some current ∧
      current.readOnly = false ∧ to_ ≠ current.id
  | .moveHostTo id to_ => ∃ current, s.home id = some current ∧ current.id ≠ to_
  | _ => False

/-- A space with a host of an address trusts another key for it. -/
def TrustsOther (s : Spaces) (address : String) (port : UInt16) (fingerprint : String) : Prop :=
  ∃ id ∈ spacesOfAddress address port s.hosts, ∃ space, s.inner.get id = some space ∧
    (((s.store space.toRegistryEntry).knownHost address port).any fun known =>
      known.fingerprint != fingerprint) = true

/-- A host key is about to be trusted in a team that is only read, with the user's word if it is to replace
another. -/
def TrustsOnlyRead (s : Spaces) : RecordOp → Prop
  | .trustHostKey presented address port fingerprint replace =>
      (presented.any fun key => key.fingerprint == fingerprint) = true ∧
      (TrustsOther s address port fingerprint → replace = true) ∧
      ∃ entry ∈ s.inner.entries, entry.onlyRead = true ∧ entry.id ∈ spacesOfAddress address port s.hosts
  | _ => False

/-- The condition under which a call keeps out of teams that are only read: no move of one's own is
waiting to be finished in one when another begins, and no host key of a host in one is trusted. -/
def Permits (s : Spaces) (op : RecordOp) : Prop :=
  (MovesFirst s op → ¬ Stranded s) ∧ ¬ TrustsOnlyRead s op

theorem wp_saveTarget {wanted : SpaceHostDraft} {draft : HostDraft} (hdraft : wanted.draft.validated = .ok draft)
    (hspace : wanted.space.all (fun id => (s₀.inner.get id).isSome) = true)
    (hpermits : Permits s₀ (.saveHost wanted)) :
    (saveTarget calls draft wanted.space).wp (anyhow (Beside s₀))
      (fun r _ t => Beside s₀ t ∧ ∀ found, r = .ok found → found.2.toRegistryEntry ∈ s₀.inner.entries) () s₀ := by
  have hinv : Beside s₀ s₀ := .refl hsound
  unfold saveTarget
  cases hid : draft.id with
  | some id =>
    refine (looks_homeOf id).bind_from hinv (fun _ _ h => ⟨h, no_value⟩) fun current _ h hhome => ?_
    refine (looks_writable current).bind_from h (fun _ _ h => ⟨h, no_value⟩) fun _ _ h hwrite => ?_
    cases hto : wanted.space.filter fun space => space != current.id with
    | none =>
      refine ⟨h, fun found hfound => ?_⟩
      cases hfound
      exact home_mem hsound hinv hhome
    | some to_ =>
      obtain ⟨hto, hne⟩ := Option.filter_eq_some_iff.mp hto
      have hne : to_ ≠ current.id := by simpa using hne
      rw [hto] at hspace
      have hnot : ¬ Stranded s₀ := hpermits.1 ⟨draft, id, to_, current, hdraft, hid, hto, hspace, hhome, hwrite, hne⟩
      dsimp only
      rw [wp_bind]
      refine wp_mono (wp_moveBetween hsound calls hnot hne.symm) fun r g t hinv' => ?_
      cases r with
      | error e => exact ⟨hinv', no_value⟩
      | ok moved =>
        refine (looks_getSpace to_).bind_from hinv' (fun _ _ h => ⟨h, no_value⟩) fun target _ h htarget => ?_
        refine ⟨h, fun found hfound => ?_⟩
        cases hfound
        exact (Beside.mem_of_get hinv' htarget).1
  | none =>
    cases hto : wanted.space with
    | some space =>
      refine (looks_getSpace space).bind_from hinv (fun _ _ h => ⟨h, no_value⟩) fun target _ h htarget => ?_
      refine ⟨h, fun found hfound => ?_⟩
      cases hfound
      exact (Beside.mem_of_get hinv htarget).1
    | none =>
      refine (looks_defaultFor hsound _).bind_from hinv (fun _ _ h => ⟨h, no_value⟩) fun target _ h htarget => ?_
      refine ⟨h, fun found hfound => ?_⟩
      cases hfound
      exact htarget.1

theorem wp_saveHost {wanted : SpaceHostDraft} (hpermits : Permits s₀ (.saveHost wanted)) :
    (saveHost calls wanted).wp (anyhow (Beside s₀)) (fun _ _ => Beside s₀) () s₀ := by
  unfold saveHost
  rw [wp_bind, wp_ofExcept]
  cases hdraft : wanted.draft.validated with
  | error e => exact .refl hsound
  | ok draft =>
    refine (looks_knownSpace wanted.space).bind_from (.refl hsound) (fun _ _ h => h) fun _ _ h hknown => ?_
    rw [wp_bind]
    refine wp_mono (wp_saveTarget hsound calls hdraft hknown hpermits) fun r g t hr => ?_
    cases r with
    | error e => exact hr.1
    | ok found => exact keeps_saveIn hsound calls (hr.2 found rfl) g t hr.1

theorem wp_moveHostTo {id : Uuid} {to_ : String} (hpermits : Permits s₀ (.moveHostTo id to_)) :
    (moveHostTo calls id to_).wp (anyhow (Beside s₀)) (fun _ _ => Beside s₀) () s₀ := by
  unfold moveHostTo
  refine (looks_homeOf id).bind_from (.refl hsound) (fun _ _ h => h) fun current g h hhome => ?_
  split
  · exact h
  · next hne => exact wp_moveBetween hsound calls (hpermits.1 ⟨current, hhome, hne⟩) hne

theorem wp_trustHostKey {presented : Option ObservedHostKey} {address : String} {port : UInt16}
    {fingerprint : String} {replace : Bool}
    (hpermits : Permits s₀ (.trustHostKey presented address port fingerprint replace)) :
    (trustHostKey presented address port fingerprint replace).wp (anyhow (Beside s₀)) (fun _ _ => Beside s₀)
      () s₀ := by
  have hinv : Beside s₀ s₀ := .refl hsound
  unfold trustHostKey
  cases hkey : presented.filter fun key => key.fingerprint == fingerprint with
  | none => exact hinv
  | some key =>
    obtain ⟨hsome, hmatch⟩ := Option.filter_eq_some_iff.mp hkey
    refine (looks_storesOfAddress hsound address port).bind_from hinv (fun _ _ h => h) fun stores g h hstores => ?_
    obtain ⟨hfrom, hall⟩ := hstores
    refine (looks_replacing address port fingerprint stores).bind_from h (fun _ _ h => h) fun others g h hothers => ?_
    split
    · exact h
    · next hgoes =>
      -- what goes on replaces no key without the user's word
      have hword : TrustsOther s₀ address port fingerprint → replace = true := by
        rintro ⟨id, hid, space, hget, hother⟩
        obtain ⟨found, hfound, hsame⟩ := hall id hid
        obtain rfl : space = found := Option.some_inj.mp (hget.symm.trans hsame)
        have htrue : others = true := by
          rw [hothers, List.any_eq_true]
          exact ⟨space, hfound, hother⟩
        rw [htrue, Bool.true_and, Bool.not_eq_true', Bool.not_eq_false] at hgoes
        exact hgoes
      have hfree : ∀ space ∈ stores, space.toRegistryEntry ∈ s₀.inner.entries ∧ space.onlyRead = false := by
        intro space hmem
        obtain ⟨hentry, hwhere⟩ := hfrom space hmem
        refine ⟨hentry, ?_⟩
        rcases hwhere with hserver | haddress
        · exact RegistryEntry.onlyRead_of_isServer hserver
        · cases hread : space.onlyRead with
          | false => rfl
          | true =>
            refine absurd ⟨?_, hword, space.toRegistryEntry, hentry, hread, haddress⟩ hpermits.2
            rw [hsome]
            exact hmatch
      have hkeeps : Keeps (anyhow (Beside s₀))
          (trustIn address port key stores >>= fun _ => (return .ok () : SpacesScript (Except String Unit))) :=
        (keeps_trustIn hsound address port key stores hfree).bind fun _ => Keeps.done _
      exact hkeeps g s₀ h

omit hsound in
theorem wp_callOnly {α : Type} {p : SpacesScript α} (h : p.wp (anyhow (Beside s₀)) (fun _ _ => Beside s₀) () s₀) :
    (callOnly p).wp (anyhow (Beside s₀)) (fun _ _ => Beside s₀) () s₀ := by
  unfold callOnly
  rw [wp_bind]
  refine wp_mono h fun r g t hinv => ?_
  cases r with
  | ok a => exact hinv
  | error e => exact hinv

theorem keeps_hostCall (id : Uuid) (p : SpaceHandle → StoreScript Unit) :
    Keeps (anyhow (Beside s₀)) (homeOf id >>= fun space => writable space >>= fun _ => onStore space (p space)) := by
  refine (looks_homeOf id).keeps_bind fun _ _ space hinv hhome => ?_
  refine (looks_writable space).keeps_bind fun _ _ _ _ hwrite => ?_
  exact keeps_writableStore hsound (home_mem hsound hinv hhome) hwrite _

theorem keeps_setHostPassword (id : Uuid) (change : PasswordChange) :
    Keeps (anyhow (Beside s₀)) (setHostPassword calls id change) := by
  unfold setHostPassword
  refine (looks_homeOf id).keeps_bind fun _ _ space hinv hhome => ?_
  refine (looks_writable space).keeps_bind fun _ _ _ _ hwrite => ?_
  exact (keeps_writableStore hsound (home_mem hsound hinv hhome) hwrite _).bind fun host => Keeps.done _

theorem keeps_moveHost (id : Uuid) (to_ : Workspace) (group : Option String) (before : Option Uuid) :
    Keeps (anyhow (Beside s₀)) (moveHost calls id to_ group before) := by
  unfold moveHost
  refine (looks_homeOf id).keeps_bind fun _ _ space hinv hhome => ?_
  refine (looks_writable space).keeps_bind fun _ _ _ _ hwrite => ?_
  refine (Keeps.ofExcept _).bind fun group => looks_listHosts.keeps.bind fun found => ?_
  refine (keeps_writableStore hsound (home_mem hsound hinv hhome) hwrite _).bind fun host => ?_
  exact (keeps_renumber hsound calls _ _ 0).bind fun _ => Keeps.done _

theorem keeps_createGroup (workspace : Workspace) (name : String) :
    Keeps (anyhow (Beside s₀)) (createGroup calls workspace name) := by
  unfold createGroup
  refine (Keeps.ofExcept _).bind fun wanted => (looks_orElse _ _).keeps.bind fun wanted => ?_
  refine (looks_having _).keeps.bind fun found => ?_
  split
  · exact (looks_defaultFor hsound workspace).keeps_bind fun _ _ space _ hspace => keeps_serverStore hsound hspace _
  · exact Keeps.fail _

theorem keeps_onGroup (workspace : Workspace) (name : String) (p : StoreScript Unit) :
    Keeps (anyhow (Beside s₀)) (spacesWithGroup workspace name >>= onEach p) :=
  (looks_spacesWithGroup hsound workspace name).keeps_bind fun _ _ found _ hfound => keeps_onEach hsound p found hfound

theorem keeps_renameKey (id : Uuid) (label : String) : Keeps (anyhow (Beside s₀)) (renameKey calls id label) := by
  unfold renameKey
  refine (looks_spacesWithKey hsound id).keeps_bind fun _ _ found _ hfound => ?_
  split
  · exact Keeps.fail _
  · exact keeps_onKey hsound _ hfound

theorem keeps_deleteKey (id : Uuid) : Keeps (anyhow (Beside s₀)) (deleteKey calls id) := by
  have huses : Keeps (anyhow (Beside s₀)) (keyUses id) := (looks_ofAll _).keeps.bind fun uses => Keeps.done _
  unfold deleteKey
  refine huses.bind fun uses => (looks_orElse _ _).keeps.bind fun hosts => ?_
  split
  · exact Keeps.fail _
  · exact (looks_spacesWithKey hsound id).keeps_bind fun _ _ found _ hfound => keeps_onKey hsound _ hfound

theorem keeps_saveTunnel (draft : TunnelDraft) : Keeps (anyhow (Beside s₀)) (saveTunnel calls draft) := by
  unfold saveTunnel
  refine (looks_homeOf draft.hostId).keeps_bind fun _ _ space hinv hhome => ?_
  refine (looks_writable space).keeps_bind fun _ _ _ _ hwrite => ?_
  exact keeps_writableStore hsound (home_mem hsound hinv hhome) hwrite _

theorem keeps_deleteTunnel (id : Uuid) : Keeps (anyhow (Beside s₀)) (deleteTunnel calls id) := by
  unfold deleteTunnel
  refine (looks_tunnelSpace hsound id).keeps_bind fun _ _ found _ hfound => ?_
  refine (looks_orElse _ found).keeps_bind fun _ _ space _ hspace => ?_
  refine (looks_writable space).keeps_bind fun _ _ _ _ hwrite => ?_
  exact keeps_writableStore hsound (hfound space hspace) hwrite _

/-- With one space, an import goes to it, and it is the main server. -/
theorem keeps_only {α : Type} {t : Spaces} {only : SpaceHandle} (hinv : Beside s₀ t) (hall : t.inner.all = [only])
    (p : StoreScript α) : Keeps (anyhow (Beside s₀)) (onStore only p) := by
  have honly : only ∈ t.inner.all := hall ▸ List.mem_singleton_self only
  obtain ⟨server, hget, hserver⟩ := (hinv.sound hsound).get_server (hinv.sound hsound).main
  obtain ⟨entry, hentry, -, hhandle⟩ := Inner.get_eq_some hget
  have hin : server ∈ t.inner.all := (Inner.mem_all (hinv.sound hsound).whole).mpr ⟨entry, hentry, hhandle⟩
  rw [hall] at hin
  rw [List.mem_singleton.mp hin] at hserver
  exact keeps_serverStore hsound ⟨hinv.mem_of_all hsound honly, hserver⟩ p

theorem keeps_importSet (set : ImportSet) : Keeps (anyhow (Beside s₀)) (importSet calls set) := by
  unfold importSet
  refine Looks.get.keeps_bind fun _ s t hinv heq => ?_
  subst heq
  split
  · next only hall => exact keeps_only hsound hinv hall _
  · refine (looks_destinations hsound).keeps_bind fun _ _ to_ _ hto => ?_
    exact keeps_importParts hsound _ _ (set.parts_to hto) _

theorem keeps_importBackup (backup : Backup) : Keeps (anyhow (Beside s₀)) (importBackup calls backup) := by
  unfold importBackup
  refine Looks.get.keeps_bind fun _ s t hinv heq => ?_
  subst heq
  split
  · next only hall => exact keeps_only hsound hinv hall _
  · refine (looks_destinations hsound).keeps_bind fun _ _ to_ _ hto => ?_
    exact keeps_importParts hsound _ _ (backup.parts_to hto) _

/-- A call on records, cut off anywhere, leaves teams that are only read as they are. -/
theorem wp_run (op : RecordOp) (hpermits : Permits s₀ op) :
    (op.run calls).wp (anyhow (Beside s₀)) (fun _ _ => Beside s₀) () s₀ := by
  have hinv : Beside s₀ s₀ := .refl hsound
  have hkeeps : ∀ p : SpacesScript Unit, Keeps (anyhow (Beside s₀)) p →
      p.wp (anyhow (Beside s₀)) (fun _ _ => Beside s₀) () s₀ := fun p h => h () s₀ hinv
  have hgives : ∀ {α : Type} (p : SpacesScript α), Keeps (anyhow (Beside s₀)) p →
      (callOnly p).wp (anyhow (Beside s₀)) (fun _ _ => Beside s₀) () s₀ :=
    fun p h => wp_callOnly (h () s₀ hinv)
  cases op with
  | saveHost wanted =>
    rw [RecordOp.run]
    exact wp_callOnly (wp_saveHost hsound calls hpermits)
  | deleteHost id =>
    rw [RecordOp.run]
    exact hkeeps _ (keeps_hostCall hsound id fun _ => calls.deleteHost id)
  | setHostPassword id change =>
    rw [RecordOp.run]
    exact hgives _ (keeps_setHostPassword hsound calls id change)
  | markConnected id =>
    rw [RecordOp.run]
    exact hkeeps _ (keeps_noteOnHost hsound id _)
  | setHostOs id os =>
    rw [RecordOp.run]
    exact hkeeps _ (keeps_noteOnHost hsound id _)
  | moveHostTo id to_ =>
    rw [RecordOp.run]
    exact wp_callOnly (wp_moveHostTo hsound calls hpermits)
  | moveHost id to_ group before =>
    rw [RecordOp.run]
    exact hgives _ (keeps_moveHost hsound calls id to_ group before)
  | createGroup workspace name =>
    rw [RecordOp.run]
    exact hgives _ (keeps_createGroup hsound calls workspace name)
  | renameGroup workspace from_ to_ =>
    rw [RecordOp.run]
    exact hkeeps _ (keeps_onGroup hsound workspace from_ _)
  | deleteGroup workspace name =>
    rw [RecordOp.run]
    exact hkeeps _ (keeps_onGroup hsound workspace name _)
  | moveGroup workspace name to_ before =>
    rw [RecordOp.run]
    exact hkeeps _ (keeps_onGroup hsound workspace name _)
  | addKey draft =>
    rw [RecordOp.run]
    exact hgives _ ((looks_mainSpace hsound).keeps_bind fun _ _ main _ hmain => keeps_serverStore hsound hmain _)
  | renameKey id label =>
    rw [RecordOp.run]
    exact hkeeps _ (keeps_renameKey hsound calls id label)
  | deleteKey id =>
    rw [RecordOp.run]
    exact hkeeps _ (keeps_deleteKey hsound calls id)
  | saveTunnel draft =>
    rw [RecordOp.run]
    exact hgives _ (keeps_saveTunnel hsound calls draft)
  | deleteTunnel id =>
    rw [RecordOp.run]
    exact hkeeps _ (keeps_deleteTunnel hsound calls id)
  | importSet set =>
    rw [RecordOp.run]
    exact hgives _ (keeps_importSet hsound calls set)
  | importBackup backup =>
    rw [RecordOp.run]
    exact hgives _ (keeps_importBackup hsound calls backup)
  | trustHostKey presented address port fingerprint replace =>
    rw [RecordOp.run]
    exact wp_callOnly (wp_trustHostKey hsound hpermits)

end writing

end Spaces

end UwuSsh

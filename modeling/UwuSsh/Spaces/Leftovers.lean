import UwuSsh.Spaces.ReadOnly
import UwuSsh.Spaces.RegistryFacts
import UwuSsh.Spaces.Servers

/-!
Which stores a start clears away. A store whose setup reached the registry, and that nobody took
away since, is named in memory, or memory is of a registry that was not read whole, or one that was
not lies aside; and so it would be after a start. Every step keeps that, so what a start clears away
is not such a store.
-/
namespace UwuSsh

open Script

namespace Spaces

section quiet

open Script

theorem quiet_lockVault (entry : RegistryEntry) : Keeps (quietly SameEntries) (lockVault entry) := by
  intro g s _
  exact ⟨fun _ => ⟨forgetting_sameEntries.files s _, trivial, trivial⟩, trivial, nofun⟩

theorem quiet_resealAll (main : RegistryEntry) (spaces : List SpaceHandle) :
    Keeps (quietly SameEntries) (resealAll main spaces) := by
  induction spaces with
  | nil => exact Keeps.done _
  | cons space rest ih =>
    apply (quiet_vaultOpen space.toRegistryEntry).attempt.bind
    intro isOpen
    rcases isOpen with _ | _ | _
    · exact ih
    · exact ih
    · exact (quiet_tryFile forgetting_sameEntries space.toRegistryEntry _).bind fun _ => ih

theorem quiet_resealChain : Keeps (quietly SameEntries) resealChain := by
  apply quiet_mainEntry.bind
  intro main
  apply (quiet_vaultOpen main).attempt.bind
  intro isOpen
  split
  · exact Keeps.get.bind fun s => quiet_resealAll main _
  · exact Keeps.done _

theorem quiet_setDefault (workspace : Workspace) (id : String) :
    Keeps (quietly SameEntries) (setDefault workspace id) := by
  apply Keeps.get.bind
  intro s
  split
  · refine Keeps.bind (quiet_edit ?_) fun _ => quiet_persist forgetting_sameEntries
    exact fun _ => ⟨rfl, rfl⟩
  · exact Keeps.fail _

variable (calls : StoreCalls)

theorem quiet_moveHosts (from_ to_ : String) (hosts : List HostRecord) (moved : Bool) :
    Keeps (quietly SameEntries) (moveHosts calls from_ to_ hosts moved) := by
  induction hosts generalizing moved with
  | nil => exact Keeps.done _
  | cons host rest ih =>
    apply (quiet_moveBetween calls host.id from_ to_).attempt.bind
    intro arrived
    cases arrived with
    | error e => exact Keeps.done _
    | ok _ => exact ih true

theorem quiet_copyKeys (target : SpaceHandle) (keys : List KeyRecord) :
    Keeps (quietly SameEntries) (copyKeys calls target keys) := by
  induction keys with
  | nil => exact Keeps.done _
  | cons key rest ih => exact (quiet_keyIn calls key.id target).bind fun _ => ih

theorem quiet_copyGroups (target : SpaceHandle) (groups : List GroupRecord) :
    Keeps (quietly SameEntries) (copyGroups calls target groups) := by
  induction groups with
  | nil => exact Keeps.done _
  | cons group rest ih =>
    apply (quiet_onStore forgetting_sameEntries target _).attempt.bind
    intro made
    split
    · exact ih
    · exact ih
    · exact Keeps.fail _

theorem quiet_copyRest (gone target : SpaceHandle) : Keeps (quietly SameEntries) (copyRest calls gone target) := by
  apply (quiet_reading _).bind
  intro keys
  apply (quiet_copyKeys calls target keys).bind
  intro _
  exact (quiet_reading _).bind fun groups => quiet_copyGroups calls target groups

theorem quiet_carryOver (gone target : SpaceHandle) (moved : Bool) :
    Keeps (quietly SameEntries) (carryOver calls gone target moved) := by
  apply (quiet_reading _).attempt.bind
  intro listed
  cases listed with
  | error e => exact Keeps.done _
  | ok hosts =>
    apply (quiet_moveHosts calls gone.id target.id hosts moved).bind
    intro sent
    split
    · exact Keeps.done _
    · exact (quiet_copyRest calls gone target).attempt.bind fun _ => Keeps.done _

theorem quiet_noteLeaving (id : String) : Keeps (quietly SameEntries) (noteLeaving id) := by
  refine Keeps.bind (quiet_edit ?_) fun _ => ?_
  · exact fun _ => ⟨rfl, rfl⟩
  · apply (quiet_persist forgetting_sameEntries).attempt.bind
    intro written
    cases written with
    | ok _ => exact Keeps.done _
    | error e =>
      refine Keeps.bind (quiet_edit ?_) fun _ => Keeps.fail _
      exact fun _ => ⟨rfl, rfl⟩

theorem quiet_leave (gone target : SpaceHandle) : Keeps (quietly SameEntries) (leave calls gone target) := by
  have hfailed : ∀ (e : LocalError) (moved : Bool), Keeps (quietly SameEntries) (do
      if !moved then
        set fun inner => { inner with leaving := none }
        let _ ← persist.attempt
      fail e : SpacesScript Unit) := by
    intro e moved
    dsimp only
    split
    · refine Keeps.bind (quiet_edit ?_) fun _ => ?_
      · exact fun _ => ⟨rfl, rfl⟩
      · exact (quiet_persist forgetting_sameEntries).attempt.bind fun _ => Keeps.fail _
    · exact Keeps.fail _
  apply Keeps.get.bind
  intro s
  dsimp only
  split
  · apply (quiet_noteLeaving gone.id).bind
    intro _
    apply (quiet_carryOver calls gone target _).bind
    rintro ⟨e | _, moved⟩
    · exact hfailed e moved
    · exact Keeps.done _
  · apply (quiet_carryOver calls gone target _).bind
    rintro ⟨e | _, moved⟩
    · exact hfailed e moved
    · exact Keeps.done _

theorem quiet_makeMain (id : String) : Keeps (quietly SameEntries) (makeMain id) :=
  (quiet_swapMain id).bind fun _ => quiet_settleHandover forgetting_sameEntries

end quiet

end Spaces

namespace Folder

/-! ### What is kept of a run -/

def names (f : Folder) (path : StorePath) : Prop := path ∈ named f.spaces.paths f.spaces.inner

/-- The registry names what memory names, and so the setup of a store in it is done. -/
def Entered (f : Folder) (path : StorePath) : Prop := f.spaces.registry = .file f.spaces.inner.file ∧ f.names path

/-- The stores that reached the registry and that nobody took away since, after one more step. -/
def lastingAfter (lasting : StorePath → Prop) (f f' : Folder) (path : StorePath) : Prop :=
  (lasting path ∨ f'.Entered path) ∧ ¬ (f.names path ∧ ¬ f'.names path)

/-- Entries that a start would not pass over in silence. -/
structure Listed (entries : List RegistryEntry) : Prop where
  ids : (entries.map fun entry => entry.id).Nodup
  whole : wholeTeams entries = entries
  servers : ∀ entry ∈ entries, entry.isServer = true → entry.parent = none

/-- A store is named, or nothing is cleared away. -/
def Safe (paths : Paths) (aside : Bool) (inner : Inner) (path : StorePath) : Prop :=
  aside = true ∨ inner.unreadable = true ∨ path ∈ named paths inner

/-- The stores that last are safe as long as this process runs, and after a start. -/
structure Kept (lasting : StorePath → Prop) (f : Folder) : Prop where
  listed : Listed f.spaces.inner.entries
  memory : ∀ path, lasting path → Safe f.spaces.paths f.spaces.aside f.spaces.inner path
  disk : ∀ path, lasting path →
    Safe f.spaces.paths f.spaces.aside (Inner.ofDisk f.spaces.paths f.spaces.registry) path

/-- In a strict run nothing is taken from the list, and no store is deleted that lasts. A new id is new,
and a registry that was not read whole is set aside before another one takes its place. -/
def guarded (strict : Bool) : Contract Folder SpacesAsk SpacesAnswer (StorePath → Prop) where
  wrote := lastingAfter
  asked lasting _ _ _ := lasting
  rely _ f q a :=
    match q, a with
    | .draws, (draws : Draws) => ∀ id, draws.id 0 = some id → f.spaces.inner.has (uuidText id) = false
    | _, _ => True
  allowed _ f f' := f.spaces.inner.unreadable = true → f'.spaces.inner.unreadable = false → f.spaces.aside = true
  guarantee lasting f f' := strict = true → (∀ path, f.names path → f'.names path) ∧
    ∀ path ∈ f.stores, path ∉ f'.stores → ¬ lasting path
  may _ _ _ := True
  inv lasting f := Kept lasting f

/-! ### The registry as it is written -/

section written

variable {paths : Paths} {inner : Inner}

theorem planEntries_clean {entries : List RegistryEntry} (h : (planEntries paths entries).2 = false) :
    (planEntries paths entries).1 = entries := by
  have hstep : ∀ (rest : List RegistryEntry) (plan : List RegistryEntry × Bool),
      (rest.foldl (fun plan entry => if plannable paths plan.1 entry then (plan.1 ++ [entry], plan.2)
        else (plan.1, true)) plan).2 = false →
      plan.2 = false ∧ (rest.foldl (fun plan entry => if plannable paths plan.1 entry then (plan.1 ++ [entry], plan.2)
        else (plan.1, true)) plan).1 = plan.1 ++ rest := by
    intro rest
    induction rest with
    | nil => exact fun plan h => ⟨h, (List.append_nil _).symm⟩
    | cons entry rest ih =>
      intro plan h
      rw [List.foldl_cons] at h ⊢
      obtain ⟨hflag, hlist⟩ := ih _ h
      by_cases hplan : plannable paths plan.1 entry = true
      · rw [if_pos hplan] at hflag hlist ⊢
        exact ⟨hflag, by rw [hlist, List.append_assoc]; rfl⟩
      · rw [if_neg hplan] at hflag
        cases hflag
  exact (hstep entries ([], false) h).2

theorem named_opened (entries : List RegistryEntry) :
    (entries.map RegistryEntry.opened).filterMap (fun entry => paths.resolve entry.file) =
      entries.filterMap fun entry => paths.resolve entry.file := by
  rw [List.filterMap_map]
  rfl

/-- What memory names is safe once it is written. -/
theorem safe_written (hwhole : wholeTeams inner.entries = inner.entries) {path : StorePath} (aside : Bool)
    (hpath : path ∈ named paths inner) : Safe paths aside (Inner.ofDisk paths (.file inner.file)) path := by
  right
  have hread : readRegistry (.file inner.file) = .ok (some inner.file) := by simp [readRegistry, Inner.file]
  have hopening : Inner.opening paths (.file inner.file) = inner.file := by simp [Inner.opening, hread]
  have hspaces : inner.file.spaces = inner.entries := rfl
  rw [Inner.ofDisk]
  simp only [hopening, hspaces]
  split_ifs
  · cases hflag : (planEntries paths inner.entries).2 with
    | true => exact .inl (by rw [Inner.ofFile, Bool.true_or])
    | false =>
      right
      rw [planEntries_clean hflag, hwhole]
      change path ∈ (inner.entries.map RegistryEntry.opened).filterMap fun entry => paths.resolve entry.file
      rw [named_opened]
      exact hpath
  · exact .inl rfl

theorem listed_ofDisk (disk : OnDisk) : Listed (Inner.ofDisk paths disk).entries := by
  have hsound := Inner.ofDisk_sound paths disk
  refine ⟨?_, hsound.whole, fun entry hentry hserver => ?_⟩
  · rw [List.Nodup, List.pairwise_map]
    exact hsound.planned.distinct.imp fun h => h.1
  · have hkind : entry.kind = .server := by simpa [RegistryEntry.isServer] using hserver
    have hopened := hsound.opened entry hentry
    rw [← hopened]
    simp [RegistryEntry.opened, hkind]

end written

/-! ### Changes of the list -/

section listed

variable {entries : List RegistryEntry}

def serverIds (entries : List RegistryEntry) : List String := (entries.filter RegistryEntry.isServer).map (·.id)

theorem mem_serverIds {id : String} :
    id ∈ serverIds entries ↔ ∃ server ∈ entries, server.isServer = true ∧ server.id = id := by
  simp [serverIds, and_assoc]

theorem whole_iff : wholeTeams entries = entries ↔ ∀ entry ∈ entries, entry.whole (serverIds entries) = true :=
  List.filter_eq_self

theorem whole_of_parent {entry : RegistryEntry} {servers servers' : List String} (h : entry.whole servers = true)
    (hparent : ∀ parent, entry.parent = some parent → parent ∈ servers → parent ∈ servers') :
    entry.whole servers' = true := by
  cases hkind : entry.kind with
  | server => simp [RegistryEntry.whole, hkind]
  | team =>
    cases hof : entry.parent with
    | none => simp [RegistryEntry.whole, hkind, hof] at h
    | some parent =>
      simp only [RegistryEntry.whole, hkind, hof, Option.any_some, Bool.and_eq_true, List.contains_iff_mem] at h ⊢
      exact ⟨h.1, hparent parent hof h.2⟩

theorem Listed.push (h : Listed entries) {entry : RegistryEntry} (hnew : ∀ other ∈ entries, other.id ≠ entry.id)
    (hserver : entry.isServer = true → entry.parent = none)
    (hwhole : entry.whole (serverIds (entries ++ [entry])) = true) : Listed (entries ++ [entry]) where
  ids := by
    rw [List.map_append, List.nodup_append]
    refine ⟨h.ids, List.nodup_singleton _, fun id hid other hother => ?_⟩
    obtain ⟨old, hold, rfl⟩ := List.mem_map.mp hid
    rw [List.mem_singleton.mp hother]
    exact hnew old hold
  whole := by
    apply whole_iff.mpr
    intro other hother
    rcases List.mem_append.mp hother with hold | hlast
    · apply whole_of_parent (whole_iff.mp h.whole other hold)
      intro parent _ hparent
      obtain ⟨server, hmem, hserves⟩ := mem_serverIds.mp hparent
      exact mem_serverIds.mpr ⟨server, List.mem_append_left _ hmem, hserves⟩
    · rw [List.mem_singleton.mp hlast]
      exact hwhole
  servers other hother hserves := by
    rcases List.mem_append.mp hother with hold | hlast
    · exact h.servers other hold hserves
    · rw [List.mem_singleton.mp hlast] at hserves ⊢
      exact hserver hserves

/-- Entries go, and no server does that one of the teams left is on. -/
theorem Listed.filter (h : Listed entries) {keep : RegistryEntry → Bool} (hkeep : ∀ team ∈ entries, keep team = true →
    ∀ server ∈ entries, server.isServer = true → team.parent = some server.id → keep server = true) :
    Listed (entries.filter keep) where
  ids := h.ids.sublist (List.filter_sublist.map _)
  whole := by
    apply whole_iff.mpr
    intro team hteam
    obtain ⟨hmem, hstays⟩ := List.mem_filter.mp hteam
    apply whole_of_parent (whole_iff.mp h.whole team hmem)
    intro parent hof hparent
    obtain ⟨server, hserver, hserves, rfl⟩ := mem_serverIds.mp hparent
    have hthere : server ∈ entries.filter keep :=
      List.mem_filter.mpr ⟨hserver, hkeep team hmem hstays server hserver hserves hof⟩
    exact mem_serverIds.mpr ⟨server, hthere, hserves, rfl⟩
  servers entry hentry := h.servers entry (List.mem_of_mem_filter hentry)

theorem Listed.same_id (h : Listed entries) {a b : RegistryEntry} (ha : a ∈ entries) (hb : b ∈ entries)
    (hid : a.id = b.id) : a = b := List.inj_on_of_nodup_map h.ids ha hb hid

/-- A team goes. -/
theorem Listed.drop (h : Listed entries) {gone : RegistryEntry} (hgone : gone ∈ entries) (hteam : gone.isServer = false) :
    Listed (entries.filter fun entry => entry.id != gone.id) := by
  apply h.filter
  intro team _ _ server hserver hserves _
  have hne : server.id ≠ gone.id := by
    intro hid
    rw [h.same_id hserver hgone hid, hteam] at hserves
    cases hserves
  simpa using hne

/-- A server goes, with the teams on it. -/
theorem Listed.without (h : Listed entries) (id : String) :
    Listed (entries.filter fun entry => entry.id != id && entry.parent != some id) := by
  apply h.filter
  intro team _ hstays server hserver hserves hof
  simp only [Bool.and_eq_true, bne_iff_ne, ne_eq] at hstays ⊢
  refine ⟨fun hid => hstays.2 (hof.trans (congrArg some hid)), ?_⟩
  rw [h.servers server hserver hserves]
  simp

/-- A team's name and role change. -/
theorem Listed.restand {inner : Inner} (h : Listed inner.entries) (id : String) {standing : Standing}
    (hrole : standing.role.isSome = true) : Listed (restand id standing inner).entries := by
  let f : RegistryEntry → RegistryEntry := fun entry =>
    if entry.id = id then
      { entry with
        label := standing.label
        role := standing.role
        readOnly := !standing.role.any TeamRole.writes }
    else entry
  have hid : ∀ entry, (f entry).id = entry.id := fun entry => by simp only [f]; split <;> rfl
  have hserves : ∀ entry, (f entry).isServer = entry.isServer := fun entry => by simp only [f]; split <;> rfl
  have hparent : ∀ entry, (f entry).parent = entry.parent := fun entry => by simp only [f]; split <;> rfl
  have hservers : serverIds (inner.entries.map f) = serverIds inner.entries := by
    rw [serverIds, serverIds, List.filter_map, List.map_map]
    have hfilter : (RegistryEntry.isServer ∘ f) = RegistryEntry.isServer := funext hserves
    rw [hfilter]
    exact List.map_congr_left fun entry _ => hid entry
  have hentries : (Folder.restand id standing inner).entries = inner.entries.map f := rfl
  rw [hentries]
  refine ⟨?_, whole_iff.mpr fun entry hentry => ?_, fun entry hentry hserver => ?_⟩
  · rw [List.map_map]
    exact (List.map_congr_left fun entry _ => hid entry) ▸ h.ids
  · obtain ⟨old, hold, rfl⟩ := List.mem_map.mp hentry
    have hwhole := whole_iff.mp h.whole old hold
    rw [hservers]
    simp only [f]
    split
    · cases hkind : old.kind with
      | server => simp [RegistryEntry.whole]
      | team =>
        simp only [RegistryEntry.whole, hkind, Bool.and_eq_true] at hwhole ⊢
        exact ⟨⟨hwhole.1.1, hrole⟩, hwhole.2⟩
    · exact hwhole
  · obtain ⟨old, hold, rfl⟩ := List.mem_map.mp hentry
    rw [hparent]
    exact h.servers old hold ((hserves old).symm.trans hserver)

end listed

/-! ### What a step does to it -/

section steps

variable {lasting : StorePath → Prop} {f f' : Folder}

/-- A step that leaves memory and the registry as they are. -/
structure Beside (f f' : Folder) : Prop where
  paths : f'.spaces.paths = f.spaces.paths
  inner : f'.spaces.inner = f.spaces.inner
  aside : f'.spaces.aside = f.spaces.aside
  registry : f'.spaces.registry = f.spaces.registry

theorem Beside.names_iff (h : Beside f f') (path : StorePath) : f'.names path ↔ f.names path := by
  rw [names, names, h.paths, h.inner]

theorem Kept.beside (h : Kept lasting f) (hstep : Beside f f') : Kept (lastingAfter lasting f f') f' where
  listed := hstep.inner ▸ h.listed
  memory path hpath := by
    rw [hstep.paths, hstep.aside, hstep.inner]
    obtain hold | ⟨-, hnamed⟩ := hpath.1
    · exact h.memory path hold
    · exact .inr (.inr ((hstep.names_iff path).mp hnamed))
  disk path hpath := by
    rw [hstep.paths, hstep.aside, hstep.registry]
    obtain hold | ⟨hregistry, hnamed⟩ := hpath.1
    · exact h.disk path hold
    · rw [hstep.registry, hstep.inner] at hregistry
      rw [hregistry]
      exact safe_written h.listed.whole _ ((hstep.names_iff path).mp hnamed)

/-- A step on the spaces that leaves their list alone. -/
theorem Kept.quiet (h : Kept lasting f) {spaces : Spaces} (hstep : Spaces.Quiet Spaces.SameEntries f.spaces spaces) :
    Kept (lastingAfter lasting f (setSpaces spaces f)) (setSpaces spaces f) := by
  obtain ⟨hpaths, hentries, hflag, hdisk⟩ := hstep
  have hnames : ∀ path, (setSpaces spaces f).names path ↔ f.names path := by
    intro path
    rw [names, names, named, named]
    change path ∈ spaces.inner.entries.filterMap (fun entry => spaces.paths.resolve entry.file) ↔ _
    rw [hentries, hpaths]
  have haside : f.spaces.aside = true → spaces.aside = true := by
    intro h
    obtain hset | ⟨hsame, -⟩ := hdisk
    · exact hset
    · exact hsame.trans h
  have hlisted : Listed spaces.inner.entries := hentries ▸ h.listed
  have hnamed : ∀ path, f.names path → path ∈ named spaces.paths spaces.inner := fun path => (hnames path).mpr
  refine ⟨hlisted, fun path hpath => ?_, fun path hpath => ?_⟩
  · obtain hold | ⟨-, hentered⟩ := hpath.1
    · obtain hset | hread | hin := h.memory path hold
      · exact .inl (haside hset)
      · obtain hsame | ⟨-, hset⟩ := hflag
        · exact .inr (.inl (hsame.trans hread))
        · exact .inl (haside hset)
      · exact .inr (.inr (hnamed path hin))
    · exact .inr (.inr hentered)
  · change Safe spaces.paths spaces.aside (Inner.ofDisk spaces.paths spaces.registry) path
    obtain hold | ⟨hregistry, hentered⟩ := hpath.1
    · obtain hset | ⟨hsame, hkept | ⟨hread, hinner, hwritten⟩⟩ := hdisk
      · exact .inl hset
      · rw [hsame, hkept, hpaths]
        exact h.disk path hold
      · rw [hwritten]
        obtain hset | hunread | hin := h.memory path hold
        · exact .inl (haside hset)
        · rw [hread] at hunread
          cases hunread
        · exact safe_written hlisted.whole _ (hnamed path hin)
    · have hregistry' : spaces.registry = .file spaces.inner.file := hregistry
      rw [hregistry']
      exact safe_written hlisted.whole _ hentered

/-- A change of the list in memory: what is no longer named was taken away. -/
theorem Kept.edited (h : Kept lasting f) {edit : Inner → Inner}
    (hflag : (edit f.spaces.inner).unreadable = f.spaces.inner.unreadable)
    (hlisted : Listed (edit f.spaces.inner).entries) :
    Kept (lastingAfter lasting f (setSpaces (f.spaces.edit edit) f)) (setSpaces (f.spaces.edit edit) f) where
  listed := hlisted
  memory path hpath := by
    obtain ⟨hold | ⟨-, hentered⟩, hstays⟩ := hpath
    · obtain hset | hread | hin := h.memory path hold
      · exact .inl hset
      · exact .inr (.inl (hflag.trans hread))
      · exact .inr (.inr (Classical.not_not.mp fun hgone => hstays ⟨hin, hgone⟩))
    · exact .inr (.inr hentered)
  disk path hpath := by
    obtain ⟨hold | ⟨hregistry, hentered⟩, -⟩ := hpath
    · exact h.disk path hold
    · rw [hregistry]
      exact safe_written hlisted.whole _ hentered

end steps

/-! ### What the programs keep -/

section programs

variable {strict : Bool}

/-- The list, and where what it names lies, is as it was. -/
def AsListed (_ : StorePath → Prop) (f : Folder) (_ : StorePath → Prop) (f' : Folder) : Prop :=
  f'.spaces.paths = f.spaces.paths ∧ f'.spaces.inner.entries = f.spaces.inner.entries

theorem composes_asListed : Composes AsListed where
  refl _ _ := ⟨rfl, rfl⟩
  trans _ _ _ _ _ _ h h' := ⟨h'.1.trans h.1, h'.2.trans h.2⟩

theorem within_onSpaces {α : Type} {p : SpacesScript α} (hp : Keeps (Spaces.quietly Spaces.SameEntries) p) :
    Within (guarded strict) AsListed (onSpaces p) := by
  intro g f hkept
  have hput : ∀ g (t : Folder) part, Kept g t → Spaces.Quiet Spaces.SameEntries t.spaces part →
      (guarded strict).guarantee g t (setSpaces part t) ∧
        Kept (lastingAfter g t (setSpaces part t)) (setSpaces part t) ∧
          AsListed g t (lastingAfter g t (setSpaces part t)) (setSpaces part t) := by
    intro g t part hkept hquiet
    have hnames : ∀ path, t.names path → (setSpaces part t).names path := by
      intro path hpath
      show path ∈ part.inner.entries.filterMap fun entry => part.paths.resolve entry.file
      rw [show part.inner.entries = t.spaces.inner.entries from hquiet.inner, hquiet.paths]
      exact hpath
    exact ⟨fun _ => ⟨hnames, fun path hpath hgone => absurd hpath hgone⟩, hkept.quiet hquiet, hquiet.paths,
      hquiet.inner⟩
  refine wp_mono (wp_onPart _ _ composes_asListed (fun _ _ => rfl) (fun _ _ _ h => h)
    (fun g t part hinv _ hquiet => hput g t part hinv hquiet) (fun _ _ _ _ _ => trivial)
    (fun g t q hinv => ⟨trivial, fun a _ => ⟨hinv, rfl, rfl⟩⟩) (hp () f.spaces trivial) hkept) ?_
  exact fun _ _ _ h => ⟨h.1, h.2.1⟩

theorem keeps_onSpaces {α : Type} {p : SpacesScript α} (hp : Keeps (Spaces.quietly Spaces.SameEntries) p) :
    Keeps (guarded strict) (onSpaces p) := (within_onSpaces hp).keeps

/-- A step beside the registry that deletes no store. -/
structure Adds (f f' : Folder) : Prop extends Beside f f' where
  stores : ∀ path ∈ f.stores, path ∈ f'.stores

theorem Adds.holds {lasting : StorePath → Prop} {f f' : Folder} (h : Adds f f') (hkept : Kept lasting f) :
    (guarded strict).guarantee lasting f f' ∧ Kept (lastingAfter lasting f f') f' ∧
      AsListed lasting f (lastingAfter lasting f f') f' :=
  ⟨fun _ => ⟨fun path => (h.names_iff path).mpr, fun path hpath hgone => absurd (h.stores path hpath) hgone⟩,
    hkept.beside h.toBeside, h.paths, congrArg Inner.entries h.inner⟩

theorem within_modify {e : LocalError} {step : Folder → Folder} (hstep : ∀ f, Adds f (step f)) :
    Within (guarded strict) AsListed (modify e step : FolderScript Unit) :=
  Within.modify composes_asListed fun _ f hkept _ => (hstep f).holds hkept

theorem within_trying {step : Folder → Folder} (hstep : ∀ f, Adds f (step f)) :
    Within (guarded strict) AsListed (trying step) := by
  intro g f hkept
  refine ⟨fun _ => ?_, hkept, rfl, rfl⟩
  obtain ⟨hkeeps, hkept', hlisted⟩ : (guarded strict).guarantee g f (step f) ∧ _ ∧ _ := (hstep f).holds hkept
  exact ⟨hkeeps, hkept', hkept', hlisted⟩

theorem adds_mark (id : Uuid) (f : Folder) : Adds f (mark id f) := ⟨⟨rfl, rfl, rfl, rfl⟩, fun _ h => h⟩

theorem adds_unmark (id : Uuid) (f : Folder) : Adds f (unmark id f) := ⟨⟨rfl, rfl, rfl, rfl⟩, fun _ h => h⟩

theorem adds_create (path : StorePath) (f : Folder) : Adds f (create path f) := by
  unfold create
  split
  · exact ⟨⟨rfl, rfl, rfl, rfl⟩, fun _ h => h⟩
  · exact ⟨⟨rfl, rfl, rfl, rfl⟩, fun _ h => List.mem_cons_of_mem _ h⟩

theorem beside_remove (path : StorePath) (f : Folder) : Beside f (remove path f) := ⟨rfl, rfl, rfl, rfl⟩

/-- Outside a strict run any store may go. -/
theorem within_remove (path : StorePath) : Within (guarded false) AsListed (removeStoreFiles path) := by
  intro g f hkept
  have hkept' := hkept.beside (beside_remove path f)
  exact ⟨fun _ => ⟨nofun, hkept', hkept', rfl, rfl⟩, hkept, rfl, rfl⟩

theorem within_query (q : SpacesAsk) : Within (guarded strict) AsListed (query q : FolderScript (SpacesAnswer q)) :=
  Within.query fun _ _ hkept => ⟨trivial, fun _ _ => ⟨hkept, rfl, rfl⟩⟩

theorem within_settled (id : String) : Within (guarded strict) AsListed (settled id) := by
  unfold settled
  split
  · exact Within.done composes_asListed _
  · exact within_trying (adds_unmark _)

theorem within_beginStore (id : String) : Within (guarded strict) AsListed (beginStore id) := by
  apply Within.bind composes_asListed (Within.get composes_asListed)
  intro f
  apply Within.bind composes_asListed (Within.ofExcept composes_asListed _)
  intro path
  apply Within.bind composes_asListed (Within.ofExcept composes_asListed _)
  intro marker
  exact Within.bind composes_asListed (within_modify (adds_mark marker)) fun _ => within_modify (adds_create path)

theorem within_discard (id : String) : Within (guarded false) AsListed (discard id) := by
  apply Within.bind composes_asListed (Within.get composes_asListed)
  intro f
  dsimp only
  cases f.spaces.inner.has id with
  | true => exact Within.done composes_asListed _
  | false =>
    cases f.spaces.paths.resolve (storeFile id) with
    | none =>
      show Within (guarded false) AsListed ((pure () : FolderScript Unit) >>= fun _ => settled id)
      exact Within.bind composes_asListed (Within.done composes_asListed ()) fun _ => within_settled id
    | some path =>
      show Within (guarded false) AsListed (removeStoreFiles path >>= fun _ => settled id)
      exact Within.bind composes_asListed (within_remove path) fun _ => within_settled id

theorem onSpaces_bind {α β : Type} (p : SpacesScript α) (next : α → SpacesScript β) :
    onSpaces (p >>= next) = onSpaces p >>= fun a => onSpaces (next a) := onPart_bind _ _ p next

theorem onSpaces_attempt {α : Type} (p : SpacesScript α) : onSpaces p.attempt = (onSpaces p).attempt :=
  onPart_attempt _ _ p

variable {lasting : StorePath → Prop} {f : Folder}

/-- A change of the list in memory. -/
theorem wp_onSpaces_set {edit : Inner → Inner} {post : Except LocalError Unit → (StorePath → Prop) → Folder → Prop}
    (hkept : Kept lasting f) (hflag : (edit f.spaces.inner).unreadable = f.spaces.inner.unreadable)
    (hlisted : Listed (edit f.spaces.inner).entries)
    (hpost : ∀ lasting', Kept lasting' (setSpaces (f.spaces.edit edit) f) →
      post (.ok ()) lasting' (setSpaces (f.spaces.edit edit) f)) :
    (onSpaces (Spaces.set edit)).wp (guarded false) post lasting f := by
  have hkept' := hkept.edited hflag hlisted
  exact ⟨fun _ => ⟨nofun, hkept', hpost _ hkept'⟩, trivial, nofun⟩

theorem wp_onSpaces_getSpace {id : String} {post : Except LocalError SpaceHandle → (StorePath → Prop) → Folder → Prop}
    (hfail : ∀ e, post (.error e) lasting f)
    (hok : ∀ space, f.spaces.inner.get id = some space → post (.ok space) lasting f) :
    (onSpaces (Spaces.getSpace id)).wp (guarded strict) post lasting f := by
  show (onPart (·.spaces) setSpaces (ofExcept ((f.spaces.inner.get id).elim (.error Spaces.unknownSpace) .ok))).wp
    (guarded strict) post lasting f
  cases hget : f.spaces.inner.get id with
  | none => exact hfail _
  | some space => exact hok space hget

theorem within_persist : Within (guarded strict) AsListed (onSpaces Spaces.persist) :=
  within_onSpaces (Spaces.quiet_persist Spaces.forgetting_sameEntries)

/-- A new entry joins the list, and leaves it again if it could not be written. -/
theorem wp_enter {entry : RegistryEntry} (hkept : Kept lasting f) (hnew : f.spaces.inner.has entry.id = false)
    (hlisted : Listed (f.spaces.inner.entries ++ [entry])) :
    (onSpaces (enter entry)).wp (guarded false) (fun _ => Kept) lasting f := by
  rw [enter, onSpaces_bind, wp_bind]
  apply wp_onSpaces_set hkept rfl hlisted
  intro lasting' hkept'
  rw [onSpaces_bind, onSpaces_attempt, wp_bind]
  apply within_persist.attempt.wp hkept'
  intro written g t hkept'' hsame
  cases written with
  | error e => exact hkept''
  | ok written =>
    cases written with
    | ok _ => exact hkept''
    | error e =>
      show (onSpaces (Spaces.set (drop entry.id) >>= fun _ => fail e)).wp _ _ g t
      rw [onSpaces_bind, wp_bind]
      apply wp_onSpaces_set hkept'' rfl
      · -- What is left is what there was.
        have hentries : t.spaces.inner.entries = f.spaces.inner.entries ++ [entry] := hsame.2
        have hkeep : ∀ other ∈ f.spaces.inner.entries, (other.id != entry.id) = true := by
          simpa [Inner.has] using hnew
        show Listed (t.spaces.inner.entries.filter fun other => other.id != entry.id)
        rw [hentries, List.filter_append, List.filter_eq_self.mpr hkeep]
        simpa using hkept.listed
      · exact fun _ hkept''' => hkept'''

theorem listed_push {entry : RegistryEntry} (hkept : Kept lasting f) (hnew : f.spaces.inner.has entry.id = false)
    (hserver : entry.isServer = true → entry.parent = none)
    (hwhole : entry.whole (serverIds (f.spaces.inner.entries ++ [entry])) = true) :
    Listed (f.spaces.inner.entries ++ [entry]) := by
  apply hkept.listed.push _ hserver hwhole
  simpa [Inner.has] using hnew

theorem keeps_prepare : Keeps (guarded strict) prepare := by
  apply Keeps.get.bind
  intro f
  split
  · apply Keeps.bind
    · apply (within_query SpacesAsk.draws).keeps.bind
      intro draws
      split
      · exact Keeps.fail _
      · exact Keeps.done _
    · exact fun id => (within_beginStore id).keeps
  · exact Keeps.fail _

theorem keeps_register (id : String) : Keeps (guarded false) (register id) := by
  intro lasting f hkept
  have hrest : Keeps (guarded false) (settled id >>= fun _ => onSpaces Spaces.resealChain) :=
    (within_settled id).keeps.bind fun _ => keeps_onSpaces Spaces.quiet_resealChain
  rw [register, wp_bind, wp_get]
  dsimp only
  split_ifs with hvalid hroom hhas
  · exact hkept
  · exact hkept
  · exact hkept
  · have hnew : f.spaces.inner.has (serverEntry id).id = false := (Bool.not_eq_true _).mp hhas
    rw [wp_bind]
    refine wp_mono (wp_enter hkept hnew (listed_push hkept hnew (fun _ => rfl) rfl)) fun r g t hkept' => ?_
    cases r with
    | error e => exact hkept'
    | ok _ => exact hrest g t hkept'

theorem within_beginTeam (teamBegin : StoreScript Unit) (entry : RegistryEntry) :
    Within (guarded strict) AsListed (beginTeam teamBegin entry) :=
  Within.bind composes_asListed (within_beginStore entry.id) fun _ =>
    within_onSpaces (Spaces.quiet_onStore Spaces.forgetting_sameEntries _ teamBegin)

/-- A team is entered, and what was made of it goes if it could not be. -/
theorem wp_setUpTeam {teamBegin : StoreScript Unit} {entry : RegistryEntry} (hkept : Kept lasting f)
    (hnew : f.spaces.inner.has entry.id = false) (hserver : entry.isServer = true → entry.parent = none)
    (hwhole : entry.whole (serverIds (f.spaces.inner.entries ++ [entry])) = true) :
    (setUpTeam teamBegin entry).wp (guarded false) (fun _ => Kept) lasting f := by
  have hrest : Keeps (guarded false) (do
      settled entry.id
      onSpaces Spaces.resealChain
      let _ ← onSpaces (Spaces.getSpace entry.id) : FolderScript Unit) := by
    apply (within_settled entry.id).keeps.bind
    intro _
    apply (keeps_onSpaces Spaces.quiet_resealChain).bind
    intro _
    exact (keeps_onSpaces (Spaces.quiet_getSpace entry.id)).bind fun _ => Keeps.done _
  rw [setUpTeam, wp_bind]
  apply (within_beginTeam teamBegin entry).attempt.wp hkept
  intro begun g t hkept' hsame
  rcases begun with e | e | _
  · exact hkept'
  · show (discard entry.id >>= fun _ => _).wp _ _ g t
    exact ((within_discard entry.id).keeps.bind fun _ => Keeps.fail e) g t hkept'
  · have hnew' : t.spaces.inner.has entry.id = false := by
      rw [Inner.has, hsame.2]
      exact hnew
    have hlisted : Listed (t.spaces.inner.entries ++ [entry]) := by
      apply listed_push hkept' hnew' hserver
      rw [hsame.2]
      exact hwhole
    show ((onSpaces (enter entry)).attempt >>= fun _ => _).wp _ _ g t
    rw [wp_bind, wp_attempt]
    refine wp_mono (wp_enter hkept' hnew' hlisted) fun entered g u hkept'' => ?_
    cases entered with
    | error e =>
      show (onSpaces (Spaces.lockVault entry) >>= fun _ => discard entry.id >>= fun _ => _).wp _ _ g u
      apply ((keeps_onSpaces (Spaces.quiet_lockVault entry)).bind _) g u hkept''
      exact fun _ => (within_discard entry.id).keeps.bind fun _ => Keeps.fail e
    | ok _ => exact hrest g u hkept''

/-- A new id is new to the list. -/
theorem wp_newId {post : Except LocalError String → (StorePath → Prop) → Folder → Prop} (hkept : Kept lasting f)
    (hfail : ∀ e, post (.error e) lasting f)
    (hok : ∀ id, f.spaces.inner.has id = false → post (.ok id) lasting f) :
    newId.wp (guarded strict) post lasting f := by
  rw [newId, wp_bind, wp_query]
  refine ⟨trivial, fun draws hrely => ⟨hkept, ?_⟩⟩
  dsimp only
  cases hdraw : draws.id 0 with
  | none => exact hfail _
  | some id => exact hok _ (hrely id hdraw)

theorem keeps_addTeam (teamBegin : StoreScript Unit) (server : String) (team : Uuid) (name : String)
    (role : TeamRole) : Keeps (guarded false) (addTeam teamBegin server team name role) := by
  intro lasting f hkept
  rw [addTeam, wp_bind, wp_get]
  dsimp only
  split_ifs with hserver hhas hroom
  · exact hkept
  · exact hkept
  · exact hkept
  · have hthere : server ∈ serverIds f.spaces.inner.entries := by
      simpa [Inner.isServer, mem_serverIds, and_comm] using hserver
    rw [wp_bind]
    apply wp_newId hkept fun _ => hkept
    intro id hnew
    have hstays : server ∈ serverIds (f.spaces.inner.entries ++ [teamEntry id server team name role]) := by
      obtain ⟨entry, hmem, hserves⟩ := mem_serverIds.mp hthere
      exact mem_serverIds.mpr ⟨entry, List.mem_append_left _ hmem, hserves⟩
    have hnoServer : (teamEntry id server team name role).isServer = false := rfl
    apply wp_setUpTeam hkept
    · exact hnew
    · intro hserves
      rw [hnoServer] at hserves
      cases hserves
    · simpa [RegistryEntry.whole, teamEntry] using hstays

/-- A look changes nothing. -/
theorem wp_onSpaces_get {α : Type} {k : Spaces → SpacesScript α} {post : Except LocalError α → (StorePath → Prop) → Folder → Prop}
    (h : (onSpaces (k f.spaces)).wp (guarded strict) post lasting f) :
    (onSpaces (get >>= k)).wp (guarded strict) post lasting f := h

theorem keeps_updateTeam (id name : String) (role : TeamRole) :
    Keeps (guarded false) (onSpaces (updateTeam id name role)) := by
  intro lasting f hkept
  rw [updateTeam]
  apply wp_onSpaces_get
  dsimp only
  cases hfind : f.spaces.inner.entries.find? fun entry => entry.id == id && !entry.isServer with
  | none => exact hkept
  | some entry =>
    dsimp only
    split
    · exact hkept
    · have hteam : entry.isServer = false := by
        have hfound := List.find?_some hfind
        simp only [Bool.and_eq_true] at hfound
        simpa using hfound.2
      have hrole : entry.role.isSome = true := by
        have hwhole := whole_iff.mp hkept.listed.whole entry (List.mem_of_find?_eq_some hfind)
        cases hkind : entry.kind with
        | server => simp [RegistryEntry.isServer, hkind] at hteam
        | team =>
          simp only [RegistryEntry.whole, hkind, Bool.and_eq_true] at hwhole
          exact hwhole.1.2
      rw [onSpaces_bind, wp_bind]
      apply wp_onSpaces_set hkept rfl (hkept.listed.restand id rfl)
      intro lasting' hkept'
      rw [onSpaces_bind, onSpaces_attempt, wp_bind]
      apply within_persist.attempt.wp hkept'
      intro written g t hkept'' _
      rcases written with e | e | _
      · exact hkept''
      · show (onSpaces (Spaces.set (restand id (standingOf entry)) >>= fun _ => fail e)).wp _ _ g t
        rw [onSpaces_bind, wp_bind]
        exact wp_onSpaces_set hkept'' rfl (hkept''.listed.restand id hrole) fun _ hkept''' => hkept'''
      · exact hkept''

theorem within_removeMarked (id : String) (path : StorePath) : Within (guarded false) AsListed (removeMarked id path) := by
  unfold removeMarked
  split
  · exact within_remove path
  · apply Within.bind composes_asListed (within_trying (adds_mark _))
    intro _
    apply Within.bind composes_asListed (within_remove path)
    intro _
    apply Within.bind composes_asListed (Within.get composes_asListed)
    intro f
    split
    · exact Within.done composes_asListed _
    · exact within_trying (adds_unmark _)

theorem keeps_removeTeams (teams : List (RegistryEntry × StorePath)) : Keeps (guarded false) (removeTeams teams) := by
  induction teams with
  | nil => exact Keeps.done _
  | cons team rest ih =>
    apply (keeps_onSpaces (Spaces.quiet_lockVault team.1)).bind
    intro _
    exact (within_removeMarked team.1.id team.2).keeps.bind fun _ => ih

theorem keeps_takeAway (gone : SpaceHandle) (rest : String) : Keeps (guarded false) (takeAway gone rest) := by
  intro lasting f hkept
  rw [takeAway, wp_bind, wp_get]
  dsimp only
  rw [wp_bind]
  apply wp_onSpaces_set hkept rfl (hkept.listed.without gone.id)
  intro lasting' hkept'
  refine (?_ : Keeps (guarded false) _) lasting' _ hkept'
  apply within_persist.keeps.bind
  intro _
  apply (keeps_onSpaces (Spaces.quiet_lockVault gone.toRegistryEntry)).bind
  intro _
  split
  · exact keeps_removeTeams _
  · next path _ => exact (within_remove path).keeps.bind fun _ => keeps_removeTeams _

variable (calls : StoreCalls)

theorem keeps_removeServer (id : String) (keep : Bool) : Keeps (guarded false) (removeServer calls id keep) := by
  have hsecond : ∀ gone rest : SpaceHandle, Keeps (guarded false) (do
      if gone.main then onSpaces (Spaces.makeMain rest.id)
      takeAway gone rest.id : FolderScript Unit) := by
    intro gone rest
    dsimp only
    split
    · exact (keeps_onSpaces (Spaces.quiet_makeMain rest.id)).bind fun _ => keeps_takeAway gone rest.id
    · exact keeps_takeAway gone rest.id
  apply (keeps_onSpaces (Spaces.quiet_getSpace id)).bind
  intro gone
  split
  · exact Keeps.fail _
  · apply Keeps.get.bind
    intro f
    split
    · exact Keeps.fail _
    · dsimp only
      split
      · exact (keeps_onSpaces (Spaces.quiet_leave calls gone _)).bind fun _ => hsecond gone _
      · exact hsecond gone _

theorem keeps_removeTeam (id : String) : Keeps (guarded false) (removeTeam calls id) := by
  intro lasting f hkept
  rw [removeTeam, wp_bind]
  apply wp_onSpaces_getSpace
  · exact fun _ => hkept
  · intro gone hget
    obtain ⟨entry, hmem, hid, rfl⟩ := Inner.get_eq_some hget
    dsimp only
    split
    · exact hkept
    · next hteam =>
      rw [wp_bind]
      apply (within_onSpaces (Spaces.quiet_recover Spaces.forgetting_sameEntries calls)).wp hkept
      intro recovered g t hkept' hsame
      cases recovered with
      | error e => exact hkept'
      | ok _ =>
        have hlisted : Listed ((drop id t.spaces.inner).entries) := by
          have hthere : entry ∈ t.spaces.inner.entries := hsame.2 ▸ hmem
          rw [← hid]
          exact hkept'.listed.drop hthere ((Bool.not_eq_true _).mp hteam)
        dsimp only
        rw [wp_bind, wp_get]
        dsimp only
        rw [wp_bind]
        apply wp_onSpaces_set hkept' rfl hlisted
        intro lasting' hkept''
        refine (?_ : Keeps (guarded false) _) lasting' _ hkept''
        apply within_persist.keeps.bind
        intro _
        apply (keeps_onSpaces (Spaces.quiet_lockVault (f.spaces.inner.handle entry).toRegistryEntry)).bind
        intro _
        split
        · exact Keeps.done _
        · next path _ => exact (within_removeMarked id path).keeps

/-! ### A start -/

theorem keeps_openStores (entries : List RegistryEntry) : Keeps (guarded strict) (openStores entries) := by
  induction entries with
  | nil => exact Keeps.done _
  | cons entry rest ih =>
    apply Keeps.get.bind
    intro f
    exact (within_modify (adds_create _)).keeps.bind fun _ => ih

/-- What a start clears away is not named, so it does not last. -/
theorem wp_clearAway (markers : List Uuid) (hkept : Kept lasting f) (haside : f.spaces.aside = false)
    (hread : f.spaces.inner.unreadable = false) :
    (clearAway (named f.spaces.paths f.spaces.inner) markers).wp (guarded true) (fun _ => Kept) lasting f := by
  induction markers generalizing lasting f with
  | nil => exact hkept
  | cons id rest ih =>
    have hunmark : ∀ lasting' t, Kept lasting' t → Beside f t → (do
        trying (unmark id)
        clearAway (named f.spaces.paths f.spaces.inner) rest : FolderScript Unit).wp (guarded true) (fun _ => Kept)
          lasting' t := by
      intro lasting' t hkept' hbeside
      have hnext : ∀ lasting'' u, Kept lasting'' u → Beside f u →
          (clearAway (named f.spaces.paths f.spaces.inner) rest).wp (guarded true) (fun _ => Kept) lasting'' u := by
        intro lasting'' u hkept'' hbeside'
        rw [← hbeside'.paths, ← hbeside'.inner]
        apply ih hkept''
        · rw [hbeside'.aside, haside]
        · rw [hbeside'.inner, hread]
      obtain ⟨hkeeps, hkept'', -⟩ : (guarded true).guarantee lasting' t (unmark id t) ∧ _ ∧ _ :=
        (adds_unmark id t).holds hkept'
      refine ⟨fun _ => ⟨hkeeps, hkept'', hnext _ _ hkept'' ?_⟩, hnext _ _ hkept' hbeside⟩
      exact ⟨hbeside.paths, hbeside.inner, hbeside.aside, hbeside.registry⟩
    rw [clearAway]
    dsimp only
    split
    · exact hunmark lasting f hkept ⟨rfl, rfl, rfl, rfl⟩
    · next hunnamed =>
      have hkept' := hkept.beside (beside_remove (.space id) f)
      have hgone : ∀ path ∈ f.stores, path ∉ (remove (.space id) f).stores → ¬ lasting path := by
        intro path hpath hremoved hlasts
        have hpath : path = .space id := by
          by_contra hother
          apply hremoved
          simpa [remove] using ⟨hpath, hother⟩
        rcases hkept.memory path hlasts with hset | hflag | hin
        · rw [haside] at hset
          cases hset
        · rw [hread] at hflag
          cases hflag
        · exact hunnamed (hpath ▸ hin)
      have hnames : ∀ path, f.names path → (remove (.space id) f).names path := fun _ h => h
      refine ⟨fun _ => ⟨fun _ => ⟨hnames, hgone⟩, hkept', hunmark _ _ hkept' (beside_remove _ _)⟩, ?_⟩
      exact hunmark lasting f hkept ⟨rfl, rfl, rfl, rfl⟩

theorem wp_sweepLeftovers (hkept : Kept lasting f) (hread : f.spaces.inner.unreadable = false) :
    sweepLeftovers.wp (guarded true) (fun _ => Kept) lasting f := by
  rw [sweepLeftovers, wp_bind, wp_get]
  dsimp only
  split
  · exact hkept
  · next haside =>
    rw [wp_bind, wp_query]
    refine ⟨trivial, fun reads _ => ⟨hkept, ?_⟩⟩
    cases reads with
    | false => exact hkept
    | true => exact wp_clearAway f.markers hkept ((Bool.not_eq_true _).mp haside) hread

theorem keeps_opening : Keeps (guarded true) (opening calls) := by
  have hsettle : Keeps (guarded true) (do
      onSpaces Spaces.settleHandover
      onSpaces (Spaces.recover calls) : FolderScript Unit) :=
    (keeps_onSpaces (Spaces.quiet_settleHandover Spaces.forgetting_sameEntries)).bind fun _ =>
      keeps_onSpaces (Spaces.quiet_recover Spaces.forgetting_sameEntries calls)
  apply Keeps.get.bind
  intro f
  apply (keeps_openStores _).bind
  intro _ lasting t hkept
  rw [wp_bind, wp_get]
  dsimp only
  split
  · next hread =>
    rw [wp_bind]
    refine wp_mono (wp_sweepLeftovers hkept (by simpa using hread)) fun r g u hkept' => ?_
    cases r with
    | error e => exact hkept'
    | ok _ => exact hsettle g u hkept'
  · exact hsettle lasting t hkept

end programs

/-! ### Whole sessions -/

/-- What can be asked of a device while it runs; `opening` is what a start does. -/
inductive Request
  | prepare
  | register (id : String)
  | discard (id : String)
  | addTeam (server : String) (team : Uuid) (name : String) (role : TeamRole)
  | updateTeam (id name : String) (role : TeamRole)
  | removeServer (id : String) (keep : Bool)
  | removeTeam (id : String)
  | setDefault (workspace : Workspace) (id : String)
  | makeMain (id : String)
  | moveHost (id : Uuid) (from_ to_ : String)
  | copyKey (key : Uuid) (target : SpaceHandle)
  | resealChain
  | opening

/-- What a request runs; a store of a team begins the way its key has it begin. -/
def Request.program (calls : StoreCalls) (teamBegin : Uuid → StoreScript Unit) : Request → FolderScript Unit
  | .prepare => Folder.prepare
  | .register id => Folder.register id
  | .discard id => Folder.discard id
  | .addTeam server team name role => Folder.addTeam (teamBegin team) server team name role
  | .updateTeam id name role => do
      let _ ← onSpaces (Folder.updateTeam id name role)
  | .removeServer id keep => Folder.removeServer calls id keep
  | .removeTeam id => Folder.removeTeam calls id
  | .setDefault workspace id => onSpaces (Spaces.setDefault workspace id)
  | .makeMain id => onSpaces (Spaces.makeMain id)
  | .moveHost id from_ to_ => do
      let _ ← onSpaces (Spaces.moveBetween calls id from_ to_)
  | .copyKey key target => do
      let _ ← onSpaces (Spaces.keyIn calls key target)
  | .resealChain => onSpaces Spaces.resealChain
  | .opening => Folder.opening calls

/-- A process ends and another one starts. -/
def restarts (lasting : StorePath → Prop) (f : Folder) (lasting' : StorePath → Prop) (f' : Folder) : Prop :=
  lasting' = lasting ∧ f' = reopened f

theorem stricter_guarded : (guarded true).Stricter (guarded false) where
  wrote := rfl
  asked := rfl
  rely _ _ _ _ h := h
  allowed _ _ _ h := h
  guarantee _ _ _ _ := nofun
  may _ _ _ h := h
  inv _ _ h := h

variable (calls : StoreCalls) (teamBegin : Uuid → StoreScript Unit)

theorem keeps_program (request : Request) : Keeps (guarded false) (request.program calls teamBegin) := by
  cases request with
  | prepare => exact keeps_prepare
  | register id => exact keeps_register id
  | discard id => exact (within_discard id).keeps
  | addTeam server team name role => exact keeps_addTeam (teamBegin team) server team name role
  | updateTeam id name role => exact (keeps_updateTeam id name role).bind fun _ => Keeps.done _
  | removeServer id keep => exact keeps_removeServer calls id keep
  | removeTeam id => exact keeps_removeTeam calls id
  | setDefault workspace id => exact keeps_onSpaces (Spaces.quiet_setDefault workspace id)
  | makeMain id => exact keeps_onSpaces (Spaces.quiet_makeMain id)
  | moveHost id from_ to_ =>
    exact (keeps_onSpaces (Spaces.quiet_moveBetween calls id from_ to_)).bind fun _ => Keeps.done _
  | copyKey key target => exact (keeps_onSpaces (Spaces.quiet_keyIn calls key target)).bind fun _ => Keeps.done _
  | resealChain => exact keeps_onSpaces Spaces.quiet_resealChain
  | opening => exact fun lasting f hkept => wp_of_stricter stricter_guarded (keeps_opening calls lasting f hkept)

/-- What lasts is safe from a start: it knows what the registry says. -/
theorem Kept.reopened {lasting : StorePath → Prop} {f : Folder} (h : Kept lasting f) : Kept lasting (reopened f) where
  listed := listed_ofDisk _
  memory := h.disk
  disk := h.disk

/-- What the registry names at a start is safe. -/
theorem kept_entered (f : Folder) : Kept (Folder.reopened f).Entered (Folder.reopened f) where
  listed := listed_ofDisk _
  memory path hpath := .inr (.inr hpath.2)
  disk path hpath := by
    rw [hpath.1]
    exact safe_written (listed_ofDisk _).whole _ hpath.2

/-- Along a strict run what lasts goes on lasting, and stays where it lies. -/
theorem lasts_of_exec {α : Type} {p : FolderScript α} {lasting lasting' : StorePath → Prop} {f f' : Folder}
    {log : List (Entry Folder SpacesAsk SpacesAnswer (StorePath → Prop))} {o : Option (Except LocalError α)}
    (hrun : Exec (guarded true) p lasting f log lasting' f' o) (hkeeps : ∀ e ∈ log, e.Keeps (guarded true))
    {path : StorePath} (hlasts : lasting path) : lasting' path ∧ (path ∈ f.stores → path ∈ f'.stores) := by
  induction hrun with
  | cut => exact ⟨hlasts, id⟩
  | done => exact ⟨hlasts, id⟩
  | fail => exact ⟨hlasts, id⟩
  | read _ ih => exact ih hkeeps hlasts
  | failed _ ih => exact ih hkeeps hlasts
  | wrote _ _ ih =>
    obtain ⟨hhead, htail⟩ := List.forall_mem_cons.mp hkeeps
    obtain ⟨hnames, hstores⟩ := hhead rfl
    obtain ⟨hlasts', hstays⟩ := ih htail ⟨.inl hlasts, fun hgone => hgone.2 (hnames path hgone.1)⟩
    exact ⟨hlasts', fun hpath => hstays (Classical.not_not.mp fun hgone => hstores path hpath hgone hlasts)⟩
  | asked _ _ ih => exact ih (List.forall_mem_cons.mp hkeeps).2 hlasts

variable {calls teamBegin}

/-- No start clears away a store that reached the registry and that nobody took away since, however the
processes before it were cut off; and after it the store is in the list, or a registry that was not read
whole is. -/
theorem start_spares_lasting {f₀ f f' : Folder} {lasting lasting' : StorePath → Prop}
    {log log' : List (Entry Folder SpacesAsk SpacesAnswer (StorePath → Prop))} {o : Option (Except LocalError Unit)}
    (hsession : Session (guarded false) (Request.program calls teamBegin) restarts (reopened f₀).Entered (reopened f₀)
      log lasting f)
    (hstart : Exec (guarded true) (opening calls) lasting (reopened f) log' lasting' f' o) {path : StorePath}
    (hlasts : lasting path) :
    (path ∈ f.stores → path ∈ f'.stores) ∧ Safe f'.spaces.paths f'.spaces.aside f'.spaces.inner path := by
  have hprogram : ∀ request lasting f, (guarded false).inv lasting f →
      (Request.program calls teamBegin request).wp (guarded false) (fun _ _ _ => True) lasting f :=
    fun request lasting f hkept => (keeps_program calls teamBegin request).wp hkept fun _ _ _ _ => trivial
  have hrestarts : ∀ lasting f lasting' f', (guarded false).inv lasting f → restarts lasting f lasting' f' →
      (guarded false).inv lasting' f' := by
    intro lasting f lasting' f' hkept ⟨hlasting, hreopened⟩
    rw [hlasting, hreopened]
    exact Kept.reopened hkept
  obtain ⟨-, hkept⟩ := hsession.sound hprogram hrestarts (kept_entered f₀)
  obtain ⟨hlog, hkept', -⟩ := hstart.sound (keeps_opening calls lasting _ (Kept.reopened hkept)) (Kept.reopened hkept)
  obtain ⟨hlasts', hstays⟩ := lasts_of_exec hstart hlog hlasts
  exact ⟨hstays, hkept'.memory path hlasts'⟩

/-- A device with one server, and the stores of two others that are being set up. -/
def halfSetUp : Folder where
  spaces :=
    { paths := ⟨"uwussh.db"⟩
      registry := .file (singleFile ⟨"uwussh.db"⟩)
      aside := false
      inner := Inner.ofDisk ⟨"uwussh.db"⟩ .missing
      files := fun _ => newFile }
  stores := [.base, .space 7, .space 9]
  markers := [7, 9]

def secondServer : String := "00000000-0000-0000-0000-000000000007"

/-- One of them is in the registry, and its mark is still there. -/
def enteredSecond : Folder :=
  let spaces := (reopened halfSetUp).spaces
  let inner := push (serverEntry secondServer) spaces.inner
  { reopened halfSetUp with spaces := { spaces with inner, registry := .file inner.file } }

theorem names_second : .space 7 ∈ named enteredSecond.spaces.paths enteredSecond.spaces.inner := by
  decide +kernel

/-- The process is cut off right after the registry was written. -/
theorem exec_register : ∃ log lasting,
    Exec (guarded false) (register secondServer) (reopened halfSetUp).Entered (reopened halfSetUp) log lasting
      enteredSecond none ∧ lasting (.space 7) :=
  ⟨_, _, .read (.wrote nofun (.read (.wrote nofun .cut))), .inr ⟨rfl, names_second⟩,
    fun hgone => hgone.2 names_second⟩

/-- A start that is cut off when the store without an entry is gone. -/
theorem exec_sweep (calls : StoreCalls) (lasting : StorePath → Prop) : ∃ log lasting' f',
    Exec (guarded true) (opening calls) lasting (reopened enteredSecond) log lasting' f' none ∧
      f'.stores = [.base, .space 7] := by
  refine ⟨_, _, _, .read (.read (.wrote ?_ (.read (.wrote ?_ (.read (.read (.asked (a := true) trivial
    (.wrote ?_ (.wrote ?_ .cut))))))))), ?_⟩
  · exact nofun
  · exact nofun
  · exact nofun
  · exact nofun
  · decide

theorem halfSetUp_spared : ∃ f' : Folder, f'.stores = [.base, .space 7] ∧ .space 7 ∈ f'.stores ∧
    Safe f'.spaces.paths f'.spaces.aside f'.spaces.inner (.space 7) := by
  obtain ⟨log, lasting, hregister, hlasts⟩ := exec_register
  have hrun : Session (guarded false) (Request.program Spaces.refusingCalls fun _ => .done ()) restarts
      (reopened halfSetUp).Entered (reopened halfSetUp) ([] ++ log) lasting enteredSecond :=
    .run (.register secondServer) .start hregister
  obtain ⟨log', lasting', f', hsweep, hstores⟩ := exec_sweep Spaces.refusingCalls lasting
  have hspared := start_spares_lasting hrun hsweep hlasts
  exact ⟨f', hstores, hspared.1 (by decide), hspared.2⟩

end Folder

end UwuSsh

import UwuSsh.Spaces.Registry

/-!
What opening keeps of a registry, and that nothing is lost on the way to disk and back: what
is open in memory names only what is there, whatever the file said, and reading back what
such a memory wrote gives the same memory.
-/
namespace UwuSsh

namespace RegistryEntry

variable (entry : RegistryEntry)

@[simp] theorem id_opened : entry.opened.id = entry.id := rfl

@[simp] theorem file_opened : entry.opened.file = entry.file := rfl

@[simp] theorem kind_opened : entry.opened.kind = entry.kind := rfl

@[simp] theorem isServer_opened : entry.opened.isServer = entry.isServer := rfl

theorem opened_opened : entry.opened.opened = entry.opened := by
  have hlabel : (entry.label.map cleanLabel).map cleanLabel = entry.label.map cleanLabel := by
    cases entry.label with
    | none => rfl
    | some label => exact congrArg some (cleanLabel_cleanLabel label)
  cases hkind : entry.kind with
  | server =>
    simp only [opened, hkind, Option.filter_filter, hlabel]
    simp
  | team =>
    simp only [opened, hkind, Option.filter_filter, hlabel]
    simp

@[simp] theorem whole_opened (servers : List String) :
    entry.opened.whole servers = entry.whole servers := by
  cases hkind : entry.kind with
  | server => simp [whole, opened, hkind]
  | team => simp [whole, opened, hkind]

end RegistryEntry

section planning

variable {paths : Paths} {entries : List RegistryEntry} {entry : RegistryEntry}

theorem Planned.nil : Planned paths [] :=
  ⟨fun _ h => absurd h List.not_mem_nil, fun _ h => absurd h List.not_mem_nil, List.Pairwise.nil⟩

theorem Planned.of_sublist {l : List RegistryEntry} (h : Planned paths entries)
    (hsub : l.Sublist entries) : Planned paths l where
  resolves entry hentry := h.resolves entry (hsub.subset hentry)
  valid entry hentry := h.valid entry (hsub.subset hentry)
  distinct := h.distinct.sublist hsub

theorem planned_append_iff :
    Planned paths (entries ++ [entry]) ↔ Planned paths entries ∧ plannable paths entries entry = true := by
  have hplan : plannable paths entries entry = true ↔ ((paths.resolve entry.file).isSome = true ∧
      validId entry.id = true) ∧ ∀ other ∈ entries, other.id ≠ entry.id ∧
        paths.resolve other.file ≠ paths.resolve entry.file := by
    simp [plannable]
  rw [hplan]
  constructor
  · intro h
    have hdistinct := List.pairwise_append.mp h.distinct
    have hlast : entry ∈ entries ++ [entry] := by simp
    exact ⟨h.of_sublist (List.sublist_append_left ..), ⟨h.resolves entry hlast, h.valid entry hlast⟩,
      fun other hother => hdistinct.2.2 other hother entry List.mem_cons_self⟩
  · intro ⟨h, ⟨hresolve, hvalid⟩, hother⟩
    refine ⟨fun e he => ?_, fun e he => ?_, ?_⟩
    · rcases List.mem_append.mp he with he | he
      · exact h.resolves e he
      · rwa [List.mem_singleton.mp he]
    · rcases List.mem_append.mp he with he | he
      · exact h.valid e he
      · rwa [List.mem_singleton.mp he]
    · refine List.pairwise_append.mpr ⟨h.distinct, List.pairwise_singleton .., fun a ha b hb => ?_⟩
      rw [List.mem_singleton.mp hb]
      exact hother a ha

theorem planEntries_planned (spaces : List RegistryEntry) :
    Planned paths (planEntries paths spaces).1 := by
  have hstep : ∀ (rest : List RegistryEntry) (plan : List RegistryEntry × Bool), Planned paths plan.1 →
      Planned paths (rest.foldl (fun plan entry => if plannable paths plan.1 entry
        then (plan.1 ++ [entry], plan.2) else (plan.1, true)) plan).1 := by
    intro rest
    induction rest with
    | nil => exact fun plan h => h
    | cons entry rest ih =>
      intro plan h
      rw [List.foldl_cons]
      apply ih
      by_cases hplan : plannable paths plan.1 entry = true
      · rw [if_pos hplan]
        exact planned_append_iff.mpr ⟨h, hplan⟩
      · rw [if_neg hplan]
        exact h
  exact hstep spaces ([], false) Planned.nil

/-- What this program would have written is planned as it stands. -/
theorem planEntries_of_planned (h : Planned paths entries) :
    planEntries paths entries = (entries, false) := by
  have hstep : ∀ (rest before : List RegistryEntry), Planned paths (before ++ rest) →
      rest.foldl (fun plan entry => if plannable paths plan.1 entry
        then (plan.1 ++ [entry], plan.2) else (plan.1, true)) (before, false) = (before ++ rest, false) := by
    intro rest
    induction rest with
    | nil => intro before _; rw [List.foldl_nil, List.append_nil]
    | cons entry rest ih =>
      intro before hall
      have hall' : Planned paths (before ++ [entry] ++ rest) := by simpa using hall
      have hfirst := hall'.of_sublist (List.sublist_append_left ..)
      rw [List.foldl_cons, if_pos (planned_append_iff.mp hfirst).2, ih _ hall']
      simp
  exact hstep entries [] h

end planning

namespace Inner

/-- A memory that names only what is there, and holds nothing an opening would drop. -/
structure Sound (paths : Paths) (inner : Inner) : Prop where
  planned : Planned paths inner.entries
  opened : ∀ entry ∈ inner.entries, entry.opened = entry
  whole : wholeTeams inner.entries = inner.entries
  main : inner.isServer inner.main = true
  defaults : inner.isServer inner.defaults.private_ = true ∧ inner.isServer inner.defaults.business = true
  journal : ∀ journal, inner.journal = some journal → journal.from_ ≠ journal.to_ ∧
    inner.has journal.from_ = true ∧ inner.has journal.to_ = true
  handover : ∀ old, inner.handover = some old → old ≠ inner.main ∧ inner.isServer old = true
  leaving : ∀ id, inner.leaving = some id → inner.isServer id = true

variable {paths : Paths}

theorem wholeTeams_opened {planned : List RegistryEntry} (h : wholeTeams planned = planned) :
    wholeTeams (planned.map RegistryEntry.opened) = planned.map RegistryEntry.opened := by
  have hservers : ((planned.map RegistryEntry.opened).filter RegistryEntry.isServer).map (·.id) =
      (planned.filter RegistryEntry.isServer).map (·.id) := by
    rw [List.filter_map, List.map_map]
    rfl
  rw [wholeTeams, hservers]
  refine List.filter_eq_self.mpr fun entry hentry => ?_
  obtain ⟨before, hbefore, rfl⟩ := List.mem_map.mp hentry
  rw [RegistryEntry.whole_opened]
  exact List.filter_eq_self.mp h before hbefore

theorem wholeTeams_wholeTeams (planned : List RegistryEntry) :
    wholeTeams (wholeTeams planned) = wholeTeams planned := by
  have hservers : (wholeTeams planned).filter RegistryEntry.isServer =
      planned.filter RegistryEntry.isServer := by
    rw [wholeTeams, List.filter_filter]
    refine List.filter_congr fun entry _ => ?_
    cases hkind : entry.kind with
    | server => simp [RegistryEntry.whole, RegistryEntry.isServer, hkind]
    | team => simp [RegistryEntry.isServer, hkind]
  refine List.filter_eq_self.mpr fun entry hentry => ?_
  rw [hservers]
  exact (List.mem_filter.mp hentry).2

theorem ofFile_sound {file : RegistryFile} {planned : List RegistryEntry} {unreadable : Bool}
    (hplanned : Planned paths planned) (hwhole : wholeTeams planned = planned)
    (hmain : (planned.any fun entry => entry.id == file.main && entry.isServer) = true) :
    (ofFile file planned unreadable).Sound paths := by
  have hknown : ∀ id, (ofFile file planned unreadable).isServer id =
      planned.any fun entry => entry.id == id && entry.isServer := by
    intro id
    simp [isServer, ofFile, List.any_map, Function.comp_def]
  have hmain' : (ofFile file planned unreadable).isServer (ofFile file planned unreadable).main = true := by
    rw [hknown]
    exact hmain
  have hdefault : ∀ id, (ofFile file planned unreadable).isServer
      (if (ofFile file planned unreadable).isServer id then id else file.main) = true := by
    intro id
    split
    · next h => exact h
    · exact hmain'
  constructor
  · constructor
    · intro entry hentry
      obtain ⟨before, hbefore, rfl⟩ := List.mem_map.mp hentry
      exact hplanned.resolves before hbefore
    · intro entry hentry
      obtain ⟨before, hbefore, rfl⟩ := List.mem_map.mp hentry
      exact hplanned.valid before hbefore
    · exact List.pairwise_map.mpr hplanned.distinct
  · intro entry hentry
    obtain ⟨before, -, rfl⟩ := List.mem_map.mp hentry
    exact before.opened_opened
  · exact wholeTeams_opened hwhole
  · exact hmain'
  · exact ⟨hdefault _, hdefault _⟩
  · intro journal hjournal
    have hfilter := (Option.filter_eq_some_iff.mp hjournal).2
    simp only [Bool.and_eq_true, bne_iff_ne, ne_eq] at hfilter
    exact ⟨hfilter.1.1, hfilter.1.2, hfilter.2⟩
  · intro old hold
    have hfilter := (Option.filter_eq_some_iff.mp hold).2
    simp only [Bool.and_eq_true, bne_iff_ne, ne_eq] at hfilter
    exact hfilter
  · intro id hid
    exact (Option.filter_eq_some_iff.mp hid).2

/-- Whatever the file says, what is opened of it names only what is there. -/
theorem ofDisk_sound (paths : Paths) (disk : OnDisk) : (ofDisk paths disk).Sound paths := by
  unfold ofDisk
  dsimp only
  split
  · next hmain =>
    exact ofFile_sound ((planEntries_planned _).of_sublist List.filter_sublist)
      (wholeTeams_wholeTeams _) hmain
  · apply ofFile_sound
    · have hresolve : paths.resolve paths.baseName = some .base := if_pos rfl
      constructor
      · intro entry hentry
        rw [List.mem_singleton.mp hentry]
        exact Option.isSome_iff_exists.mpr ⟨_, hresolve⟩
      · intro entry hentry
        rw [List.mem_singleton.mp hentry]
        show validId firstSpace = true
        decide
      · exact List.pairwise_singleton ..
    · rfl
    · rfl

theorem filter_of_holds {α : Type} {keep : α → Bool} {o : Option α} (h : ∀ a, o = some a → keep a = true) :
    o.filter keep = o := by
  cases o with
  | none => rfl
  | some a => exact Option.filter_some_pos (h a rfl)

/-- What such a memory writes reads back as that memory. -/
theorem ofDisk_file {inner : Inner} (h : inner.Sound paths) :
    ofDisk paths (.file inner.file) = { inner with unreadable := false } := by
  have hentries : inner.entries.map RegistryEntry.opened = inner.entries := by
    conv_rhs => rw [← List.map_id inner.entries]
    exact List.map_congr_left h.opened
  have hmain : (inner.entries.any fun entry => entry.id == inner.main && entry.isServer) = true := h.main
  have hread : readRegistry (.file inner.file) = .ok (some inner.file) := by
    simp [readRegistry, file]
  have hopening : opening paths (.file inner.file) = inner.file := by
    simp [opening, hread]
  have hplan : planEntries paths inner.file.spaces = (inner.entries, false) :=
    planEntries_of_planned h.planned
  unfold ofDisk
  simp only [hread, hopening, hplan, h.whole]
  rw [if_pos (by exact hmain)]
  unfold ofFile
  simp only [hentries]
  have hjournal : inner.journal.filter (fun journal => journal.from_ != journal.to_ &&
      (inner.entries.any fun entry => entry.id == journal.from_) &&
      inner.entries.any fun entry => entry.id == journal.to_) = inner.journal := by
    refine filter_of_holds fun journal hsome => ?_
    obtain ⟨hne, hfrom, hto⟩ := h.journal journal hsome
    simp only [Bool.and_eq_true, bne_iff_ne, ne_eq]
    exact ⟨⟨hne, hfrom⟩, hto⟩
  have hhandover : inner.handover.filter (fun old => old != inner.main &&
      inner.entries.any fun entry => entry.id == old && entry.isServer) = inner.handover := by
    refine filter_of_holds fun old hsome => ?_
    obtain ⟨hne, hserver⟩ := h.handover old hsome
    simp only [Bool.and_eq_true, bne_iff_ne, ne_eq]
    exact ⟨hne, hserver⟩
  have hleaving : inner.leaving.filter (fun id =>
      inner.entries.any fun entry => entry.id == id && entry.isServer) = inner.leaving :=
    filter_of_holds h.leaving
  obtain ⟨hprivate, hbusiness⟩ := h.defaults
  simp only [isServer] at hprivate hbusiness
  simp [file, hprivate, hbusiness, hjournal, hhandover, hleaving, Except.isOk, Except.toBool]

theorem get_eq_some {inner : Inner} {id : String} {space : SpaceHandle} (h : inner.get id = some space) :
    ∃ entry ∈ inner.entries, entry.id = id ∧ space = inner.handle entry := by
  obtain ⟨entry, hfind, rfl⟩ := Option.map_eq_some_iff.mp h
  exact ⟨entry, List.mem_of_find?_eq_some hfind, by simpa using List.find?_some hfind, rfl⟩

/-- Every space that is open is in the list, each with the server it hangs on. -/
theorem mem_all {inner : Inner} (hwhole : wholeTeams inner.entries = inner.entries) {space : SpaceHandle} :
    space ∈ inner.all ↔ ∃ entry ∈ inner.entries, space = inner.handle entry := by
  let handles := inner.entries.map inner.handle
  let servers := handles.filter fun space => space.isServer
  let teams := (handles.filter fun space => !space.isServer).insertionSort teamBefore
  have hhandles : ∀ space, space ∈ handles ↔ ∃ entry ∈ inner.entries, space = inner.handle entry := by
    intro space
    simp [handles, eq_comm]
  have hteams : ∀ space, space ∈ teams ↔ space ∈ handles ∧ space.isServer = false := by
    intro space
    simp [teams]
  have hall : space ∈ inner.all ↔ ∃ server ∈ servers, space = server ∨
      space ∈ teams ∧ space.parent = some server.id := by
    have horder : ∀ server, server ∈ (servers.filter (·.main) ++ servers.filter fun space => !space.main) ↔
        server ∈ servers := by
      intro server
      cases hmain : server.main <;> simp [hmain]
    show space ∈ (servers.filter (·.main) ++ servers.filter fun space => !space.main).flatMap _ ↔ _
    rw [List.mem_flatMap]
    constructor
    · intro ⟨server, hserver, hin⟩
      refine ⟨server, (horder server).mp hserver, ?_⟩
      simpa only [List.mem_cons, List.mem_filter, beq_iff_eq] using hin
    · intro ⟨server, hserver, hin⟩
      refine ⟨server, (horder server).mpr hserver, ?_⟩
      simpa only [List.mem_cons, List.mem_filter, beq_iff_eq] using hin
  rw [hall, ← hhandles]
  constructor
  · intro ⟨server, hserver, hin⟩
    rcases hin with rfl | ⟨hteam, -⟩
    · exact (List.mem_filter.mp hserver).1
    · exact ((hteams space).mp hteam).1
  · intro hspace
    cases hkind : space.isServer with
    | true => exact ⟨space, List.mem_filter.mpr ⟨hspace, hkind⟩, Or.inl rfl⟩
    | false =>
      obtain ⟨entry, hentry, rfl⟩ := (hhandles space).mp hspace
      have hin := List.filter_eq_self.mp hwhole entry hentry
      have hteam : entry.kind = .team := by
        cases hk : entry.kind with
        | team => rfl
        | server =>
          have hserver : entry.isServer = true := by rw [RegistryEntry.isServer, hk]; rfl
          exact absurd (hserver.symm.trans hkind) nofun
      rw [RegistryEntry.whole, hteam] at hin
      obtain ⟨-, hparent⟩ := Bool.and_eq_true_iff.mp hin
      obtain ⟨parent, hparent, hknown⟩ := (Option.any_eq_true _ _).mp hparent
      obtain ⟨server, hserver, rfl⟩ := List.mem_map.mp (List.contains_iff_mem.mp hknown)
      obtain ⟨hserver, hkind'⟩ := List.mem_filter.mp hserver
      refine ⟨inner.handle server, List.mem_filter.mpr ⟨(hhandles _).mpr ⟨server, hserver, rfl⟩, hkind'⟩,
        Or.inr ⟨(hteams _).mpr ⟨hspace, hkind⟩, hparent⟩⟩

/-- Two spaces have neither one id nor one file. -/
theorem Sound.distinct {inner : Inner} (h : inner.Sound paths) {a b : RegistryEntry} (ha : a ∈ inner.entries)
    (hb : b ∈ inner.entries) (hne : a ≠ b) :
    a.id ≠ b.id ∧ paths.resolve a.file ≠ paths.resolve b.file := by
  have : Std.Symm fun a b : RegistryEntry => a.id ≠ b.id ∧ paths.resolve a.file ≠ paths.resolve b.file :=
    ⟨fun _ _ h => ⟨h.1.symm, h.2.symm⟩⟩
  exact h.planned.distinct.forall ha hb hne

theorem Sound.id_injective {inner : Inner} (h : inner.Sound paths) {a b : RegistryEntry}
    (ha : a ∈ inner.entries) (hb : b ∈ inner.entries) (heq : a.id = b.id) : a = b :=
  by_contra fun hne => (h.distinct ha hb hne).1 heq

theorem Sound.path_injective {inner : Inner} (h : inner.Sound paths) {a b : RegistryEntry}
    (ha : a ∈ inner.entries) (hb : b ∈ inner.entries)
    (heq : (paths.resolve a.file).getD .base = (paths.resolve b.file).getD .base) : a = b := by
  obtain ⟨x, hx⟩ := Option.isSome_iff_exists.mp (h.planned.resolves a ha)
  obtain ⟨y, hy⟩ := Option.isSome_iff_exists.mp (h.planned.resolves b hb)
  rw [hx, hy] at heq
  refine by_contra fun hne => (h.distinct ha hb hne).2 ?_
  rw [hx, hy]
  exact congrArg some heq

end Inner

end UwuSsh

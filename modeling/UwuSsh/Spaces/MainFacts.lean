import UwuSsh.Spaces.Main
import UwuSsh.Spaces.PersonalClear
import UwuSsh.Spaces.RegistryFacts
import UwuSsh.Spaces.StateFacts

/-!
Making another server main, cut off anywhere. Up to the swap of the registry nothing changes but
which keys are prepared and that the other store may hold copies of the personal records; from the
swap on every key is where the new order wants it as soon as what is prepared is in place, and
of the old main store only personal records go. Each half is told by one rule, and runs,
starts and repeats are put together from the two.
-/
namespace UwuSsh

open Script

namespace Spaces

/-- Nothing changed but which keys are prepared. -/
structure Unstaged (s t : Spaces) : Prop where
  paths : t.paths = s.paths
  registry : t.registry = s.registry
  inner : t.inner = s.inner
  kept : ∀ path, (t.files path).kept = (s.files path).kept
  store : ∀ path, (t.files path).store = (s.files path).store

theorem Unstaged.refl (s : Spaces) : Unstaged s s := ⟨rfl, rfl, rfl, fun _ => rfl, fun _ => rfl⟩

section unstaged

variable {s t u : Spaces}

theorem Unstaged.trans (h : Unstaged s t) (h' : Unstaged t u) : Unstaged s u where
  paths := h'.paths.trans h.paths
  registry := h'.registry.trans h.registry
  inner := h'.inner.trans h.inner
  kept path := (h'.kept path).trans (h.kept path)
  store path := (h'.store path).trans (h.store path)

theorem Unstaged.path (h : Unstaged s t) (entry : RegistryEntry) : t.path entry = s.path entry := by
  rw [Spaces.path, Spaces.path, h.paths]

theorem Unstaged.store_eq (h : Unstaged s t) (entry : RegistryEntry) : t.store entry = s.store entry := by
  rw [Spaces.store, Spaces.file, h.path, h.store]
  rfl

@[simp] theorem files_setFile_self (s : Spaces) (entry : RegistryEntry) (f : SpaceFile → SpaceFile) :
    (s.setFile entry f).files (s.path entry) = f (s.file entry) := Function.update_self ..

theorem files_setFile_of_ne (s : Spaces) (entry : RegistryEntry) (f : SpaceFile → SpaceFile) {path : StorePath}
    (h : path ≠ s.path entry) : (s.setFile entry f).files path = s.files path := Function.update_of_ne h ..

@[simp] theorem path_setFile (s : Spaces) (entry entry' : RegistryEntry) (f : SpaceFile → SpaceFile) :
    (s.setFile entry f).path entry' = s.path entry' := rfl

theorem unstaged_setFile (s : Spaces) (entry : RegistryEntry) {f : SpaceFile → SpaceFile}
    (hkept : ∀ file, (f file).kept = file.kept) (hstore : ∀ file, (f file).store = file.store) :
    Unstaged s (s.setFile entry f) := by
  refine ⟨rfl, rfl, rfl, fun path => ?_, fun path => ?_⟩
  · by_cases h : path = s.path entry
    · rw [h, files_setFile_self]
      exact hkept _
    · rw [files_setFile_of_ne s entry f h]
  · by_cases h : path = s.path entry
    · rw [h, files_setFile_self]
      exact hstore _
    · rw [files_setFile_of_ne s entry f h]

theorem unstaged_stage (s : Spaces) (entry : RegistryEntry) (staged : Staged) :
    Unstaged s (s.setFile entry (.stage staged)) :=
  s.unstaged_setFile entry (fun _ => rfl) fun _ => rfl

end unstaged

/-- Nothing changed but that prepared keys were let go of. -/
structure Dropped (s t : Spaces) : Prop extends Unstaged s t where
  staged : ∀ path, (t.files path).staged = none ∨ (t.files path).staged = (s.files path).staged

theorem Dropped.refl (s : Spaces) : Dropped s s := ⟨.refl s, fun _ => Or.inr rfl⟩

theorem Dropped.trans {s t u : Spaces} (h : Dropped s t) (h' : Dropped t u) : Dropped s u where
  toUnstaged := h.toUnstaged.trans h'.toUnstaged
  staged path := by
    rcases h'.staged path with hnone | hsame
    · exact Or.inl hnone
    · rw [hsame]
      exact h.staged path

theorem dropped_setFile (s : Spaces) (entry : RegistryEntry) : Dropped s (s.setFile entry .dropStaged) where
  toUnstaged := s.unstaged_setFile entry (fun _ => rfl) fun _ => rfl
  staged path := by
    by_cases h : path = s.path entry
    · rw [h, files_setFile_self]
      exact Or.inl rfl
    · rw [files_setFile_of_ne _ _ _ h]
      exact Or.inr rfl

section staging

variable {synced : Prop} {inv : Spaces → Prop} {s : Spaces}

theorem wp_dropStagedOf {spaces : List SpaceHandle} {post : Except LocalError Unit → Unit → Spaces → Prop}
    (hinv : ∀ t, Dropped s t → inv t) (hpost : ∀ t, Dropped s t → post (.ok ()) () t) :
    (dropStagedOf spaces).wp (upholding synced inv) post () s := by
  induction spaces generalizing s with
  | nil => exact hpost s (.refl s)
  | cons space rest ih =>
    have hstep := s.dropped_setFile space.toRegistryEntry
    unfold dropStagedOf
    rw [wp_bind]
    refine wp_try ?_ (hinv _ hstep) ?_
    · exact ih hinv hpost
    · exact ih (fun t ht => hinv t (hstep.trans ht)) fun t ht => hpost t (hstep.trans ht)

theorem wp_dropStaged {post : Except LocalError Unit → Unit → Spaces → Prop}
    (hinv : ∀ t, Dropped s t → inv t) (hpost : ∀ t, Dropped s t → post (.ok ()) () t) :
    dropStaged.wp (upholding synced inv) post () s := by
  unfold dropStaged
  rw [wp_bind, wp_get]
  exact wp_dropStagedOf hinv hpost

/-- What is prepared for a space beside the new main one: its key sealed by that one's vault, if
it is open, and nothing new if it is not. -/
def Chained (vault : UnlockedVault) (s : Spaces) (space : RegistryEntry) (staged : Option Staged) : Prop :=
  match (s.store space).vault with
  | none => staged = (s.file space).staged
  | some own => staged = some (.keep (own.keptKey (.byVault (vault.sealForSpace space.id own.key))))

theorem wp_stageUnlock_byVaultOf {own vault : UnlockedVault} {new space : RegistryEntry} {id : String}
    {post : Except LocalError Unit → Unit → Spaces → Prop} (hown : (s.store space).vault = some own)
    (hvault : (s.store new).vault = some vault) (hinv : ∀ t, Unstaged s t → inv t)
    (hfail : ∀ e, post (.error e) () s)
    (hok : post (.ok ()) () (s.setFile space (.stage (.keep (own.keptKey
      (.byVault (vault.sealForSpace id own.key))))))) :
    (stageUnlock space (byVaultOf new id)).wp (upholding synced inv) post () s := by
  unfold stageUnlock byVaultOf
  rw [wp_bind, wp_get]
  dsimp only
  rw [hown]
  dsimp only
  rw [wp_bind, wp_bind, wp_get]
  dsimp only
  rw [hvault]
  exact wp_modify_file (f := fun s => s.setFile space _) (hfail .sqlite)
    (hinv _ (s.unstaged_stage space _)) hok

/-- Preparing the new main server's key: what the operating system made of it. -/
theorem wp_stageUnlock_bySystem {own : UnlockedVault} {space : RegistryEntry}
    {post : Except LocalError Unit → Unit → Spaces → Prop} (hown : (s.store space).vault = some own)
    (hinv : ∀ t, Unstaged s t → inv t) (hfail : ∀ e, post (.error e) () s)
    (hok : ∀ bytes, post (.ok ()) () (s.setFile space (.stage (.keep (own.keptKey (.bySystem bytes)))))) :
    (stageUnlock space bySystem).wp (upholding synced inv) post () s := by
  unfold stageUnlock bySystem
  rw [wp_bind, wp_get]
  dsimp only
  rw [hown]
  dsimp only
  rw [wp_bind, wp_bind, wp_query]
  refine ⟨trivial, fun answer _ => ⟨hinv s (.refl s), ?_⟩⟩
  cases answer with
  | none => exact hfail .device
  | some bytes =>
    exact wp_modify_file (f := fun s => s.setFile space _) (hfail .sqlite)
      (hinv _ (s.unstaged_stage space _)) (hok bytes)

theorem wp_stageChained {vault : UnlockedVault} {new : RegistryEntry} {spaces : List SpaceHandle}
    {post : Except LocalError Unit → Unit → Spaces → Prop} (hvault : (s.store new).vault = some vault)
    (hpaths : ∀ a ∈ spaces, ∀ b ∈ spaces, s.path a.toRegistryEntry = s.path b.toRegistryEntry → a = b)
    (hinv : ∀ t, Unstaged s t → inv t) (hfail : ∀ e t, Unstaged s t → post (.error e) () t)
    (hok : ∀ t, Unstaged s t →
      (∀ space ∈ spaces, Chained vault s space.toRegistryEntry
        (t.files (s.path space.toRegistryEntry)).staged) →
      (∀ path ∉ spaces.map fun space => s.path space.toRegistryEntry,
        (t.files path).staged = (s.files path).staged) → post (.ok ()) () t) :
    (stageChained new spaces).wp (upholding synced inv) post () s := by
  induction spaces generalizing s with
  | nil => exact hok s (.refl s) (by simp) fun _ _ => rfl
  | cons space rest ih =>
    have hrestPaths : ∀ a ∈ rest, ∀ b ∈ rest, s.path a.toRegistryEntry = s.path b.toRegistryEntry → a = b :=
      fun a ha b hb => hpaths a (List.mem_cons_of_mem _ ha) b (List.mem_cons_of_mem _ hb)
    have hagain : space ∉ rest → s.path space.toRegistryEntry ∉
        rest.map fun space => s.path space.toRegistryEntry := by
      intro hnot hmem
      obtain ⟨other, hother, heq⟩ := List.mem_map.mp hmem
      apply hnot
      rw [hpaths space List.mem_cons_self other (List.mem_cons_of_mem _ hother) heq.symm]
      exact hother
    unfold stageChained
    rw [wp_bind]
    refine wp_vaultOpen (hinv s (.refl s)) (hfail _ s (.refl s)) ?_
    dsimp only
    cases hown : (s.store space.toRegistryEntry).vault with
    | none =>
      rw [Option.isSome_none]
      simp only [Bool.false_eq_true, if_false]
      refine ih hvault hrestPaths hinv hfail fun t ht hrest hother => hok t ht ?_ ?_
      · intro space' hspace'
        by_cases hmem : space' ∈ rest
        · exact hrest space' hmem
        · have heq := (List.mem_cons.mp hspace').resolve_right hmem
          subst heq
          unfold Chained
          rw [hown]
          exact hother _ (hagain hmem)
      · exact fun path hpath => hother path fun hmem => hpath (List.mem_cons_of_mem _ hmem)
    | some own =>
      rw [Option.isSome_some]
      simp only [if_true]
      rw [wp_bind]
      refine wp_stageUnlock_byVaultOf hown hvault hinv (fun e => hfail e s (.refl s)) ?_
      have hstep := s.unstaged_stage space.toRegistryEntry
        (.keep (own.keptKey (.byVault (vault.sealForSpace space.id own.key))))
      refine ih ?_ hrestPaths (fun t ht => hinv t (hstep.trans ht)) (fun e t ht => hfail e t (hstep.trans ht))
        fun t ht hrest hother => hok t (hstep.trans ht) ?_ ?_
      · rw [hstep.store_eq]
        exact hvault
      · intro space' hspace'
        by_cases hmem : space' ∈ rest
        · have hchained := hrest space' hmem
          unfold Chained at hchained ⊢
          rw [hstep.store_eq] at hchained
          cases hown' : (s.store space'.toRegistryEntry).vault with
          | some own' =>
            rw [hown'] at hchained
            exact hchained
          | none =>
            have hne : s.path space'.toRegistryEntry ≠ s.path space.toRegistryEntry := by
              intro heq
              rw [Spaces.store, Spaces.file, heq] at hown'
              exact absurd (hown.symm.trans hown') nofun
            rw [hown', Spaces.file, path_setFile, files_setFile_of_ne _ _ _ hne] at hchained
            exact hchained
        · have heq := (List.mem_cons.mp hspace').resolve_right hmem
          subst heq
          unfold Chained
          rw [hown]
          exact (hother _ (hagain hmem)).trans (congrArg SpaceFile.staged (files_setFile_self ..))
      · intro path hpath
        rw [List.map_cons, List.mem_cons, not_or] at hpath
        exact (hother path hpath.2).trans (congrArg SpaceFile.staged (files_setFile_of_ne _ _ _ hpath.1))

end staging

section arrangements

/-- What a store became that took in what a person has in another. -/
structure Took (from_ into result : Store) : Prop where
  taken : ∀ item ∈ from_.personalItems, item.Taken from_.reveals into result
  within : ∃ draws : Draws, draws.Fresh (fun id => from_.Uses id ∨ into.Uses id) ∧
    into.Within (TakesIn draws from_ into) result

/-- A store on its way to hold no personal record: nothing else of it changes. -/
structure Clearing (before after : Store) : Prop where
  within : before.locked.Within before.IsPersonal after.locked
  mentioned : ∀ id ∈ after.mentioned, id ∈ before.mentioned

/-- Before the swap: all is as it was but what is prepared, and that the store that was to be
main may have taken the personal records in. -/
structure Before (s : Spaces) (old new : RegistryEntry) (t : Spaces) : Prop where
  paths : t.paths = s.paths
  registry : t.registry = s.registry
  kept : ∀ path, (t.files path).kept = (s.files path).kept
  stores : ∀ path, path ≠ s.path new → (t.files path).store.locked = (s.files path).store.locked
  other : (t.files (s.path new)).store.locked = (s.store new).locked ∨
    ∃ result, Took (s.store old) (s.store new) result ∧ (t.files (s.path new)).store.locked = result.locked

/-- After the swap: every key is where the new order wants it once what is prepared is in
place, and of the old main store only personal records are gone. -/
structure After (s : Spaces) (old new : RegistryEntry) (ready : RegistryEntry → Option KeptKey) (t : Spaces) :
    Prop where
  paths : t.paths = s.paths
  kept : ∀ entry ∈ s.inner.entries, (t.file entry).promote.kept = ready entry
  elsewhere : ∀ path, (∀ entry ∈ s.inner.entries, path ≠ s.path entry) →
    (t.files path).kept = (s.files path).kept
  stores : ∀ path, path ≠ s.path new → path ≠ s.path old →
    (t.files path).store.locked = (s.files path).store.locked
  new : ∃ result, Took (s.store old) (s.store new) result ∧
    (t.files (s.path new)).store.locked = result.locked
  old : Clearing (s.store old) (t.files (s.path old)).store

/-- Which keys the new order wants kept: the new main server's sealed by the operating system
if the old one's was kept, every other open vault's sealed by the new main's. -/
def Ready (s : Spaces) (old new : RegistryEntry) (ready : RegistryEntry → Option KeptKey) : Prop :=
  ∃ vault, (s.store new).vault = some vault ∧
    (if (s.file old).kept.isSome then ∃ bytes, ready new = some (vault.keptKey (.bySystem bytes))
      else ready new = none) ∧
    ∀ entry ∈ s.inner.entries, entry ≠ new → ready entry = match (s.store entry).vault with
      | some own => some (own.keptKey (.byVault (vault.sealForSpace entry.id own.key)))
      | none => (s.file entry).promote.kept

end arrangements

section preparing

/-- What promoting leaves is told by what is kept and what is staged. -/
def promotedKey (kept : Option KeptKey) : Option Staged → Option KeptKey
  | none => kept
  | some .forget => none
  | some (.keep key) => some key

theorem kept_promote (file : SpaceFile) : file.promote.kept = promotedKey file.kept file.staged := by
  obtain ⟨store, kept, staged⟩ := file
  cases staged with
  | none => rfl
  | some change =>
    cases change with
    | forget => rfl
    | keep key => rfl

theorem store_promote (file : SpaceFile) : file.promote.store = file.store := by
  unfold SpaceFile.promote
  split <;> rfl

variable {synced : Prop} {inv : Spaces → Prop} {s : Spaces} {old new : RegistryEntry}

theorem Unstaged.file_kept {s t : Spaces} (h : Unstaged s t) (entry : RegistryEntry) :
    (t.file entry).kept = (s.file entry).kept := by
  rw [Spaces.file, h.path, h.kept]
  rfl

/-- Every key is prepared for the new order, or nothing but what is prepared changed. -/
theorem wp_prepare {post : Except LocalError Unit → Unit → Spaces → Prop} (hsound : s.inner.Sound s.paths)
    (hnew : new ∈ s.inner.entries) (hvault : (s.store new).vault.isSome)
    (hinv : ∀ t, Unstaged s t → inv t) (hfail : ∀ e t, Unstaged s t → post (.error e) () t)
    (hok : ∀ t, Unstaged s t → Ready s old new (fun entry => (t.file entry).promote.kept) →
      post (.ok ()) () t) :
    (prepare old new).wp (upholding synced inv) post () s := by
  obtain ⟨vault, hvault⟩ := Option.isSome_iff_exists.mp hvault
  -- What is prepared for the new main server stays while the others' keys are.
  have hchain : ∀ u, Unstaged s u → (∀ path ≠ s.path new, (u.files path).staged = (s.files path).staged) →
      (if (s.file old).kept.isSome then ∃ bytes, (u.file new).staged = some (.keep (vault.keptKey (.bySystem bytes)))
        else (u.file new).staged = some .forget) →
      (do stageChained new ((← get).inner.all.filter fun space => space.id != new.id) : SpacesScript Unit).wp
        (upholding synced inv) post () u := by
    intro u hu hsame hstaged
    rw [wp_bind, wp_get]
    have hwhole : wholeTeams u.inner.entries = u.inner.entries := hu.inner ▸ hsound.whole
    have hin : ∀ space ∈ u.inner.all.filter fun space => space.id != new.id,
        ∃ entry ∈ s.inner.entries, space = u.inner.handle entry ∧ entry.id ≠ new.id := by
      intro space hspace
      obtain ⟨hall, hid⟩ := List.mem_filter.mp hspace
      obtain ⟨entry, hentry, rfl⟩ := (Inner.mem_all hwhole).mp hall
      exact ⟨entry, hu.inner ▸ hentry, rfl, by simpa [Inner.handle] using hid⟩
    refine wp_stageChained (hu.store_eq new ▸ hvault) ?_ (fun t ht => hinv t (hu.trans ht))
      (fun e t ht => hfail e t (hu.trans ht)) fun t ht hchained hother => hok t (hu.trans ht) ?_
    · intro a ha b hb heq
      obtain ⟨a, hentry, rfl, -⟩ := hin a ha
      obtain ⟨b, hentry', rfl, -⟩ := hin b hb
      have hpath : u.path a = u.path b := heq
      rw [hu.path, hu.path] at hpath
      rw [hsound.path_injective hentry hentry' hpath]
    · have hkept : ∀ entry, (t.file entry).promote.kept =
          promotedKey (s.file entry).kept (t.files (s.path entry)).staged := by
        intro entry
        rw [kept_promote, (hu.trans ht).file_kept]
        exact congrArg (fun path => promotedKey _ (t.files path).staged) ((hu.trans ht).path entry)
      refine ⟨vault, hvault, ?_, fun entry hentry hne => ?_⟩
      · have hnot : u.path new ∉ (u.inner.all.filter fun space => space.id != new.id).map
            fun space => u.path space.toRegistryEntry := by
          intro hmem
          obtain ⟨space, hspace, heq⟩ := List.mem_map.mp hmem
          obtain ⟨entry, hentry, rfl, hne⟩ := hin space hspace
          have hpath : u.path entry = u.path new := heq
          rw [hu.path, hu.path] at hpath
          exact hne (congrArg RegistryEntry.id (hsound.path_injective hentry hnew hpath))
        have hstays : (t.files (s.path new)).staged = (u.file new).staged := by
          have h := hother _ hnot
          rw [hu.path] at h
          rw [h, Spaces.file, hu.path]
        dsimp only
        rw [hkept, hstays]
        split at hstaged
        · next hremembered =>
          obtain ⟨bytes, hstaged⟩ := hstaged
          rw [if_pos hremembered]
          exact ⟨bytes, by rw [hstaged]; rfl⟩
        · next hforgotten =>
          rw [if_neg hforgotten, hstaged]
          rfl
      · have hid : entry.id ≠ new.id := fun h => hne (hsound.id_injective hentry hnew h)
        have hmem : u.inner.handle entry ∈ u.inner.all.filter fun space => space.id != new.id := by
          refine List.mem_filter.mpr ⟨(Inner.mem_all hwhole).mpr ⟨entry, hu.inner ▸ hentry, rfl⟩, ?_⟩
          simpa [Inner.handle] using hid
        have hpath : s.path entry ≠ s.path new := fun h => hne (hsound.path_injective hentry hnew h)
        have h : Chained vault u entry (t.files (u.path entry)).staged := hchained _ hmem
        unfold Chained at h
        rw [hu.path, hu.store_eq] at h
        dsimp only
        rw [hkept]
        split
        · next own hown =>
          rw [hown] at h
          rw [h]
          rfl
        · next hown =>
          rw [hown] at h
          have hfile : (u.file entry).staged = (s.file entry).staged := by
            rw [Spaces.file, hu.path, hsame _ hpath]
            rfl
          rw [kept_promote, h, hfile]
  unfold prepare
  rw [wp_bind]
  refine wp_reading (hinv s (.refl s)) (hfail _ s (.refl s)) ?_
  dsimp only
  split
  · next hremembered =>
    rw [wp_bind]
    refine wp_stageUnlock_bySystem hvault hinv (fun e => hfail e s (.refl s)) fun bytes => ?_
    refine hchain _ (s.unstaged_stage new _) (fun path hpath => ?_) ?_
    · rw [files_setFile_of_ne _ _ _ hpath]
    · rw [if_pos hremembered]
      exact ⟨bytes, congrArg SpaceFile.staged (files_setFile_self ..)⟩
  · next hforgotten =>
    rw [wp_bind]
    refine wp_modify_file (f := fun s => s.setFile new (.stage .forget)) (hfail _ s (.refl s))
      (hinv _ (s.unstaged_stage new _)) ?_
    refine hchain _ (s.unstaged_stage new _) (fun path hpath => ?_) ?_
    · rw [files_setFile_of_ne _ _ _ hpath]
    · rw [if_neg hforgotten]
      exact congrArg SpaceFile.staged (files_setFile_self ..)

end preparing

section swapping

variable {s t u : Spaces} {old new : RegistryEntry}

theorem Before.unstaged (h : Before s old new t) (h' : Unstaged t u) : Before s old new u where
  paths := h'.paths.trans h.paths
  registry := h'.registry.trans h.registry
  kept path := (h'.kept path).trans (h.kept path)
  stores path hpath := by rw [h'.store, h.stores path hpath]
  other := by
    rw [h'.store]
    exact h.other

theorem Before.edit (h : Before s old new t) (f : Inner → Inner) : Before s old new (t.edit f) :=
  ⟨h.paths, h.registry, h.kept, h.stores, h.other⟩

theorem Before.refl (s : Spaces) (old new : RegistryEntry) : Before s old new s :=
  ⟨rfl, rfl, fun _ => rfl, fun _ _ => rfl, Or.inl rfl⟩

/-- What is open once another server is main; the note says whether keys are still to be put in place. -/
def swapped (s : Spaces) (new : RegistryEntry) (handover : Option String) : Inner :=
  { s.inner with main := new.id, handover }

/-- The keys are in place and the old main store holds no personal record. -/
structure Finished (s : Spaces) (old : RegistryEntry) (ready : RegistryEntry → Option KeptKey) (t : Spaces) :
    Prop where
  kept : ∀ entry ∈ s.inner.entries, (t.file entry).kept = ready entry
  cleared : (t.files (s.path old)).store.personalItems = []

/-- Another server that is made main is one, and not the one that was. -/
structure Other (s : Spaces) (old new : RegistryEntry) : Prop where
  new_mem : new ∈ s.inner.entries
  server : new.isServer = true
  old_mem : old ∈ s.inner.entries
  main : old.id = s.inner.main
  ne : new.id ≠ s.inner.main

theorem Other.path_ne (h : Other s old new) (hsound : s.inner.Sound s.paths) : s.path old ≠ s.path new := by
  intro heq
  apply h.ne
  rw [← h.main, hsound.path_injective h.old_mem h.new_mem heq]

/-- The swap is on disk and in memory, and what follows it is still to be done. -/
structure Pending (s : Spaces) (old new : RegistryEntry) (ready : RegistryEntry → Option KeptKey) (t : Spaces) :
    Prop where
  after : After s old new ready t
  inner : t.inner = swapped s new (some s.inner.main)
  registry : t.registry = .file (swapped s new (some s.inner.main)).file

/-- What follows the swap is done; the note of it may still lie on disk. -/
structure Settled (s : Spaces) (old new : RegistryEntry) (ready : RegistryEntry → Option KeptKey) (t : Spaces) :
    Prop where
  after : After s old new ready t
  finished : Finished s old ready t
  inner : t.inner = swapped s new none
  registry : ∃ note, (note = none ∨ note = some s.inner.main) ∧ t.registry = .file (swapped s new note).file

/-- The other server is main. -/
def Swapped (s : Spaces) (old new : RegistryEntry) (t : Spaces) : Prop :=
  Other s old new ∧ ∃ ready, Ready s old new ready ∧ (Pending s old new ready t ∨ Settled s old new ready t)

/-- Where a run of the swap may be: before it or after it. -/
def Midway (s : Spaces) (old new : RegistryEntry) (t : Spaces) : Prop :=
  Before s old new t ∨ Swapped s old new t

theorem clearing_of_eq {before after : Store} (h : after.locked = before.locked) : Clearing before after := by
  have hdocs : after.locked.mentioned = before.locked.mentioned := congrArg Store.mentioned h
  exact ⟨h ▸ .refl _, fun id hid => hdocs ▸ hid⟩

/-- The keys prepared, the registry is swapped or everything stays as it was. -/
theorem wp_swapRegistry {post : Except LocalError Unit → Unit → Spaces → Prop} {result : Store}
    (hpaths : s.path old ≠ s.path new) (hother : Other s old new) (hread : s.inner.unreadable = false)
    (hhandover : s.inner.handover = none) (htook : Took (s.store old) (s.store new) result) (hstep : Unstaged (s.setStore new result) t)
    (hready : Ready s old new fun entry => (t.file entry).promote.kept)
    (hfail : ∀ e u, Before s old new u → u.inner = s.inner → post (.error e) () u)
    (hok : ∀ u, Swapped s old new u → post (.ok ()) () u) :
    (swapRegistry new.id).wp (upholding True (Midway s old new)) post () t := by
  have hstore : ∀ path, path ≠ s.path new → (t.files path).store = (s.files path).store := by
    intro path hpath
    rw [hstep.store]
    exact congrArg SpaceFile.store (files_setFile_of_ne _ _ _ hpath)
  have hnew : (t.files (s.path new)).store = result := by
    rw [hstep.store]
    exact congrArg SpaceFile.store (files_setFile_self ..)
  have hkept : ∀ path, (t.files path).kept = (s.files path).kept := by
    intro path
    rw [hstep.kept]
    by_cases hpath : path = s.path new
    · rw [hpath]
      exact (congrArg SpaceFile.kept
        (files_setFile_self s new fun file => { file with store := result })).trans rfl
    · exact congrArg SpaceFile.kept (files_setFile_of_ne _ _ _ hpath)
  have hbefore : Before s old new t := by
    refine ⟨hstep.paths, hstep.registry, hkept, fun path hpath => ?_, Or.inr ⟨result, htook, ?_⟩⟩
    · rw [hstore path hpath]
    · rw [hnew]
  have hinner : t.inner = s.inner := hstep.inner
  let next := t.edit fun inner => { inner with main := new.id, handover := some t.inner.main }
  have hnext : next.inner = swapped s new (some s.inner.main) := by
    show { t.inner with main := new.id, handover := some t.inner.main } = _
    rw [hinner]
    rfl
  have hswapped : Swapped s old new { next with registry := .file next.inner.file } := by
    have hafter : After s old new (fun entry => (t.file entry).promote.kept)
        { next with registry := .file next.inner.file } := by
      refine ⟨hstep.paths, fun _ _ => rfl, fun path _ => hkept path, fun path hpath _ => ?_,
        ⟨result, htook, ?_⟩, clearing_of_eq ?_⟩
      · exact congrArg Store.locked (hstore path hpath)
      · exact congrArg Store.locked hnew
      · exact congrArg Store.locked (hstore _ hpaths)
    exact ⟨hother, _, hready, Or.inl ⟨hafter, hnext, congrArg (fun inner => OnDisk.file inner.file) hnext⟩⟩
  unfold swapRegistry
  rw [wp_bind, wp_get]
  dsimp only
  rw [wp_bind]
  refine wp_set (Or.inl (hbefore.edit _)) ?_
  dsimp only
  rw [wp_bind, wp_attempt]
  refine wp_persist ?_ ?_ (Or.inr hswapped) (fun hnot => absurd trivial hnot) (hok _ hswapped)
  · exact (congrArg Inner.unreadable hnext).trans hread
  · dsimp only
    rw [wp_bind]
    -- What could not be written is taken back.
    refine wp_set (Or.inl ((hbefore.edit _).edit _)) ?_
    dsimp only
    rw [wp_bind]
    have hback : ((t.edit fun inner => { inner with main := new.id, handover := some t.inner.main }).edit
        fun inner => { inner with main := t.inner.main, handover := none }).inner = s.inner := by
      show { t.inner with handover := none } = s.inner
      rw [hinner, ← hhandover]
    refine wp_dropStaged (fun u hu => Or.inl (((hbefore.edit _).edit _).unstaged hu.toUnstaged)) fun u hu => ?_
    exact hfail _ u (((hbefore.edit _).edit _).unstaged hu.toUnstaged) (hu.inner.trans hback)

theorem exists_main {inner : Inner} {paths : Paths} (h : inner.Sound paths) : ∃ old ∈ inner.entries,
    old.id = inner.main ∧ old.isServer = true ∧
      (inner.entries.find? fun entry => entry.id == inner.main) = some old := by
  obtain ⟨entry, hentry, hmain⟩ := List.any_eq_true.mp h.main
  obtain ⟨hid, hserver⟩ := Bool.and_eq_true_iff.mp hmain
  have hid : entry.id = inner.main := by simpa using hid
  cases hfind : inner.entries.find? fun entry => entry.id == inner.main with
  | none =>
    have hnone := List.find?_eq_none.mp hfind entry hentry
    exact absurd (by simpa using hid) hnone
  | some old =>
    have hold := List.mem_of_find?_eq_some hfind
    have hsame : old.id = inner.main := by simpa using List.find?_some hfind
    have heq := h.id_injective hold hentry (hsame.trans hid.symm)
    exact ⟨old, hold, hsame, heq ▸ hserver, rfl⟩

theorem Fresh.of_uses {draws : Draws} {s : Spaces} (h : draws.Fresh s.Uses) (a b : RegistryEntry) :
    draws.Fresh fun id => (s.store a).Uses id ∨ (s.store b).Uses id where
  distinct := h.distinct
  unused hid hused := h.unused hid (hused.elim (fun h => ⟨_, h⟩) fun h => ⟨_, h⟩)

theorem wp_mainEntry {synced : Prop} {inv : Spaces → Prop} {post : Except LocalError RegistryEntry → Unit → Spaces → Prop}
    (hsound : s.inner.Sound s.paths) (hmain : old ∈ s.inner.entries) (hold : old.id = s.inner.main)
    (hok : post (.ok old) () s) : mainEntry.wp (upholding synced inv) post () s := by
  obtain ⟨entry, hentry, hid, -, hfind⟩ := exists_main hsound
  rw [hsound.id_injective hentry hmain (hid.trans hold.symm)] at hfind
  unfold mainEntry
  rw [wp_bind, wp_get]
  dsimp only
  rw [hfind]
  exact hok

theorem kept_setStore (s : Spaces) (entry : RegistryEntry) (store : Store) (path : StorePath) :
    ((s.setStore entry store).files path).kept = (s.files path).kept := by
  by_cases hpath : path = s.path entry
  · rw [hpath]
    exact (congrArg SpaceFile.kept (files_setFile_self s entry fun file => { file with store })).trans rfl
  · exact congrArg SpaceFile.kept (files_setFile_of_ne _ _ _ hpath)

theorem staged_setStore (s : Spaces) (entry : RegistryEntry) (store : Store) (path : StorePath) :
    ((s.setStore entry store).files path).staged = (s.files path).staged := by
  by_cases hpath : path = s.path entry
  · rw [hpath]
    exact (congrArg SpaceFile.staged (files_setFile_self s entry fun file => { file with store })).trans rfl
  · exact congrArg SpaceFile.staged (files_setFile_of_ne _ _ _ hpath)

theorem store_setStore_self (s : Spaces) (entry : RegistryEntry) (store : Store) :
    ((s.setStore entry store).files (s.path entry)).store = store :=
  (congrArg SpaceFile.store (files_setFile_self s entry fun file => { file with store })).trans rfl

theorem Ready.of_setStore {result : Store} {ready : RegistryEntry → Option KeptKey}
    (hsound : s.inner.Sound s.paths) (hnew : new ∈ s.inner.entries)
    (hvault : result.vault = (s.store new).vault) (h : Ready (s.setStore new result) old new ready) :
    Ready s old new ready := by
  obtain ⟨vault, hopen, hkey, hothers⟩ := h
  refine ⟨vault, ?_, ?_, fun entry hentry hne => ?_⟩
  · rw [← hvault, ← hopen]
    exact congrArg Store.vault (store_setStore_self s new result).symm
  · rw [Spaces.file, kept_setStore] at hkey
    exact hkey
  · have hpath : s.path entry ≠ s.path new := fun heq => hne (hsound.path_injective hentry hnew heq)
    have hfile : (s.setStore new result).file entry = s.file entry := files_setFile_of_ne _ _ _ hpath
    rw [hothers entry hentry hne, hfile]
    exact congrArg (fun file : SpaceFile => match file.store.vault with
      | some own => some (own.keptKey (.byVault (vault.sealForSpace entry.id own.key)))
      | none => (s.file entry).promote.kept) hfile

/-- Wherever the first half is cut off, everything is as before the swap or as after it; with an
error it is as before. -/
theorem wp_swapMain {post : Except LocalError Unit → Unit → Spaces → Prop} {id : String} {space : SpaceHandle}
    (hsound : s.inner.Sound s.paths) (hread : s.inner.unreadable = false) (hhandover : s.inner.handover = none)
    (hget : s.inner.get id = some space) (hmain : old ∈ s.inner.entries) (hold : old.id = s.inner.main)
    (hpost : ∀ r t, Before s old space.toRegistryEntry t → t.inner = s.inner → post r () t)
    (hok : ∀ t, Swapped s old space.toRegistryEntry t → post (.ok ()) () t) :
    (swapMain id).wp (upholding True (Midway s old space.toRegistryEntry)) post () s := by
  obtain ⟨new, hnew, hid, rfl⟩ := Inner.get_eq_some hget
  have hkeep : ∀ r, post r () s := fun r => hpost r s (.refl s old new) rfl
  have hinv : Midway s old new s := Or.inl (.refl s old new)
  unfold swapMain getSpace
  rw [wp_bind, wp_bind, wp_get]
  dsimp only
  rw [hget]
  dsimp only [Option.elim]
  rw [wp_ofExcept]
  dsimp only
  split
  · exact hkeep _
  · next hother =>
    split
    · exact hkeep _
    · next hserver =>
      rw [wp_bind]
      unfold writable
      split
      · exact hkeep _
      · have hne : s.path old ≠ s.path new := by
          intro heq
          have hsame := hsound.path_injective hmain hnew heq
          apply hother
          rw [hsame] at hold
          simpa [Inner.handle] using hold
        have hchosen : Other s old new := by
          refine ⟨hnew, ?_, hmain, hold, fun heq => hother ?_⟩
          · simpa [Inner.handle] using hserver
          · simpa [Inner.handle] using heq
        rw [wp_pure]
        dsimp only
        rw [wp_bind]
        refine wp_mainEntry hsound hmain hold ?_
        dsimp only
        rw [wp_bind]
        refine wp_requireOpen hinv (fun e => hkeep _) fun _ => ?_
        dsimp only
        rw [wp_bind]
        refine wp_requireOpen hinv (fun e => hkeep _) fun hopen => ?_
        dsimp only
        rw [wp_bind]
        refine wp_reading hinv (hkeep _) ?_
        dsimp only
        rw [wp_bind, wp_ofExcept]
        cases hexport : (s.store old).exportPersonal with
        | error e => exact hkeep _
        | ok personal =>
          dsimp only
          rw [wp_bind]
          refine wp_transact hinv (fun e => hkeep _) fun draws result hfresh himport => ?_
          have htook : Took (s.store old) (s.store new) result :=
            ⟨fun item hitem => importPersonal_taken (Fresh.of_uses hfresh old new) hexport himport hitem,
              draws, Fresh.of_uses hfresh old new,
              importPersonal_within (Fresh.of_uses hfresh old new) hexport himport⟩
          have hbefore : Before s old new (s.setStore new result) := by
            refine ⟨rfl, rfl, s.kept_setStore new result, fun path hpath => ?_, Or.inr ⟨result, htook, ?_⟩⟩
            · exact congrArg (fun file => file.store.locked) (files_setFile_of_ne _ _ _ hpath)
            · exact congrArg Store.locked (store_setStore_self s new result)
          have hvault : result.vault = (s.store new).vault := by
            obtain ⟨_, _, hwithin⟩ := htook.within
            exact hwithin.frame.vault
          refine ⟨Or.inl hbefore, ?_⟩
          dsimp only
          rw [wp_bind, wp_attempt]
          refine wp_prepare (s := s.setStore new result) hsound hnew ?_
            (fun t ht => Or.inl (hbefore.unstaged ht)) (fun e t ht => ?_) fun t ht hready => ?_
          · have hsame : ((s.setStore new result).store new).vault = result.vault :=
              congrArg Store.vault (store_setStore_self s new result)
            exact (congrArg Option.isSome (hsame.trans hvault)).trans hopen
          · dsimp only
            rw [wp_bind]
            refine wp_dropStaged (fun u hu => Or.inl (hbefore.unstaged (ht.trans hu.toUnstaged))) fun u hu => ?_
            exact hpost _ u (hbefore.unstaged (ht.trans hu.toUnstaged)) (ht.trans hu.toUnstaged).inner
          · dsimp only
            rw [← hid]
            exact wp_swapRegistry hne hchosen hread hhandover htook ht (hready.of_setStore hsound hnew hvault)
              (fun e u hu hinner => hpost _ u hu hinner) hok

end swapping

section settling

variable {synced : Prop} {s t u : Spaces} {old new : RegistryEntry} {ready : RegistryEntry → Option KeptKey}

/-- Some prepared keys were put in place. -/
structure Promoted (s t : Spaces) : Prop where
  paths : t.paths = s.paths
  registry : t.registry = s.registry
  inner : t.inner = s.inner
  store : ∀ path, (t.files path).store = (s.files path).store
  promoted : ∀ path, (t.files path).promote.kept = (s.files path).promote.kept
  kept : ∀ path, (t.files path).kept = (s.files path).kept ∨ (t.files path).kept = (s.files path).promote.kept
  elsewhere : ∀ path, (∀ entry ∈ s.inner.entries, path ≠ s.path entry) →
    (t.files path).kept = (s.files path).kept

theorem Promoted.refl (s : Spaces) : Promoted s s :=
  ⟨rfl, rfl, rfl, fun _ => rfl, fun _ => rfl, fun _ => Or.inl rfl, fun _ _ => rfl⟩

theorem Promoted.path (h : Promoted s t) (entry : RegistryEntry) : t.path entry = s.path entry := by
  rw [Spaces.path, Spaces.path, h.paths]

theorem Promoted.trans (h : Promoted s t) (h' : Promoted t u) : Promoted s u where
  paths := h'.paths.trans h.paths
  registry := h'.registry.trans h.registry
  inner := h'.inner.trans h.inner
  store path := (h'.store path).trans (h.store path)
  promoted path := (h'.promoted path).trans (h.promoted path)
  kept path := by
    rcases h'.kept path with heq | heq
    · rw [heq]
      exact h.kept path
    · exact Or.inr (heq.trans (h.promoted path))
  elsewhere path hpath := by
    refine (h'.elsewhere path fun entry hentry => ?_).trans (h.elsewhere path hpath)
    rw [h.path]
    exact hpath entry (h.inner ▸ hentry)

theorem promote_promote (file : SpaceFile) : file.promote.promote = file.promote := by
  unfold SpaceFile.promote
  cases hstaged : file.staged with
  | none => simp [hstaged]
  | some staged => cases staged <;> rfl

theorem promoted_setFile {entry : RegistryEntry} (hentry : entry ∈ s.inner.entries) :
    Promoted s (s.setFile entry .promote) := by
  have hsame : ∀ path, path ≠ s.path entry → (s.setFile entry .promote).files path = s.files path :=
    fun path hpath => files_setFile_of_ne _ _ _ hpath
  refine ⟨rfl, rfl, rfl, fun path => ?_, fun path => ?_, fun path => ?_, fun path hpath => ?_⟩
  · by_cases h : path = s.path entry
    · rw [h, files_setFile_self, store_promote]
      rfl
    · rw [hsame path h]
  · by_cases h : path = s.path entry
    · rw [h, files_setFile_self, promote_promote]
      rfl
    · rw [hsame path h]
  · by_cases h : path = s.path entry
    · rw [h, files_setFile_self]
      exact Or.inr rfl
    · exact Or.inl (by rw [hsame path h])
  · rw [hsame path (hpath entry hentry)]

theorem wp_promoteAll {inv : Spaces → Prop} {spaces : List SpaceHandle}
    {post : Except LocalError Unit → Unit → Spaces → Prop}
    (hmem : ∀ space ∈ spaces, space.toRegistryEntry ∈ s.inner.entries)
    (hinv : ∀ t, Promoted s t → inv t) (hfail : ∀ e t, Promoted s t → post (.error e) () t)
    (hok : ∀ t, Promoted s t →
      (∀ space ∈ spaces, (t.file space.toRegistryEntry).kept = (s.file space.toRegistryEntry).promote.kept) →
      post (.ok ()) () t) :
    (promoteAll spaces).wp (upholding synced inv) post () s := by
  induction spaces generalizing s with
  | nil => exact hok s (.refl s) (by simp)
  | cons space rest ih =>
    have hstep := promoted_setFile (hmem space List.mem_cons_self)
    unfold promoteAll
    rw [wp_bind]
    refine wp_modify_file (hfail _ s (.refl s)) (hinv _ hstep) ?_
    refine ih (fun space' h => hmem space' (List.mem_cons_of_mem _ h)) (fun t ht => hinv t (hstep.trans ht))
      (fun e t ht => hfail e t (hstep.trans ht)) fun t ht hrest => hok t (hstep.trans ht) ?_
    intro space' hspace'
    rcases List.mem_cons.mp hspace' with rfl | hmem'
    · have hself : ((s.setFile space'.toRegistryEntry .promote).files (s.path space'.toRegistryEntry)) =
          (s.file space'.toRegistryEntry).promote := files_setFile_self ..
      have hkept := ht.kept (s.path space'.toRegistryEntry)
      rw [hself, promote_promote, or_self] at hkept
      rw [Spaces.file, ht.path]
      exact hkept
    · rw [hrest space' hmem']
      exact hstep.promoted _

theorem Store.Within.locked {touched : EntityKind → Uuid → Prop} {a b : Store} (h : a.Within touched b) :
    a.locked.Within touched b.locked where
  rows := h.rows
  frame := ⟨h.frame.device, rfl, h.frame.vaultId, h.frame.cursor, h.frame.floor, h.frame.violations⟩
  superseded := h.superseded

theorem Clearing.step {a b c : Store} (h : Clearing a b) (hwithin : b.Within b.IsPersonal c)
    (hmentioned : ∀ id ∈ c.mentioned, id ∈ b.mentioned) : Clearing a c where
  within := h.within.trans <| (Store.Within.locked hwithin).mono fun _ id hid =>
    hid.imp_right fun hsecret => ⟨hsecret.1, h.mentioned id hsecret.2⟩
  mentioned id hid := h.mentioned id (hmentioned id hid)

theorem mentioned_of_docs_nil {a : Store} (h : a.docs = []) : a.mentioned = [] := by
  rw [Store.mentioned, h]
  rfl

theorem Clearing.clearPersonal {a b : Store} (h : Clearing a b) (draws : Draws) :
    Clearing a (b.clearPersonal draws) := by
  obtain ⟨-, hdocs, hwithin⟩ := clearPersonal_spec draws b
  refine h.step hwithin fun id hid => ?_
  rw [mentioned_of_docs_nil hdocs] at hid
  exact absurd hid List.not_mem_nil

/-- Clearing the cache leaves snippets and the records under fixed ids as they are. -/
theorem Clearing.clearAssistCache {a b : Store} (h : Clearing a b) (hsnippets : b.liveSnippets = [])
    (hdocs : b.docs = []) (draws : Draws) :
    Clearing a (b.clearAssistCache draws) ∧ (b.clearAssistCache draws).personalItems = [] := by
  obtain ⟨hused, hwithin⟩ := clearAssistCache_spec draws b
  have hsnippets' : (b.clearAssistCache draws).liveSnippets = [] := by
    rw [Store.liveSnippets_eq_nil] at hsnippets ⊢
    intro id row hrow
    exact hsnippets id row ((hwithin.rows .snippet id nofun).symm.trans hrow)
  have hdocs' : (b.clearAssistCache draws).docs = [] := by
    rw [Store.docs_eq_nil] at hdocs ⊢
    intro table id row hrow
    have hkind : table.kind ≠ .assistCache := by cases table <;> exact nofun
    exact hdocs table id row ((hwithin.rows table.kind id hkind).symm.trans hrow)
  constructor
  · refine h.step (hwithin.mono fun kind id hkind => Or.inl (Or.inr (Or.inr hkind))) fun id hid => ?_
    rw [mentioned_of_docs_nil hdocs'] at hid
    exact absurd hid List.not_mem_nil
  · rw [Store.personalItems, hsnippets', hdocs', hused]
    rfl

theorem After.promoted (h : After s old new ready t) (hinner : t.inner.entries = s.inner.entries)
    (h' : Promoted t u) : After s old new ready u := by
  have hpath : ∀ entry, t.path entry = s.path entry := fun entry => by rw [Spaces.path, Spaces.path, h.paths]
  refine ⟨h'.paths.trans h.paths, fun entry hentry => ?_, fun path hpaths => ?_, fun path hne hne' => ?_, ?_, ?_⟩
  · rw [Spaces.file, h'.path, h'.promoted]
    exact h.kept entry hentry
  · rw [h'.elsewhere path fun entry hentry => ?_]
    · exact h.elsewhere path hpaths
    · rw [hpath]
      exact hpaths entry (hinner ▸ hentry)
  · rw [h'.store]
    exact h.stores path hne hne'
  · rw [h'.store]
    exact h.new
  · rw [h'.store]
    exact h.old

theorem After.setStore_old {store : Store} (hne : s.path old ≠ s.path new) (h : After s old new ready t)
    (hclearing : Clearing (s.store old) store) : After s old new ready (t.setStore old store) := by
  have hpath : t.path old = s.path old := by rw [Spaces.path, Spaces.path, h.paths]
  have hsame : ∀ path, path ≠ s.path old → (t.setStore old store).files path = t.files path :=
    fun path hne => files_setFile_of_ne _ _ _ (hpath ▸ hne)
  refine ⟨h.paths, fun entry hentry => ?_, fun path hpaths => ?_, fun path hne hne' => ?_, ?_, ?_⟩
  · rw [← h.kept entry hentry, kept_promote, kept_promote]
    exact congrArg₂ promotedKey (kept_setStore ..) (staged_setStore ..)
  · rw [kept_setStore]
    exact h.elsewhere path hpaths
  · rw [hsame path hne']
    exact h.stores path hne hne'
  · rw [hsame _ hne.symm]
    exact h.new
  · rw [← hpath, store_setStore_self]
    exact hclearing

/-- Taking the personal records out of the old main store, once the keys are in place. -/
theorem wp_clearPersonal {inv : Spaces → Prop} {post : Except LocalError Unit → Unit → Spaces → Prop}
    (hsound : s.inner.Sound s.paths) (hmain : old ∈ s.inner.entries) (hold : old.id = s.inner.main)
    (hne : s.path old ≠ s.path new) (h : Pending s old new ready t)
    (hkept : ∀ entry ∈ s.inner.entries, (t.file entry).kept = ready entry)
    (hinv : ∀ u, Pending s old new ready u → inv u)
    (hfail : ∀ e u, Pending s old new ready u → post (.error e) () u)
    (hok : ∀ u, Pending s old new ready u → Finished s old ready u → post (.ok ()) () u) :
    (clearPersonal s.inner.main).wp (upholding synced inv) post () t := by
  obtain ⟨entry, hentry, hid, -, hfind⟩ := exists_main hsound
  rw [hsound.id_injective hentry hmain (hid.trans hold.symm)] at hfind
  have hget : t.inner.get s.inner.main = some (t.inner.handle old) := by
    rw [Inner.get, h.inner]
    exact congrArg (Option.map _) hfind
  have hpath : t.path old = s.path old := by rw [Spaces.path, Spaces.path, h.after.paths]
  have hset : ∀ {u : Spaces} {store : Store}, Pending s old new ready u → Clearing (s.store old) store →
      Pending s old new ready (u.setStore old store) := fun hu hclearing =>
    ⟨hu.after.setStore_old hne hclearing, hu.inner, hu.registry⟩
  unfold clearPersonal
  rw [wp_bind, wp_get]
  dsimp only
  rw [hget]
  dsimp only
  rw [wp_bind]
  refine wp_transact (hinv t h) (fun e => hfail e t h) fun draws store _ hstore => ?_
  cases hstore
  have hfirst : Clearing (s.store old) ((t.store old).clearPersonal draws) := by
    have hclearing := h.after.old
    rw [← hpath] at hclearing
    exact hclearing.clearPersonal draws
  obtain ⟨hsnippets, hdocs, -⟩ := clearPersonal_spec draws (t.store old)
  have hu := hset h hfirst
  refine ⟨hinv _ hu, ?_⟩
  dsimp only
  refine wp_transact (hinv _ hu) (fun e => hfail e _ hu) fun draws' store' _ hstore' => ?_
  cases hstore'
  have hstore : (t.setStore old ((t.store old).clearPersonal draws)).store old =
      (t.store old).clearPersonal draws := store_setStore_self ..
  have hsecond := hfirst.clearAssistCache hsnippets hdocs draws'
  rw [← hstore] at hsecond
  have hv := hset hu hsecond.1
  refine ⟨hinv _ hv, hok _ hv ⟨fun entry hentry => ?_, ?_⟩⟩
  · rw [← hkept entry hentry]
    exact (kept_setStore ..).trans (kept_setStore ..)
  · rw [← hpath]
    exact (congrArg Store.personalItems (store_setStore_self ..)).trans hsecond.2

/-- The second half: cut off anywhere, it is still to be done or done; through, it is done. -/
theorem wp_settle_pending {post : Except LocalError Unit → Unit → Spaces → Prop}
    (hsound : s.inner.Sound s.paths) (hread : s.inner.unreadable = false) (hother : Other s old new)
    (hready : Ready s old new ready) (h : Pending s old new ready t) (hfail : ∀ e u, Swapped s old new u → post (.error e) () u)
    (hok : ∀ u, Settled s old new ready u → post (.ok ()) () u) :
    settleHandover.wp (upholding synced (Swapped s old new)) post () t := by
  have hpending : ∀ u, Pending s old new ready u → Swapped s old new u := fun u hu => ⟨hother, ready, hready, Or.inl hu⟩
  have hentries : t.inner.entries = s.inner.entries := by rw [h.inner]; rfl
  have hwhole : wholeTeams t.inner.entries = t.inner.entries := by
    rw [hentries]
    exact hsound.whole
  have hpromoted : ∀ u, Promoted t u → Pending s old new ready u := fun u hu =>
    ⟨h.after.promoted hentries hu, hu.inner.trans h.inner, hu.registry.trans h.registry⟩
  have hnote : t.inner.handover = some s.inner.main := by rw [h.inner]; rfl
  unfold settleHandover
  rw [wp_bind, wp_get]
  dsimp only
  rw [hnote]
  dsimp only
  rw [wp_bind, wp_get]
  dsimp only
  rw [wp_bind]
  refine wp_promoteAll (fun space hspace => ?_) (fun u hu => hpending u (hpromoted u hu))
    (fun e u hu => hfail e u (hpending u (hpromoted u hu))) fun u hu hkept => ?_
  · obtain ⟨entry, hentry, rfl⟩ := (Inner.mem_all hwhole).mp hspace
    exact hentry
  dsimp only
  rw [wp_bind]
  refine wp_clearPersonal hsound hother.old_mem hother.main (hother.path_ne hsound) (hpromoted u hu) (fun entry hentry => ?_) hpending
    (fun e v hv => hfail e v (hpending v hv)) fun v hv hfinished => ?_
  · rw [← h.after.kept entry hentry]
    exact hkept (t.inner.handle entry) ((Inner.mem_all hwhole).mpr ⟨entry, hentries ▸ hentry, rfl⟩)
  dsimp only
  rw [wp_bind]
  have hinner : (v.edit fun inner => { inner with handover := none }).inner = swapped s new none := by
    show { v.inner with handover := none } = _
    rw [hv.inner]
    rfl
  have hdone : Settled s old new ready (v.edit fun inner => { inner with handover := none }) :=
    ⟨⟨hv.after.paths, hv.after.kept, hv.after.elsewhere, hv.after.stores, hv.after.new, hv.after.old⟩,
      ⟨hfinished.kept, hfinished.cleared⟩, hinner, _, Or.inr rfl, hv.registry⟩
  refine wp_set ⟨hother, ready, hready, Or.inr hdone⟩ ?_
  dsimp only
  have hwritten : Settled s old new ready { (v.edit fun inner => { inner with handover := none }) with
      registry := .file (v.edit fun inner => { inner with handover := none }).inner.file } :=
    ⟨⟨hv.after.paths, hv.after.kept, hv.after.elsewhere, hv.after.stores, hv.after.new, hv.after.old⟩,
      ⟨hfinished.kept, hfinished.cleared⟩, hinner, none, Or.inl rfl,
      congrArg (fun inner => OnDisk.file inner.file) hinner⟩
  have hthrough : Swapped s old new _ := ⟨hother, ready, hready, Or.inr hwritten⟩
  refine wp_persist ?_ ?_ hthrough (fun _ => hfail _ _ hthrough) (hok _ hwritten)
  · exact (congrArg Inner.unreadable hinner).trans hread
  · exact hfail _ _ ⟨hother, ready, hready, Or.inr hdone⟩

end settling

section recovering

variable {synced : Prop} {s t u v : Spaces} {old new : RegistryEntry} {ready : RegistryEntry → Option KeptKey}

theorem Before.reopened (h : Before s old new t) : Before s old new t.reopened :=
  ⟨h.paths, h.registry, h.kept, h.stores, h.other⟩

theorem After.reopened (h : After s old new ready t) : After s old new ready t.reopened :=
  ⟨h.paths, fun entry hentry => by
      rw [← h.kept entry hentry, kept_promote, kept_promote]
      rfl,
    h.elsewhere, h.stores, h.new, ⟨h.old.within, h.old.mentioned⟩⟩

theorem After.dropped (h : After s old new ready t) (hfinished : Finished s old ready t) (h' : Dropped t u) :
    After s old new ready u ∧ Finished s old ready u := by
  have hkept : ∀ entry ∈ s.inner.entries, (u.file entry).kept = ready entry := by
    intro entry hentry
    rw [h'.file_kept]
    exact hfinished.kept entry hentry
  refine ⟨⟨h'.paths.trans h.paths, fun entry hentry => ?_, fun path hpath => ?_, fun path hne hne' => ?_, ?_, ?_⟩,
    hkept, ?_⟩
  · rw [kept_promote]
    have hentryKept := hkept entry hentry
    rcases h'.staged (u.path entry) with hnone | hsame
    · rw [Spaces.file] at hentryKept ⊢
      rw [hnone]
      exact hentryKept
    · have hbefore := h.kept entry hentry
      rw [kept_promote, hfinished.kept entry hentry] at hbefore
      rw [hentryKept, Spaces.file, hsame, h'.path]
      exact hbefore
  · rw [h'.kept]
    exact h.elsewhere path hpath
  · rw [h'.store]
    exact h.stores path hne hne'
  · rw [h'.store]
    exact h.new
  · rw [h'.store]
    exact h.old
  · rw [h'.store]
    exact hfinished.cleared

theorem Settled.dropped (h : Settled s old new ready t) (h' : Dropped t u) : Settled s old new ready u := by
  obtain ⟨hafter, hfinished⟩ := h.after.dropped h.finished h'
  refine ⟨hafter, hfinished, h'.inner.trans h.inner, ?_⟩
  rw [h'.registry]
  exact h.registry

theorem swapped_sound (hsound : s.inner.Sound s.paths) (h : Other s old new) {note : Option String}
    (hnote : note = none ∨ note = some s.inner.main) : (swapped s new note).Sound s.paths := by
  have hserver : s.inner.isServer new.id = true :=
    List.any_eq_true.mpr ⟨new, h.new_mem, by simp [h.server]⟩
  refine ⟨hsound.planned, hsound.opened, hsound.whole, hserver, hsound.defaults, hsound.journal, ?_,
    hsound.leaving⟩
  intro id hid
  rcases hnote with rfl | rfl
  · cases hid
  · cases hid
    exact ⟨h.ne.symm, hsound.main⟩

theorem ofDisk_swapped (hsound : s.inner.Sound s.paths) (hread : s.inner.unreadable = false)
    (h : Other s old new) {note : Option String} (hnote : note = none ∨ note = some s.inner.main) :
    Inner.ofDisk s.paths (.file (swapped s new note).file) = swapped s new note := by
  rw [Inner.ofDisk_file (swapped_sound hsound h hnote), ← hread]
  rfl

/-- A start finds what was still to be done, or that all is done. -/
theorem Swapped.reopened (hsound : s.inner.Sound s.paths) (hread : s.inner.unreadable = false)
    (h : Swapped s old new t) : Swapped s old new t.reopened := by
  obtain ⟨hother, ready, hready, hpending | hsettled⟩ := h
  · refine ⟨hother, ready, hready, Or.inl ⟨hpending.after.reopened, ?_, hpending.registry⟩⟩
    rw [← ofDisk_swapped hsound hread hother (Or.inr rfl), ← hpending.registry, ← hpending.after.paths]
    rfl
  · obtain ⟨note, hnote, hregistry⟩ := hsettled.registry
    have hinner : t.reopened.inner = swapped s new note := by
      rw [← ofDisk_swapped hsound hread hother hnote, ← hregistry, ← hsettled.after.paths]
      rfl
    rcases hnote with rfl | rfl
    · exact ⟨hother, ready, hready, Or.inr ⟨hsettled.after.reopened, ⟨hsettled.finished.kept, hsettled.finished.cleared⟩,
        hinner, none, Or.inl rfl, hregistry⟩⟩
    · exact ⟨hother, ready, hready, Or.inl ⟨hsettled.after.reopened, hinner, hregistry⟩⟩

/-- The second half with nothing to finish. -/
theorem wp_settle_none {inv : Spaces → Prop} {post : Except LocalError Unit → Unit → Spaces → Prop}
    (hnone : t.inner.handover = none) (hinv : ∀ u, Dropped t u → inv u)
    (hpost : ∀ u, Dropped t u → post (.ok ()) () u) : settleHandover.wp (upholding synced inv) post () t := by
  unfold settleHandover
  rw [wp_bind, wp_get]
  dsimp only
  rw [hnone]
  exact wp_dropStaged hinv hpost

/-- The main server is the one it was. -/
structure Unswapped (s : Spaces) (old new : RegistryEntry) (t : Spaces) : Prop extends Before s old new t where
  inner : t.inner = s.inner ∨ t.inner = Inner.ofDisk s.paths s.registry

/-- What may follow a run: starts, and second halves that are cut off, fail or go through. -/
inductive Later (s : Spaces) : Spaces → Prop
  | now : Later s s
  | start {t : Spaces} : Later s t → Later s t.reopened
  | settled {t u : Spaces} {r : Except LocalError Unit} :
      Later s t → Runs False settleHandover t u (some r) → Later s u
  | cut {t u : Spaces} : Later s t → Runs False settleHandover t u none → Later s u.reopened

/-- Where second halves and starts may find things: as before the swap, or after it. -/
def Arranged (s : Spaces) (old new : RegistryEntry) (t : Spaces) : Prop :=
  Unswapped s old new t ∨ Swapped s old new t

theorem Arranged.reopened (hsound : s.inner.Sound s.paths) (hread : s.inner.unreadable = false)
    (h : Midway s old new t) : Arranged s old new t.reopened := by
  rcases h with hbefore | hswapped
  · refine Or.inl ⟨hbefore.reopened, Or.inr ?_⟩
    rw [← hbefore.paths, ← hbefore.registry]
    rfl
  · exact Or.inr (hswapped.reopened hsound hread)

theorem Unswapped.dropped (h : Unswapped s old new t) (h' : Dropped t u) : Unswapped s old new u where
  toBefore := h.toBefore.unstaged h'.toUnstaged
  inner := by
    rw [h'.inner]
    exact h.inner

/-- What a second half makes of either arrangement is that arrangement, to the end or not. -/
theorem wp_settleHandover (hsound : s.inner.Sound s.paths) (hread : s.inner.unreadable = false)
    (hnote : s.inner.handover = none) (hdisk : (Inner.ofDisk s.paths s.registry).handover = none)
    (h : Arranged s old new t) :
    settleHandover.wp (upholding synced (Arranged s old new)) (fun r _ u => Arranged s old new u ∧
      (r = .ok () → Unswapped s old new u ∨ ∃ ready, Ready s old new ready ∧ Settled s old new ready u)) () t := by
  rcases h with hunswapped | ⟨hother, ready, hready, hpending | hsettled⟩
  · have hnone : t.inner.handover = none := by
      rcases hunswapped.inner with heq | heq
      · rw [heq, hnote]
      · rw [heq, hdisk]
    exact wp_settle_none hnone (fun u hu => Or.inl (hunswapped.dropped hu)) fun u hu =>
      ⟨Or.inl (hunswapped.dropped hu), fun _ => Or.inl (hunswapped.dropped hu)⟩
  · have hswapped : settleHandover.wp (upholding synced (Swapped s old new)) (fun r _ u =>
        Arranged s old new u ∧ (r = .ok () → Unswapped s old new u ∨
          ∃ ready, Ready s old new ready ∧ Settled s old new ready u)) () t :=
      wp_settle_pending hsound hread hother hready hpending (fun e u hu => ⟨Or.inr hu, nofun⟩)
        fun u hu => ⟨Or.inr ⟨hother, ready, hready, Or.inr hu⟩, fun _ => Or.inr ⟨ready, hready, hu⟩⟩
    refine wp_of_stricter (c := upholding synced (Swapped s old new)) ?_ hswapped
    exact ⟨rfl, rfl, fun _ _ _ _ h => h, fun _ _ _ h => h, fun _ _ _ h => h, fun _ _ _ h => h,
      fun _ _ h => Or.inr h⟩
  · have hnone : t.inner.handover = none := by rw [hsettled.inner]; rfl
    have hkeep : ∀ u, Dropped t u → Settled s old new ready u := fun u hu => hsettled.dropped hu
    exact wp_settle_none hnone (fun u hu => Or.inr ⟨hother, ready, hready, Or.inr (hkeep u hu)⟩) fun u hu =>
      ⟨Or.inr ⟨hother, ready, hready, Or.inr (hkeep u hu)⟩, fun _ => Or.inr ⟨ready, hready, hkeep u hu⟩⟩

theorem Arranged.later (hsound : s.inner.Sound s.paths) (hread : s.inner.unreadable = false)
    (hnote : s.inner.handover = none) (hdisk : (Inner.ofDisk s.paths s.registry).handover = none)
    (h : Arranged s old new t) (hlater : Later t u) : Arranged s old new u := by
  have hmidway : ∀ {v}, Arranged s old new v → Midway s old new v := fun hv => hv.imp (·.toBefore) id
  induction hlater with
  | now => exact h
  | start _ ih => exact .reopened hsound hread (hmidway ih)
  | settled _ hrun ih =>
    exact (hrun.sound ih (wp_settleHandover hsound hread hnote hdisk ih)).1
  | cut _ hrun ih =>
    exact .reopened hsound hread (hmidway (hrun.sound ih (wp_settleHandover hsound hread hnote hdisk ih)).1)

/-- Wherever making another server main is cut off or fails, but for a sync of the registry's folder
after the swap, and whatever starts and second halves follow, their syncs failing or not, once a second half goes through the main server is the one it was, with every key
kept as before and no store changed but for copies of the personal records in the other; or the
other is main, with the keys the new order wants, the personal records in its store and none
left in the old one. Another second half changes nothing. -/
theorem swapMain_crashSafe {id : String} {space : SpaceHandle} {o : Option (Except LocalError Unit)}
    (hsound : s.inner.Sound s.paths) (hread : s.inner.unreadable = false) (hnote : s.inner.handover = none)
    (hdisk : (Inner.ofDisk s.paths s.registry).handover = none) (hget : s.inner.get id = some space)
    (hmain : old ∈ s.inner.entries) (hold : old.id = s.inner.main) (hswap : Runs True (swapMain id) s t o)
    (hlater : Later (o.elim t.reopened fun _ => t) u) (hsettle : Runs False settleHandover u v (some (.ok ()))) :
    (Unswapped s old space.toRegistryEntry v ∨ ∃ ready, Ready s old space.toRegistryEntry ready ∧
      Settled s old space.toRegistryEntry ready v) ∧
    ∀ w o', Runs False settleHandover v w o' → Dropped v w := by
  have hwalk : (swapMain id).wp (upholding True (Midway s old space.toRegistryEntry))
      (fun _ _ t => Arranged s old space.toRegistryEntry t) () s :=
    wp_swapMain hsound hread hnote hget hmain hold (fun r t ht hinner => Or.inl ⟨ht, Or.inl hinner⟩)
      fun t ht => Or.inr ht
  have hfirst := hswap.sound (Or.inl (.refl s old _)) hwalk
  have hstart : Arranged s old space.toRegistryEntry (o.elim t.reopened fun _ => t) := by
    cases o with
    | none => exact .reopened hsound hread hfirst.1
    | some r => exact hfirst.2 r rfl
  have hu := hstart.later hsound hread hnote hdisk hlater
  have hlast := (hsettle.sound hu (wp_settleHandover hsound hread hnote hdisk hu)).2 _ rfl
  have hv := hlast.2 rfl
  refine ⟨hv, fun w o' hagain => ?_⟩
  have hnone : v.inner.handover = none := by
    rcases hv with hunswapped | ⟨ready, -, hsettled⟩
    · rcases hunswapped.inner with heq | heq
      · rw [heq, hnote]
      · rw [heq, hdisk]
    · rw [hsettled.inner]
      rfl
  have hnothing : settleHandover.wp (upholding False (Dropped v)) (fun _ _ _ => True) () v :=
    wp_settle_none hnone (fun _ h => h) fun _ _ => trivial
  exact (hagain.sound (.refl v) hnothing).1

end recovering

section examples

def serverEntry (id file : String) : RegistryEntry :=
  { id, file, kind := .server, readOnly := false, parent := none, team := none, label := none
    role := none }

def firstServer : RegistryEntry := serverEntry "first" "uwussh.db"

def secondServer : RegistryEntry :=
  serverEntry "second" "spaces/00000000-0000-0000-0000-000000000001.db"

def twoRegistry : RegistryFile where
  version := 1
  main := "first"
  spaces := [firstServer, secondServer]
  defaults := { private_ := "first", business := "first" }
  journal := none
  handover := none
  leaving := none

def savedSnippet : Row SnippetCols where
  vaultId := 7
  updatedAt := ⟨5, 0, 1⟩
  rev := 1
  deleted := false
  dirty := true
  serverSeq := 0
  cols := { label := "disk", body := "df -h", groupPath := none, syncExtra := [] }

/-- Two servers with open vaults, the first of them main and with one snippet. -/
def twoServers : Spaces where
  paths := { baseName := "uwussh.db" }
  registry := .file twoRegistry
  aside := false
  inner := .ofDisk { baseName := "uwussh.db" } (.file twoRegistry)
  files
    | .base =>
        { store := (Store.empty 1 7 (some { vaultId := 7, key := 1 })).putRow .snippet 5 savedSnippet
          kept := none, staged := none }
    | .space _ =>
        { store := Store.empty 1 8 (some { vaultId := 8, key := 2 }), kept := none, staged := none }

/-- No new ids and a time, and all goes through but what the folder's sync is said to. -/
def calmAnswers (folder : Bool) : (q : SpacesAsk) → Option (SpacesAnswer q)
  | .draws => some { id := fun _ => none, now := fun _ => 9 }
  | .protect_ _ => some (some [])
  | .reads => some true
  | .folderSynced => some folder
  | .never => none

/-- Where a program is after some writes and questions, and what it came to. -/
def calmly {α : Type} (folder : Bool) (p : SpacesScript α) (n : ℕ) (s : Spaces) :
    Spaces × Option (Except LocalError α) :=
  (p.follow (upholding (folder = true) fun _ => True) (fun _ => calmAnswers folder) n () s).2

theorem runs_calmly {α : Type} (folder : Bool) (p : SpacesScript α) (n : ℕ) (s : Spaces) :
    Runs (folder = true) p s (calmly folder p n s).1 (calmly folder p n s).2 := by
  refine follow_exec _ (fun _ _ q a h => ?_) (fun _ _ _ => trivial) p n () s
  cases q with
  | draws =>
    cases h
    exact ⟨nofun, nofun⟩
  | folderSynced =>
    cases h
    exact id
  | protect_ key => trivial
  | reads => trivial
  | never => trivial

/-- An end without an error, told by a test. -/
theorem ended_of_isOk {o : Option (Except LocalError Unit)} (h : o.elim false (·.isOk) = true) :
    o = some (.ok ()) := by
  cases o with
  | none => cases h
  | some r =>
    cases r with
    | ok a => rfl
    | error e => cases h

/-- An end with a file that could not be written, told by a test. -/
theorem ended_of_io {o : Option (Except LocalError Unit)}
    (h : o.elim false (fun r => match r with | .error .io => true | _ => false) = true) : o = some (.error .io) := by
  cases o with
  | none => cases h
  | some r =>
    dsimp only [Option.elim] at h
    split at h
    · rfl
    · cases h

/-- The other server is made main, the sync that ends the second half fails, and a start does it again. -/
theorem swapMain_crashSafe_second :
    ∃ t u v : Spaces, Runs True (swapMain "second") twoServers t (some (.ok ())) ∧
      Runs False settleHandover t u (some (.error .io)) ∧
      Runs False settleHandover u.reopened v (some (.ok ())) ∧ v.inner.main = "second" ∧
      (Unswapped twoServers firstServer secondServer v ∨
        ∃ ready, Ready twoServers firstServer secondServer ready ∧
          Settled twoServers firstServer secondServer ready v) := by
  have hdone : (calmly true (swapMain "second") 40 twoServers).2 = some (.ok ()) := ended_of_isOk (by decide +kernel)
  have hswap := runs_calmly true (swapMain "second") 40 twoServers
  rw [hdone] at hswap
  let half := (calmly true (swapMain "second") 40 twoServers).1
  have hfailed : (calmly false settleHandover 40 half).2 = some (.error .io) := ended_of_io (by decide +kernel)
  have hsettle := runs_calmly false settleHandover 40 half
  rw [hfailed] at hsettle
  let again := (calmly false settleHandover 40 half).1.reopened
  have hdone' : (calmly true settleHandover 40 again).2 = some (.ok ()) := ended_of_isOk (by decide +kernel)
  have hsettle' := runs_calmly true settleHandover 40 again
  rw [hdone'] at hsettle'
  have hsound : twoServers.inner.Sound twoServers.paths :=
    Inner.ofDisk_sound { baseName := "uwussh.db" } (.file twoRegistry)
  have hfirst : firstServer ∈ twoServers.inner.entries := by decide +kernel
  have hget : twoServers.inner.get "second" = some { secondServer with main := false } := by
    decide +kernel
  have hswap : Runs True _ _ _ _ := hswap.mono fun _ => rfl
  have hsettle : Runs False _ _ _ _ := hsettle.mono nofun
  have hsettle' : Runs False _ _ _ _ := hsettle'.mono nofun
  have hsafe := swapMain_crashSafe hsound (by decide +kernel) (by decide +kernel) (by decide +kernel) hget hfirst
    (by decide +kernel) hswap (.start (.settled .now hsettle)) hsettle'
  exact ⟨_, _, _, hswap, hsettle, hsettle', by decide +kernel, hsafe.1⟩

/-- Cut off between taking the personal records in and the swap, the first server stays main, and
the snippet is in both stores. -/
theorem swapMain_leaves_copy :
    ∃ t v : Spaces, Runs True (swapMain "second") twoServers t none ∧
      Runs True settleHandover t.reopened v (some (.ok ())) ∧ v.inner.main = "first" ∧
      (twoServers.store secondServer).row? .snippet 5 = none ∧
      ((v.store firstServer).row? .snippet 5).any (fun row => !row.deleted) = true ∧
      ((v.store secondServer).row? .snippet 5).any (fun row => !row.deleted) = true := by
  have hcut : (calmly true (swapMain "second") 3 twoServers).2 = none :=
    Option.isNone_iff_eq_none.mp (by decide +kernel)
  have hswap := runs_calmly true (swapMain "second") 3 twoServers
  rw [hcut] at hswap
  have hdone : (calmly true settleHandover 40 (calmly true (swapMain "second") 3 twoServers).1.reopened).2 =
      some (.ok ()) := ended_of_isOk (by decide +kernel)
  have hsettle := runs_calmly true settleHandover 40
    (calmly true (swapMain "second") 3 twoServers).1.reopened
  rw [hdone] at hsettle
  exact ⟨_, _, hswap.mono fun _ => rfl, hsettle.mono fun _ => rfl, by decide +kernel, Option.isNone_iff_eq_none.mp (by decide +kernel),
    by decide +kernel, by decide +kernel⟩

end examples

end Spaces

end UwuSsh

import UwuSsh.Spaces.Records

/-!
Steps across stores that leave the list of spaces alone. Moving records, making another server main
and finishing either writes stores, changes notes in memory and replaces the registry, and a
registry is replaced only by what memory says, once one that did not read lies aside.
-/
namespace UwuSsh

open Script

namespace Spaces

/-- One step after which memory is related to what it was. -/
structure Quiet (K : Inner → Inner → Prop) (s t : Spaces) : Prop where
  paths : t.paths = s.paths
  inner : K s.inner t.inner
  flag : t.inner.unreadable = s.inner.unreadable ∨ t.inner.unreadable = false ∧ s.aside = true
  disk : t.aside = true ∨ t.aside = s.aside ∧
    (t.registry = s.registry ∨ s.inner.unreadable = false ∧ t.inner = s.inner ∧ t.registry = .file t.inner.file)

/-- Runs in which a registry that did not read could be set aside when it had to be. -/
def quietly (K : Inner → Inner → Prop) : Contract Spaces SpacesAsk SpacesAnswer Unit where
  wrote _ _ _ := ()
  asked _ _ _ _ := ()
  rely _ _ _ _ := True
  allowed _ s t := s.inner.unreadable = true → t.inner.unreadable = false → s.aside = true
  guarantee _ := Quiet K
  may _ _ _ := True
  inv _ _ := True

/-- What every step here lets happen to memory: nothing, or that what was begun is forgotten. -/
structure Forgetting (K : Inner → Inner → Prop) : Prop where
  refl : ∀ inner, K inner inner
  readable : ∀ inner, K inner { inner with unreadable := false }
  journal : ∀ inner, K inner { inner with journal := none }
  handover : ∀ inner, K inner { inner with handover := none }

def SameEntries (i j : Inner) : Prop := j.entries = i.entries

theorem forgetting_sameEntries : Forgetting SameEntries := ⟨fun _ => rfl, fun _ => rfl, fun _ => rfl, fun _ => rfl⟩

section quiet

variable {K : Inner → Inner → Prop}

theorem quiet_query (q : SpacesAsk) : Keeps (quietly K) (query q : SpacesScript (SpacesAnswer q)) :=
  Keeps.query fun _ _ _ => ⟨trivial, fun _ _ => trivial⟩

theorem quiet_reading {α : Type} (f : Spaces → α) : Keeps (quietly K) (reading f) := by
  refine (quiet_query _).bind fun answer => ?_
  cases answer with
  | true => exact Keeps.get.bind fun _ => Keeps.done _
  | false => exact Keeps.fail _

theorem quiet_orElse {α : Type} (e : LocalError) (o : Option α) : Keeps (quietly K) (orElse e o) := by
  cases o with
  | none => exact Keeps.fail _
  | some a => exact Keeps.done _

theorem quiet_getSpace (id : String) : Keeps (quietly K) (getSpace id) :=
  Keeps.get.bind fun _ => Keeps.ofExcept _

theorem quiet_writable (space : SpaceHandle) : Keeps (quietly K) (writable space) := by
  unfold writable
  split
  · exact Keeps.fail _
  · exact Keeps.done _

theorem quiet_vaultOpen (entry : RegistryEntry) : Keeps (quietly K) (vaultOpen entry) := by
  refine Keeps.get.bind fun s => ?_
  split
  · exact Keeps.done _
  · exact quiet_reading _

theorem quiet_requireOpen (entry : RegistryEntry) : Keeps (quietly K) (requireOpen entry) := by
  refine (quiet_vaultOpen entry).bind fun isOpen => ?_
  split
  · exact Keeps.done _
  · exact Keeps.fail _

theorem quiet_set {f : Inner → Inner} (hinner : ∀ inner, K inner (f inner))
    (hflag : ∀ inner, (f inner).unreadable = inner.unreadable) : Keeps (quietly K) (set f) := by
  intro g s _
  refine ⟨fun _ => ⟨?_, trivial, trivial⟩, trivial, nofun⟩
  exact { paths := rfl, inner := hinner _, flag := .inl (hflag _), disk := .inr ⟨rfl, .inl rfl⟩ }

variable (hK : Forgetting K)
include hK

/-- A step on the files of the spaces. -/
theorem Forgetting.files (s : Spaces) (files : StorePath → SpaceFile) : Quiet K s { s with files } where
  paths := rfl
  inner := hK.refl _
  flag := .inl rfl
  disk := .inr ⟨rfl, .inl rfl⟩

theorem quiet_setFile (e : LocalError) (entry : RegistryEntry) (f : Spaces → SpaceFile → SpaceFile) :
    Keeps (quietly K) (modify e fun s => s.setFile entry (f s)) :=
  Keeps.modify fun _ s _ _ => ⟨hK.files s _, trivial⟩

theorem quiet_tryFile (entry : RegistryEntry) (f : Spaces → SpaceFile → SpaceFile) :
    Keeps (quietly K) (.write (fun s => s.setFile entry (f s)) (.done ()) (.done ()) : SpacesScript Unit) :=
  fun _ s _ => ⟨fun _ => ⟨hK.files s _, trivial, trivial⟩, trivial⟩

theorem quiet_transact (entry : RegistryEntry) (f : Draws → Store → Except LocalError Store) :
    Keeps (quietly K) (transact entry f) := by
  refine (quiet_query _).bind fun draws => Keeps.get.bind fun s => (Keeps.ofExcept _).bind fun store => ?_
  exact Keeps.modify fun _ s _ _ => ⟨hK.files s _, trivial⟩

theorem quiet_onStore {α : Type} (space : SpaceHandle) (p : StoreScript α) :
    Keeps (quietly K) (onStore space p) :=
  Keeps.onPart _ _ (fun _ s _ _ _ => ⟨hK.files s _, trivial⟩) (fun _ _ _ _ => ⟨trivial, fun _ _ => trivial⟩) p

/-- The registry is written over only by a memory that read it whole, or after it was set aside. -/
theorem quiet_persist : Keeps (quietly K) persist := by
  have hrename : ∀ s : Spaces, s.inner.unreadable = false → (modify .io fun s =>
      { s with registry := OnDisk.file s.inner.file } : SpacesScript Unit).wp (quietly K) (fun _ _ _ => True) () s := by
    intro s hread
    refine ⟨fun _ => ⟨?_, trivial, trivial⟩, trivial⟩
    exact { paths := rfl, inner := hK.refl _, flag := .inl rfl, disk := .inr ⟨rfl, .inr ⟨hread, rfl, rfl⟩⟩ }
  have hrest : ∀ s : Spaces, s.inner.unreadable = false → ((do
      modify .io fun s => { s with registry := OnDisk.file s.inner.file }
      if ← query .folderSynced then return () else fail .io) : SpacesScript Unit).wp (quietly K)
        (fun _ _ _ => True) () s := by
    intro s hread
    rw [wp_bind]
    refine wp_mono (hrename s hread) fun r g t _ => ?_
    cases r with
    | error e => trivial
    | ok _ =>
      refine ((quiet_query (K := K) SpacesAsk.folderSynced).bind fun synced => ?_) g t trivial
      split
      · exact Keeps.done _
      · exact Keeps.fail _
  intro g s _
  unfold persist
  rw [wp_bind, wp_get]
  dsimp only
  cases hread : s.inner.unreadable with
  | false => exact hrest s hread
  | true =>
    have hflag : ∀ t : Spaces, t.inner = s.inner → (set fun inner => { inner with unreadable := false }).wp
        (quietly K) (fun r _ u => r = .ok () → u.inner.unreadable = false) () t := by
      intro t ht
      refine ⟨fun hallowed => ⟨?_, trivial, fun _ => rfl⟩, trivial, nofun⟩
      have haside : t.aside = true := hallowed (ht ▸ hread) rfl
      exact { paths := rfl, inner := hK.readable _, flag := .inr ⟨rfl, haside⟩, disk := .inl haside }
    have haside : setAside.wp (quietly K) (fun _ _ t => t.inner = s.inner) () s := by
      refine ⟨fun _ => ⟨?_, trivial, rfl⟩, rfl⟩
      exact { paths := rfl, inner := hK.refl _, flag := .inl rfl, disk := .inl rfl }
    rw [if_pos rfl, wp_bind]
    refine wp_mono haside fun r g t ht => ?_
    cases r with
    | error e => trivial
    | ok _ =>
      rw [wp_bind]
      refine wp_mono (hflag t ht) fun r g u hu => ?_
      cases r with
      | error e => trivial
      | ok _ => exact hrest u (hu rfl)

theorem quiet_dropStagedOf (spaces : List SpaceHandle) : Keeps (quietly K) (dropStagedOf spaces) := by
  induction spaces with
  | nil => exact Keeps.done _
  | cons space rest ih => exact (quiet_tryFile hK space.toRegistryEntry fun _ => .dropStaged).bind fun _ => ih

theorem quiet_dropStaged : Keeps (quietly K) dropStaged := Keeps.get.bind fun _ => quiet_dropStagedOf hK _

theorem quiet_promoteAll (spaces : List SpaceHandle) : Keeps (quietly K) (promoteAll spaces) := by
  induction spaces with
  | nil => exact Keeps.done _
  | cons space rest ih => exact (quiet_setFile hK _ space.toRegistryEntry fun _ => .promote).bind fun _ => ih

theorem quiet_clearPersonal (id : String) : Keeps (quietly K) (clearPersonal id) := by
  refine Keeps.get.bind fun s => ?_
  split
  · exact Keeps.done _
  · exact (quiet_transact hK _ _).bind fun _ => quiet_transact hK _ _

theorem quiet_settleHandover : Keeps (quietly K) settleHandover := by
  refine Keeps.get.bind fun s => ?_
  split
  · exact quiet_dropStaged hK
  · refine Keeps.get.bind fun t => (quiet_promoteAll hK _).bind fun _ => (quiet_clearPersonal hK _).bind fun _ => ?_
    exact (quiet_set hK.handover fun _ => rfl).bind fun _ => quiet_persist hK

variable (calls : StoreCalls)

theorem quiet_recover : Keeps (quietly K) (recover calls) := by
  refine Keeps.get.bind fun s => ?_
  split
  · exact Keeps.done _
  · next journal _ =>
    have harrived : Keeps (quietly K) (arrived journal) := by
      refine Keeps.get.bind fun t => ?_
      split
      · exact Keeps.done _
      · split
        · exact Keeps.done _
        · exact quiet_reading _
    have hletGo : Keeps (quietly K) (letGo calls journal) := by
      refine Keeps.get.bind fun t => ?_
      split
      · exact Keeps.done _
      · exact quiet_onStore hK _ _
    refine harrived.bind fun there => ?_
    have hforget := (quiet_set hK.journal fun _ => rfl).bind fun _ => quiet_persist hK
    split
    · exact hletGo.bind fun _ => hforget
    · exact hforget

end quiet

section entries

theorem quiet_edit {f : Inner → Inner} (h : ∀ inner, (f inner).entries = inner.entries ∧
    (f inner).unreadable = inner.unreadable) : Keeps (quietly SameEntries) (set f) :=
  quiet_set (fun inner => (h inner).1) fun inner => (h inner).2

theorem quiet_note (journal : Option Journal) : Keeps (quietly SameEntries) (note journal) := by
  refine Keeps.bind (quiet_edit ?_) fun _ => quiet_persist forgetting_sameEntries
  exact fun _ => ⟨rfl, rfl⟩

theorem quiet_movedId (target : SpaceHandle) (id : Uuid) : Keeps (quietly SameEntries) (movedId target id) := by
  refine (quiet_reading _).bind fun free => ?_
  split
  · exact Keeps.done _
  · exact (quiet_query _).bind fun draws => quiet_orElse _ _

variable (calls : StoreCalls)

theorem quiet_handOver (id : Uuid) (source target : SpaceHandle) (moved : MovedHost) :
    Keeps (quietly SameEntries) (handOver calls id source target moved) := by
  refine (quiet_movedId target id).bind fun targetHost => (quiet_note _).bind fun _ => ?_
  refine (quiet_onStore forgetting_sameEntries target _).attempt.bind fun arrived => ?_
  cases arrived with
  | error e => exact (quiet_note none).bind fun _ => Keeps.fail _
  | ok _ =>
    exact (quiet_onStore forgetting_sameEntries source _).bind fun _ => (quiet_note none).bind fun _ => Keeps.done _

theorem quiet_moveBetween (id : Uuid) (from_ to_ : String) :
    Keeps (quietly SameEntries) (moveBetween calls id from_ to_) := by
  refine (quiet_recover forgetting_sameEntries calls).bind fun _ => ?_
  refine (quiet_getSpace _).bind fun source => (quiet_getSpace _).bind fun target => ?_
  refine (quiet_writable _).bind fun _ => (quiet_writable _).bind fun _ => (quiet_reading _).bind fun exported => ?_
  refine (Keeps.ofExcept _).bind fun moved => ?_
  split
  · exact (quiet_requireOpen _).bind fun _ => quiet_handOver calls _ _ _ _
  · exact quiet_handOver calls _ _ _ _

theorem quiet_gather {α : Type} (f : SpaceHandle → Store → List α) (spaces : List SpaceHandle) :
    Keeps (quietly SameEntries) (gather f spaces) := by
  induction spaces with
  | nil => exact Keeps.done _
  | cons space rest ih => exact (quiet_reading _).bind fun _ => ih.bind fun _ => Keeps.done _

theorem quiet_keyIn (key : Uuid) (target : SpaceHandle) : Keeps (quietly SameEntries) (keyIn calls key target) := by
  refine (quiet_reading _).bind fun here => ?_
  split
  · exact Keeps.done _
  · have hhaving : Keeps (quietly SameEntries) (spacesWithKey key) := Keeps.get.bind fun _ => quiet_gather _ _
    refine hhaving.bind fun spaces => (quiet_orElse _ _).bind fun source => ?_
    refine (quiet_reading _).bind fun exported => (Keeps.ofExcept _).bind fun moved => ?_
    exact quiet_onStore forgetting_sameEntries target _

theorem quiet_stageUnlock (space : RegistryEntry) {protect : VaultKey → SpacesScript Protected}
    (hprotect : ∀ key, Keeps (quietly SameEntries) (protect key)) :
    Keeps (quietly SameEntries) (stageUnlock space protect) := by
  refine Keeps.get.bind fun s => ?_
  split
  · exact Keeps.fail _
  · exact (hprotect _).bind fun _ => quiet_setFile forgetting_sameEntries _ space fun _ => .stage _

theorem quiet_bySystem (key : VaultKey) : Keeps (quietly SameEntries) (bySystem key) := by
  refine (quiet_query _).bind fun answer => ?_
  split
  · exact Keeps.fail _
  · exact Keeps.done _

theorem quiet_byVaultOf (new : RegistryEntry) (space : String) (key : VaultKey) :
    Keeps (quietly SameEntries) (byVaultOf new space key) := by
  refine Keeps.get.bind fun s => ?_
  split
  · exact Keeps.fail _
  · exact Keeps.done _

theorem quiet_stageChained (new : RegistryEntry) (spaces : List SpaceHandle) :
    Keeps (quietly SameEntries) (stageChained new spaces) := by
  induction spaces with
  | nil => exact Keeps.done _
  | cons space rest ih =>
    refine (quiet_vaultOpen _).bind fun isOpen => ?_
    split
    · exact (quiet_stageUnlock _ fun key => quiet_byVaultOf _ _ key).bind fun _ => ih
    · exact ih

theorem quiet_prepare (old new : RegistryEntry) : Keeps (quietly SameEntries) (prepare old new) := by
  refine (quiet_reading _).bind fun remembered => ?_
  have hrest : Keeps (quietly SameEntries) (do
      stageChained new ((← get).inner.all.filter fun space => space.id != new.id) : SpacesScript Unit) :=
    Keeps.get.bind fun s => quiet_stageChained new _
  split
  · exact (quiet_stageUnlock new quiet_bySystem).bind fun _ => hrest
  · exact (quiet_setFile forgetting_sameEntries _ new fun _ => .stage .forget).bind fun _ => hrest

theorem quiet_mainEntry : Keeps (quietly SameEntries) mainEntry := by
  refine Keeps.get.bind fun s => ?_
  dsimp only
  split
  · exact Keeps.fail _
  · exact Keeps.done _

theorem quiet_swapRegistry (id : String) : Keeps (quietly SameEntries) (swapRegistry id) := by
  refine Keeps.get.bind fun s => ?_
  refine Keeps.bind (quiet_edit fun _ => ?_) fun _ => ?_
  · exact ⟨rfl, rfl⟩
  · refine (quiet_persist forgetting_sameEntries).attempt.bind fun written => ?_
    cases written with
    | ok _ => exact Keeps.done _
    | error e =>
      refine Keeps.bind (quiet_edit fun _ => ?_) fun _ => ?_
      · exact ⟨rfl, rfl⟩
      · exact (quiet_dropStaged forgetting_sameEntries).bind fun _ => Keeps.fail _

theorem quiet_swapMain (id : String) : Keeps (quietly SameEntries) (swapMain id) := by
  refine (quiet_getSpace id).bind fun new => ?_
  split
  · exact Keeps.done _
  · split
    · exact Keeps.fail _
    · refine (quiet_writable _).bind fun _ => quiet_mainEntry.bind fun old => ?_
      refine (quiet_requireOpen _).bind fun _ => (quiet_requireOpen _).bind fun _ => ?_
      refine (quiet_reading _).bind fun exported => (Keeps.ofExcept _).bind fun personal => ?_
      refine (quiet_transact forgetting_sameEntries _ _).bind fun _ => ?_
      refine (quiet_prepare _ _).attempt.bind fun prepared => ?_
      cases prepared with
      | error e => exact (quiet_dropStaged forgetting_sameEntries).bind fun _ => Keeps.fail _
      | ok _ => exact quiet_swapRegistry id

end entries

end Spaces

end UwuSsh

import UwuSsh.Spaces.State
import UwuSsh.Spaces.PersonalFacts

/-!
What the steps across stores do, as rules for the programs made of them: what has to hold
before a step so that wherever it is cut off an invariant holds, and so that it ends as said.
New ids are ids no store uses. Whether the folder of the registry can always be synced when
asked to is told with each run.
-/
namespace UwuSsh

open Script

namespace Spaces

/-- Ids some store uses. -/
def Uses (s : Spaces) (id : Uuid) : Prop := ∃ path, (s.files path).store.Uses id

/-- What a run across stores is looked at for: an invariant wherever it is cut off. A sync of the
registry's folder may fail unless it is said to go through. -/
def upholding (synced : Prop) (inv : Spaces → Prop) : Contract Spaces SpacesAsk SpacesAnswer Unit where
  wrote _ _ _ := ()
  asked _ _ _ _ := ()
  rely _ s q a :=
    match q, a with
    | .draws, a => a.Fresh s.Uses
    | .folderSynced, a => synced → a = true
    | .protect_ _, _ | .reads, _ | .never, _ => True
  allowed _ _ _ := True
  guarantee _ _ _ := True
  may _ _ _ := True
  inv _ := inv

section rules

variable {synced : Prop} {inv : Spaces → Prop} {s : Spaces}

theorem wp_set {f : Inner → Inner} {post : Except LocalError Unit → Unit → Spaces → Prop}
    (hinv : inv (edit f s)) (hok : post (.ok ()) () (edit f s)) :
    (set f).wp (upholding synced inv) post () s :=
  ⟨fun _ => ⟨trivial, hinv, hok⟩, trivial, nofun⟩

theorem wp_modify_file {f : Spaces → Spaces} {e : LocalError}
    {post : Except LocalError Unit → Unit → Spaces → Prop} (hfail : post (.error e) () s)
    (hinv : inv (f s)) (hok : post (.ok ()) () (f s)) :
    (modify e f : SpacesScript Unit).wp (upholding synced inv) post () s :=
  ⟨fun _ => ⟨trivial, hinv, hok⟩, hfail⟩

/-- A write whose failure is passed over. -/
theorem wp_try {f : Spaces → Spaces} {post : Except LocalError Unit → Unit → Spaces → Prop}
    (hfail : post (.ok ()) () s) (hinv : inv (f s)) (hok : post (.ok ()) () (f s)) :
    (.write f (.done ()) (.done ()) : SpacesScript Unit).wp (upholding synced inv) post () s :=
  ⟨fun _ => ⟨trivial, hinv, hok⟩, hfail⟩

theorem wp_reading {α : Type} {f : Spaces → α} {post : Except LocalError α → Unit → Spaces → Prop}
    (hinv : inv s) (hfail : post (.error .sqlite) () s) (hok : post (.ok (f s)) () s) :
    (reading f).wp (upholding synced inv) post () s := by
  unfold reading
  rw [wp_bind, wp_query]
  refine ⟨trivial, fun a _ => ⟨hinv, ?_⟩⟩
  cases a with
  | true => exact hok
  | false => exact hfail

theorem wp_transact {entry : RegistryEntry} {f : Draws → Store → Except LocalError Store}
    {post : Except LocalError Unit → Unit → Spaces → Prop} (hinv : inv s)
    (hfail : ∀ e, post (.error e) () s)
    (hok : ∀ draws store, draws.Fresh s.Uses → f draws (s.store entry) = .ok store →
      inv (s.setStore entry store) ∧ post (.ok ()) () (s.setStore entry store)) :
    (transact entry f).wp (upholding synced inv) post () s := by
  unfold transact
  rw [wp_bind, wp_query]
  refine ⟨trivial, fun draws hfresh => ⟨hinv, ?_⟩⟩
  dsimp only
  rw [wp_bind, wp_get]
  dsimp only
  rw [wp_bind, wp_ofExcept]
  cases hf : f draws (s.store entry) with
  | error e => exact hfail e
  | ok store =>
    obtain ⟨hinv', hpost⟩ := hok draws store hfresh hf
    exact wp_modify_file (hfail .sqlite) hinv' hpost

theorem wp_persist {post : Except LocalError Unit → Unit → Spaces → Prop} (hread : s.inner.unreadable = false)
    (hfail : post (.error .io) () s) (hinv : inv { s with registry := .file s.inner.file })
    (hunsynced : ¬ synced → post (.error .io) () { s with registry := .file s.inner.file })
    (hok : post (.ok ()) () { s with registry := .file s.inner.file }) :
    persist.wp (upholding synced inv) post () s := by
  unfold persist
  rw [wp_bind, wp_get]
  dsimp only
  rw [hread, if_neg (by decide)]
  rw [wp_bind, wp_modify]
  refine ⟨fun _ => ⟨trivial, hinv, ?_⟩, hfail⟩
  dsimp only
  rw [wp_bind, wp_query]
  refine ⟨trivial, fun a ha => ⟨hinv, ?_⟩⟩
  cases a with
  | true => exact hok
  | false => exact hunsynced fun hsynced => nomatch ha hsynced

theorem wp_vaultOpen {entry : RegistryEntry} {post : Except LocalError Bool → Unit → Spaces → Prop}
    (hinv : inv s) (hfail : post (.error .sqlite) () s)
    (hok : post (.ok (s.store entry).vault.isSome) () s) : (vaultOpen entry).wp (upholding synced inv) post () s := by
  unfold vaultOpen
  rw [wp_bind, wp_get]
  dsimp only
  cases hvault : (s.store entry).vault.isSome with
  | true =>
    rw [hvault] at hok
    exact hok
  | false =>
    rw [hvault] at hok
    exact wp_reading hinv hfail hok

theorem wp_requireOpen {entry : RegistryEntry} {post : Except LocalError Unit → Unit → Spaces → Prop}
    (hinv : inv s) (hfail : ∀ e, post (.error e) () s)
    (hok : (s.store entry).vault.isSome = true → post (.ok ()) () s) :
    (requireOpen entry).wp (upholding synced inv) post () s := by
  unfold requireOpen
  rw [wp_bind]
  refine wp_vaultOpen hinv (hfail _) ?_
  dsimp only
  split
  · next hopen => exact hok hopen
  · exact hfail _

end rules

/-- A program may run from one state to another, to an end or to where it is cut off. -/
def Runs {α : Type} (synced : Prop) (p : SpacesScript α) (s t : Spaces) (o : Option (Except LocalError α)) : Prop :=
  ∃ log, Exec (upholding synced fun _ => True) p () s log () t o

theorem Runs.mono {α : Type} {synced synced' : Prop} (h : synced' → synced) {p : SpacesScript α} {s t : Spaces}
    {o : Option (Except LocalError α)} (hrun : Runs synced p s t o) : Runs synced' p s t o := by
  obtain ⟨log, hrun⟩ := hrun
  refine ⟨log, Exec.of_weaker (c := upholding synced fun _ => True) rfl rfl (fun _ _ q a hrely => ?_) (fun _ _ _ h => h) hrun⟩
  cases q with
  | folderSynced => exact fun hsynced => hrely (h hsynced)
  | draws => exact hrely
  | protect_ key => exact hrely
  | reads => exact hrely
  | never => exact hrely

theorem Runs.sound {α : Type} {synced : Prop} {inv : Spaces → Prop} {p : SpacesScript α} {s t : Spaces}
    {o : Option (Except LocalError α)} {post : Except LocalError α → Unit → Spaces → Prop}
    (hrun : Runs synced p s t o) (hinv : inv s) (h : p.wp (upholding synced inv) post () s) :
    inv t ∧ ∀ r, o = some r → post r () t := by
  obtain ⟨log, hrun⟩ := hrun
  have hrun' : Exec (upholding synced inv) p () s log () t o :=
    Exec.of_weaker (c := upholding synced fun _ => True) rfl rfl (fun _ _ _ _ h => h) (fun _ _ _ h => h) hrun
  exact (hrun'.sound h hinv).2

end Spaces

end UwuSsh

import Mathlib.Data.List.Basic

/-!
Programs with a state, any step of which may fail; a failure leaves no state behind. What
such a program guarantees is told by what holds at its end if it gets there, and that is
worked out step by step from its text.
-/
namespace Fallible

variable {σ ε α β : Type}

abbrev Prog (σ ε α : Type) := StateT σ (Except ε) α

/-- Whatever the program ends with satisfies `post`. -/
def Ends (prog : Prog σ ε α) (s : σ) (post : α → σ → Prop) : Prop :=
  ∀ a t, prog.run s = .ok (a, t) → post a t

/-- A step that reads the state. -/
def look (f : σ → α) : Prog σ ε α := fun s => .ok (f s, s)

/-- A step that changes the state and cannot fail. -/
def alter (f : σ → σ) : Prog σ ε Unit := fun s => .ok ((), f s)

/-- A step that fails or gives what it was given. -/
def lift (r : Except ε α) : Prog σ ε α := fun s => r.map fun a => (a, s)

variable {prog : Prog σ ε α} {f : α → Prog σ ε β} {s t : σ} {a : α} {post post' : α → σ → Prop}

theorem Ends.mono (h : Ends prog s post) (hle : ∀ a t, post a t → post' a t) : Ends prog s post' :=
  fun a t hrun => hle a t (h a t hrun)

theorem Ends.and (h : Ends prog s post) (h' : Ends prog s post') :
    Ends prog s fun a t => post a t ∧ post' a t :=
  fun a t hrun => ⟨h a t hrun, h' a t hrun⟩

@[simp] theorem ends_pure : Ends (pure a : Prog σ ε α) s post ↔ post a s := by
  constructor
  · intro h
    exact h a s rfl
  · intro h b t hrun
    cases hrun
    exact h

@[simp] theorem ends_throw {e : ε} : Ends (throw e : Prog σ ε α) s post :=
  fun _ _ hrun => by cases hrun

theorem run_bind {b : β} (h : (prog >>= f).run s = .ok (b, t)) :
    ∃ a u, prog.run s = .ok (a, u) ∧ (f a).run u = .ok (b, t) := by
  rw [StateT.run_bind] at h
  cases hprog : prog.run s with
  | error e =>
    rw [hprog] at h
    cases h
  | ok r =>
    rw [hprog] at h
    exact ⟨r.1, r.2, rfl, h⟩

@[simp] theorem ends_bind {post : β → σ → Prop} :
    Ends (prog >>= f) s post ↔ Ends prog s fun a u => Ends (f a) u post := by
  constructor
  · intro h a u hprog b t hf
    apply h b t
    rw [StateT.run_bind, hprog]
    exact hf
  · intro h b t hrun
    obtain ⟨a, u, hprog, hf⟩ := run_bind hrun
    exact h a u hprog b t hf

@[simp] theorem ends_map {g : α → β} {post : β → σ → Prop} :
    Ends (g <$> prog) s post ↔ Ends prog s fun a => post (g a) := by
  rw [← bind_pure_comp, ends_bind]
  simp only [ends_pure]

theorem ends_mapM {o : Option α} {post : Option β → σ → Prop} (hnone : o = none → post none s)
    (hsome : ∀ a, o = some a → Ends (f a) s fun b => post (some b)) : Ends (o.mapM f) s post := by
  cases o with
  | none => exact ends_pure.mpr (hnone rfl)
  | some a => exact ends_map.mpr (hsome a rfl)

@[simp] theorem ends_look {g : σ → α} : Ends (look g : Prog σ ε α) s post ↔ post (g s) s := by
  constructor
  · intro h
    exact h (g s) s rfl
  · intro h b t hrun
    cases hrun
    exact h

@[simp] theorem ends_alter {g : σ → σ} {post : Unit → σ → Prop} :
    Ends (alter g : Prog σ ε Unit) s post ↔ post () (g s) := by
  constructor
  · intro h
    exact h () (g s) rfl
  · intro h b t hrun
    cases hrun
    exact h

@[simp] theorem ends_lift {r : Except ε α} :
    Ends (lift r : Prog σ ε α) s post ↔ ∀ a, r = .ok a → post a s := by
  constructor
  · intro h a hr
    subst hr
    exact h a s rfl
  · intro h a t hrun
    cases hr : r with
    | error e =>
      subst hr
      cases hrun
    | ok c =>
      subst hr
      cases hrun
      exact h _ rfl

/-- A loop keeps an invariant, and leaves every element done, as long as what is done once stays
done. -/
theorem ends_foldlM {step : β → α → Prog σ ε β} (inv : β → σ → Prop) (done : α → σ → Prop)
    {l : List α} (hstep : ∀ a ∈ l, ∀ b s, inv b s → Ends (step b a) s fun b' t =>
      inv b' t ∧ done a t ∧ ∀ a', done a' s → done a' t) {b : β} (h : inv b s) :
    Ends (l.foldlM step b) s fun b' t =>
      inv b' t ∧ (∀ a ∈ l, done a t) ∧ ∀ a, done a s → done a t := by
  induction l generalizing b s with
  | nil => exact ends_pure.mpr ⟨h, fun a ha => absurd ha List.not_mem_nil, fun _ ha => ha⟩
  | cons a rest ih =>
    rw [List.foldlM_cons]
    refine ends_bind.mpr ((hstep a List.mem_cons_self b s h).mono fun b' u hu => ?_)
    obtain ⟨hinv, hdone, hstay⟩ := hu
    have hrest := ih (fun a' ha' => hstep a' (List.mem_cons_of_mem _ ha')) hinv
    refine hrest.mono fun b'' t ht => ⟨ht.1, fun a' ha' => ?_, fun a' ha' => ht.2.2 a' (hstay a' ha')⟩
    rcases List.mem_cons.mp ha' with rfl | hmem
    · exact ht.2.2 a' hdone
    · exact ht.2.1 a' hmem

theorem lift_ok_bind : ((lift (.ok a) : Prog σ ε α) >>= f) = f a := rfl

/-- The program goes through wherever it starts. -/
def Completes (prog : Prog σ ε α) : Prop := ∀ s, ∃ a t, prog.run s = .ok (a, t)

theorem completes_pure : Completes (pure a : Prog σ ε α) := fun s => ⟨a, s, rfl⟩

theorem completes_look {g : σ → α} : Completes (look g : Prog σ ε α) := fun s => ⟨g s, s, rfl⟩

theorem completes_alter {g : σ → σ} : Completes (alter g : Prog σ ε Unit) := fun s => ⟨(), g s, rfl⟩

theorem Completes.bind (h : Completes prog) (hf : ∀ a, Completes (f a)) : Completes (prog >>= f) := by
  intro s
  obtain ⟨a, t, hrun⟩ := h s
  obtain ⟨b, u, hrest⟩ := hf a t
  refine ⟨b, u, ?_⟩
  rw [StateT.run_bind, hrun]
  exact hrest

/-- The program goes through and leaves the state as it is. -/
def Rests (prog : Prog σ ε α) (s : σ) (a : α) : Prop := prog.run s = .ok (a, s)

theorem rests_pure : Rests (pure a : Prog σ ε α) s a := rfl

theorem rests_look {g : σ → α} : Rests (look g : Prog σ ε α) s (g s) := rfl

theorem rests_lift {r : Except ε α} (h : r = .ok a) : Rests (lift r : Prog σ ε α) s a := by
  subst h
  rfl

theorem Rests.bind {b : β} (h : Rests prog s a) (h' : Rests (f a) s b) : Rests (prog >>= f) s b := by
  unfold Rests at h ⊢
  rw [StateT.run_bind, h]
  exact h'

theorem rests_foldlM {step : β → α → Prog σ ε β} (good : β → Prop) {l : List α}
    (hstep : ∀ a ∈ l, ∀ b, good b → ∃ b', Rests (step b a) s b' ∧ good b') {b : β} (h : good b) :
    ∃ b', Rests (l.foldlM step b) s b' ∧ good b' := by
  induction l generalizing b with
  | nil => exact ⟨b, rests_pure, h⟩
  | cons a rest ih =>
    obtain ⟨next, hnext, hgood⟩ := hstep a List.mem_cons_self b h
    obtain ⟨last, hlast, hend⟩ := ih (fun a' ha' => hstep a' (List.mem_cons_of_mem _ ha')) hgood
    refine ⟨last, ?_, hend⟩
    rw [List.foldlM_cons]
    exact hnext.bind hlast

/-! Results on their own, without a state. -/

theorem ok_of_toOption {result : Except ε α} (h : result.toOption = some a) : result = .ok a := by
  cases result with
  | error e => cases h
  | ok b =>
    cases h
    rfl

theorem bind_ok {r : Except ε α} {g : α → Except ε β} {b : β} (h : (r >>= g) = .ok b) :
    ∃ a, r = .ok a ∧ g a = .ok b := by
  cases r with
  | error e => cases h
  | ok a => exact ⟨a, rfl, h⟩

theorem forall₂_of_mapM {g : α → Except ε β} {p : α → β → Prop} (h : ∀ {a b}, g a = .ok b → p a b) {l : List α}
    {l' : List β} (hall : l.mapM g = .ok l') : List.Forall₂ p l l' := by
  induction l generalizing l' with
  | nil =>
    cases hall
    exact .nil
  | cons a rest ih =>
    rw [List.mapM_cons] at hall
    obtain ⟨b, hfirst, hall⟩ := bind_ok hall
    obtain ⟨bs, hrest, hall⟩ := bind_ok hall
    cases hall
    exact .cons (h hfirst) (ih hrest)

/-- Wherever `inv` holds before the program, it holds at its end. -/
def Keeps (inv : σ → Prop) (prog : Prog σ ε α) : Prop := ∀ s, inv s → Ends prog s fun _ => inv

section keeps

variable {inv : σ → Prop}

theorem keeps_pure : Keeps inv (pure a : Prog σ ε α) := fun _ h => ends_pure.mpr h

theorem keeps_throw {e : ε} : Keeps inv (throw e : Prog σ ε α) := fun _ _ => ends_throw

theorem Keeps.bind (h : Keeps inv prog) (h' : ∀ a, Keeps inv (f a)) : Keeps inv (prog >>= f) :=
  fun s hs => ends_bind.mpr ((h s hs).mono fun a u hu => h' a u hu)

theorem keeps_look {g : σ → α} : Keeps inv (look g : Prog σ ε α) := fun _ h => ends_look.mpr h

theorem keeps_alter {g : σ → σ} (h : ∀ s, inv s → inv (g s)) : Keeps inv (alter g : Prog σ ε Unit) :=
  fun s hs => ends_alter.mpr (h s hs)

theorem keeps_lift {r : Except ε α} : Keeps inv (lift r : Prog σ ε α) :=
  fun _ h => ends_lift.mpr fun _ _ => h

/-- What follows a look may use what was found, in the state it was found in. -/
theorem keeps_look_bind {g : σ → α} (h : ∀ s, inv s → Ends (f (g s)) s fun _ => inv) :
    Keeps inv (look g >>= f) :=
  fun s hs => ends_bind.mpr (ends_look.mpr (h s hs))

theorem keeps_mapM {o : Option α} (h : ∀ a, Keeps inv (f a)) : Keeps inv (o.mapM f) :=
  fun s hs => ends_mapM (fun _ => hs) fun a _ => h a s hs

theorem keeps_foldlM {step : β → α → Prog σ ε β} {l : List α} {b : β} (h : ∀ b a, Keeps inv (step b a)) :
    Keeps inv (l.foldlM step b) := by
  induction l generalizing b with
  | nil => exact keeps_pure
  | cons a rest ih =>
    rw [List.foldlM_cons]
    exact (h b a).bind fun _ => ih

end keeps

end Fallible

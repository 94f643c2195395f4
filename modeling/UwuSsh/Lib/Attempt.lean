import Mathlib.Data.List.Basic

/-!
Programs with a state that may fail and leave behind the state they had come to. What such a program
guarantees is told for both ends, by what holds where it gives a result and by what holds where it fails.
Loops are given a number of turns; a measure of the state that each turn makes smaller shows that the turns
do.
-/
namespace Attempt

variable {σ ε α β : Type}

abbrev Prog (σ ε α : Type) := ExceptT ε (StateM σ) α

/-- A result satisfies `post`, a failure `fail`, each with the state it is left in. -/
def Yields (prog : Prog σ ε α) (s : σ) (post : α → σ → Prop) (fail : ε → σ → Prop) : Prop :=
  match prog.run s with
  | (.ok a, t) => post a t
  | (.error e, t) => fail e t

/-- A step that reads the state. -/
def look (f : σ → α) : Prog σ ε α := fun s => (.ok (f s), s)

/-- A step that changes the state and cannot fail. -/
def alter (f : σ → σ) : Prog σ ε Unit := fun s => (.ok (), f s)

/-- A step that gives a result and a new state, or fails with `e`. -/
def attempt (e : ε) (f : σ → Option (α × σ)) : Prog σ ε α := fun s =>
  match f s with
  | none => (.error e, s)
  | some (a, t) => (.ok a, t)

/-- Take turns until `stop` says so; `out` is the failure when the turns do not do. -/
def untilStop (stop : α → Prog σ ε Bool) (body : α → Prog σ ε α) (out : ε) : ℕ → α → Prog σ ε α
  | 0, _ => throw out
  | turns + 1, a => do
    if ← stop a then pure a
    else untilStop stop body out turns (← body a)

/-- Take as many turns as said. -/
def times (body : α → Prog σ ε α) : ℕ → α → Prog σ ε α
  | 0, a => pure a
  | n + 1, a => do times body n (← body a)

variable {prog : Prog σ ε α} {f : α → Prog σ ε β} {s t : σ} {a : α} {post post' : α → σ → Prop}
  {fail fail' : ε → σ → Prop}

theorem Yields.mono (h : Yields prog s post fail) (hpost : ∀ a t, post a t → post' a t)
    (hfail : ∀ e t, fail e t → fail' e t) : Yields prog s post' fail' := by
  unfold Yields at h ⊢
  split at h
  · exact hpost _ _ h
  · exact hfail _ _ h

@[simp] theorem yields_pure : Yields (pure a : Prog σ ε α) s post fail ↔ post a s := Iff.rfl

@[simp] theorem yields_throw {e : ε} : Yields (throw e : Prog σ ε α) s post fail ↔ fail e s := Iff.rfl

@[simp] theorem yields_look {g : σ → α} : Yields (look g : Prog σ ε α) s post fail ↔ post (g s) s := Iff.rfl

@[simp] theorem yields_alter {g : σ → σ} {post : Unit → σ → Prop} :
    Yields (alter g : Prog σ ε Unit) s post fail ↔ post () (g s) := Iff.rfl

theorem yields_attempt {e : ε} {g : σ → Option (α × σ)} (hnone : g s = none → fail e s)
    (hsome : ∀ a t, g s = some (a, t) → post a t) : Yields (attempt e g) s post fail := by
  have hrun : (attempt e g : Prog σ ε α).run s = match g s with
    | none => (.error e, s)
    | some (a, t) => (.ok a, t) := rfl
  unfold Yields
  rw [hrun]
  cases hg : g s with
  | none => exact hnone hg
  | some r => exact hsome r.1 r.2 hg

theorem run_bind (prog : Prog σ ε α) (f : α → Prog σ ε β) (s : σ) : (prog >>= f).run s =
    match prog.run s with
    | (.ok a, t) => (f a).run t
    | (.error e, t) => (.error e, t) := by
  change ((ExceptT.bind prog f : Prog σ ε β).run s) = _
  rcases h : prog.run s with ⟨r, t⟩
  have hbind : (ExceptT.bind prog f : Prog σ ε β).run s = (ExceptT.bindCont f (prog.run s).1).run (prog.run s).2 := rfl
  rw [hbind, h]
  cases r with
  | ok a => rfl
  | error e => rfl

@[simp] theorem yields_bind {post : β → σ → Prop} :
    Yields (prog >>= f) s post fail ↔ Yields prog s (fun a t => Yields (f a) t post fail) fail := by
  unfold Yields
  rw [run_bind]
  rcases prog.run s with ⟨r, t⟩
  cases r with
  | ok a => rfl
  | error e => rfl

/-- What comes first, and then the rest from there. -/
theorem Yields.bind {mid : α → σ → Prop} {post : β → σ → Prop} (h : Yields prog s mid fail)
    (hf : ∀ a t, mid a t → Yields (f a) t post fail) : Yields (prog >>= f) s post fail :=
  yields_bind.mpr (h.mono hf fun _ _ => id)

theorem yields_ite {c : Prop} [Decidable c] {p q : Prog σ ε α} (hp : c → Yields p s post fail)
    (hq : ¬ c → Yields q s post fail) : Yields (if c then p else q) s post fail := by
  split
  · rename_i h
    exact hp h
  · rename_i h
    exact hq h

/-- What every turn keeps holds at the end, and the turns do. -/
theorem yields_untilStop {stop : α → Prog σ ε Bool} {body : α → Prog σ ε α} {out : ε} (inv : α → σ → Prop)
    (measure : σ → ℕ) (hstop : ∀ a s, inv a s → Yields (stop a) s (fun _ t => t = s) fail)
    (hbody : ∀ a s, inv a s → Yields (body a) s (fun b t => inv b t ∧ measure t < measure s) fail)
    {turns : ℕ} (hturns : measure s < turns) (hinv : inv a s) :
    Yields (untilStop stop body out turns a) s (fun b t => inv b t ∧ measure t ≤ measure s) fail := by
  induction turns generalizing s a with
  | zero => omega
  | succ turns ih =>
    rw [untilStop]
    refine (hstop a s hinv).bind fun b t ht => ?_
    subst ht
    refine yields_ite (fun _ => yields_pure.mpr ⟨hinv, Nat.le_refl _⟩) fun _ => ?_
    refine (hbody a t hinv).bind fun b u hu => ?_
    exact (ih (by omega) hu.1).mono (fun c v hv => ⟨hv.1, by omega⟩) fun _ _ => id

theorem yields_times {body : α → Prog σ ε α} (inv : α → σ → Prop)
    (hbody : ∀ a s, inv a s → Yields (body a) s inv fail) {n : ℕ} (hinv : inv a s) :
    Yields (times body n a) s inv fail := by
  induction n generalizing s a with
  | zero => exact yields_pure.mpr hinv
  | succ n ih =>
    rw [times]
    exact (hbody a s hinv).bind fun b t ht => ih ht

end Attempt

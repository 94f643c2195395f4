import Mathlib.Data.Nat.Notation
import Mathlib.Logic.Basic

/-!
Programs that keep a state, ask others and may be cut off between any two steps. A
program reads the state, replaces it in one step that may also fail and leave it, and asks
questions whose answers nobody promises. A contract says what a program may rely on
in the answers, which writes a run is looked at for, what every write and every
question has to keep to, and what holds wherever the program is cut off; it may speak of a
history of the run so far. The weakest precondition of a program covers all of this.
-/

inductive Script (σ Q : Type) (A : Q → Type) (ε α : Type) : Type
  | done (a : α)
  | fail (e : ε)
  | read (k : σ → Script σ Q A ε α)
  | write (f : σ → σ) (k failed : Script σ Q A ε α)
  | ask (q : Q) (k : A q → Script σ Q A ε α)

namespace Script

variable {σ Q : Type} {A : Q → Type} {ε α β : Type}

def bind : Script σ Q A ε α → (α → Script σ Q A ε β) → Script σ Q A ε β
  | done a, f => f a
  | fail e, _ => fail e
  | read k, f => read fun s => (k s).bind f
  | write g k failed, f => write g (k.bind f) (failed.bind f)
  | ask q k, f => ask q fun a => (k a).bind f

instance : Monad (Script σ Q A ε) where
  pure := done
  bind := bind

/-- Go on with what a part came to, whether it failed or not. -/
def attempt : Script σ Q A ε α → Script σ Q A ε (Except ε α)
  | done a => done (.ok a)
  | fail e => done (.error e)
  | read k => read fun s => (k s).attempt
  | write g k failed => write g k.attempt failed.attempt
  | ask q k => ask q fun a => (k a).attempt

def get : Script σ Q A ε σ := read done

/-- One step on the state; a step that goes wrong leaves it. -/
def modify (disk : ε) (f : σ → σ) : Script σ Q A ε Unit := write f (done ()) (fail disk)

def query (q : Q) : Script σ Q A ε (A q) := ask q done

def ofExcept : Except ε α → Script σ Q A ε α
  | .ok a => done a
  | .error e => fail e

/-- What runs are held to; `γ` is the history kept of them. -/
structure Contract (σ Q : Type) (A : Q → Type) (γ : Type) where
  /-- What a write and an answer add to the history. -/
  wrote : γ → σ → σ → γ
  asked : γ → σ → (q : Q) → A q → γ
  /-- Which answers and which writes are looked at. -/
  rely : γ → σ → (q : Q) → A q → Prop
  allowed : γ → σ → σ → Prop
  /-- What every write and every question keeps to. -/
  guarantee : γ → σ → σ → Prop
  may : γ → σ → Q → Prop
  /-- What holds wherever a run stops. -/
  inv : γ → σ → Prop

section wp

variable {γ : Type} (c : Contract σ Q A γ)

/-- What has to hold before a program, for it to keep to a contract until it is cut off
and to end as said when it is not. -/
def wp : Script σ Q A ε α → (Except ε α → γ → σ → Prop) → γ → σ → Prop
  | done a, post, g, s => post (.ok a) g s
  | fail e, post, g, s => post (.error e) g s
  | read k, post, g, s => (k s).wp post g s
  | write f k failed, post, g, s =>
      (c.allowed g s (f s) → c.guarantee g s (f s) ∧ c.inv (c.wrote g s (f s)) (f s) ∧
        k.wp post (c.wrote g s (f s)) (f s)) ∧ failed.wp post g s
  | ask q k, post, g, s =>
      c.may g s q ∧ ∀ a, c.rely g s q a →
        c.inv (c.asked g s q a) s ∧ (k a).wp post (c.asked g s q a) s

variable {c} {post post' : Except ε α → γ → σ → Prop} {g : γ} {s : σ}

theorem wp_mono {p : Script σ Q A ε α} (h : p.wp c post g s)
    (hpost : ∀ r g s, post r g s → post' r g s) : p.wp c post' g s := by
  induction p generalizing g s with
  | done a => exact hpost _ _ _ h
  | fail e => exact hpost _ _ _ h
  | read k ih => exact ih s h
  | write f k failed ihk ihfailed =>
    refine ⟨fun hallowed => ?_, ihfailed h.2⟩
    obtain ⟨hkeeps, hinv, hrest⟩ := h.1 hallowed
    exact ⟨hkeeps, hinv, ihk hrest⟩
  | ask q k ih => exact ⟨h.1, fun a ha => ⟨(h.2 a ha).1, ih a (h.2 a ha).2⟩⟩

theorem wp_bind {p : Script σ Q A ε α} {f : α → Script σ Q A ε β}
    {post : Except ε β → γ → σ → Prop} :
    (p >>= f).wp c post g s ↔ p.wp c (fun r g s => match r with
      | .ok a => (f a).wp c post g s
      | .error e => post (.error e) g s) g s := by
  change (p.bind f).wp c post g s ↔ _
  induction p generalizing g s with
  | done a => exact Iff.rfl
  | fail e => exact Iff.rfl
  | read k ih => exact ih s
  | write h k failed ihk ihfailed =>
    exact and_congr (imp_congr_right fun _ => and_congr_right fun _ => and_congr_right fun _ => ihk)
      ihfailed
  | ask q k ih =>
    exact and_congr_right fun _ => forall_congr' fun a => imp_congr_right fun _ =>
      and_congr_right fun _ => ih a

theorem wp_attempt {p : Script σ Q A ε α} {post : Except ε (Except ε α) → γ → σ → Prop} :
    p.attempt.wp c post g s ↔ p.wp c (fun r g s => post (.ok r) g s) g s := by
  induction p generalizing g s with
  | done a => exact Iff.rfl
  | fail e => exact Iff.rfl
  | read k ih => exact ih s
  | write h k failed ihk ihfailed =>
    exact and_congr (imp_congr_right fun _ => and_congr_right fun _ => and_congr_right fun _ => ihk)
      ihfailed
  | ask q k ih =>
    exact and_congr_right fun _ => forall_congr' fun a => imp_congr_right fun _ =>
      and_congr_right fun _ => ih a

@[simp] theorem wp_pure {a : α} : (pure a : Script σ Q A ε α).wp c post g s ↔ post (.ok a) g s :=
  Iff.rfl

@[simp] theorem wp_done {a : α} : (done a : Script σ Q A ε α).wp c post g s ↔ post (.ok a) g s :=
  Iff.rfl

@[simp] theorem wp_fail {e : ε} : (fail e : Script σ Q A ε α).wp c post g s ↔ post (.error e) g s :=
  Iff.rfl

@[simp] theorem wp_get {post : Except ε σ → γ → σ → Prop} :
    (get : Script σ Q A ε σ).wp c post g s ↔ post (.ok s) g s := Iff.rfl

theorem wp_modify {disk : ε} {f : σ → σ} {post : Except ε Unit → γ → σ → Prop} :
    (modify disk f : Script σ Q A ε Unit).wp c post g s ↔
      (c.allowed g s (f s) → c.guarantee g s (f s) ∧ c.inv (c.wrote g s (f s)) (f s) ∧
        post (.ok ()) (c.wrote g s (f s)) (f s)) ∧ post (.error disk) g s := Iff.rfl

theorem wp_query {q : Q} {post : Except ε (A q) → γ → σ → Prop} :
    (query q : Script σ Q A ε (A q)).wp c post g s ↔
      c.may g s q ∧ ∀ a, c.rely g s q a →
        c.inv (c.asked g s q a) s ∧ post (.ok a) (c.asked g s q a) s := Iff.rfl

theorem wp_ofExcept {r : Except ε α} : (ofExcept r : Script σ Q A ε α).wp c post g s ↔ post r g s := by
  cases r <;> exact Iff.rfl

/-- A contract that asks for more where it looks, and looks at no less. -/
structure Contract.Stricter (c c' : Contract σ Q A γ) : Prop where
  wrote : c'.wrote = c.wrote
  asked : c'.asked = c.asked
  rely : ∀ g s q a, c'.rely g s q a → c.rely g s q a
  allowed : ∀ g s t, c'.allowed g s t → c.allowed g s t
  guarantee : ∀ g s t, c.guarantee g s t → c'.guarantee g s t
  may : ∀ g s q, c.may g s q → c'.may g s q
  inv : ∀ g s, c.inv g s → c'.inv g s

theorem wp_of_stricter {c' : Contract σ Q A γ} (hc : c.Stricter c') {p : Script σ Q A ε α}
    (h : p.wp c post g s) : p.wp c' post g s := by
  induction p generalizing g s with
  | done a => exact h
  | fail e => exact h
  | read k ih => exact ih s h
  | write f k failed ihk ihfailed =>
    refine ⟨fun hallowed => ?_, ihfailed h.2⟩
    obtain ⟨hkeeps, hinv, hrest⟩ := h.1 (hc.allowed _ _ _ hallowed)
    rw [hc.wrote]
    exact ⟨hc.guarantee _ _ _ hkeeps, hc.inv _ _ hinv, ihk hrest⟩
  | ask q k ih =>
    refine ⟨hc.may _ _ _ h.1, fun a ha => ?_⟩
    obtain ⟨hinv, hrest⟩ := h.2 a (hc.rely _ _ _ _ ha)
    rw [hc.asked]
    exact ⟨hc.inv _ _ hinv, ih a hrest⟩

/-- A program that keeps to a contract from wherever the invariant of it holds. -/
def Keeps (c : Contract σ Q A γ) (p : Script σ Q A ε α) : Prop :=
  ∀ g s, c.inv g s → p.wp c (fun _ => c.inv) g s

theorem Keeps.wp {p : Script σ Q A ε α} (h : Keeps c p) (hinv : c.inv g s)
    (hpost : ∀ r g s, c.inv g s → post r g s) : p.wp c post g s :=
  wp_mono (h g s hinv) hpost

theorem Keeps.done (a : α) : Keeps c (done a : Script σ Q A ε α) := fun _ _ h => h

theorem Keeps.fail (e : ε) : Keeps c (fail e : Script σ Q A ε α) := fun _ _ h => h

theorem Keeps.get : Keeps c (get : Script σ Q A ε σ) := fun _ _ h => h

theorem Keeps.ofExcept (r : Except ε α) : Keeps c (ofExcept r : Script σ Q A ε α) :=
  fun _ _ h => wp_ofExcept.mpr h

theorem Keeps.bind {p : Script σ Q A ε α} {f : α → Script σ Q A ε β} (hp : Keeps c p)
    (hf : ∀ a, Keeps c (f a)) : Keeps c (p >>= f) := by
  intro g s hinv
  rw [wp_bind]
  refine hp.wp hinv fun r g s h => ?_
  cases r with
  | ok a => exact hf a g s h
  | error e => exact h

theorem Keeps.attempt {p : Script σ Q A ε α} (hp : Keeps c p) : Keeps c p.attempt :=
  fun g s hinv => wp_attempt.mpr (hp g s hinv)

theorem Keeps.query {q : Q} (h : ∀ g s, c.inv g s → c.may g s q ∧
    ∀ a, c.rely g s q a → c.inv (c.asked g s q a) s) :
    Keeps c (query q : Script σ Q A ε (A q)) := fun g s hinv =>
  wp_query.mpr ⟨(h g s hinv).1, fun a ha => ⟨(h g s hinv).2 a ha, (h g s hinv).2 a ha⟩⟩

theorem Keeps.modify {disk : ε} {f : σ → σ} (h : ∀ g s, c.inv g s → c.allowed g s (f s) →
    c.guarantee g s (f s) ∧ c.inv (c.wrote g s (f s)) (f s)) :
    Keeps c (modify disk f : Script σ Q A ε Unit) := fun g s hinv =>
  wp_modify.mpr ⟨fun hallowed => ⟨(h g s hinv hallowed).1, (h g s hinv hallowed).2,
    (h g s hinv hallowed).2⟩, hinv⟩

/-- A relation that programs one after another keep to when each does. -/
structure Composes (R : γ → σ → γ → σ → Prop) : Prop where
  refl : ∀ g s, R g s g s
  trans : ∀ g s g' t g'' u, R g s g' t → R g' t g'' u → R g s g'' u

/-- A program that, from wherever the invariant holds, goes no further than a relation lets it. -/
def Within (c : Contract σ Q A γ) (R : γ → σ → γ → σ → Prop) (p : Script σ Q A ε α) : Prop :=
  ∀ g s, c.inv g s → p.wp c (fun _ g' t => c.inv g' t ∧ R g s g' t) g s

section within

variable {R : γ → σ → γ → σ → Prop}

theorem Within.wp {p : Script σ Q A ε α} (h : Within c R p) (hinv : c.inv g s)
    (hpost : ∀ r g' t, c.inv g' t → R g s g' t → post r g' t) : p.wp c post g s :=
  wp_mono (h g s hinv) fun r g' t ht => hpost r g' t ht.1 ht.2

theorem Within.keeps {p : Script σ Q A ε α} (h : Within c R p) : Keeps c p :=
  fun _ _ hinv => h.wp hinv fun _ _ _ hinv' _ => hinv'

theorem Within.ofExcept (hR : Composes R) (r : Except ε α) :
    Within c R (ofExcept r : Script σ Q A ε α) :=
  fun g s hinv => wp_ofExcept.mpr ⟨hinv, hR.refl g s⟩

theorem Within.done (hR : Composes R) (a : α) : Within c R (done a : Script σ Q A ε α) :=
  fun g s hinv => ⟨hinv, hR.refl g s⟩

theorem Within.fail (hR : Composes R) (e : ε) : Within c R (fail e : Script σ Q A ε α) :=
  fun g s hinv => ⟨hinv, hR.refl g s⟩

theorem Within.get (hR : Composes R) : Within c R (get : Script σ Q A ε σ) :=
  fun g s hinv => ⟨hinv, hR.refl g s⟩

theorem Within.bind (hR : Composes R) {p : Script σ Q A ε α} {f : α → Script σ Q A ε β}
    (hp : Within c R p) (hf : ∀ a, Within c R (f a)) : Within c R (p >>= f) := by
  intro g s hinv
  rw [wp_bind]
  refine hp.wp hinv fun r g' t hinv' hmid => ?_
  cases r with
  | ok a => exact (hf a).wp hinv' fun r g'' u hinv'' hlast => ⟨hinv'', hR.trans _ _ _ _ _ _ hmid hlast⟩
  | error e => exact ⟨hinv', hmid⟩

theorem Within.attempt {p : Script σ Q A ε α} (hp : Within c R p) : Within c R p.attempt :=
  fun g s hinv => wp_attempt.mpr (hp g s hinv)

theorem Within.query {q : Q} (h : ∀ g s, c.inv g s → c.may g s q ∧
    ∀ a, c.rely g s q a → c.inv (c.asked g s q a) s ∧ R g s (c.asked g s q a) s) :
    Within c R (query q : Script σ Q A ε (A q)) := fun g s hinv =>
  wp_query.mpr ⟨(h g s hinv).1, fun a ha => ⟨((h g s hinv).2 a ha).1, (h g s hinv).2 a ha⟩⟩

theorem Within.modify {disk : ε} {f : σ → σ} (hR : Composes R)
    (h : ∀ g s, c.inv g s → c.allowed g s (f s) →
      c.guarantee g s (f s) ∧ c.inv (c.wrote g s (f s)) (f s) ∧ R g s (c.wrote g s (f s)) (f s)) :
    Within c R (modify disk f : Script σ Q A ε Unit) := fun g s hinv =>
  wp_modify.mpr ⟨fun hallowed => ⟨(h g s hinv hallowed).1, (h g s hinv hallowed).2.1,
    (h g s hinv hallowed).2⟩, hinv, hR.refl g s⟩

end within

/-- A program that only looks: it leaves the state as it is, and comes to what `P` says of it. -/
def Looks (c : Contract σ Q A γ) (P : σ → α → Prop) (p : Script σ Q A ε α) : Prop :=
  ∀ g s, c.inv g s → p.wp c (fun r g' t => c.inv g' t ∧ t = s ∧ ∀ a, r = .ok a → P s a) g s

/-- A program that keeps to a contract, and comes to what `P` says. -/
def Gives (c : Contract σ Q A γ) (P : α → Prop) (p : Script σ Q A ε α) : Prop :=
  ∀ g s, c.inv g s → p.wp c (fun r g' t => c.inv g' t ∧ ∀ a, r = .ok a → P a) g s

section gives

variable {P : σ → α → Prop} {R : σ → β → Prop} {p : Script σ Q A ε α} {f : α → Script σ Q A ε β}

theorem no_value {e : ε} {S : α → Prop} : ∀ a, (Except.error e : Except ε α) = .ok a → S a := nofun

theorem Looks.done {a : α} (h : ∀ g s, c.inv g s → P s a) : Looks c P (done a : Script σ Q A ε α) := by
  intro g s hinv
  refine ⟨hinv, rfl, fun b hb => ?_⟩
  cases hb
  exact h g s hinv

theorem Looks.fail {e : ε} : Looks c P (fail e : Script σ Q A ε α) := fun _ _ hinv => ⟨hinv, rfl, nofun⟩

theorem Looks.get : Looks c (fun s t => t = s) (get : Script σ Q A ε σ) := by
  intro g s hinv
  refine ⟨hinv, rfl, fun b hb => ?_⟩
  cases hb
  rfl

theorem Looks.query {q : Q} (h : ∀ g s, c.inv g s → c.may g s q ∧
    ∀ a, c.rely g s q a → c.inv (c.asked g s q a) s) :
    Looks c (fun _ _ => True) (query q : Script σ Q A ε (A q)) := fun g s hinv =>
  wp_query.mpr ⟨(h g s hinv).1, fun a ha => ⟨(h g s hinv).2 a ha, (h g s hinv).2 a ha, rfl, fun _ _ => trivial⟩⟩

theorem Looks.mono {P' : σ → α → Prop} (h : Looks c P p) (hle : ∀ g s a, c.inv g s → P s a → P' s a) :
    Looks c P' p := fun g s hinv =>
  wp_mono (h g s hinv) fun _ _ _ ⟨hinv', heq, hP⟩ => ⟨hinv', heq, fun a ha => hle g s a hinv (hP a ha)⟩

theorem Looks.bind (hp : Looks c P p) (hf : ∀ a, Looks c (fun s b => P s a → R s b) (f a)) :
    Looks c R (p >>= f) := by
  intro g s hinv
  rw [wp_bind]
  refine wp_mono (hp g s hinv) fun r g' t ⟨hinv', heq, hP⟩ => ?_
  subst heq
  cases r with
  | ok a => exact wp_mono (hf a g' t hinv') fun _ _ _ ⟨hinv'', heq, hR⟩ =>
      ⟨hinv'', heq, fun b hb => hR b hb (hP a rfl)⟩
  | error e => exact ⟨hinv', rfl, nofun⟩

theorem Looks.keeps (h : Looks c P p) : Keeps c p := fun g s hinv =>
  wp_mono (h g s hinv) fun _ _ _ h' => h'.2.1 ▸ h'.1

/-- What follows a look goes on where the look was. -/
theorem Looks.bind_from {post : Except ε β → γ → σ → Prop} (hp : Looks c P p) (hinv : c.inv g s)
    (hfail : ∀ e g', c.inv g' s → post (.error e) g' s)
    (hok : ∀ a g', c.inv g' s → P s a → (f a).wp c post g' s) : (p >>= f).wp c post g s := by
  rw [wp_bind]
  refine wp_mono (hp g s hinv) fun r g' t h => ?_
  obtain ⟨hinv', heq, hP⟩ := h
  subst heq
  cases r with
  | ok a => exact hok a g' hinv' (hP a rfl)
  | error e => exact hfail e g' hinv'

/-- What follows a look may use what was found, in any state that it may have been found in. -/
theorem Looks.keeps_bind (hp : Looks c P p) (hf : ∀ g s a, c.inv g s → P s a → Keeps c (f a)) :
    Keeps c (p >>= f) := by
  intro g s hinv
  rw [wp_bind]
  refine wp_mono (hp g s hinv) fun r g' t h => ?_
  obtain ⟨hinv', heq, hP⟩ := h
  cases r with
  | ok a => exact hf g s a hinv (hP a rfl) g' t hinv'
  | error e => exact hinv'

variable {S : α → Prop} {T : β → Prop}

theorem Gives.done {a : α} (h : S a) : Gives c S (done a : Script σ Q A ε α) := by
  intro g s hinv
  refine ⟨hinv, fun b hb => ?_⟩
  cases hb
  exact h

theorem Gives.fail {e : ε} : Gives c S (fail e : Script σ Q A ε α) := fun _ _ hinv => ⟨hinv, nofun⟩

theorem Gives.ofExcept (r : Except ε α) :
    Gives c (fun a => r = .ok a) (ofExcept r : Script σ Q A ε α) := by
  cases r with
  | ok a => exact Gives.done rfl
  | error e => exact Gives.fail

theorem Gives.of_keeps (h : Keeps c p) : Gives c (fun _ => True) p := fun g s hinv =>
  wp_mono (h g s hinv) fun _ _ _ hinv' => ⟨hinv', fun _ _ => trivial⟩

theorem Gives.keeps_bind (hp : Gives c S p) (hf : ∀ a, S a → Keeps c (f a)) : Keeps c (p >>= f) := by
  intro g s hinv
  rw [wp_bind]
  refine wp_mono (hp g s hinv) fun r g' t h => ?_
  cases r with
  | ok a => exact hf a (h.2 a rfl) g' t h.1
  | error e => exact h.1

theorem Gives.keeps (h : Gives c S p) : Keeps c p := fun g s hinv =>
  wp_mono (h g s hinv) fun _ _ _ h' => h'.1

theorem Gives.bind (hp : Gives c S p) (hf : ∀ a, S a → Gives c T (f a)) : Gives c T (p >>= f) := by
  intro g s hinv
  rw [wp_bind]
  refine wp_mono (hp g s hinv) fun r g' t ⟨hinv', hS⟩ => ?_
  cases r with
  | ok a => exact hf a (hS a rfl) g' t hinv'
  | error e => exact ⟨hinv', nofun⟩

end gives

section part

variable {τ : Type} (view : τ → σ) (put : σ → τ → τ)

/-- A program on one part of a larger state. -/
def onPart : Script σ Q A ε α → Script τ Q A ε α
  | .done a => .done a
  | .fail e => .fail e
  | .read k => .read fun t => (k (view t)).onPart
  | .write f k failed => .write (fun t => put (f (view t)) t) k.onPart failed.onPart
  | .ask q k => .ask q fun a => (k a).onPart

theorem onPart_bind (p : Script σ Q A ε α) (f : α → Script σ Q A ε β) :
    (p >>= f).onPart view put = p.onPart view put >>= fun a => (f a).onPart view put := by
  change (p.bind f).onPart view put = (p.onPart view put).bind fun a => (f a).onPart view put
  induction p with
  | done a => rfl
  | fail e => rfl
  | read k ih => exact congrArg Script.read (funext fun t => ih (view t))
  | write g k failed ihk ihfailed =>
    change Script.write _ _ _ = Script.write _ _ _
    rw [ihk, ihfailed]
  | ask q k ih => exact congrArg (Script.ask q) (funext fun a => ih a)

theorem onPart_attempt (p : Script σ Q A ε α) :
    p.attempt.onPart view put = (p.onPart view put).attempt := by
  induction p with
  | done a => rfl
  | fail e => rfl
  | read k ih => exact congrArg Script.read (funext fun t => ih (view t))
  | write g k failed ihk ihfailed =>
    change Script.write _ _ _ = Script.write _ _ _
    rw [ihk, ihfailed]
  | ask q k ih => exact congrArg (Script.ask q) (funext fun a => ih a)

/-- A program on a part keeps to whatever every change of that part keeps to. -/
theorem Keeps.onPart {c : Contract τ Q A γ} (hput : ∀ g t part, c.inv g t → c.allowed g t (put part t) →
      c.guarantee g t (put part t) ∧ c.inv (c.wrote g t (put part t)) (put part t))
    (hask : ∀ g t q, c.inv g t → c.may g t q ∧ ∀ a, c.rely g t q a → c.inv (c.asked g t q a) t)
    (p : Script σ Q A ε α) : Keeps c (p.onPart view put) := by
  induction p with
  | done a => exact fun g t hinv => hinv
  | fail e => exact fun g t hinv => hinv
  | read k ih => exact fun g t hinv => ih (view t) g t hinv
  | write f k failed ihk ihfailed =>
    intro g t hinv
    refine ⟨fun hallowed => ?_, ihfailed g t hinv⟩
    obtain ⟨hkeeps, hinv'⟩ := hput g t (f (view t)) hinv hallowed
    exact ⟨hkeeps, hinv', ihk _ _ hinv'⟩
  | ask q k ih =>
    intro g t hinv
    refine ⟨(hask g t q hinv).1, fun a ha => ?_⟩
    have hinv' := (hask g t q hinv).2 a ha
    exact ⟨hinv', ih a _ t hinv'⟩

/-- What a program on a part does where its own contract has a say, it does in the larger state: a step
that the part answers for keeps what holds there, and stays in a relation that composes. -/
theorem wp_onPart {c : Contract τ Q A γ} {d : Contract σ Q A Unit} {R : γ → τ → γ → τ → Prop}
    {post : Except ε α → Unit → σ → Prop} (hR : Composes R) (hview : ∀ part t, view (put part t) = part)
    (hlook : ∀ g t part, c.allowed g t (put part t) → d.allowed () (view t) part)
    (hput : ∀ g t part, c.inv g t → c.allowed g t (put part t) → d.guarantee () (view t) part →
      c.guarantee g t (put part t) ∧ c.inv (c.wrote g t (put part t)) (put part t) ∧
        R g t (c.wrote g t (put part t)) (put part t))
    (hrely : ∀ g t q a, c.rely g t q a → d.rely () (view t) q a)
    (hask : ∀ g t q, c.inv g t → c.may g t q ∧ ∀ a, c.rely g t q a → c.inv (c.asked g t q a) t ∧
      R g t (c.asked g t q a) t)
    {p : Script σ Q A ε α} {g : γ} {t : τ} (hp : p.wp d post () (view t)) (hinv : c.inv g t) :
    (p.onPart view put).wp c (fun r g' t' => c.inv g' t' ∧ R g t g' t' ∧ post r () (view t')) g t := by
  suffices ∀ g₀ t₀, R g₀ t₀ g t →
      (p.onPart view put).wp c (fun r g' t' => c.inv g' t' ∧ R g₀ t₀ g' t' ∧ post r () (view t')) g t from
    this g t (hR.refl g t)
  intro g₀ t₀ hfrom
  induction p generalizing g t with
  | done a => exact ⟨hinv, hfrom, hp⟩
  | fail e => exact ⟨hinv, hfrom, hp⟩
  | read k ih => exact ih (view t) hp hinv hfrom
  | write f k failed ihk ihfailed =>
    refine ⟨fun hallowed => ?_, ihfailed hp.2 hinv hfrom⟩
    obtain ⟨hkeeps, -, hrest⟩ := hp.1 (hlook g t _ hallowed)
    obtain ⟨hguarantee, hinv', hstep⟩ := hput g t _ hinv hallowed hkeeps
    refine ⟨hguarantee, hinv', ihk ?_ hinv' (hR.trans _ _ _ _ _ _ hfrom hstep)⟩
    rw [hview]
    exact hrest
  | ask q k ih =>
    obtain ⟨hmay, hanswer⟩ := hask g t q hinv
    refine ⟨hmay, fun a ha => ?_⟩
    obtain ⟨hinv', hstep⟩ := hanswer a ha
    exact ⟨hinv', ih a (hp.2 a (hrely g t q a ha)).2 hinv' (hR.trans _ _ _ _ _ _ hfrom hstep)⟩

end part

end wp

section runs

variable {γ : Type} (c : Contract σ Q A γ)

/-- One step of a run that could be seen from outside. -/
inductive Entry (σ Q : Type) (A : Q → Type) (γ : Type)
  | wrote (g : γ) (s t : σ)
  | asked (g : γ) (s : σ) (q : Q) (a : A q)

/-- An entry keeps to a contract. -/
def Entry.Keeps : Entry σ Q A γ → Prop
  | .wrote g s t => c.guarantee g s t
  | .asked g s q _ => c.may g s q

/-- How a program can run: what it did, oldest first, where it left history and state, and
what it came to if it was not cut off. -/
inductive Exec : Script σ Q A ε α → γ → σ → List (Entry σ Q A γ) → γ → σ → Option (Except ε α) → Prop
  | cut {p : Script σ Q A ε α} {g : γ} {s : σ} : Exec p g s [] g s none
  | done {a : α} {g : γ} {s : σ} : Exec (done a) g s [] g s (some (.ok a))
  | fail {e : ε} {g : γ} {s : σ} : Exec (fail e) g s [] g s (some (.error e))
  | read {k : σ → Script σ Q A ε α} {g : γ} {s : σ} {log : List (Entry σ Q A γ)} {g' : γ} {t : σ}
      {o : Option (Except ε α)} : Exec (k s) g s log g' t o → Exec (read k) g s log g' t o
  | wrote {f : σ → σ} {k failed : Script σ Q A ε α} {g : γ} {s : σ} {log : List (Entry σ Q A γ)}
      {g' : γ} {t : σ} {o : Option (Except ε α)} : c.allowed g s (f s) →
      Exec k (c.wrote g s (f s)) (f s) log g' t o →
        Exec (write f k failed) g s (.wrote g s (f s) :: log) g' t o
  | failed {f : σ → σ} {k failed : Script σ Q A ε α} {g : γ} {s : σ} {log : List (Entry σ Q A γ)}
      {g' : γ} {t : σ} {o : Option (Except ε α)} : Exec failed g s log g' t o →
        Exec (write f k failed) g s log g' t o
  | asked {q : Q} {k : A q → Script σ Q A ε α} {g : γ} {s : σ} {a : A q}
      {log : List (Entry σ Q A γ)} {g' : γ} {t : σ} {o : Option (Except ε α)} : c.rely g s q a →
      Exec (k a) (c.asked g s q a) s log g' t o → Exec (ask q k) g s (.asked g s q a :: log) g' t o

variable {c} {post : Except ε α → γ → σ → Prop} {g g' : γ} {s t : σ} {log : List (Entry σ Q A γ)}
  {o : Option (Except ε α)}

/-- Whatever a program does before it is cut off keeps to the contract. -/
theorem Exec.sound {p : Script σ Q A ε α} (h : p.wp c post g s) (hinv : c.inv g s)
    (hrun : Exec c p g s log g' t o) :
    (∀ e ∈ log, e.Keeps c) ∧ c.inv g' t ∧ ∀ r, o = some r → post r g' t := by
  induction hrun with
  | cut => exact ⟨by simp, hinv, by simp⟩
  | done =>
    refine ⟨by simp, hinv, fun r hr => ?_⟩
    cases hr
    exact h
  | fail =>
    refine ⟨by simp, hinv, fun r hr => ?_⟩
    cases hr
    exact h
  | read _ ih => exact ih h hinv
  | wrote hallowed _ ih =>
    obtain ⟨hkeeps, hnext, hrest⟩ := h.1 hallowed
    obtain ⟨hlog, hend⟩ := ih hrest hnext
    exact ⟨List.forall_mem_cons.mpr ⟨hkeeps, hlog⟩, hend⟩
  | failed _ ih => exact ih h.2 hinv
  | asked hrely _ ih =>
    obtain ⟨hnext, hrest⟩ := h.2 _ hrely
    obtain ⟨hlog, hend⟩ := ih hrest hnext
    exact ⟨List.forall_mem_cons.mpr ⟨h.1, hlog⟩, hend⟩

/-- A contract that looks at no less sees the same runs. -/
theorem Exec.of_weaker {c' : Contract σ Q A γ} {p : Script σ Q A ε α} (hwrote : c'.wrote = c.wrote)
    (hasked : c'.asked = c.asked) (hrely : ∀ g s q a, c.rely g s q a → c'.rely g s q a)
    (hallowed : ∀ g s t, c.allowed g s t → c'.allowed g s t) (hrun : Exec c p g s log g' t o) :
    Exec c' p g s log g' t o := by
  induction hrun with
  | cut => exact .cut
  | done => exact .done
  | fail => exact .fail
  | read _ ih => exact .read ih
  | wrote hwrites _ ih => exact .wrote (hallowed _ _ _ hwrites) (hwrote ▸ ih)
  | failed _ ih => exact .failed ih
  | asked hanswer _ ih => exact .asked (hrely _ _ _ _ hanswer) (hasked ▸ ih)

/-- Where an entry leaves history and state. -/
def Entry.Leaves (c : Contract σ Q A γ) : Entry σ Q A γ → γ → σ → Prop
  | .wrote g s t, g', t' => g' = c.wrote g s t ∧ t' = t
  | .asked g s q a, g', t' => g' = c.asked g s q a ∧ t' = s

/-- A run ends where its last entry left it. -/
theorem Exec.ends {p : Script σ Q A ε α} (hrun : Exec c p g s log g' t o) :
    log = [] ∧ g' = g ∧ t = s ∨ ∃ before e, log = before ++ [e] ∧ e.Leaves c g' t := by
  induction hrun with
  | cut => exact .inl ⟨rfl, rfl, rfl⟩
  | done => exact .inl ⟨rfl, rfl, rfl⟩
  | fail => exact .inl ⟨rfl, rfl, rfl⟩
  | read _ ih => exact ih
  | failed _ ih => exact ih
  | wrote _ _ ih =>
    rcases ih with ⟨rfl, rfl, rfl⟩ | ⟨before, e, rfl, hleaves⟩
    · exact .inr ⟨[], _, rfl, rfl, rfl⟩
    · exact .inr ⟨_ :: before, e, rfl, hleaves⟩
  | asked _ _ ih =>
    rcases ih with ⟨rfl, rfl, rfl⟩ | ⟨before, e, rfl, hleaves⟩
    · exact .inr ⟨[], _, rfl, rfl, rfl⟩
    · exact .inr ⟨_ :: before, e, rfl, hleaves⟩

/-- How a run went: what it did, where it left history and state, and what it came to. -/
structure Played (σ Q : Type) (A : Q → Type) (ε α γ : Type) where
  log : List (Entry σ Q A γ)
  history : γ
  state : σ
  result : Except ε α

/-- How a program runs when no write fails and the answers are known. -/
def play (c : Contract σ Q A γ) (answer : (q : Q) → A q) :
    Script σ Q A ε α → γ → σ → Played σ Q A ε α γ
  | .done a, g, s => { log := [], history := g, state := s, result := .ok a }
  | .fail e, g, s => { log := [], history := g, state := s, result := .error e }
  | .read k, g, s => (k s).play c answer g s
  | .write f k _, g, s =>
      let rest := k.play c answer (c.wrote g s (f s)) (f s)
      { rest with log := .wrote g s (f s) :: rest.log }
  | .ask q k, g, s =>
      let rest := (k (answer q)).play c answer (c.asked g s q (answer q)) s
      { rest with log := .asked g s q (answer q) :: rest.log }

/-- An entry that a contract looks at. -/
def Entry.Looked (c : Contract σ Q A γ) : Entry σ Q A γ → Prop
  | .wrote g s t => c.allowed g s t
  | .asked g s q a => c.rely g s q a

theorem play_exec_of_looked {answer : (q : Q) → A q} (p : Script σ Q A ε α) (g : γ) (s : σ)
    (h : ∀ e ∈ (p.play c answer g s).log, e.Looked c) :
    Exec c p g s (p.play c answer g s).log (p.play c answer g s).history (p.play c answer g s).state
      (some (p.play c answer g s).result) := by
  induction p generalizing g s with
  | done a => exact .done
  | fail e => exact .fail
  | read k ih => exact .read (ih s g s h)
  | write f k failed ih _ =>
    obtain ⟨hhead, htail⟩ := List.forall_mem_cons.mp h
    exact .wrote hhead (ih _ _ htail)
  | ask q k ih =>
    obtain ⟨hhead, htail⟩ := List.forall_mem_cons.mp h
    exact .asked hhead (ih _ _ _ htail)

theorem play_exec {answer : (q : Q) → A q} (hrely : ∀ g s q, c.rely g s q (answer q))
    (hallowed : ∀ g s t, c.allowed g s t) (p : Script σ Q A ε α) (g : γ) (s : σ) :
    Exec c p g s (p.play c answer g s).log (p.play c answer g s).history (p.play c answer g s).state
      (some (p.play c answer g s).result) := by
  induction p generalizing g s with
  | done a => exact .done
  | fail e => exact .fail
  | read k ih => exact .read (ih s g s)
  | write f k failed ih _ => exact .wrote (hallowed g s (f s)) (ih _ _)
  | ask q k ih => exact .asked (hrely g s q) (ih _ _ _)

/-- How a program goes for some writes and questions, no write failing, as far as the answers
are known at each point of the history; what it came to if it got to its end. -/
def follow (c : Contract σ Q A γ) (answer : γ → (q : Q) → Option (A q)) :
    Script σ Q A ε α → ℕ → γ → σ → γ × σ × Option (Except ε α)
  | .done a, _, g, s => (g, s, some (.ok a))
  | .fail e, _, g, s => (g, s, some (.error e))
  | .read k, n, g, s => (k s).follow c answer n g s
  | .write _ _ _, 0, g, s => (g, s, none)
  | .write f k _, n + 1, g, s => k.follow c answer n (c.wrote g s (f s)) (f s)
  | .ask _ _, 0, g, s => (g, s, none)
  | .ask q k, n + 1, g, s =>
      match answer g q with
      | none => (g, s, none)
      | some a => (k a).follow c answer n (c.asked g s q a) s

theorem follow_exec (answer : γ → (q : Q) → Option (A q))
    (hrely : ∀ g s q a, answer g q = some a → c.rely g s q a) (hallowed : ∀ g s t, c.allowed g s t)
    (p : Script σ Q A ε α) (n : ℕ) (g : γ) (s : σ) :
    ∃ log, Exec c p g s log (p.follow c answer n g s).1 (p.follow c answer n g s).2.1
      (p.follow c answer n g s).2.2 := by
  induction p generalizing n g s with
  | done a => exact ⟨[], .done⟩
  | fail e => exact ⟨[], .fail⟩
  | read k ih =>
    obtain ⟨log, hlog⟩ := ih s n g s
    exact ⟨log, .read hlog⟩
  | write f k failed ih _ =>
    cases n with
    | zero => exact ⟨[], .cut⟩
    | succ n =>
      obtain ⟨log, hlog⟩ := ih n _ _
      exact ⟨_, .wrote (hallowed g s (f s)) hlog⟩
  | ask q k ih =>
    cases n with
    | zero => exact ⟨[], .cut⟩
    | succ n =>
      unfold follow
      cases ha : answer g q with
      | none => exact ⟨[], .cut⟩
      | some a =>
        obtain ⟨log, hlog⟩ := ih a n _ _
        exact ⟨_, .asked (hrely g s q a ha) hlog⟩

/-- A machine that runs programs one after another, any of them cut off somewhere, while others
change what they may in between. -/
inductive Session {ι : Type} (c : Contract σ Q A γ) (program : ι → Script σ Q A ε Unit)
    (others : γ → σ → γ → σ → Prop) (g : γ) (s : σ) : List (Entry σ Q A γ) → γ → σ → Prop
  | start : Session c program others g s [] g s
  | run {log log' : List (Entry σ Q A γ)} {g' g'' : γ} {t u : σ} {o : Option (Except ε Unit)} (i : ι) :
      Session c program others g s log g' t → Exec c (program i) g' t log' g'' u o →
        Session c program others g s (log ++ log') g'' u
  | others {log : List (Entry σ Q A γ)} {g' g'' : γ} {t u : σ} :
      Session c program others g s log g' t → others g' t g'' u →
        Session c program others g s log g'' u

/-- Programs that each keep to the contract keep to it all along. -/
theorem Session.sound {ι : Type} {program : ι → Script σ Q A ε Unit}
    {others : γ → σ → γ → σ → Prop} (hprogram : ∀ i g s, c.inv g s →
      (program i).wp c (fun _ _ _ => True) g s)
    (hothers : ∀ g s g' t, c.inv g s → others g s g' t → c.inv g' t) (hinv : c.inv g s)
    (h : Session c program others g s log g' t) : (∀ e ∈ log, e.Keeps c) ∧ c.inv g' t := by
  induction h with
  | start => exact ⟨by simp, hinv⟩
  | run i _ hexec ih =>
    obtain ⟨hbefore, hmid⟩ := ih
    obtain ⟨hafter, hend, -⟩ := hexec.sound (hprogram i _ _ hmid) hmid
    refine ⟨fun e he => ?_, hend⟩
    rcases List.mem_append.mp he with he | he
    · exact hbefore e he
    · exact hafter e he
  | others _ hstep ih => exact ⟨ih.1, hothers _ _ _ _ ih.2 hstep⟩

end runs

end Script

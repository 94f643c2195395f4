import Mathlib.Order.Basic
import Mathlib.Tactic.Cases

/-!
Loops that end when their body says so. `Loop.turns` gives the body a number of
turns and ends with its result or with the state after the last one. A measure that
every turn which goes on makes smaller says how many turns are enough, and from there
on more turns change nothing. Where every turn is a link of some relation, the loop is
a chain of at most that many links.
-/
namespace Loop

variable {σ ρ : Type*}

/-- Run the body until it returns, for at most `fuel` turns. -/
def turns (body : σ → ρ ⊕ σ) : ℕ → σ → ρ ⊕ σ
  | 0, s => .inr s
  | fuel + 1, s =>
      match body s with
      | .inl result => .inl result
      | .inr s' => turns body fuel s'

variable {body : σ → ρ ⊕ σ}

theorem turns_of_inl {s : σ} {result : ρ} (h : body s = .inl result) (fuel : ℕ) :
    turns body (fuel + 1) s = .inl result := by
  simp [turns, h]

theorem turns_of_inr {s s' : σ} (h : body s = .inr s') (fuel : ℕ) :
    turns body (fuel + 1) s = turns body fuel s' := by
  simp [turns, h]

/-- Fuel above the measure is enough. -/
theorem turns_returns (measure : σ → ℕ)
    (hdec : ∀ s s', body s = .inr s' → measure s' < measure s)
    {fuel : ℕ} {s : σ} (h : measure s < fuel) : ∃ result, turns body fuel s = .inl result := by
  induction fuel generalizing s with
  | zero => omega
  | succ fuel ih =>
    cases hb : body s with
    | inl result => exact ⟨result, turns_of_inl hb fuel⟩
    | inr s' =>
      rw [turns_of_inr hb]
      have hlt := hdec s s' hb
      exact ih (by omega)

/-- More fuel does not change a result. -/
theorem turns_mono {fuel fuel' : ℕ} (hle : fuel ≤ fuel') {s : σ} {result : ρ}
    (h : turns body fuel s = .inl result) : turns body fuel' s = .inl result := by
  induction fuel generalizing s fuel' with
  | zero => simp [turns] at h
  | succ fuel ih =>
    obtain ⟨fuel', rfl⟩ : ∃ n, fuel' = n + 1 := ⟨fuel' - 1, by omega⟩
    cases hb : body s with
    | inl r => rwa [turns_of_inl hb] at h ⊢
    | inr s' =>
      rw [turns_of_inr hb] at h ⊢
      exact ih (by omega) h

/-- What holds before the loop and is kept by every turn holds at its end, in
one form where the body returned and in another where the turns ran out. -/
theorem turns_post (inv : σ → Prop) (post : ρ → Prop)
    (hinv : ∀ s s', inv s → body s = .inr s' → inv s')
    (hpost : ∀ s result, inv s → body s = .inl result → post result)
    (fuel : ℕ) {s : σ} (hs : inv s) : (turns body fuel s).elim post inv := by
  induction fuel generalizing s with
  | zero => exact hs
  | succ fuel ih =>
    cases hb : body s with
    | inl r =>
      rw [turns_of_inl hb]
      exact hpost s r hs hb
    | inr s' =>
      rw [turns_of_inr hb]
      exact ih (hinv s s' hs hb)

/-- The same, with what a turn does stated once. -/
theorem turns_keep (inv : σ → Prop) (post : ρ → Prop)
    (hbody : ∀ s, inv s → (body s).elim post inv) (fuel : ℕ) {s : σ} (hs : inv s) :
    (turns body fuel s).elim post inv := by
  refine turns_post inv post (fun s s' hs hb => ?_) (fun s result hs hb => ?_) fuel hs
  · have h := hbody s hs
    rwa [hb] at h
  · have h := hbody s hs
    rwa [hb] at h

/-- So many links of a relation, one after the other. -/
inductive Chain {α : Type*} (link : α → α → Prop) : ℕ → α → α → Prop
  | nil (a : α) : Chain link 0 a a
  | cons {n : ℕ} {a b c : α} : link a b → Chain link n b c → Chain link (n + 1) a c

/-- A loop seen through what a turn does to a part of its state. -/
theorem turns_chain {α : Type*} {link : α → α → Prop} (view : σ → α) (out : ρ → α)
    (hgo : ∀ s s', body s = .inr s' → link (view s) (view s'))
    (hreturn : ∀ s result, body s = .inl result → link (view s) (out result))
    (fuel : ℕ) (s : σ) :
    ∃ n ≤ fuel, Chain link n (view s) ((turns body fuel s).elim out view) := by
  induction fuel generalizing s with
  | zero => exact ⟨0, Nat.le_refl 0, .nil _⟩
  | succ fuel ih =>
    cases hb : body s with
    | inl result =>
      rw [turns_of_inl hb]
      exact ⟨1, Nat.succ_le_succ (Nat.zero_le _), .cons (hreturn s result hb) (.nil _)⟩
    | inr s' =>
      rw [turns_of_inr hb]
      obtain ⟨n, hn, hchain⟩ := ih s'
      exact ⟨n + 1, Nat.succ_le_succ hn, .cons (hgo s s' hb) hchain⟩

/-- A counter that every link raises by one counts the links. -/
theorem Chain.eq_add {n a b : ℕ} (h : Chain (fun a b : ℕ => b = a + 1) n a b) : b = a + n := by
  induction h with
  | nil => rfl
  | cons hfirst _ ih => omega

end Loop

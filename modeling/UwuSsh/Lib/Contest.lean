import Mathlib.Logic.Function.Basic
import Mathlib.Order.Lattice

/-!
Places, and claims to them. Everyone has at most one claim, to one place and of some height, and a place is held by
one of those who claim it. Where no two claims to a place are equally high, the highest hold the places, whoever
came first; what a claim does that is made, raised or given up is said once for each way it can go.
-/
namespace Contest

variable {I P C : Type*} [LinearOrder C] {claim claim' held held' : I → Option (P × C)} {i j : I} {p : P} {b c : C}

/-- Places are held by claimants, no claim is higher than the holder's, and a place has one holder. -/
structure Settled (claim held : I → Option (P × C)) : Prop where
  own : ∀ {i x}, held i = some x → claim i = some x
  beaten : ∀ {i p c}, claim i = some (p, c) → ∃ j b, held j = some (p, b) ∧ c ≤ b
  one : ∀ {i j p b c}, held i = some (p, b) → held j = some (p, c) → i = j

/-- No two claims to a place are equally high. -/
def Apart (claim : I → Option (P × C)) : Prop :=
  ∀ {i j p c}, claim i = some (p, c) → claim j = some (p, c) → i = j

/-- Who holds a place is highest. -/
theorem Settled.le (h : Settled claim held) (hheld : held i = some (p, c)) (hclaim : claim j = some (p, b)) : b ≤ c := by
  obtain ⟨k, d, hk, hle⟩ := h.beaten hclaim
  obtain rfl := h.one hk hheld
  rw [hheld] at hk
  cases hk
  exact hle

/-- Who holds a place in one outcome holds it in every other. -/
theorem Settled.held_of_held (h : Settled claim held) (h' : Settled claim held') (hapart : Apart claim) {x : P × C}
    (hheld : held i = some x) : held' i = some x := by
  obtain ⟨p, c⟩ := x
  obtain ⟨j, b, hj, hle⟩ := h'.beaten (h.own hheld)
  have hge : b ≤ c := h.le hheld (h'.own hj)
  obtain rfl : c = b := le_antisymm hle hge
  obtain rfl := hapart (h.own hheld) (h'.own hj)
  exact hj

/-- The claims decide who holds what. -/
theorem Settled.unique (h : Settled claim held) (h' : Settled claim held') (hapart : Apart claim) : held = held' := by
  funext i
  cases hi : held i with
  | some x => exact (h.held_of_held h' hapart hi).symm
  | none =>
    cases hi' : held' i with
    | none => rfl
    | some x =>
      rw [h'.held_of_held h hapart hi'] at hi
      cases hi

section steps

variable (h : Settled claim held) (hothers : ∀ j, j ≠ i → claim' j = claim j)
include h hothers

/-- A claim that is not higher than the holder's changes nothing. -/
theorem Settled.stands (hi : ∀ x, claim' i = some x → ∃ j b, j ≠ i ∧ held j = some (x.1, b) ∧ x.2 ≤ b)
    (hnone : held i = none) : Settled claim' held where
  own := by
    intro j x hj
    have hne : j ≠ i := by
      rintro rfl
      rw [hnone] at hj
      cases hj
    rw [hothers j hne]
    exact h.own hj
  beaten := by
    intro j p c hj
    by_cases hji : j = i
    · subst hji
      obtain ⟨k, b, -, hk, hle⟩ := hi _ hj
      exact ⟨k, b, hk, hle⟩
    · rw [hothers j hji] at hj
      exact h.beaten hj
  one := h.one

/-- A holder whose claim changes holds its place as long as it is highest. -/
theorem Settled.renewed (hheld : held i = some (p, b)) (hi : claim' i = some (p, c))
    (htop : ∀ j d, j ≠ i → claim j = some (p, d) → d ≤ c)
    (hheldOthers : ∀ j, j ≠ i → held' j = held j) (hheld' : held' i = some (p, c)) : Settled claim' held' where
  own := by
    intro j x hj
    by_cases hji : j = i
    · subst hji
      rw [hi, ← hheld', hj]
    · rw [hothers j hji]
      rw [hheldOthers j hji] at hj
      exact h.own hj
  beaten := by
    intro j q d hj
    by_cases hji : j = i
    · subst hji
      rw [hi] at hj
      cases hj
      exact ⟨j, c, hheld', le_rfl⟩
    · rw [hothers j hji] at hj
      obtain ⟨k, e, hk, hle⟩ := h.beaten hj
      by_cases hki : k = i
      · subst hki
        rw [hheld] at hk
        cases hk
        exact ⟨k, c, hheld', htop j d hji hj⟩
      · exact ⟨k, e, (hheldOthers k hki).trans hk, hle⟩
  one := by
    intro j k q d e hj hk
    by_cases hji : j = i
    · by_cases hki : k = i
      · rw [hji, hki]
      · subst hji
        rw [hheld'] at hj
        cases hj
        rw [hheldOthers k hki] at hk
        exact h.one hheld hk
    · rw [hheldOthers j hji] at hj
      by_cases hki : k = i
      · subst hki
        rw [hheld'] at hk
        cases hk
        exact h.one hj hheld
      · rw [hheldOthers k hki] at hk
        exact h.one hj hk

/-- A claim that is highest takes the place from whoever held it. -/
theorem Settled.taken (hnone : held i = none) (hi : claim' i = some (p, c))
    (htop : ∀ j d, j ≠ i → claim j = some (p, d) → d ≤ c)
    (hheldOthers : ∀ j x, j ≠ i → (held' j = some x ↔ held j = some x ∧ x.1 ≠ p)) (hheld' : held' i = some (p, c)) :
    Settled claim' held' where
  own := by
    intro j x hj
    by_cases hji : j = i
    · subst hji
      rw [hi, ← hheld', hj]
    · rw [hothers j hji]
      exact h.own ((hheldOthers j x hji).mp hj).1
  beaten := by
    intro j q d hj
    by_cases hji : j = i
    · subst hji
      rw [hi] at hj
      cases hj
      exact ⟨j, c, hheld', le_rfl⟩
    · rw [hothers j hji] at hj
      by_cases hq : q = p
      · subst hq
        exact ⟨i, c, hheld', htop j d hji hj⟩
      · obtain ⟨k, e, hk, hle⟩ := h.beaten hj
        have hki : k ≠ i := by
          rintro rfl
          rw [hnone] at hk
          cases hk
        exact ⟨k, e, (hheldOthers k _ hki).mpr ⟨hk, hq⟩, hle⟩
  one := by
    intro j k q d e hj hk
    by_cases hji : j = i
    · by_cases hki : k = i
      · rw [hji, hki]
      · subst hji
        rw [hheld'] at hj
        cases hj
        exact absurd rfl ((hheldOthers k _ hki).mp hk).2
    · by_cases hki : k = i
      · subst hki
        rw [hheld'] at hk
        cases hk
        exact absurd rfl ((hheldOthers j _ hji).mp hj).2
      · exact h.one ((hheldOthers j _ hji).mp hj).1 ((hheldOthers k _ hki).mp hk).1

end steps

end Contest

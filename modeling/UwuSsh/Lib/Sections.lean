import Mathlib.Data.List.Basic
import Mathlib.Data.List.TakeWhile

/-!
A list cut into sections: each begins with a head and goes on to the next element that ends it. Heads always
end a section; other elements may.
-/
namespace Sections

variable {α β : Type}

/-- Every head, with what follows it up to the next end. -/
def sections (head ends : α → Bool) : List α → List (α × List α)
  | [] => []
  | x :: xs => if head x then (x, xs.takeWhile fun y => !ends y) :: sections head ends xs else sections head ends xs

variable {head ends : α → Bool} {x : α} {xs : List α}

theorem sections_head (h : head x = true) :
    sections head ends (x :: xs) = (x, xs.takeWhile fun y => !ends y) :: sections head ends xs := by
  rw [sections, if_pos h]

theorem sections_other (h : head x = false) : sections head ends (x :: xs) = sections head ends xs := by
  rw [sections, if_neg (by simp [h])]

theorem mem_of_section {s : α × List α} (h : s ∈ sections head ends xs) :
    s.1 ∈ xs ∧ head s.1 = true ∧ ∀ y ∈ s.2, y ∈ xs ∧ ends y = false := by
  induction xs with
  | nil => simp [sections] at h
  | cons x xs ih =>
    have hrest : s ∈ sections head ends xs → s.1 ∈ x :: xs ∧ head s.1 = true ∧ ∀ y ∈ s.2, y ∈ x :: xs ∧ ends y = false := by
      intro hs
      obtain ⟨hmem, hhead, hbody⟩ := ih hs
      exact ⟨List.mem_cons_of_mem x hmem, hhead, fun y hy => ⟨List.mem_cons_of_mem x (hbody y hy).1, (hbody y hy).2⟩⟩
    cases hx : head x with
    | false =>
      rw [sections_other hx] at h
      exact hrest h
    | true =>
      rw [sections_head hx] at h
      rcases List.mem_cons.mp h with rfl | hs
      · refine ⟨List.mem_cons_self, hx, fun y hy => ⟨?_, ?_⟩⟩
        · exact List.mem_cons_of_mem x ((List.takeWhile_sublist _).subset hy)
        · simpa using List.mem_takeWhile_imp hy
      · exact hrest hs

/-- Sections that end sooner are the beginnings of those that do not. -/
theorem sections_ends (hends : ∀ x, head x = true → ends x = true) :
    sections head ends xs = (sections head head xs).map fun s => (s.1, s.2.takeWhile fun y => !ends y) := by
  have hcut : ∀ l : List α,
      (l.takeWhile fun y => !head y).takeWhile (fun y => !ends y) = l.takeWhile fun y => !ends y := by
    intro l
    rw [List.takeWhile_takeWhile]
    congr 1
    funext y
    have hy := hends y
    cases hhead : head y <;> simp_all
  induction xs with
  | nil => rfl
  | cons x xs ih =>
    cases hx : head x with
    | false => rw [sections_other hx, sections_other hx, ih]
    | true => rw [sections_head hx, sections_head hx, List.map_cons, ih, hcut]

/-- Where reading elements keeps which of them are heads, it reads the sections. -/
theorem sections_filterMap {read : α → Option β} {head' : β → Bool}
    (hread : ∀ x ∈ xs, head x = (read x).any head') :
    sections head' head' (xs.filterMap read) =
      (sections head head xs).filterMap fun s => (read s.1).map fun y => (y, s.2.filterMap read) := by
  have hwhile : ∀ l : List α, (∀ x ∈ l, head x = (read x).any head') →
      (l.filterMap read).takeWhile (fun y => !head' y) = (l.takeWhile fun x => !head x).filterMap read := by
    intro l hl
    induction l with
    | nil => rfl
    | cons x l ih =>
      have hx := hl x List.mem_cons_self
      have hrest := ih fun y hy => hl y (List.mem_cons_of_mem x hy)
      rw [List.filterMap_cons, List.takeWhile_cons, hx]
      cases hy : read x with
      | none =>
        rw [Option.any_none]
        simp only [Bool.not_false, if_true]
        rw [List.filterMap_cons_none hy, hrest]
      | some y =>
        rw [Option.any_some]
        cases hhead : head' y with
        | true => simp [hhead]
        | false => simp [hhead, hy, hrest]
  induction xs with
  | nil => rfl
  | cons x xs ih =>
    have hx := hread x List.mem_cons_self
    have hxs : ∀ y ∈ xs, head y = (read y).any head' := fun y hy => hread y (List.mem_cons_of_mem x hy)
    cases hy : read x with
    | none =>
      rw [hy, Option.any_none] at hx
      rw [List.filterMap_cons_none hy, sections_other hx, ih hxs]
    | some y =>
      rw [hy, Option.any_some] at hx
      rw [List.filterMap_cons_some hy]
      cases hhead : head' y with
      | false => rw [sections_other hhead, sections_other (hx.trans hhead), ih hxs]
      | true =>
        rw [sections_head hhead, sections_head (hx.trans hhead), List.filterMap_cons_some (b := (y, _)) (by rw [hy, Option.map_some]), ih hxs,
          hwhile xs hxs]

/-- Two readings of a list that leave out the same elements agree only where they agree on each. -/
theorem filterMap_eq_iff {f g : α → Option β} (hnone : ∀ x ∈ xs, f x = none ↔ g x = none) :
    xs.filterMap f = xs.filterMap g ↔ ∀ x ∈ xs, f x = g x := by
  constructor
  · intro h
    induction xs with
    | nil => nofun
    | cons x xs ih =>
      have hrest : ∀ y ∈ xs, f y = none ↔ g y = none := fun y hy => hnone y (List.mem_cons_of_mem x hy)
      have hx := hnone x List.mem_cons_self
      cases hf : f x with
      | none =>
        have hg := hx.mp hf
        rw [List.filterMap_cons_none hf, List.filterMap_cons_none hg] at h
        exact List.forall_mem_cons.mpr ⟨hf.trans hg.symm, ih hrest h⟩
      | some a =>
        cases hg : g x with
        | none => exact absurd (hx.mpr hg) (by simp [hf])
        | some b =>
          rw [List.filterMap_cons_some hf, List.filterMap_cons_some hg] at h
          obtain ⟨rfl, htail⟩ := List.cons.inj h
          exact List.forall_mem_cons.mpr ⟨hf.trans hg.symm, ih hrest htail⟩
  · intro h
    exact List.filterMap_congr h

end Sections

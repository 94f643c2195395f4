import Mathlib.Data.List.Induction

/-!
How many letters two words differ in, and the usual way to count it: a row for each letter of the one word,
made from the row before, given up once a whole row is above the bound.
-/
namespace EditDistance

variable {α : Type} [DecidableEq α]

/-- The distances from `a :: as` to the ends of a word, from those of `as`. -/
def next (dist : List α → ℕ) (a : α) : List α → ℕ
  | [] => dist [] + 1
  | b :: bs => min (min (dist bs + if a = b then 0 else 1) (dist (b :: bs) + 1)) (next dist a bs + 1)

def lev : List α → List α → ℕ
  | [] => List.length
  | a :: as => next (lev as) a

theorem lev_cons_cons (a b : α) (as bs : List α) : lev (a :: as) (b :: bs) =
    min (min (lev as bs + if a = b then 0 else 1) (lev as (b :: bs) + 1)) (lev (a :: as) bs + 1) := rfl

@[simp] theorem lev_nil_left (bs : List α) : lev [] bs = bs.length := rfl

@[simp] theorem lev_nil_right (as : List α) : lev as [] = as.length := by
  induction as with
  | nil => rfl
  | cons a as ih =>
    rw [List.length_cons, ← ih]
    rfl

theorem lev_symm (as bs : List α) : lev as bs = lev bs as := by
  induction as generalizing bs with
  | nil => rw [lev_nil_left, lev_nil_right]
  | cons a as ih =>
    induction bs with
    | nil => rw [lev_nil_left, lev_nil_right]
    | cons b bs ihb =>
      have hsame : (if a = b then 0 else 1) = if b = a then 0 else 1 := by simp only [eq_comm]
      rw [lev_cons_cons, lev_cons_cons, ih bs, ih (b :: bs), ihb, hsame]
      omega

/-- The distances from one word to the beginnings of another; both words are read backwards. -/
def row (as : List α) : List α → List α → List ℕ
  | done, [] => [lev as done]
  | done, b :: bs => lev as done :: row as (b :: done) bs

/-- The rest of a row, made from the row before and the entry to the left. -/
def nextRow (a : α) : List α → List ℕ → ℕ → List ℕ
  | b :: bs, diagonal :: above :: previous, left =>
    let entry := min (min (diagonal + if a = b then 0 else 1) (above + 1)) (left + 1)
    entry :: nextRow a bs (above :: previous) entry
  | _, _, _ => []

theorem row_eq_cons (as done bs : List α) : ∃ rest, row as done bs = lev as done :: rest := by
  cases bs with
  | nil => exact ⟨[], rfl⟩
  | cons b bs => exact ⟨_, rfl⟩

/-- What the loop computes is the next row. -/
theorem nextRow_row (a : α) (as done bs : List α) :
    lev (a :: as) done :: nextRow a bs (row as done bs) (lev (a :: as) done) = row (a :: as) done bs := by
  induction bs generalizing done with
  | nil => rfl
  | cons b bs ih =>
    obtain ⟨rest, hrest⟩ := row_eq_cons as (b :: done) bs
    have hnext := ih (b :: done)
    rw [hrest] at hnext
    rw [row, row, hrest, nextRow, ← lev_cons_cons, hnext]

theorem mem_row {as done bs : List α} {n : ℕ} :
    n ∈ row as done bs ↔ ∃ front rest, bs = front ++ rest ∧ n = lev as (front.reverse ++ done) := by
  induction bs generalizing done with
  | nil =>
    simp only [row, List.mem_singleton]
    constructor
    · rintro rfl
      exact ⟨[], [], rfl, rfl⟩
    · rintro ⟨front, rest, hsplit, rfl⟩
      obtain ⟨rfl, rfl⟩ := List.append_eq_nil_iff.mp hsplit.symm
      rfl
  | cons b bs ih =>
    rw [row, List.mem_cons, ih]
    constructor
    · rintro (rfl | ⟨front, rest, rfl, rfl⟩)
      · exact ⟨[], b :: bs, rfl, rfl⟩
      · exact ⟨b :: front, rest, rfl, by simp⟩
    · rintro ⟨front, rest, hsplit, rfl⟩
      cases front with
      | nil => exact Or.inl rfl
      | cons c front =>
        obtain ⟨rfl, rfl⟩ := List.cons.inj hsplit
        exact Or.inr ⟨front, rest, rfl, by simp⟩

theorem getLast_row (as done bs : List α) : (row as done bs).getLast? = some (lev as (bs.reverse ++ done)) := by
  induction bs generalizing done with
  | nil => rfl
  | cons b bs ih =>
    obtain ⟨rest, hrest⟩ := row_eq_cons as (b :: done) bs
    have hlast := ih (b :: done)
    rw [hrest] at hlast
    rw [row, hrest, List.getLast?_cons_cons, hlast]
    simp

/-- No entry is below all of the row before. -/
theorem le_row_cons {a : α} {as bs : List α} {m : ℕ} (h : ∀ n ∈ row as [] bs, m ≤ n) :
    ∀ n ∈ row (a :: as) [] bs, m ≤ n := by
  have hfront : ∀ front, front <+: bs → m ≤ lev as front.reverse := by
    rintro front ⟨rest, rfl⟩
    exact h _ (mem_row.mpr ⟨front, rest, rfl, by simp⟩)
  have hnext : ∀ front, front <+: bs → m ≤ lev (a :: as) front.reverse := by
    intro front
    induction front using List.reverseRecOn with
    | nil =>
      intro _
      have hnil := hfront [] (List.nil_prefix)
      simp only [List.reverse_nil, lev_nil_right, List.length_cons] at hnil ⊢
      omega
    | append_singleton front b ih =>
      intro hprefix
      have hshort : front <+: bs := (List.prefix_append front [b]).trans hprefix
      have h₁ := hfront front hshort
      have h₂ := hfront (front ++ [b]) hprefix
      have h₃ := ih hshort
      rw [List.reverse_concat] at h₂ ⊢
      rw [lev_cons_cons]
      omega
  intro n hn
  obtain ⟨front, rest, rfl, rfl⟩ := mem_row.mp hn
  simpa using hnext front (List.prefix_append front rest)

/-- A whole row above the bound decides for every longer word. -/
theorem lt_lev_of_row {as bs : List α} {m : ℕ} (h : ∀ n ∈ row as [] bs, m < n) (front : List α) :
    m < lev (front ++ as) bs.reverse := by
  have hall : ∀ n ∈ row (front ++ as) [] bs, m + 1 ≤ n := by
    induction front with
    | nil => exact h
    | cons a front ih => exact le_row_cons ih
  exact hall _ (mem_row.mpr ⟨bs, [], by simp, by simp⟩)

end EditDistance

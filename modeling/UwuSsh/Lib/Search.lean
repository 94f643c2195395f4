import Mathlib.Data.List.Infix
import Mathlib.Tactic.Cases

/-!
Where one list occurs in another: how often, and what one more element changes. A pattern no end of
which is a start of it occurs in places that are apart from each other, so a search that goes on behind
each match finds them all.
-/
namespace Search

variable {α : Type*}

theorem isPrefix_append_singleton {pattern text : List α} {c : α} :
    pattern <+: text ++ [c] ↔ pattern <+: text ∨ pattern = text ++ [c] := by
  rw [List.prefix_concat_iff, or_comm]

/-- No end of the pattern is also a start of it. -/
def Borderless (pattern : List α) : Prop :=
  ∀ k < pattern.length, 0 < k → ¬ pattern.drop k <+: pattern

/-- Behind an occurrence the next one starts after its end. -/
theorem not_isPrefix_drop {pattern text : List α} (h : Borderless pattern) (hpre : pattern <+: text)
    {k : ℕ} (hpos : 0 < k) (hk : k < pattern.length) : ¬ pattern <+: text.drop k := by
  intro hagain
  have hrest : pattern.drop k <+: text.drop k := hpre.drop k
  have hle : (pattern.drop k).length ≤ pattern.length := by simp
  exact h k hk hpos (List.prefix_of_prefix_length_le hrest hagain hle)

/-- A pattern without the element does not reach over it. -/
theorem isSuffix_of_not_mem {pattern front back : List α} {c : α} (hc : c ∉ pattern)
    (h : pattern <:+ front ++ c :: back) : pattern <:+ back := by
  have hback : back <:+ front ++ c :: back := ⟨front ++ [c], by simp⟩
  rcases List.suffix_or_suffix_of_suffix h hback with hshort | hlong
  · exact hshort
  · have hreach : c :: back <:+ pattern ∨ pattern = back := by
      rcases Nat.lt_or_ge back.length pattern.length with hlt | hge
      · have hcons : c :: back <:+ front ++ c :: back := ⟨front, rfl⟩
        exact .inl (List.suffix_of_suffix_length_le hcons h (by rw [List.length_cons]; omega))
      · exact .inr (hlong.eq_of_length_le hge).symm
    rcases hreach with hover | rfl
    · exact absurd (hover.mem List.mem_cons_self) hc
    · exact List.suffix_rfl

variable [DecidableEq α]


/-- The places at which the pattern starts. -/
def occurrences (pattern : List α) : List α → ℕ
  | [] => 0
  | c :: rest => (if pattern <+: c :: rest then 1 else 0) + occurrences pattern rest

/-- `str::matches`: the search goes on behind what it found. -/
def matchesAfter (pattern : List α) : ℕ → List α → ℕ
  | _, [] => 0
  | 0, c :: rest =>
    if pattern <+: c :: rest then 1 + matchesAfter pattern (pattern.length - 1) rest
    else matchesAfter pattern 0 rest
  | skip + 1, _ :: rest => matchesAfter pattern skip rest

def contains (pattern text : List α) : Bool := 0 < occurrences pattern text

/-- One more element ends at most one more occurrence. -/
theorem occurrences_append_singleton {pattern : List α} (hne : pattern ≠ []) (text : List α) (c : α) :
    occurrences pattern (text ++ [c]) =
      occurrences pattern text + if pattern <:+ text ++ [c] then 1 else 0 := by
  induction text with
  | nil =>
    have hsame : pattern <+: [c] ↔ pattern <:+ [c] := by
      rw [List.prefix_cons_iff, List.suffix_cons_iff]
      simp [hne]
    simp only [List.nil_append, occurrences, hsame]
    omega
  | cons d rest ih =>
    simp only [List.cons_append, occurrences]
    have hpre : pattern <+: d :: (rest ++ [c]) ↔ pattern <+: d :: rest ∨ pattern = d :: (rest ++ [c]) := by
      rw [← List.cons_append, isPrefix_append_singleton]
    have hsuf : pattern <:+ d :: (rest ++ [c]) ↔ pattern = d :: (rest ++ [c]) ∨ pattern <:+ rest ++ [c] :=
      List.suffix_cons_iff
    by_cases hwhole : pattern = d :: (rest ++ [c])
    · have hlen : pattern.length = rest.length + 2 := by simp [hwhole]
      have hnopre : ¬ pattern <+: d :: rest := fun h => by
        have := h.length_le
        simp only [List.length_cons] at this
        omega
      have hnosuf : ¬ pattern <:+ rest ++ [c] := fun h => by
        have := h.length_le
        simp only [List.length_append, List.length_cons, List.length_nil] at this
        omega
      rw [if_pos (hpre.mpr (.inr hwhole)), if_neg hnopre, if_pos (hsuf.mpr (.inl hwhole)), ih, if_neg hnosuf]
      omega
    · have hpre' : pattern <+: d :: (rest ++ [c]) ↔ pattern <+: d :: rest := by simp [hpre, hwhole]
      have hsuf' : pattern <:+ d :: (rest ++ [c]) ↔ pattern <:+ rest ++ [c] := by simp [hsuf, hwhole]
      simp only [hpre', hsuf', ih]
      omega

theorem occurrences_le_append (pattern front back : List α) :
    occurrences pattern front ≤ occurrences pattern (front ++ back) := by
  induction front with
  | nil => exact Nat.zero_le _
  | cons c rest ih =>
    rw [List.cons_append, occurrences, occurrences]
    by_cases hpre : pattern <+: c :: rest
    · have hmore : pattern <+: c :: (rest ++ back) := hpre.trans (List.prefix_append (c :: rest) back)
      rw [if_pos hpre, if_pos hmore]
      exact Nat.add_le_add_left ih 1
    · rw [if_neg hpre, Nat.zero_add]
      exact ih.trans (Nat.le_add_left _ _)

theorem occurrences_pos_iff {pattern : List α} (hne : pattern ≠ []) {text : List α} :
    0 < occurrences pattern text ↔ pattern <:+: text := by
  induction text with
  | nil => simp [occurrences, hne]
  | cons c rest ih =>
    rw [occurrences, List.infix_cons_iff, ← ih]
    by_cases hpre : pattern <+: c :: rest
    · simp only [hpre, ↓reduceIte, true_or, iff_true]
      omega
    · simp [hpre]

instance (pattern : List α) : Decidable (Borderless pattern) :=
  inferInstanceAs (Decidable (∀ k < pattern.length, 0 < k → ¬ pattern.drop k <+: pattern))

theorem matchesAfter_eq {pattern : List α} (h : Borderless pattern) (text : List α) (skip : ℕ)
    (hskip : ∀ k < skip, ¬ pattern <+: text.drop k) :
    matchesAfter pattern skip text = occurrences pattern text := by
  induction text generalizing skip with
  | nil => cases skip <;> rfl
  | cons c rest ih =>
    cases skip with
    | zero =>
      rw [matchesAfter, occurrences]
      by_cases hpre : pattern <+: c :: rest
      · rw [if_pos hpre, if_pos hpre, ih]
        intro k hk
        exact not_isPrefix_drop h hpre (Nat.succ_pos k) (by omega)
      · rw [if_neg hpre, if_neg hpre, ih 0 (fun k hk => absurd hk (Nat.not_lt_zero k)), Nat.zero_add]
    | succ skip =>
      have hhere : ¬ pattern <+: c :: rest := hskip 0 (Nat.succ_pos skip)
      rw [matchesAfter, occurrences, if_neg hhere, Nat.zero_add]
      exact ih skip fun k hk => hskip (k + 1) (by omega)

/-- Apart from each other, the places are the matches. -/
theorem matches_eq {pattern : List α} (h : Borderless pattern) (text : List α) :
    matchesAfter pattern 0 text = occurrences pattern text :=
  matchesAfter_eq h text 0 fun k hk => absurd hk (Nat.not_lt_zero k)

end Search

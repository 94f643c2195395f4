import Mathlib.Data.List.Sort

/-!
A queue that is served a window at a time. Some of its items are stuck: they are never
taken out. An item is reached once fewer stuck ones than a window holds stand before
it, and never before, since taking other items out does not change how many of those
there are. Taking items out of a sorted queue leaves it sorted.
-/
namespace Queue

variable {α : Type*}

/-- How many stuck items stand before the first one that is looked for. -/
def ahead (stuck wanted : α → Bool) (l : List α) : ℕ :=
  (l.takeWhile fun a => !wanted a).countP stuck

variable {stuck wanted : α → Bool}

/-- Taking out items that are neither stuck nor looked for changes nothing. -/
theorem ahead_filter {keep : α → Bool} {l : List α}
    (h : ∀ a ∈ l, stuck a = true ∨ wanted a = true → keep a = true) :
    ahead stuck wanted (l.filter keep) = ahead stuck wanted l := by
  induction l with
  | nil => rfl
  | cons a rest ih =>
    have hrest := ih fun b hb => h b (List.mem_cons_of_mem _ hb)
    have ha := h a (List.mem_cons_self ..)
    unfold ahead at hrest ⊢
    by_cases hwanted : wanted a = true
    · rw [List.filter_cons_of_pos (ha (Or.inr hwanted))]
      simp [hwanted]
    · by_cases hkeep : keep a = true
      · rw [List.filter_cons_of_pos hkeep]
        simp [hwanted, List.countP_cons, hrest]
      · have hfree : ¬ stuck a = true := fun hstuck => hkeep (ha (Or.inl hstuck))
        rw [List.filter_cons_of_neg hkeep, hrest]
        simp [hwanted, hfree]

/-- A window full of stuck items does not reach what stands behind them. -/
theorem not_wanted_of_le_ahead {l : List α} {n : ℕ} (h : n ≤ ahead stuck wanted l) :
    ∀ a ∈ l.take n, wanted a = false := by
  induction l generalizing n with
  | nil => simp
  | cons a rest ih =>
    cases n with
    | zero => simp
    | succ n =>
      unfold ahead at h
      by_cases hwanted : wanted a = true
      · simp [hwanted] at h
      · rw [List.takeWhile_cons_of_pos (by simpa using hwanted), List.countP_cons] at h
        have hle : n ≤ ahead stuck wanted rest := by
          unfold ahead
          split at h <;> omega
        intro b hb
        rcases List.mem_cons.mp (List.take_succ_cons ▸ hb) with rfl | hb
        · simpa using hwanted
        · exact ih hle b hb

/-- A window with room for more than the stuck items ahead holds one that is not stuck. -/
theorem exists_free_of_ahead_lt {l : List α} {n : ℕ} {x : α} (hx : x ∈ l)
    (hwanted : wanted x = true) (hfree : ∀ a ∈ l, wanted a = true → stuck a = false)
    (h : ahead stuck wanted l < n) : ∃ a ∈ l.take n, stuck a = false := by
  induction l generalizing n with
  | nil => cases hx
  | cons a rest ih =>
    obtain ⟨n, rfl⟩ : ∃ m, n = m + 1 := ⟨n - 1, by omega⟩
    by_cases hstuck : stuck a = true
    · have hne : wanted a = false := by
        by_contra hw
        rw [hfree a (List.mem_cons_self ..) (by simpa using hw)] at hstuck
        cases hstuck
      have hrest : x ∈ rest := by
        rcases List.mem_cons.mp hx with rfl | hx
        · rw [hwanted] at hne
          cases hne
        · exact hx
      unfold ahead at h
      rw [List.takeWhile_cons_of_pos (by simp [hne]), List.countP_cons, if_pos hstuck] at h
      obtain ⟨b, hb, hbfree⟩ := ih hrest (fun c hc => hfree c (List.mem_cons_of_mem _ hc))
        (show ahead stuck wanted rest < n by unfold ahead; omega)
      exact ⟨b, List.take_succ_cons ▸ List.mem_cons_of_mem _ hb, hbfree⟩
    · exact ⟨a, List.take_succ_cons ▸ List.mem_cons_self .., by simpa using hstuck⟩

section sorted

variable {r : α → α → Prop} [DecidableRel r]

theorem filter_orderedInsert [IsTrans α r] (keep : α → Bool) (a : α) {l : List α}
    (hl : l.Pairwise r) :
    (l.orderedInsert r a).filter keep =
      if keep a then (l.filter keep).orderedInsert r a else l.filter keep := by
  induction l with
  | nil => by_cases ha : keep a = true <;> simp [ha]
  | cons b rest ih =>
    have hrest := ih hl.of_cons
    by_cases hab : r a b
    · rw [List.orderedInsert_cons_of_le _ _ hab]
      by_cases ha : keep a = true
      · rw [if_pos ha, List.filter_cons_of_pos ha]
        -- What is left of the rest stands behind the new item.
        have hall : ∀ c ∈ (b :: rest).filter keep, r a c := by
          intro c hc
          rcases List.mem_cons.mp (List.mem_filter.mp hc).1 with rfl | hc
          · exact hab
          · exact Trans.trans hab (List.rel_of_pairwise_cons hl hc)
        cases hf : (b :: rest).filter keep with
        | nil => rfl
        | cons c tail =>
          rw [List.orderedInsert_cons_of_le _ _ (hall c (hf ▸ List.mem_cons_self ..))]
      · rw [if_neg ha, List.filter_cons_of_neg ha]
    · rw [List.orderedInsert_cons, if_neg hab]
      by_cases hb : keep b = true
      · rw [List.filter_cons_of_pos hb, hrest, List.filter_cons_of_pos hb]
        by_cases ha : keep a = true
        · rw [if_pos ha, if_pos ha, List.orderedInsert_cons, if_neg hab]
        · rw [if_neg ha, if_neg ha]
      · rw [List.filter_cons_of_neg hb, hrest, List.filter_cons_of_neg hb]

/-- Sorting what is left is what is left of the sorted queue. -/
theorem filter_insertionSort [IsTrans α r] [Std.Total r] (keep : α → Bool) (l : List α) :
    (l.insertionSort r).filter keep = (l.filter keep).insertionSort r := by
  induction l with
  | nil => rfl
  | cons a rest ih =>
    rw [List.insertionSort_cons, filter_orderedInsert keep a (List.pairwise_insertionSort r rest), ih]
    by_cases ha : keep a = true
    · rw [if_pos ha, List.filter_cons_of_pos ha, List.insertionSort_cons]
    · rw [if_neg ha, List.filter_cons_of_neg ha]

end sorted

end Queue

import Mathlib.Combinatorics.Enumerative.DoubleCounting
import Mathlib.Tactic.NormNum
import Mathlib.Tactic.Positivity
import UwuSsh.Assist.Normalize

/-!
What similarity says of two normalized requests. Closeness goes both ways, but one word may be close to two
words of the other request; where none is, the shared part is the same from both sides and no larger than
either. The best match is the first of the candidates with the greatest similarity.
-/
namespace UwuSsh.Assist

open Text EditDistance

/-! ### Closeness -/

theorem row_nil (done bs : Chars) : row [] done bs = (List.range (bs.length + 1)).map (done.length + ·) := by
  induction bs generalizing done with
  | nil => rfl
  | cons b bs ih =>
    rw [row, ih, lev_nil_left]
    simp only [List.length_cons]
    rw [@List.range_succ_eq_map (bs.length + 1), List.map_cons, List.map_map]
    congr 1
    apply List.map_congr_left
    intro n _
    simp only [Function.comp_apply, Nat.succ_eq_add_one]
    omega

/-- The early stop changes nothing. -/
theorem closeRows_eq (b a read : Chars) :
    closeRows b a read.length (row read [] b) = decide (lev (a.reverse ++ read) b.reverse ≤ 1) := by
  induction a generalizing read with
  | nil => rw [closeRows, getLast_row, Option.getD_some, List.append_nil, List.reverse_nil, List.nil_append]
  | cons ca a ih =>
    have hcurrent : (read.length + 1) :: nextRow ca b (row read [] b) (read.length + 1) = row (ca :: read) [] b := by
      rw [← nextRow_row, lev_nil_right, List.length_cons]
    have hfront : (ca :: a).reverse ++ read = a.reverse ++ ca :: read := by simp
    have hrest := ih (ca :: read)
    rw [closeRows, hcurrent, hfront, ← List.length_cons, hrest]
    split
    · rename_i hall
      have habove := @lt_lev_of_row _ _ (ca :: read) b 1 (by simpa using hall) a.reverse
      exact (decide_eq_false (by omega)).symm
    · rfl

theorem close_iff {a b : Chars} : close a b = true ↔ a = b ∨
    (isLiteral a = false ∧ isLiteral b = false ∧ 5 ≤ a.length ∧ 5 ≤ b.length ∧ a.length ≤ b.length + 1 ∧
      b.length ≤ a.length + 1 ∧ lev a.reverse b.reverse ≤ 1) := by
  have hstart : List.range (b.length + 1) = row [] [] b := by
    rw [row_nil]
    simp
  have hrows : closeRows b a 0 (List.range (b.length + 1)) = decide (lev a.reverse b.reverse ≤ 1) := by
    have hloop := closeRows_eq b a []
    rw [List.append_nil] at hloop
    rw [hstart]
    exact hloop
  unfold close
  rw [hrows]
  by_cases hsame : a = b
  · simp [hsame]
  rw [if_neg hsame]
  by_cases hliteral : (isLiteral a || isLiteral b || decide (a.length < 5) || decide (b.length < 5)) = true
  · rw [if_pos hliteral]
    simp only [Bool.or_eq_true, decide_eq_true_eq] at hliteral
    constructor
    · intro h
      cases h
    · rintro (h | ⟨ha, hb, hla, hlb, -⟩)
      · exact absurd h hsame
      · rcases hliteral with ((h | h) | h) | h
        · simp [h] at ha
        · simp [h] at hb
        · omega
        · omega
  · rw [if_neg hliteral]
    simp only [Bool.or_eq_true, decide_eq_true_eq, not_or, Bool.not_eq_true, Nat.not_lt] at hliteral
    obtain ⟨⟨⟨ha, hb⟩, hla⟩, hlb⟩ := hliteral
    split
    · constructor
      · intro h
        cases h
      · rintro (h | ⟨-, -, -, -, h₁, h₂, -⟩)
        · exact absurd h hsame
        · omega
    · rw [decide_eq_true_eq]
      constructor
      · intro h
        exact Or.inr ⟨ha, hb, hla, hlb, by omega, by omega, h⟩
      · rintro (h | ⟨-, -, -, -, -, -, h⟩)
        · exact absurd h hsame
        · exact h

theorem close_self (a : Chars) : close a a = true := close_iff.mpr (Or.inl rfl)

theorem close_symm (a b : Chars) : close a b = close b a := by
  have hswap : ∀ a b : Chars, close a b = true → close b a = true := by
    intro a b h
    rcases close_iff.mp h with rfl | ⟨ha, hb, hla, hlb, h₁, h₂, hlev⟩
    · exact close_self a
    · exact close_iff.mpr (Or.inr ⟨hb, ha, hlb, hla, h₂, h₁, by rwa [lev_symm]⟩)
  exact Bool.eq_iff_iff.mpr ⟨hswap a b, hswap b a⟩

/-! ### The shared part -/

/-- No token of the one request is close to two of the other. -/
def Paired (a b : List Chars) : Prop :=
  (∀ x ∈ a, ∀ y ∈ b, ∀ z ∈ b, close x y = true → close x z = true → y = z) ∧
    ∀ x ∈ a, ∀ y ∈ a, ∀ z ∈ b, close x z = true → close y z = true → x = y

theorem Paired.symm {a b : List Chars} (h : Paired a b) : Paired b a := by
  refine ⟨fun x hx y hy z hz hxy hxz => ?_, fun x hx y hy z hz hxz hyz => ?_⟩
  · exact h.2 y hy z hz x hx (close_symm x y ▸ hxy) (close_symm x z ▸ hxz)
  · exact h.1 z hz x hx y hy (close_symm x z ▸ hxz) (close_symm y z ▸ hyz)

theorem shared_eq_card {a b : List Chars} (ha : a.Nodup) :
    shared a b = (a.filter fun token => b.any (close token)).toFinset.card :=
  (List.toFinset_card_of_nodup (ha.filter _)).symm

/-- Each shared token has a partner, and no two have the same. -/
theorem shared_le {a b : List Chars} (ha : a.Nodup) (hb : b.Nodup) (h : Paired a b) : shared a b ≤ shared b a := by
  rw [shared_eq_card ha, shared_eq_card hb]
  refine Finset.card_le_card_of_forall_subsingleton (fun x y => close x y = true) (fun x hx => ?_) fun y hy => ?_
  · obtain ⟨hxa, hany⟩ := List.mem_filter.mp (List.mem_toFinset.mp hx)
    obtain ⟨y, hyb, hclose⟩ := List.any_eq_true.mp hany
    refine ⟨y, List.mem_toFinset.mpr (List.mem_filter.mpr ⟨hyb, List.any_eq_true.mpr ⟨x, hxa, ?_⟩⟩), hclose⟩
    rw [close_symm]
    exact hclose
  · intro x hx x' hx'
    have hmem : ∀ z, z ∈ (a.filter fun token => b.any (close token)).toFinset → z ∈ a :=
      fun z hz => (List.mem_filter.mp (List.mem_toFinset.mp hz)).1
    exact h.2 x (hmem x hx.1) x' (hmem x' hx'.1) y (List.mem_filter.mp (List.mem_toFinset.mp hy)).1 hx.2 hx'.2

theorem shared_symm {a b : List Chars} (ha : a.Nodup) (hb : b.Nodup) (h : Paired a b) : shared a b = shared b a :=
  Nat.le_antisymm (shared_le ha hb h) (shared_le hb ha h.symm)

theorem shared_le_length (a b : List Chars) : shared a b ≤ a.length := List.length_filter_le _ _

theorem shared_self (a : List Chars) : shared a a = a.length := by
  unfold shared
  congr 1
  apply List.filter_eq_self.mpr
  intro x hx
  exact List.any_eq_true.mpr ⟨x, hx, close_self x⟩

/-! ### Requests in normalized form -/

def IsWord (word : Chars) : Prop := word ≠ [] ∧ ∀ c ∈ word, isWhite c = false

/-- Words in order, one space apart. -/
def Normal (text : Chars) : Prop :=
  ∃ words : List Chars, words.Pairwise (· < ·) ∧ (∀ word ∈ words, IsWord word) ∧ text = joined words

theorem wordsOf_nil : wordsOf [] = [] := by decide

theorem splitOnP_word {word rest : Chars} (h : ∀ c ∈ word, isWhite c = false) :
    wordsOf (word ++ ' ' :: rest) = (if word = [] then [] else [word]) ++ wordsOf rest := by
  have hspace : isWhite ' ' = true := by decide
  unfold wordsOf
  rw [List.splitOnP_append_cons word rest hspace, List.filter_append, List.splitOnP_eq_singleton fun c hc => by simp [h c hc]]
  by_cases hnil : word = [] <;> simp [hnil]

theorem wordsOf_joined {words : List Chars} (h : ∀ word ∈ words, IsWord word) : wordsOf (joined words) = words := by
  induction words with
  | nil => exact wordsOf_nil
  | cons word words ih =>
    obtain ⟨hne, hwhite⟩ := h word List.mem_cons_self
    have hrest : ∀ word ∈ words, IsWord word := fun w hw => h w (List.mem_cons_of_mem word hw)
    cases words with
    | nil =>
      have hone : joined [word] = word := by simp [joined]
      unfold wordsOf
      rw [hone, List.splitOnP_eq_singleton fun c hc => by simp [hwhite c hc]]
      simp [hne]
    | cons next words =>
      have hjoin : joined (word :: next :: words) = word ++ ' ' :: joined (next :: words) := by simp [joined]
      rw [hjoin, splitOnP_word hwhite, if_neg hne, ih hrest, List.singleton_append]

theorem Normal.nodup {text : Chars} (h : Normal text) : (wordsOf text).Nodup := by
  obtain ⟨words, hsorted, hwords, rfl⟩ := h
  rw [wordsOf_joined hwords]
  exact hsorted.imp fun hlt => ne_of_lt hlt

theorem Normal.wordsOf_eq_nil {text : Chars} (h : Normal text) : wordsOf text = [] ↔ text = [] := by
  obtain ⟨words, -, hwords, rfl⟩ := h
  rw [wordsOf_joined hwords]
  constructor
  · rintro rfl
    rfl
  · intro hnil
    cases words with
    | nil => rfl
    | cons word words =>
      have hne := (hwords word List.mem_cons_self).1
      cases words with
      | nil => exact absurd (by simpa [joined] using hnil) hne
      | cons next words => simp [joined] at hnil

theorem sorted_insertWord {set : List Chars} (h : set.Pairwise (· < ·)) (word : Chars) :
    (insertWord set word).Pairwise (· < ·) := by
  unfold insertWord
  split
  · exact h
  · rename_i hnew
    have hle : (List.orderedInsert (· ≤ ·) word set).Pairwise (· ≤ ·) :=
      List.Pairwise.orderedInsert word set (h.imp fun hlt => le_of_lt hlt)
    have hnodup : (List.orderedInsert (· ≤ ·) word set).Nodup := by
      rw [(List.perm_orderedInsert (· ≤ ·) word set).nodup_iff, List.nodup_cons]
      exact ⟨hnew, h.imp fun hlt => ne_of_lt hlt⟩
    exact (List.pairwise_and_iff.mpr ⟨hle, hnodup⟩).imp fun h => lt_of_le_of_ne h.1 h.2

theorem mem_insertWord {set : List Chars} {word other : Chars} (h : other ∈ insertWord set word) :
    other = word ∨ other ∈ set := by
  unfold insertWord at h
  split at h
  · exact Or.inr h
  · exact (List.mem_orderedInsert _).mp h

theorem foldl_insertWord (words set : List Chars) (hset : set.Pairwise (· < ·)) :
    (words.foldl insertWord set).Pairwise (· < ·) ∧ ∀ word ∈ words.foldl insertWord set, word ∈ words ∨ word ∈ set := by
  induction words generalizing set with
  | nil => exact ⟨hset, fun word hword => Or.inr hword⟩
  | cons word words ih =>
    obtain ⟨hsorted, hmem⟩ := ih (insertWord set word) (sorted_insertWord hset word)
    refine ⟨hsorted, fun other hother => ?_⟩
    rcases hmem other hother with htail | hinserted
    · exact Or.inl (List.mem_cons_of_mem word htail)
    · rcases mem_insertWord hinserted with rfl | hold
      · exact Or.inl List.mem_cons_self
      · exact Or.inr hold

theorem isWord_synonym {word meaning : Chars} (h : synonym word = some meaning) : IsWord meaning := by
  have hall : ∀ entry ∈ synonyms, entry.1.toList ≠ [] ∧ entry.1.toList.all fun c => !isWhite c := by decide +kernel
  obtain ⟨entry, hfind, rfl⟩ := Option.map_eq_some_iff.mp h
  obtain ⟨hne, hwhite⟩ := hall entry (List.mem_of_find?_eq_some hfind)
  exact ⟨hne, fun c hc => by simpa using List.all_eq_true.mp hwhite c hc⟩

theorem isWord_cutSuffixes {word token : Chars} {endings : List String} {stem : Option Chars} (hword : IsWord word)
    (hstem : ∀ cut ∈ stem, IsWord cut) (h : cutSuffixes word endings stem = some token) : IsWord token := by
  induction endings generalizing stem with
  | nil =>
    cases h
    cases stem with
    | none => exact hword
    | some cut => exact hstem cut rfl
  | cons ending endings ih =>
    rw [cutSuffixes] at h
    split at h
    · rename_i hcut
      have hkept : IsWord (word.take (word.length - ending.length)) := by
        refine ⟨fun hnil => ?_, fun c hc => hword.2 c (List.mem_of_mem_take hc)⟩
        have hlen := congrArg List.length hnil
        rw [List.length_take, List.length_nil] at hlen
        omega
      dsimp only at h
      split at h
      · rename_i meaning hmeaning
        cases h
        exact isWord_synonym hmeaning
      · split at h
        · cases h
        · refine ih (fun cut hmem => ?_) h
          cases stem with
          | none =>
            cases hmem
            exact hkept
          | some first =>
            cases hmem
            exact hstem cut rfl
    · exact ih hstem h

theorem isWord_canonical {word token : Chars} (hword : ∀ c ∈ word, isWhite c = false) (h : canonical word = some token) :
    IsWord token := by
  unfold canonical at h
  split at h
  · cases h
  · rename_i hnone
    have hself : IsWord word := ⟨fun hnil => hnone (Or.inl hnil), hword⟩
    split at h
    · cases h
      exact hself
    · split at h
      · rename_i meaning hmeaning
        cases h
        exact isWord_synonym hmeaning
      · exact isWord_cutSuffixes hself (fun cut hcut => by cases hcut) h

/-- No piece of a split has a character in it that was split at. -/
theorem not_mem_of_splitOnP {p : Char → Bool} {text piece : Chars} (h : piece ∈ text.splitOnP p) :
    ∀ c ∈ piece, p c = false := by
  induction text generalizing piece with
  | nil =>
    rw [List.splitOnP_nil, List.mem_singleton] at h
    subst h
    nofun
  | cons c text ih =>
    rw [List.splitOnP_cons_eq_if_modifyHead] at h
    split at h
    · rcases List.mem_cons.mp h with rfl | hrest
      · nofun
      · exact ih hrest
    · rename_i hc
      obtain ⟨first, rest, hsplit⟩ := List.exists_cons_of_ne_nil (List.splitOnP_ne_nil p text)
      rw [hsplit, List.modifyHead_cons] at h
      rcases List.mem_cons.mp h with rfl | hrest
      · intro b hb
        rcases List.mem_cons.mp hb with rfl | htail
        · simpa using hc
        · exact ih (hsplit ▸ List.mem_cons_self) b htail
      · exact ih (hsplit ▸ List.mem_cons_of_mem first hrest)

theorem not_isSpecial_of_white {c : Char} (h : isWhite c = true) : isSpecial c = false := by
  have hnone : (("/.~-_*:@=\\".toList).all fun c => !isWhite c) = true := by decide +kernel
  cases hspecial : isSpecial c with
  | false => rfl
  | true =>
    have hwhite := List.all_eq_true.mp hnone c (List.contains_iff_mem.mp hspecial)
    simp [h] at hwhite

theorem isWord_foundTokens (unicode : Unicode) (request : Chars) : ∀ word ∈ foundTokens unicode request, IsWord word := by
  intro word hword
  obtain ⟨raw, hraw, htoken⟩ := List.mem_filterMap.mp hword
  refine isWord_canonical (fun c hc => ?_) htoken
  have hmem : c ∈ raw := (List.dropWhile_sublist _).subset ((List.rdropWhile_prefix _ _).subset hc)
  have hkept := not_mem_of_splitOnP hraw c hmem
  cases hwhite : isWhite c with
  | false => rfl
  | true => simp [unicode.white c hwhite, not_isSpecial_of_white hwhite] at hkept

/-- Whatever was asked, its normalized form is one. -/
theorem normal_normalize (unicode : Unicode) (request : Chars) : Normal (normalize unicode request) := by
  obtain ⟨hsorted, hmem⟩ := foldl_insertWord (foundTokens unicode request) [] List.Pairwise.nil
  have hwords : ∀ word ∈ (foundTokens unicode request).foldl insertWord [], IsWord word := by
    intro word hword
    rcases hmem word hword with hfound | hnil
    · exact isWord_foundTokens unicode request word hfound
    · cases hnil
  unfold normalize tokens
  dsimp only
  split
  · exact ⟨_, hsorted.filter _, fun word hword => hwords word (List.mem_filter.mp hword).1, rfl⟩
  · exact ⟨_, hsorted, hwords, rfl⟩

/-! ### Similarity -/

theorem similarity_eq {a b : Chars} (ha : wordsOf a ≠ []) (hb : wordsOf b ≠ [])
    (h : literals (wordsOf a) = literals (wordsOf b)) : similarity a b =
      (shared (wordsOf a) (wordsOf b) : ℚ) / ((wordsOf a).length + (wordsOf b).length - shared (wordsOf a) (wordsOf b) : ℕ) := by
  unfold similarity
  dsimp only
  rw [if_neg (by simp [ha, hb]), if_neg (not_not_intro h)]

theorem similarity_nonneg (a b : Chars) : 0 ≤ similarity a b := by
  unfold similarity
  dsimp only
  split
  · exact le_refl 0
  · split
    · exact le_refl 0
    · exact div_nonneg (Nat.cast_nonneg _) (Nat.cast_nonneg _)

theorem similarity_of_literals {a b : Chars} (h : literals (wordsOf a) ≠ literals (wordsOf b)) : similarity a b = 0 := by
  unfold similarity
  dsimp only
  split
  · rfl
  · rfl

theorem similarity_self {a : Chars} (ha : wordsOf a ≠ []) : similarity a a = 1 := by
  have hlen : 0 < (wordsOf a).length := List.length_pos_of_ne_nil ha
  rw [similarity_eq ha ha rfl, shared_self, Nat.add_sub_cancel]
  exact div_self (by positivity)

theorem similarity_le_one {a b : Chars} (ha : (wordsOf a).Nodup) (hb : (wordsOf b).Nodup)
    (h : Paired (wordsOf a) (wordsOf b)) : similarity a b ≤ 1 := by
  unfold similarity
  dsimp only
  split
  · exact zero_le_one
  · split
    · exact zero_le_one
    · have hle := shared_le_length (wordsOf a) (wordsOf b)
      have hle' := shared_le_length (wordsOf b) (wordsOf a)
      rw [← shared_symm ha hb h] at hle'
      apply div_le_one_of_le₀
      · exact_mod_cast (show shared (wordsOf a) (wordsOf b) ≤
          (wordsOf a).length + (wordsOf b).length - shared (wordsOf a) (wordsOf b) by omega)
      · positivity

theorem similarity_symm {a b : Chars} (ha : (wordsOf a).Nodup) (hb : (wordsOf b).Nodup)
    (h : Paired (wordsOf a) (wordsOf b)) : similarity a b = similarity b a := by
  unfold similarity
  dsimp only
  rw [shared_symm ha hb h, Nat.add_comm (wordsOf a).length]
  simp only [or_comm, ne_comm]

/-! ### The best match -/

variable {T : Type}

/-- `c` is the first of the candidates whose similarity no other exceeds. -/
def FirstBest (normalized : Chars) (candidates : List (Chars × T)) (c : Chars × T) : Prop :=
  ∃ before after, candidates = before ++ c :: after ∧
    (∀ d ∈ before, similarity normalized d.1 < similarity normalized c.1) ∧
    ∀ d ∈ after, similarity normalized d.1 ≤ similarity normalized c.1

theorem FirstBest.bound {normalized : Chars} {candidates : List (Chars × T)} {c d : Chars × T}
    (h : FirstBest normalized candidates c) (hd : d ∈ candidates) :
    similarity normalized d.1 ≤ similarity normalized c.1 := by
  obtain ⟨before, after, rfl, hbefore, hafter⟩ := h
  rcases List.mem_append.mp hd with hleft | hright
  · exact le_of_lt (hbefore d hleft)
  · rcases List.mem_cons.mp hright with rfl | hright
    · exact le_refl _
    · exact hafter d hright

/-- Either no candidate is alike enough, or the first best is what comes out. -/
theorem bestMatch_cases (normalized : Chars) (candidates : List (Chars × T)) :
    (bestMatch normalized candidates = none ∧ ∀ d ∈ candidates, similarity normalized d.1 < threshold) ∨
    ∃ c, bestMatch normalized candidates = some (c.2, similarity normalized c.1) ∧
      threshold ≤ similarity normalized c.1 ∧ FirstBest normalized candidates c := by
  induction candidates using List.reverseRecOn with
  | nil => exact Or.inl ⟨rfl, nofun⟩
  | append_singleton candidates d ih =>
    have hstep : bestMatch normalized (candidates ++ [d]) = better normalized (bestMatch normalized candidates) d :=
      List.foldl_concat ..
    rcases ih with ⟨hnone, hbelow⟩ | ⟨c, hsome, hreach, hbest⟩
    · rw [hstep, hnone]
      by_cases hd : threshold ≤ similarity normalized d.1
      · right
        refine ⟨d, by simp [better, hd], hd, candidates, [], rfl, fun e he => ?_, nofun⟩
        exact lt_of_lt_of_le (hbelow e he) hd
      · left
        refine ⟨by simp [better, hd], List.forall_mem_append.mpr ⟨hbelow, List.forall_mem_singleton.mpr ?_⟩⟩
        exact not_le.mp hd
    · rw [hstep, hsome]
      right
      by_cases hd : similarity normalized c.1 < similarity normalized d.1
      · have hreach' : threshold ≤ similarity normalized d.1 := hreach.trans (le_of_lt hd)
        refine ⟨d, by simp [better, hd, hreach'], hreach', candidates, [], rfl, fun e he => ?_, nofun⟩
        exact lt_of_le_of_lt (hbest.bound he) hd
      · obtain ⟨before, after, rfl, hbefore, hafter⟩ := hbest
        refine ⟨c, by simp [better, hd], hreach, before, after ++ [d], by simp, hbefore, ?_⟩
        exact List.forall_mem_append.mpr ⟨hafter, List.forall_mem_singleton.mpr (not_lt.mp hd)⟩

/-- Similarity is one where no token is close to two, and the best match is the first that no candidate exceeds. -/
theorem similarity_spec (a : Chars) (ha : Normal a) :
    (a ≠ [] → similarity a a = 1) ∧
    (∀ b, Normal b →
      0 ≤ similarity a b ∧
      (literals (wordsOf a) ≠ literals (wordsOf b) → similarity a b = 0) ∧
      (Paired (wordsOf a) (wordsOf b) → similarity a b ≤ 1 ∧ similarity a b = similarity b a)) ∧
    ∀ (T : Type) (candidates : List (Chars × T)) (value : T), a ≠ [] → (a, value) ∈ candidates →
      ∃ c, FirstBest a candidates c ∧ bestMatch a candidates = some (c.2, similarity a c.1) ∧ 1 ≤ similarity a c.1 ∧
        ((∀ d ∈ candidates, Normal d.1 ∧ Paired (wordsOf a) (wordsOf d.1)) → similarity a c.1 = 1) := by
  have hself : a ≠ [] → similarity a a = 1 := fun hne => similarity_self (ha.wordsOf_eq_nil.not.mpr hne)
  refine ⟨hself, fun b hb => ⟨similarity_nonneg a b, similarity_of_literals, fun h => ?_⟩, fun T candidates value hne hmem => ?_⟩
  · exact ⟨similarity_le_one ha.nodup hb.nodup h, similarity_symm ha.nodup hb.nodup h⟩
  · have hexact := hself hne
    rcases bestMatch_cases a candidates with ⟨-, hbelow⟩ | ⟨c, hbest, -, hfirst⟩
    · have hlow := hbelow (a, value) hmem
      rw [hexact, threshold] at hlow
      exact absurd hlow (by norm_num)
    · have hone : 1 ≤ similarity a c.1 := by
        rw [← hexact]
        exact hfirst.bound hmem
      refine ⟨c, hfirst, hbest, hone, fun hall => le_antisymm ?_ hone⟩
      have hc : c ∈ candidates := by
        obtain ⟨before, after, rfl, -, -⟩ := hfirst
        simp
      exact similarity_le_one ha.nodup (hall c hc).1.nodup (hall c hc).2

theorem similarity_of_logs : similarity "log nginx".toList "log nginy".toList = 1 ∧
    similarity "log nginx".toList "log nginy".toList = similarity "log nginy".toList "log nginx".toList := by
  have hword : ∀ word : Chars, word ≠ [] → (word.all fun c => !isWhite c) = true → IsWord word :=
    fun word hne hall => ⟨hne, eq_false_of_all_not hall⟩
  have ha : Normal "log nginx".toList := by
    refine ⟨["log".toList, "nginx".toList], by decide, ?_, by decide⟩
    simp only [List.forall_mem_cons]
    exact ⟨hword _ (by decide) (by decide), hword _ (by decide) (by decide), by simp⟩
  have hb : Normal "log nginy".toList := by
    refine ⟨["log".toList, "nginy".toList], by decide, ?_, by decide⟩
    simp only [List.forall_mem_cons]
    exact ⟨hword _ (by decide) (by decide), hword _ (by decide) (by decide), by simp⟩
  have hpaired : Paired (wordsOf "log nginx".toList) (wordsOf "log nginy".toList) := by
    unfold Paired
    decide +kernel
  exact ⟨by decide +kernel, (((similarity_spec _ ha).2.1 _ hb).2.2 hpaired).2⟩

/-- Requests in ASCII only. -/
def asciiOnly : Unicode where
  toLowercase c := [asciiLowerChar c]
  isAlphanumeric c := isAsciiAlphanumeric c && !isWhite c
  white c h := by simp [h]

/-- A request for nothing is like none, the first of two that are alike comes out, and a word that two words
are close to counts twice. -/
theorem similarity_not_as_claimed :
    similarity (normalize asciiOnly "zeig mir alle".toList) (normalize asciiOnly "zeig mir alle".toList) = 0 ∧
    bestMatch (normalize asciiOnly "mongodb".toList)
      [(normalize asciiOnly "mongod".toList, 1), (normalize asciiOnly "mongodb".toList, 2)] = some (1, 1) ∧
    similarity (normalize asciiOnly "starte mongod und mongodb".toList) (normalize asciiOnly "starte mongodb".toList) = 3 / 2 ∧
    similarity (normalize asciiOnly "starte mongodb".toList) (normalize asciiOnly "starte mongod und mongodb".toList) = 2 / 3 ∧
    bestMatch (normalize asciiOnly "starte mongod und mongodb".toList)
      [(normalize asciiOnly "starte mongod und mongodb".toList, 1), (normalize asciiOnly "starte mongodb".toList, 2)] =
        some (2, 3 / 2) := by
  decide +kernel

end UwuSsh.Assist

import Mathlib.Data.List.Basic
import Mathlib.Order.Lattice
import Mathlib.Tactic.Cases

/-!
One seat, and records that claim it. A live record takes the seat from anyone whose clock
is not later than its own, whether that holder is alive or has been buried in the seat; the
burial of a record that does not hold the seat leaves no trace. So who holds it in the
end depends on the order the words arrive in, and `Settled` says for which sets of words
it does not: the newest live claim has one value, is never buried, and no claimant is
buried later than it.
-/
namespace Seat

/-- Who holds the seat: alive, or buried in it. -/
structure Holder (ι κ α : Type*) where
  id : ι
  clock : κ
  gone : Bool
  value : α

inductive Word (ι κ α : Type*)
  | live (id : ι) (clock : κ) (value : α)
  | gone (id : ι) (clock : κ)
deriving DecidableEq

variable {ι κ α : Type*}

/-- The value of a holder that is alive. -/
def trusted (holder : Option (Holder ι κ α)) : Option α :=
  holder.bind fun h => if h.gone then none else some h.value

/-- Every word arrives, in any order and perhaps more than once, and nothing else does. -/
def Covers (E words : List (Word ι κ α)) : Prop := ∀ w, w ∈ words ↔ w ∈ E

section provenance

variable {E : List (Word ι κ α)} {i : ι} {c : κ} {v : α}

/-- Where a holder comes from: a live one from its own claim, a buried one from its burial
and some claim before it. -/
def From (E : List (Word ι κ α)) (holder : Option (Holder ι κ α)) : Prop :=
  ∀ h, holder = some h →
    (h.gone = false → .live h.id h.clock h.value ∈ E) ∧
      (h.gone = true → .gone h.id h.clock ∈ E ∧ ∃ d u, .live h.id d u ∈ E)

theorem From.none : From E none := fun _ h => nomatch h

theorem From.live (h : .live i c v ∈ E) : From E (some ⟨i, c, false, v⟩) := by
  rintro _ ⟨⟩
  exact ⟨fun _ => h, fun hgone => nomatch hgone⟩

/-- Some claim of the holder was heard. -/
theorem From.claim {h : Holder ι κ α} (hfrom : From E (some h)) : ∃ d u, .live h.id d u ∈ E := by
  obtain ⟨hlive, hgone⟩ := hfrom h rfl
  cases hbit : h.gone with
  | false => exact ⟨h.clock, h.value, hlive hbit⟩
  | true => exact (hgone hbit).2

end provenance

variable [LinearOrder κ]

section hear

variable [DecidableEq ι]

def hear : Option (Holder ι κ α) → Word ι κ α → Option (Holder ι κ α)
  | none, .live i c v => some ⟨i, c, false, v⟩
  | none, .gone _ _ => none
  | some h, .live i c v =>
      if h.id = i then
        if h.gone = false ∧ h.clock < c then some ⟨i, c, false, v⟩ else some h
      else if c < h.clock then some h
      else some ⟨i, c, false, v⟩
  | some h, .gone i c =>
      if h.id = i ∧ (h.gone = false ∨ h.clock < c) then some { h with clock := c, gone := true }
      else some h

def run (words : List (Word ι κ α)) : Option (Holder ι κ α) := words.foldl hear none

theorem hear_live_own {h : Holder ι κ α} {i : ι} (hid : h.id = i) (c : κ) (v : α) :
    hear (some h) (.live i c v) =
      if h.gone = false ∧ h.clock < c then some ⟨i, c, false, v⟩ else some h := if_pos hid

theorem hear_live_other {h : Holder ι κ α} {i : ι} (hid : h.id ≠ i) (c : κ) (v : α) :
    hear (some h) (.live i c v) = if c < h.clock then some h else some ⟨i, c, false, v⟩ :=
  if_neg hid

theorem hear_gone_own {h : Holder ι κ α} {i : ι} (hid : h.id = i) (c : κ) :
    hear (some h) (.gone i c) =
      if h.gone = false ∨ h.clock < c then some { h with clock := c, gone := true } else some h := by
  simp [hear, hid]

theorem hear_gone_other {h : Holder ι κ α} {i : ι} (hid : h.id ≠ i) (c : κ) :
    hear (some h) (.gone i c) = some h := if_neg fun heq => hid heq.1

/-- Hearing the same word twice in a row is hearing it once. -/
theorem hear_hear (holder : Option (Holder ι κ α)) (w : Word ι κ α) :
    hear (hear holder w) w = hear holder w := by
  cases w with
  | live i c v =>
    have hfresh : hear (some ⟨i, c, false, v⟩) (.live i c v) =
        some (⟨i, c, false, v⟩ : Holder ι κ α) := by
      rw [hear_live_own rfl, if_neg fun h => lt_irrefl c h.2]
    cases holder with
    | none => exact hfresh
    | some h =>
      by_cases hid : h.id = i
      · by_cases hnew : h.gone = false ∧ h.clock < c
        · rw [hear_live_own hid, if_pos hnew]
          exact hfresh
        · rw [hear_live_own hid, if_neg hnew, hear_live_own hid, if_neg hnew]
      · by_cases hlt : c < h.clock
        · rw [hear_live_other hid, if_pos hlt, hear_live_other hid, if_pos hlt]
        · rw [hear_live_other hid, if_neg hlt]
          exact hfresh
  | gone i c =>
    cases holder with
    | none => rfl
    | some h =>
      by_cases hid : h.id = i
      · by_cases hnew : h.gone = false ∨ h.clock < c
        · have hkept := hear_gone_own (show (⟨h.id, c, true, h.value⟩ : Holder ι κ α).id = i from hid) c
          rw [hear_gone_own hid, if_pos hnew, hkept, if_neg (by simp)]
        · rw [hear_gone_own hid, if_neg hnew, hear_gone_own hid, if_neg hnew]
      · rw [hear_gone_other hid, hear_gone_other hid]

theorem foldl_replicate (holder : Option (Holder ι κ α)) (w : Word ι κ α) {n : ℕ} (h : n ≠ 0) :
    (List.replicate n w).foldl hear holder = hear holder w := by
  induction n generalizing holder with
  | zero => exact absurd rfl h
  | succ n ih =>
    rw [List.replicate_succ, List.foldl_cons]
    cases n with
    | zero => rfl
    | succ n => rw [ih _ (Nat.succ_ne_zero n), hear_hear]

/-- Words that come several times in a row. -/
theorem foldl_flatMap_replicate (times : Word ι κ α → ℕ) {words : List (Word ι κ α)}
    (h : ∀ w ∈ words, times w ≠ 0) (holder : Option (Holder ι κ α)) :
    (words.flatMap fun w => List.replicate (times w) w).foldl hear holder =
      words.foldl hear holder := by
  induction words generalizing holder with
  | nil => rfl
  | cons w rest ih =>
    rw [List.flatMap_cons, List.foldl_append, foldl_replicate holder w (h w (List.mem_cons_self ..)),
      List.foldl_cons]
    exact ih (fun x hx => h x (List.mem_cons_of_mem _ hx)) _

end hear

/-- A live claim that no other one is newer than. -/
def IsTop (E : List (Word ι κ α)) (i : ι) (c : κ) (v : α) : Prop :=
  .live i c v ∈ E ∧ ∀ j d u, .live j d u ∈ E → d ≤ c

/-- The sets of words whose order does not matter. -/
structure Settled (E : List (Word ι κ α)) : Prop where
  oneValue : ∀ {i j c d v u}, IsTop E i c v → IsTop E j d u → v = u
  notBuried : ∀ {i c v d}, IsTop E i c v → .gone i d ∉ E
  notOutlived : ∀ {i c v j d u e}, IsTop E i c v → .live j d u ∈ E → .gone j e ∈ E → e ≤ c

variable {E : List (Word ι κ α)} {i j : ι} {c d : κ} {v u : α}

theorem settled_of_no_claim (h : ∀ i c v, .live i c v ∉ E) : Settled E where
  oneValue htop := absurd htop.1 (h _ _ _)
  notBuried htop := absurd htop.1 (h _ _ _)
  notOutlived htop := absurd htop.1 (h _ _ _)

/-- A claim as new as the newest one. -/
theorem IsTop.of_le (h : IsTop E i c v) (hmem : .live j d u ∈ E) (hle : c ≤ d) :
    IsTop E j d u :=
  ⟨hmem, fun j' d' u' h' => (h.2 j' d' u' h').trans hle⟩

/-- Where there is a live claim there is a newest one. -/
theorem exists_isTop (h : .live i c v ∈ E) : ∃ i c v, IsTop E i c v := by
  induction E generalizing i c v with
  | nil => cases h
  | cons w rest ih =>
    have hcons : ∀ {j d u}, IsTop rest j d u → (∀ k e x, w = .live k e x → e ≤ d) →
        IsTop (w :: rest) j d u := by
      rintro j d u ⟨hin, htop⟩ hw
      refine ⟨List.mem_cons_of_mem _ hin, fun k e x hmem => ?_⟩
      rcases List.mem_cons.mp hmem with heq | hrest
      · exact hw k e x heq.symm
      · exact htop k e x hrest
    by_cases hrest : ∃ j d u, Word.live j d u ∈ rest
    · obtain ⟨j, d, u, hmem⟩ := hrest
      obtain ⟨j, d, u, htop⟩ := ih hmem
      cases w with
      | gone k e => exact ⟨j, d, u, hcons htop (by simp)⟩
      | live k e x =>
        by_cases hle : e ≤ d
        · refine ⟨j, d, u, hcons htop ?_⟩
          rintro k' e' x' heq
          cases heq
          exact hle
        · refine ⟨k, e, x, List.mem_cons_self .., fun k' e' x' hmem => ?_⟩
          rcases List.mem_cons.mp hmem with heq | hmem
          · cases heq
            exact le_rfl
          · exact (htop.2 k' e' x' hmem).trans (not_le.mp hle).le
    · have hnone : ∀ k e x, Word.live k e x ∉ rest := fun k e x hmem => hrest ⟨k, e, x, hmem⟩
      have hw : Word.live i c v = w := (List.mem_cons.mp h).resolve_right (hnone i c v)
      refine ⟨i, c, v, h, fun k e x hmem => ?_⟩
      rcases List.mem_cons.mp hmem with heq | hmem
      · cases hw.trans heq.symm
        exact le_rfl
      · exact absurd hmem (hnone k e x)

variable [DecidableEq ι]

theorem From.hear {holder : Option (Holder ι κ α)} (h : From E holder) {w : Word ι κ α}
    (hw : w ∈ E) : From E (hear holder w) := by
  cases holder with
  | none =>
    cases w with
    | live => exact .live hw
    | gone => exact .none
  | some old =>
    cases w with
    | live i c v =>
      unfold Seat.hear
      dsimp only
      split
      · split
        · exact .live hw
        · exact h
      · split
        · exact h
        · exact .live hw
    | gone i c =>
      unfold Seat.hear
      dsimp only
      split
      · next hid =>
        obtain ⟨rfl, -⟩ := hid
        rintro _ ⟨⟩
        exact ⟨(fun hlive => nomatch hlive), fun _ => ⟨hw, h.claim⟩⟩
      · exact h

theorem From.foldl {words : List (Word ι κ α)} (hwords : ∀ w ∈ words, w ∈ E)
    {holder : Option (Holder ι κ α)} (h : From E holder) : From E (words.foldl Seat.hear holder) := by
  induction words generalizing holder with
  | nil => exact h
  | cons w rest ih =>
    exact ih (fun x hx => hwords x (List.mem_cons_of_mem _ hx)) (h.hear (hwords w (List.mem_cons_self ..)))

section settled

/-- A claimant of the newest clock sits in the seat, alive. -/
def Won (E : List (Word ι κ α)) (c : κ) (holder : Option (Holder ι κ α)) : Prop :=
  ∃ j u, IsTop E j c u ∧ holder = some ⟨j, c, false, u⟩

omit [DecidableEq ι] in
/-- In a settled set no holder is later than the newest claim. -/
theorem Settled.clock_le (hE : Settled E) (htop : IsTop E i c v) {h : Holder ι κ α}
    (hfrom : From E (some h)) : h.clock ≤ c := by
  obtain ⟨hlive, hgone⟩ := hfrom h rfl
  cases hbit : h.gone with
  | false => exact htop.2 _ _ _ (hlive hbit)
  | true =>
    obtain ⟨hburied, d, u, hclaim⟩ := hgone hbit
    exact hE.notOutlived htop hclaim hburied

/-- The newest claim wins the seat when it is heard, -/
theorem Settled.won_of_top (hE : Settled E) (htop : IsTop E i c v)
    {holder : Option (Holder ι κ α)} (hfrom : From E holder) :
    Won E c (Seat.hear holder (.live i c v)) := by
  cases holder with
  | none => exact ⟨i, v, htop, rfl⟩
  | some old =>
    have hle := hE.clock_le htop hfrom
    by_cases hid : old.id = i
    · subst hid
      have halive : old.gone = false := by
        rw [← Bool.not_eq_true]
        intro hbit
        exact hE.notBuried htop ((hfrom old rfl).2 hbit).1
      rw [hear_live_own rfl]
      by_cases hlt : old.clock < c
      · rw [if_pos ⟨halive, hlt⟩]
        exact ⟨old.id, v, htop, rfl⟩
      · rw [if_neg fun h => hlt h.2]
        have hclock : old.clock = c := le_antisymm hle (not_lt.mp hlt)
        have hclaim := (hfrom old rfl).1 halive
        obtain ⟨id, clock, gone, value⟩ := old
        obtain rfl : clock = c := hclock
        obtain rfl : gone = false := halive
        exact ⟨id, value, htop.of_le hclaim le_rfl, rfl⟩
    · rw [hear_live_other hid, if_neg (not_lt.mpr hle)]
      exact ⟨i, v, htop, rfl⟩

/-- and no word of the set takes it away. -/
theorem Settled.won_hear (hE : Settled E) {holder : Option (Holder ι κ α)} (h : Won E c holder)
    {w : Word ι κ α} (hw : w ∈ E) : Won E c (Seat.hear holder w) := by
  obtain ⟨j, u, htop, rfl⟩ := h
  cases w with
  | live i d v =>
    have hle : d ≤ c := htop.2 i d v hw
    by_cases hid : j = i
    · rw [hear_live_own hid, if_neg fun h => not_lt.mpr hle h.2]
      exact ⟨j, u, htop, rfl⟩
    · rw [hear_live_other hid]
      by_cases hlt : d < c
      · rw [if_pos hlt]
        exact ⟨j, u, htop, rfl⟩
      · rw [if_neg hlt]
        obtain rfl : d = c := le_antisymm hle (not_lt.mp hlt)
        exact ⟨i, v, htop.of_le hw le_rfl, rfl⟩
  | gone i d =>
    have hid : j ≠ i := by
      rintro rfl
      exact hE.notBuried htop hw
    rw [hear_gone_other hid]
    exact ⟨j, u, htop, rfl⟩

theorem Settled.won_foldl (hE : Settled E) {words : List (Word ι κ α)}
    (hwords : ∀ w ∈ words, w ∈ E) {holder : Option (Holder ι κ α)} (h : Won E c holder) :
    Won E c (words.foldl Seat.hear holder) := by
  induction words generalizing holder with
  | nil => exact h
  | cons w rest ih =>
    exact ih (fun x hx => hwords x (List.mem_cons_of_mem _ hx))
      (hE.won_hear h (hwords w (List.mem_cons_self ..)))

/-- In a settled set the newest claim's value is trusted in the end, whatever the order. -/
theorem Settled.trusted_run (hE : Settled E) (htop : IsTop E i c v) {words : List (Word ι κ α)}
    (hcovers : Covers E words) : trusted (run words) = some v := by
  obtain ⟨before, after, rfl⟩ := List.append_of_mem ((hcovers _).mpr htop.1)
  have hmem : ∀ w ∈ before ++ .live i c v :: after, w ∈ E := fun w => (hcovers w).mp
  have hfrom : From E (run before) :=
    From.none.foldl fun w hw => hmem w (List.mem_append_left _ hw)
  have hwon : Won E c (run (before ++ .live i c v :: after)) := by
    rw [run, List.foldl_append, List.foldl_cons]
    exact hE.won_foldl
      (fun w hw => hmem w (List.mem_append_right _ (List.mem_cons_of_mem _ hw)))
      (hE.won_of_top htop hfrom)
  obtain ⟨j, u, htop', hrun⟩ := hwon
  rw [hrun, hE.oneValue htop htop']
  rfl

end settled

/-- Without a live claim nobody ever sits. -/
theorem run_of_no_claim (h : ∀ i c v, .live i c v ∉ E) {words : List (Word ι κ α)}
    (hwords : ∀ w ∈ words, w ∈ E) : run words = none := by
  cases hrun : run words with
  | none => rfl
  | some holder =>
    have hfrom : From E (run words) := From.none.foldl hwords
    rw [hrun] at hfrom
    obtain ⟨d, u, hclaim⟩ := hfrom.claim
    exact absurd hclaim (h _ _ _)

section orders

def Word.isGone : Word ι κ α → Bool
  | .live .. => false
  | .gone .. => true

def Word.id : Word ι κ α → ι
  | .live i _ _ => i
  | .gone i _ => i

/-- The order that is best for one claimant: all burials first, then the live claims of
the others, then its own, the given one before the rest. -/
def bestFor (E : List (Word ι κ α)) (i : ι) (c : κ) (v : α) : List (Word ι κ α) :=
  E.filter Word.isGone ++ E.filter (fun w => !w.isGone ∧ w.id ≠ i) ++
    .live i c v :: E.filter fun w => !w.isGone ∧ w.id = i

omit [LinearOrder κ] in
theorem covers_bestFor (h : .live i c v ∈ E) : Covers E (bestFor E i c v) := by
  intro w
  simp only [bestFor, List.mem_append, List.mem_cons, List.mem_filter, decide_eq_true_eq]
  constructor
  · rintro ((⟨hw, -⟩ | ⟨hw, -⟩) | rfl | ⟨hw, -⟩)
    · exact hw
    · exact hw
    · exact h
    · exact hw
  · intro hw
    by_cases hgone : w.isGone = true
    · exact Or.inl (Or.inl ⟨hw, hgone⟩)
    · by_cases hid : w.id = i
      · exact Or.inr (Or.inr ⟨hw, by simpa using hgone, hid⟩)
      · exact Or.inl (Or.inr ⟨hw, by simpa using hgone, hid⟩)

theorem foldl_gones {words : List (Word ι κ α)} (h : ∀ w ∈ words, w.isGone = true) :
    words.foldl hear none = none := by
  induction words with
  | nil => rfl
  | cons w rest ih =>
    cases w with
    | live => simpa [Word.isGone] using h _ (List.mem_cons_self ..)
    | gone => exact ih fun x hx => h x (List.mem_cons_of_mem _ hx)

/-- In the order that is best for it the newest claim holds the seat. -/
theorem run_bestFor (htop : IsTop E i c v) : run (bestFor E i c v) = some ⟨i, c, false, v⟩ := by
  have hgones : (E.filter Word.isGone).foldl hear none = none :=
    foldl_gones fun w hw => (List.mem_filter.mp hw).2
  -- The others leave a live holder of another id, or none.
  have hothers : ∀ words : List (Word ι κ α), (∀ w ∈ words, w ∈ E ∧ !w.isGone ∧ w.id ≠ i) →
      From (E.filter fun w => !w.isGone ∧ w.id ≠ i) (words.foldl hear none) := by
    intro words hwords
    refine From.none.foldl fun w hw => ?_
    obtain ⟨hmem, hrest⟩ := hwords w hw
    exact List.mem_filter.mpr ⟨hmem, by simpa using hrest⟩
  -- Its own older claims change nothing.
  have hown : ∀ words : List (Word ι κ α), (∀ w ∈ words, w ∈ E ∧ !w.isGone ∧ w.id = i) →
      words.foldl hear (some ⟨i, c, false, v⟩) = some ⟨i, c, false, v⟩ := by
    intro words hwords
    induction words with
    | nil => rfl
    | cons w rest ih =>
      obtain ⟨hmem, hlive, hid⟩ := hwords w (List.mem_cons_self ..)
      cases w with
      | gone => simp [Word.isGone] at hlive
      | live j d u =>
        obtain rfl : j = i := hid
        have hkeep : hear (some ⟨j, c, false, v⟩) (.live j d u) = some ⟨j, c, false, v⟩ := by
          rw [hear_live_own rfl, if_neg fun h => not_lt.mpr (htop.2 j d u hmem) h.2]
        rw [List.foldl_cons, hkeep]
        exact ih fun x hx => hwords x (List.mem_cons_of_mem _ hx)
  have hmid : ∀ {words : List (Word ι κ α)} {p : Word ι κ α → Prop} [DecidablePred p],
      words = E.filter (fun w => p w) → ∀ w ∈ words, w ∈ E ∧ p w := by
    rintro words p _ rfl w hw
    exact ⟨(List.mem_filter.mp hw).1, by simpa using (List.mem_filter.mp hw).2⟩
  unfold run bestFor
  rw [List.foldl_append, List.foldl_append, hgones, List.foldl_cons]
  have hfrom := hothers _ (hmid rfl)
  cases hheld : (E.filter fun w => !w.isGone ∧ w.id ≠ i).foldl hear none with
  | none => exact hown _ (hmid rfl)
  | some old =>
    rw [hheld] at hfrom
    obtain ⟨hlive, hgone⟩ := hfrom old rfl
    have halive : old.gone = false := by
      rw [← Bool.not_eq_true]
      intro hbit
      simpa [Word.isGone] using (List.mem_filter.mp (hgone hbit).1).2
    obtain ⟨hmem, hne⟩ := List.mem_filter.mp (hlive halive)
    have hne : old.id ≠ i := by simpa [Word.isGone, Word.id] using hne
    have htake : hear (some old) (.live i c v) = some ⟨i, c, false, v⟩ := by
      rw [hear_live_other hne, if_neg (not_lt.mpr (htop.2 _ _ _ hmem))]
    rw [htake]
    exact hown _ (hmid rfl)

/-- A claimant that is buried later than the newest claim and was heard first blocks the seat. -/
theorem trusted_blocked {words : List (Word ι κ α)} (hwords : ∀ w ∈ words, w ∈ E)
    (htop : IsTop E i c v) {h : Holder ι κ α} (hgone : h.gone = true) (hlt : c < h.clock) :
    trusted (words.foldl hear (some h)) = none := by
  induction words generalizing h with
  | nil => simp [trusted, hgone]
  | cons w rest ih =>
    have hrest : ∀ x ∈ rest, x ∈ E := fun x hx => hwords x (List.mem_cons_of_mem _ hx)
    have hw := hwords w (List.mem_cons_self ..)
    rw [List.foldl_cons]
    cases w with
    | live j d u =>
      have hkeep : hear (some h) (.live j d u) = some h := by
        unfold hear
        dsimp only
        split
        · rw [if_neg (by simp [hgone])]
        · rw [if_pos ((htop.2 j d u hw).trans_lt hlt)]
      rw [hkeep]
      exact ih hrest hgone hlt
    | gone j d =>
      unfold hear
      dsimp only
      split
      · next hlater =>
        obtain ⟨-, hlive | hlater⟩ := hlater
        · rw [hgone] at hlive
          cases hlive
        · exact ih hrest rfl (hlt.trans hlater)
      · exact ih hrest hgone hlt

end orders

section speakers

variable {ε : Type*} (f : ε → Option (Word ι κ α))

omit [LinearOrder κ] [DecidableEq ι] in
theorem filterMap_filter_some [DecidableEq (Word ι κ α)] (w : Word ι κ α) (said : List ε) :
    (said.filter fun e => f e = some w).filterMap f =
      List.replicate (said.filter fun e => f e = some w).length w := by
  induction said with
  | nil => rfl
  | cons e rest ih =>
    by_cases he : f e = some w
    · rw [List.filter_cons_of_pos (by simpa using he), List.filterMap_cons_some he, ih,
        List.length_cons, List.replicate_succ]
    · rw [List.filter_cons_of_neg (by simpa using he)]
      exact ih

/-- Any order of the words that were said is heard in some order of those who said them. -/
theorem exists_order {said : List ε} {words : List (Word ι κ α)}
    (hcovers : Covers (said.filterMap f) words) :
    ∃ order : List ε, (∀ e, e ∈ order ↔ e ∈ said) ∧ run (order.filterMap f) = run words := by
  classical
  -- Those who say nothing first, and then for each word all who say it.
  refine ⟨said.filter (fun e => f e = none) ++
    words.flatMap fun w => said.filter fun e => f e = some w, fun e => ?_, ?_⟩
  · rw [List.mem_append, List.mem_filter, List.mem_flatMap]
    constructor
    · rintro (⟨he, -⟩ | ⟨w, -, he⟩)
      · exact he
      · exact (List.mem_filter.mp he).1
    · intro he
      cases hword : f e with
      | none => exact Or.inl ⟨he, by simp⟩
      | some w =>
        have hw : w ∈ words := (hcovers w).mpr (List.mem_filterMap.mpr ⟨e, he, hword⟩)
        exact Or.inr ⟨w, hw, List.mem_filter.mpr ⟨he, by simpa using hword⟩⟩
  · have hsilent : (said.filter fun e => f e = none).filterMap f = [] := by
      rw [List.filterMap_eq_nil_iff]
      intro e he
      simpa using (List.mem_filter.mp he).2
    have htimes : ∀ w ∈ words, (said.filter fun e => f e = some w).length ≠ 0 := by
      intro w hw
      obtain ⟨e, he, hword⟩ := List.mem_filterMap.mp ((hcovers w).mp hw)
      have hmem : e ∈ said.filter fun e => f e = some w :=
        List.mem_filter.mpr ⟨he, by simpa using hword⟩
      intro hzero
      rw [List.length_eq_zero_iff.mp hzero] at hmem
      cases hmem
    rw [List.filterMap_append, hsilent, List.nil_append, List.filterMap_flatMap]
    simp only [filterMap_filter_some]
    exact foldl_flatMap_replicate _ htimes none

end speakers

/-- The order does not matter exactly for the settled sets. -/
theorem agree_iff_settled :
    (∀ words words', Covers E words → Covers E words' →
      trusted (run words) = trusted (run words')) ↔ Settled E := by
  constructor
  · intro hagree
    have hbest : ∀ {i c v}, IsTop E i c v → ∀ words, Covers E words →
        trusted (run words) = some v := by
      intro i c v htop words hcovers
      rw [hagree words _ hcovers (covers_bestFor htop.1), run_bestFor htop]
      rfl
    refine ⟨?_, ?_, ?_⟩
    · intro i j c d v u htop htop'
      have hvalue := hbest htop _ (covers_bestFor htop'.1)
      rw [hbest htop' _ (covers_bestFor htop'.1)] at hvalue
      exact (Option.some.inj hvalue).symm
    · intro i c v d htop hgone
      have hcovers : Covers E (bestFor E i c v ++ [.gone i d]) := by
        intro w
        rw [List.mem_append, List.mem_singleton, covers_bestFor htop.1 w]
        exact ⟨fun h => h.elim id fun h => h ▸ hgone, Or.inl⟩
      have htrusted := hbest htop _ hcovers
      rw [run, List.foldl_append] at htrusted
      change trusted ([Word.gone i d].foldl hear (run (bestFor E i c v))) = some v at htrusted
      rw [run_bestFor htop] at htrusted
      simp [hear, trusted] at htrusted
    · intro i c v j d u e htop hlive hgone
      by_contra hlt
      rw [not_le] at hlt
      have hcovers : Covers E (.live j d u :: .gone j e :: E) := by
        intro w
        rw [List.mem_cons, List.mem_cons]
        exact ⟨fun h => h.elim (fun h => h ▸ hlive) fun h => h.elim (fun h => h ▸ hgone) id,
          fun h => Or.inr (Or.inr h)⟩
      have htrusted := hbest htop _ hcovers
      have hburied : run (.live j d u :: .gone j e :: E) =
          E.foldl hear (some ⟨j, e, true, u⟩) := by
        simp [run, hear]
      rw [hburied, trusted_blocked (fun w hw => hw) htop rfl hlt] at htrusted
      cases htrusted
  · intro hE words words' hcovers hcovers'
    by_cases hclaim : ∃ i c v, Word.live i c v ∈ E
    · obtain ⟨i, c, v, hmem⟩ := hclaim
      obtain ⟨i, c, v, htop⟩ := exists_isTop hmem
      rw [hE.trusted_run htop hcovers, hE.trusted_run htop hcovers']
    · have hnone : ∀ i c v, Word.live i c v ∉ E := fun i c v hmem => hclaim ⟨i, c, v, hmem⟩
      rw [run_of_no_claim hnone fun w => (hcovers w).mp,
        run_of_no_claim hnone fun w => (hcovers' w).mp]

end Seat

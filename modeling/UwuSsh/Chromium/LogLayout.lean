import Mathlib.Data.List.Basic
import Mathlib.Tactic.Ring
import Mathlib.Tactic.SplitIfs
import UwuSsh.Chromium.LevelDbLog

/-!
What the writer lays down is what the reader finds. A log is a list of blocks of records, each block but
the last with less than a header's room left, and every block is read back record by record.
-/
namespace UwuSsh.Chromium

theorem unmask_mask (crc : UInt32) : unmask (mask crc) = crc := by
  have hrot : mask crc - (0xa282ead8 : UInt32) = (crc >>> 15 ||| crc <<< 17 : UInt32) := by
    unfold mask
    exact UInt32.add_sub_cancel _ _
  have hopen : unmask (mask crc) =
      (mask crc - (0xa282ead8 : UInt32)) <<< 15 ||| (mask crc - (0xa282ead8 : UInt32)) >>> 17 := rfl
  rw [hopen, hrot]
  apply UInt32.toBitVec_inj.mp
  apply BitVec.eq_of_getLsbD_eq
  intro i hi
  have hbeyond : crc.toBitVec.getLsbD (15 + (17 + i)) = false := BitVec.getLsbD_of_ge _ _ (by omega)
  by_cases hlow : i < 15
  · have hin : 17 + i < 32 := by omega
    simp [hbeyond, hlow, hin, BitVec.getLsbD_eq_getElem hi]
  · have hsame : 15 + (i - 15) = i := by omega
    have hshort : i - 15 < 17 := by omega
    have hout : ¬ 17 + i < 32 := by omega
    simp [hbeyond, hlow, hsame, hshort, hout, hi]

theorem ofLe_toLe {width value : ℕ} (h : value < 256 ^ width) : ofLe (toLe width value) = value := by
  rw [ofLe, toLe, List.reverse_reverse, BigEndian.ofBytes_toBytes width h]

@[simp] theorem length_toLe (width value : ℕ) : (toLe width value).length = width := by
  simp [toLe]

@[simp] theorem length_frame (fragment : Fragment) :
    (frame fragment).length = logHeaderLen + fragment.payload.length := by
  simp [frame, logHeaderLen]
  omega

/-- What the writer writes for a record: a payload that fits a block, of a kind that is known. -/
structure Fragment.Fits (fragment : Fragment) : Prop where
  short : fragment.payload.length < 65536
  known : 1 ≤ fragment.kind.toNat ∧ fragment.kind.toNat ≤ 4

theorem recordAt_frame {fragment : Fragment} (h : fragment.Fits) (rest : List UInt8) :
    recordAt (frame fragment ++ rest) = .record fragment rest := by
  have hlen : ¬ (frame fragment ++ rest).length < logHeaderLen := by
    rw [List.length_append, length_frame]
    omega
  have hstored : (frame fragment ++ rest).take 4 =
      toLe 4 (mask (crc32cExtend (crc32c [fragment.kind]) fragment.payload)).toNat := by
    simp [frame]
  have hsize : ((frame fragment ++ rest).drop 4).take 2 = toLe 2 fragment.payload.length := by
    simp [frame]
  have hkind : ((frame fragment ++ rest).drop 6).headD 0 = fragment.kind := by
    simp [frame, List.drop_append]
  have hrest : (frame fragment ++ rest).drop logHeaderLen = fragment.payload ++ rest := by
    simp [frame, List.drop_append, logHeaderLen, List.drop_eq_nil_of_le]
  have hcrc : (mask (crc32cExtend (crc32c [fragment.kind]) fragment.payload)).toNat < 256 ^ 4 :=
    UInt32.toNat_lt _
  have hshort : fragment.payload.length < 256 ^ 2 := h.short
  have hnonzero : fragment.kind ≠ 0 := by
    intro hzero
    have hknown := h.known.1
    rw [hzero] at hknown
    simp at hknown
  rw [recordAt, if_neg hlen]
  simp only [hstored, hsize, hkind, hrest]
  rw [ofLe_toLe hcrc, ofLe_toLe hshort, UInt32.ofNat_toNat, unmask_mask]
  simp [hnonzero]

/-- The records a block is read as, and whether it was left at one whose checksum does not fit. -/
def blockRecords : ℕ → List UInt8 → List Fragment × Bool
  | 0, _ => ([], false)
  | fuel + 1, block =>
    match recordAt block with
    | .ended => ([], false)
    | .torn => ([], false)
    | .damaged => ([], true)
    | .record fragment rest =>
      if 1 ≤ fragment.kind.toNat ∧ fragment.kind.toNat ≤ 4 then
        (fragment :: (blockRecords fuel rest).1, (blockRecords fuel rest).2)
      else ([], false)

variable {β : Type*} (apply : List UInt8 → β → β)

/-- A record of a known kind. -/
def LogState.follow (state : LogState β) (fragment : Fragment) : LogState β :=
  (state.take apply fragment).getD state

theorem take_eq_none_iff {state : LogState β} {fragment : Fragment} :
    state.take apply fragment = none ↔ ¬ (1 ≤ fragment.kind.toNat ∧ fragment.kind.toNat ≤ 4) := by
  have hkind : ∀ n : ℕ, n < 256 → (fragment.kind = UInt8.ofNat n ↔ fragment.kind.toNat = n) := by
    intro n hn
    rw [← UInt8.toNat_inj, UInt8.toNat_ofNat', Nat.mod_eq_of_lt hn]
  have h1 : fragment.kind = 1 ↔ fragment.kind.toNat = 1 := hkind 1 (by omega)
  have h2 : fragment.kind = 2 ↔ fragment.kind.toNat = 2 := hkind 2 (by omega)
  have h3 : fragment.kind = 3 ↔ fragment.kind.toNat = 3 := hkind 3 (by omega)
  have h4 : fragment.kind = 4 ↔ fragment.kind.toNat = 4 := hkind 4 (by omega)
  rw [LogState.take]
  split_ifs with hone htwo hthree hfour
  · simp [h1.mp hone]
  · simp [h2.mp htwo]
  · simp [h3.mp hthree]
  · cases state.fragments <;> simp [h4.mp hfour]
  · rw [h1] at hone
    rw [h2] at htwo
    rw [h3] at hthree
    rw [h4] at hfour
    simp only [true_iff]
    omega

/-- What a block does is what its records do, one after another, and what leaving it does. -/
theorem readLogBlock_eq (fuel : ℕ) (block : List UInt8) (state : LogState β) :
    readLogBlock apply fuel block state =
      if (blockRecords fuel block).2 then
        { (blockRecords fuel block).1.foldl (LogState.follow apply) state with fragments := none }
      else (blockRecords fuel block).1.foldl (LogState.follow apply) state := by
  induction fuel generalizing block state with
  | zero => rfl
  | succ fuel ih =>
    rw [readLogBlock, blockRecords]
    cases hat : recordAt block with
    | ended => rfl
    | torn => rfl
    | damaged => rfl
    | record fragment rest =>
      by_cases hknown : 1 ≤ fragment.kind.toNat ∧ fragment.kind.toNat ≤ 4
      · obtain ⟨next, hnext⟩ := Option.ne_none_iff_exists'.mp
          (mt (@take_eq_none_iff β apply state fragment).mp (not_not.mpr hknown))
        have hfollow : state.follow apply fragment = next := by rw [LogState.follow, hnext]; rfl
        simp only [hnext, if_pos hknown, ih, List.foldl_cons, hfollow]
      · have hnone := (@take_eq_none_iff β apply state fragment).mpr hknown
        simp only [hnone, if_neg hknown]
        rfl

/-- Frames behind each other, with nothing behind them that is a record. -/
theorem blockRecords_frames {fragments : List Fragment} (h : ∀ fragment ∈ fragments, fragment.Fits)
    {rest : List UInt8} (hrest : rest.length < logHeaderLen) {fuel : ℕ} (hfuel : fragments.length ≤ fuel) :
    blockRecords fuel (fragments.flatMap frame ++ rest) = (fragments, false) := by
  induction fragments generalizing fuel with
  | nil =>
    cases fuel with
    | zero => rfl
    | succ fuel => simp [blockRecords, recordAt, hrest]
  | cons fragment fragments ih =>
    have hfits := h fragment List.mem_cons_self
    cases fuel with
    | zero => simp at hfuel
    | succ fuel =>
      have hmore := ih (fun other hother => h other (List.mem_cons_of_mem _ hother))
        (Nat.le_of_succ_le_succ hfuel)
      rw [List.flatMap_cons, List.append_assoc, blockRecords, recordAt_frame hfits]
      simp only [if_pos hfits.known, hmore]

/-- A log as blocks of records, the last of which may have room left. -/
structure Layout where
  full : List (List Fragment)
  current : List Fragment

/-- What a block's records take up. -/
def used (block : List Fragment) : ℕ := (block.flatMap frame).length

theorem used_append (block : List Fragment) (fragment : Fragment) :
    used (block ++ [fragment]) = used block + (logHeaderLen + fragment.payload.length) := by
  simp [used]

/-- A block with its end filled up. -/
def padded (block : List Fragment) : List UInt8 :=
  block.flatMap frame ++ List.replicate (logBlock - used block) 0

namespace Layout

def empty : Layout := { full := [], current := [] }

def bytes (layout : Layout) : List UInt8 := layout.full.flatMap padded ++ layout.current.flatMap frame

/-- A block that has no room for a header is done with. -/
def roomy (layout : Layout) : Layout :=
  if logBlock < used layout.current + logHeaderLen then
    { full := layout.full ++ [layout.current], current := [] }
  else layout

def push (layout : Layout) (fragment : Fragment) : Layout :=
  { layout with current := layout.current ++ [fragment] }

/-- The records in the order they were written. -/
def records (layout : Layout) : List Fragment := layout.full.flatten ++ layout.current

structure Ok (layout : Layout) : Prop where
  fits : ∀ block ∈ layout.full ++ [layout.current], ∀ fragment ∈ block, fragment.Fits
  within : used layout.current ≤ logBlock
  full : ∀ block ∈ layout.full, used block ≤ logBlock ∧ logBlock < used block + logHeaderLen

theorem ok_empty : empty.Ok :=
  ⟨by simp [empty], by simp [empty, used], by simp [empty]⟩

theorem length_padded {block : List Fragment} (h : used block ≤ logBlock) :
    (padded block).length = logBlock := by
  rw [padded, List.length_append, List.length_replicate, ← used]
  omega

theorem Ok.length_bytes {layout : Layout} (h : layout.Ok) :
    layout.bytes.length = layout.full.length * logBlock + used layout.current := by
  have hfull : ∀ blocks : List (List Fragment), (∀ block ∈ blocks, used block ≤ logBlock) →
      (blocks.flatMap padded).length = blocks.length * logBlock := by
    intro blocks hblocks
    induction blocks with
    | nil => simp
    | cons block blocks ih =>
      rw [List.flatMap_cons, List.length_append, length_padded (hblocks block List.mem_cons_self),
        ih fun other hother => hblocks other (List.mem_cons_of_mem _ hother), List.length_cons]
      ring
  rw [bytes, List.length_append, hfull layout.full fun block hblock => (h.full block hblock).1]
  rfl

theorem Ok.roomy {layout : Layout} (h : layout.Ok) : layout.roomy.Ok := by
  rw [Layout.roomy]
  split_ifs with hroom
  · refine ⟨?_, by simp [used], fun block hblock => ?_⟩
    · intro block hblock
      rcases List.mem_append.mp hblock with hold | hnew
      · exact h.fits block hold
      · rw [List.mem_singleton.mp hnew]
        simp
    · rcases List.mem_append.mp hblock with hold | hnew
      · exact h.full block hold
      · rw [List.mem_singleton.mp hnew]
        exact ⟨h.within, hroom⟩
  · exact h

theorem room_of_roomy (layout : Layout) :
    used layout.roomy.current + logHeaderLen ≤ logBlock := by
  rw [roomy]
  split_ifs with hroom
  · simp [used, logBlock, logHeaderLen]
  · omega

theorem records_roomy (layout : Layout) : layout.roomy.records = layout.records := by
  rw [roomy]
  split_ifs <;> simp [records]

theorem records_push (layout : Layout) (fragment : Fragment) :
    (layout.push fragment).records = layout.records ++ [fragment] := by
  simp [records, push]

theorem bytes_push (layout : Layout) (fragment : Fragment) :
    (layout.push fragment).bytes = layout.bytes ++ frame fragment := by
  simp [bytes, push]

theorem bytes_roomy (layout : Layout) (h : logBlock < used layout.current + logHeaderLen) :
    layout.roomy.bytes = layout.bytes ++ List.replicate (logBlock - used layout.current) 0 := by
  rw [roomy, if_pos h]
  simp [bytes, padded]

theorem Ok.push {layout : Layout} (h : layout.Ok) {fragment : Fragment} (hfits : fragment.Fits)
    (hroom : used layout.current + (logHeaderLen + fragment.payload.length) ≤ logBlock) :
    (layout.push fragment).Ok := by
  refine ⟨fun block hblock other hother => ?_, by rw [Layout.push, used_append]; exact hroom, h.full⟩
  rcases List.mem_append.mp hblock with hold | hnew
  · exact h.fits block (List.mem_append_left _ hold) other hother
  · rw [List.mem_singleton.mp hnew] at hother
    rcases List.mem_append.mp hother with hold | hlast
    · exact h.fits layout.current (by simp) other hold
    · rw [List.mem_singleton.mp hlast]
      exact hfits

end Layout

/-- What is left of a batch as records: the last one, or a piece and the records of what is left then. -/
inductive Pieces : Bool → List UInt8 → List Fragment → Prop
  | last (first : Bool) (rest : List UInt8) :
      Pieces first rest [{ kind := fragmentKind first true, payload := rest }]
  | more (first : Bool) (piece : List UInt8) {rest : List UInt8} {parts : List Fragment}
      (h : Pieces false rest parts) :
      Pieces first (piece ++ rest) ({ kind := fragmentKind first false, payload := piece } :: parts)

/-- A batch's piece that goes on in the next block ends its block, and one that goes on from the last block
begins its block. -/
def Shaped (block : List Fragment) : Prop :=
  ∀ before fragment after, block = before ++ fragment :: after →
    (fragment.kind = 2 ∨ fragment.kind = 3 → after = []) ∧
    (fragment.kind = 3 ∨ fragment.kind = 4 → before = [])

/-- Between two records of the writer, in the middle of a batch or not. -/
structure Layout.Shaped (layout : Layout) (first : Bool) : Prop where
  blocks : ∀ block ∈ layout.full ++ [layout.current], Chromium.Shaped block
  open_ : ∀ before fragment, layout.current = before ++ [fragment] →
    fragment.kind = 2 ∨ fragment.kind = 3 → used layout.current = logBlock
  middle : first = false → used layout.current = logBlock

theorem shaped_nil : Shaped [] := by
  intro before fragment after h
  simp at h

theorem Shaped.push {block : List Fragment} (h : Shaped block) {fragment : Fragment}
    (hopen : ∀ before last, block = before ++ [last] → ¬ (last.kind = 2 ∨ last.kind = 3))
    (hbegin : fragment.kind = 3 ∨ fragment.kind = 4 → block = []) : Shaped (block ++ [fragment]) := by
  intro before other after heq
  rcases List.eq_nil_or_concat after with rfl | ⟨init, last, rfl⟩
  · obtain ⟨rfl, hother⟩ := List.append_inj' heq rfl
    obtain rfl : fragment = other := by simpa using hother
    exact ⟨fun _ => rfl, hbegin⟩
  · rw [List.concat_eq_append, ← List.cons_append, ← List.append_assoc] at heq
    obtain ⟨rfl, -⟩ := List.append_inj' heq rfl
    obtain ⟨hlast, hfirst⟩ := h before other init rfl
    refine ⟨fun hkind => ?_, hfirst⟩
    have hnil := hlast hkind
    subst hnil
    exact absurd hkind (hopen before other rfl)

section Writing

variable {layout : Layout} {first : Bool}

theorem Layout.Shaped.roomy (h : layout.Shaped first) :
    (∀ block ∈ layout.roomy.full ++ [layout.roomy.current], Chromium.Shaped block) ∧
      (∀ before fragment, layout.roomy.current = before ++ [fragment] →
        ¬ (fragment.kind = 2 ∨ fragment.kind = 3)) ∧ (first = false → layout.roomy.current = []) := by
  rw [Layout.roomy]
  split_ifs with hroom
  · refine ⟨fun block hblock => ?_, by simp, fun _ => rfl⟩
    rcases List.mem_append.mp hblock with hold | hnew
    · exact h.blocks block hold
    · rw [List.mem_singleton.mp hnew]
      exact shaped_nil
  · have hheader : 0 < logHeaderLen := by decide
    refine ⟨h.blocks, fun before fragment heq hkind => ?_, fun hfirst => ?_⟩
    · have := h.open_ before fragment heq hkind
      omega
    · have := h.middle hfirst
      omega

theorem kind_of_first (last : Bool) :
    fragmentKind true last ≠ 3 ∧ fragmentKind true last ≠ 4 := by
  cases last <;> decide

theorem kind_of_last (first : Bool) :
    fragmentKind first true ≠ 2 ∧ fragmentKind first true ≠ 3 := by
  cases first <;> decide

theorem fits_piece {payload : List UInt8} (first last : Bool) (h : payload.length < 65536) :
    ({ kind := fragmentKind first last, payload } : Fragment).Fits := by
  refine ⟨h, ?_⟩
  cases first <;> cases last <;> simp [fragmentKind]

/-- One record more, where there is room for it. -/
theorem Layout.Shaped.push_roomy (h : layout.Shaped first) (last : Bool) (payload : List UInt8)
    (hfull : last = false → used layout.roomy.current + (logHeaderLen + payload.length) = logBlock) :
    (layout.roomy.push { kind := fragmentKind first last, payload }).Shaped last := by
  obtain ⟨hblocks, hopen, hbegin⟩ := h.roomy
  refine ⟨fun block hblock => ?_, fun before fragment heq hkind => ?_, fun hlast => ?_⟩
  · rcases List.mem_append.mp hblock with hold | hnew
    · exact hblocks block (List.mem_append_left _ hold)
    · rw [List.mem_singleton.mp hnew]
      refine (hblocks layout.roomy.current (by simp)).push hopen fun hkind => ?_
      cases first with
      | false => exact hbegin rfl
      | true => exact absurd hkind (by simpa using kind_of_first last)
  · obtain ⟨-, hfragment⟩ := List.append_inj' heq rfl
    obtain rfl : ({ kind := fragmentKind first last, payload } : Fragment) = fragment := by
      simpa using hfragment
    cases last with
    | true => exact absurd hkind (by simpa using kind_of_last first)
    | false => rw [Layout.push, used_append]; exact hfull rfl
  · rw [Layout.push, used_append]
    exact hfull hlast

end Writing

/-- As much of what is left of a batch as goes into the block at hand. -/
def nextCount (layout : Layout) (rest : List UInt8) : ℕ :=
  min rest.length (logBlock - used layout.roomy.current - logHeaderLen)

def nextLast (layout : Layout) (rest : List UInt8) : Bool := nextCount layout rest == rest.length

def pushNext (layout : Layout) (rest : List UInt8) (first : Bool) : Layout :=
  layout.roomy.push
    { kind := fragmentKind first (nextLast layout rest), payload := rest.take (nextCount layout rest) }

/-- The writer, on blocks. -/
def layBatch : ℕ → Layout → List UInt8 → Bool → Layout
  | 0, layout, _, _ => layout
  | fuel + 1, layout, rest, first =>
    if nextLast layout rest then pushNext layout rest first
    else layBatch fuel (pushNext layout rest first) (rest.drop (nextCount layout rest)) false

/-- Turns that are enough: one a byte, and one for a block that has room for a header alone. -/
def turnsFor (layout : Layout) (rest : List UInt8) : ℕ :=
  rest.length + 1 + if used layout.roomy.current + logHeaderLen = logBlock then 1 else 0

section Turns

variable {layout : Layout} {rest : List UInt8}

theorem nextCount_of_last (h : nextLast layout rest = true) : nextCount layout rest = rest.length := by
  simpa [nextLast] using h

/-- Where more of the batch is to come, the piece fills its block. -/
theorem nextCount_of_more (h : nextLast layout rest = false) :
    used layout.roomy.current + (logHeaderLen + nextCount layout rest) = logBlock ∧
      nextCount layout rest < rest.length := by
  have hroom := layout.room_of_roomy
  have hne : nextCount layout rest ≠ rest.length := by simpa [nextLast] using h
  rw [nextCount] at hne ⊢
  omega

theorem length_piece (layout : Layout) (rest : List UInt8) :
    (rest.take (nextCount layout rest)).length = nextCount layout rest := by
  rw [List.length_take, nextCount]
  omega

theorem nextCount_le (layout : Layout) (rest : List UInt8) :
    used layout.roomy.current + (logHeaderLen + nextCount layout rest) ≤ logBlock := by
  have hroom := layout.room_of_roomy
  rw [nextCount]
  omega

theorem Layout.Ok.pushNext {first : Bool} (h : layout.Ok) : (pushNext layout rest first).Ok := by
  have hcount := nextCount_le layout rest
  have hblock : logBlock < 65536 := by decide
  refine h.roomy.push (fits_piece _ _ ?_) ?_
  · rw [length_piece]
    omega
  · rw [length_piece]
    exact hcount

theorem Layout.Shaped.pushNext {first : Bool} (h : layout.Shaped first) :
    (pushNext layout rest first).Shaped (nextLast layout rest) := by
  refine h.push_roomy _ _ fun hmore => ?_
  rw [length_piece]
  exact (nextCount_of_more hmore).1

theorem records_pushNext (layout : Layout) (rest : List UInt8) (first : Bool) :
    (pushNext layout rest first).records = layout.records ++
      [{ kind := fragmentKind first (nextLast layout rest), payload := rest.take (nextCount layout rest) }] := by
  rw [pushNext, Layout.records_push, Layout.records_roomy]

theorem used_pushNext (layout : Layout) (rest : List UInt8) (first : Bool) :
    used (pushNext layout rest first).current =
      used layout.roomy.current + (logHeaderLen + nextCount layout rest) := by
  rw [pushNext, Layout.push, used_append, length_piece]

/-- After a piece that fills its block there is a whole block for the next one. -/
theorem turnsFor_pushNext (first : Bool) {fuel : ℕ} (hturns : turnsFor layout rest ≤ fuel + 1)
    (hmore : nextLast layout rest = false) :
    turnsFor (pushNext layout rest first) (rest.drop (nextCount layout rest)) ≤ fuel := by
  have hroom := layout.room_of_roomy
  obtain ⟨hfull, hlt⟩ := nextCount_of_more hmore
  have hheader : logHeaderLen < logBlock ∧ 0 < logHeaderLen := by decide
  have hnext : used (pushNext layout rest first).roomy.current = 0 := by
    rw [Layout.roomy, used_pushNext, if_pos (by omega)]
    rfl
  rw [turnsFor] at hturns ⊢
  rw [hnext, if_neg (by omega), List.length_drop]
  split_ifs at hturns <;> omega

/-- A batch is laid down whole, in pieces that follow each other. -/
theorem layBatch_spec {fuel : ℕ} {first : Bool} (hok : layout.Ok) (hshaped : layout.Shaped first)
    (hturns : turnsFor layout rest ≤ fuel) :
    (layBatch fuel layout rest first).Ok ∧ (layBatch fuel layout rest first).Shaped true ∧
      ∃ parts, Pieces first rest parts ∧
        (layBatch fuel layout rest first).records = layout.records ++ parts := by
  induction fuel generalizing layout rest first with
  | zero =>
    rw [turnsFor] at hturns
    omega
  | succ fuel ih =>
    have hpush := @Layout.Ok.pushNext layout rest first hok
    have hshape := @Layout.Shaped.pushNext layout rest first hshaped
    rw [layBatch]
    cases hmore : nextLast layout rest with
    | true =>
      rw [if_pos rfl]
      rw [hmore] at hshape
      refine ⟨hpush, hshape, _, .last first rest, ?_⟩
      rw [records_pushNext, hmore, nextCount_of_last hmore, List.take_length]
    | false =>
      rw [if_neg Bool.false_ne_true]
      rw [hmore] at hshape
      obtain ⟨hok', hshaped', parts, hparts, hrecords⟩ := ih hpush hshape (turnsFor_pushNext first hturns hmore)
      have hall := Pieces.more first (rest.take (nextCount layout rest)) hparts
      rw [List.take_append_drop] at hall
      refine ⟨hok', hshaped', _, hall, ?_⟩
      rw [hrecords, records_pushNext, hmore, List.append_assoc]
      rfl

theorem layBatch_succ (fuel : ℕ) (layout : Layout) (rest : List UInt8) (first : Bool) :
    layBatch (fuel + 1) layout rest first =
      if nextLast layout rest then pushNext layout rest first
      else layBatch fuel (pushNext layout rest first) (rest.drop (nextCount layout rest)) false := rfl

theorem layBatch_stable {fuel : ℕ} {first : Bool} (hturns : turnsFor layout rest ≤ fuel) :
    layBatch (fuel + 1) layout rest first = layBatch fuel layout rest first := by
  induction fuel generalizing layout rest first with
  | zero =>
    rw [turnsFor] at hturns
    omega
  | succ fuel ih =>
    rw [layBatch_succ (fuel + 1), layBatch_succ fuel layout]
    cases hmore : nextLast layout rest with
    | true => rfl
    | false =>
      rw [if_neg Bool.false_ne_true, if_neg Bool.false_ne_true]
      exact ih (turnsFor_pushNext first hturns hmore)

theorem roomy_roomy (layout : Layout) : layout.roomy.roomy = layout.roomy := by
  have hroom := layout.room_of_roomy
  rw [Layout.roomy, if_neg (by omega)]

theorem layBatch_roomy (fuel : ℕ) (layout : Layout) (rest : List UInt8) (first : Bool) :
    layBatch (fuel + 1) layout.roomy rest first = layBatch (fuel + 1) layout rest first := by
  have hcount : nextCount layout.roomy rest = nextCount layout rest := by
    rw [nextCount, nextCount, roomy_roomy]
  have hlast : nextLast layout.roomy rest = nextLast layout rest := by rw [nextLast, nextLast, hcount]
  have hpush : pushNext layout.roomy rest first = pushNext layout rest first := by
    rw [pushNext, pushNext, roomy_roomy, hcount, hlast]
  rw [layBatch_succ, layBatch_succ, hcount, hlast, hpush]

/-- Nothing to fill up before the next record: the block is full to its last byte or has room. -/
def Layout.Tidy (layout : Layout) : Prop :=
  used layout.current = logBlock ∨ used layout.current + logHeaderLen ≤ logBlock

theorem tidy_roomy (layout : Layout) : layout.roomy.Tidy := .inr layout.room_of_roomy

theorem leftInBlock_tidy (hok : layout.Ok) (htidy : layout.Tidy) :
    logBlock - layout.bytes.length % logBlock = logBlock - used layout.roomy.current ∧
      layout.roomy.bytes = layout.bytes := by
  have hheader : 0 < logHeaderLen ∧ 0 < logBlock := by decide
  rw [hok.length_bytes, Nat.mul_add_mod_self_right]
  rcases htidy with hfull | hroom
  · rw [Layout.bytes_roomy layout (by omega), Layout.roomy, if_pos (by omega), hfull, Nat.mod_self]
    simp [used]
  · rw [Layout.roomy, if_neg (by omega), Nat.mod_eq_of_lt (by omega)]
    exact ⟨rfl, rfl⟩

/-- The writer on bytes is the writer on blocks. -/
theorem writeBatch_tidy (fuel : ℕ) {first : Bool} (hok : layout.Ok) (htidy : layout.Tidy) :
    writeBatch fuel layout.bytes rest first = (layBatch fuel layout rest first).bytes := by
  induction fuel generalizing layout rest first with
  | zero => rfl
  | succ fuel ih =>
    obtain ⟨hleft, hbytes⟩ := leftInBlock_tidy hok htidy
    have hroom := layout.room_of_roomy
    have hcount : min rest.length (logBlock - used layout.roomy.current - logHeaderLen) =
      nextCount layout rest := rfl
    have hlast : (nextCount layout rest == rest.length) = nextLast layout rest := rfl
    rw [writeBatch, layBatch_succ]
    simp only [hleft, hcount, hlast]
    rw [if_neg (by omega), ← hbytes, ← Layout.bytes_push]
    have hpushed : layout.roomy.push
        { kind := fragmentKind first (nextLast layout rest), payload := rest.take (nextCount layout rest) } =
      pushNext layout rest first := rfl
    rw [hpushed]
    cases hmore : nextLast layout rest with
    | true => rfl
    | false =>
      rw [if_neg Bool.false_ne_true, if_neg Bool.false_ne_true]
      refine ih hok.pushNext (.inl ?_)
      rw [used_pushNext]
      exact (nextCount_of_more hmore).1

theorem writeBatch_eq (hok : layout.Ok) (batch : List UInt8) :
    writeBatch (batch.length + 3) layout.bytes batch true =
      (layBatch (batch.length + 2) layout batch true).bytes := by
  have hturns : ∀ layout : Layout, turnsFor layout batch ≤ batch.length + 2 := by
    intro layout
    rw [turnsFor]
    split_ifs <;> omega
  by_cases htidy : layout.Tidy
  · rw [writeBatch_tidy _ hok htidy, layBatch_stable (hturns layout)]
  · rw [Layout.Tidy] at htidy
    have hwithin := hok.within
    have hheader : 0 < logHeaderLen := by decide
    have hleft : logBlock - layout.bytes.length % logBlock = logBlock - used layout.current := by
      rw [hok.length_bytes, Nat.mul_add_mod_self_right, Nat.mod_eq_of_lt (by omega)]
    rw [writeBatch]
    simp only [hleft]
    rw [if_pos (by omega), ← Layout.bytes_roomy layout (by omega),
      writeBatch_tidy _ hok.roomy (tidy_roomy layout), layBatch_roomy]

end Turns

section Reading

/-- A file of filled-up blocks and one that is not full comes apart as it was put together. -/
theorem chunk_flatMap {size : ℕ} {blocks : List (List Fragment)}
    (h : ∀ block ∈ blocks, (padded block).length = size) {tail : List UInt8} (htail : tail.length ≤ size)
    (index : ℕ) :
    chunk size index (blocks.flatMap padded ++ tail) =
      if index = blocks.length then tail else (blocks[index]?.map padded).getD [] := by
  induction blocks generalizing index with
  | nil =>
    cases index with
    | zero => simp [chunk, List.take_of_length_le htail]
    | succ index =>
      have hgone : tail.length ≤ (index + 1) * size := by
        calc tail.length ≤ size := htail
          _ ≤ (index + 1) * size := Nat.le_mul_of_pos_left size (Nat.succ_pos index)
      simp [chunk, List.drop_eq_nil_of_le hgone]
  | cons block blocks ih =>
    have hblock := h block List.mem_cons_self
    cases index with
    | zero => simp [chunk, ← hblock]
    | succ index =>
      have hskip : chunk size (index + 1) ((block :: blocks).flatMap padded ++ tail) =
          chunk size index (blocks.flatMap padded ++ tail) := by
        have hdrop : (index + 1) * size = (padded block).length + index * size := by
          rw [hblock]
          ring
        rw [chunk, chunk, List.flatMap_cons, List.append_assoc, hdrop, List.drop_length_add_append]
      rw [hskip, ih fun other hother => h other (List.mem_cons_of_mem _ hother)]
      simp

/-- What is read of a block, and whether it was left at a checksum that does not fit. -/
def readRecords (block : List UInt8) : List Fragment × Bool := blockRecords block.length block

theorem length_le_used (block : List Fragment) : block.length ≤ used block := by
  induction block with
  | nil => simp [used]
  | cons fragment block ih =>
    rw [used] at ih ⊢
    rw [List.flatMap_cons, List.length_append, length_frame, List.length_cons, logHeaderLen]
    omega

theorem readRecords_frames {block : List Fragment} (h : ∀ fragment ∈ block, fragment.Fits)
    {rest : List UInt8} (hrest : rest.length < logHeaderLen) :
    readRecords (block.flatMap frame ++ rest) = (block, false) := by
  refine blockRecords_frames h hrest ?_
  have hlen := length_le_used block
  rw [List.length_append, ← used]
  omega

/-- The blocks that are written, the last one as far as it is. -/
def Layout.blocks (layout : Layout) : List (List Fragment) := layout.full ++ [layout.current]

theorem Layout.Ok.readRecords_chunk {layout : Layout} (h : layout.Ok) (index : ℕ) :
    readRecords (chunk logBlock index layout.bytes) = (layout.blocks[index]?.getD [], false) := by
  rw [bytes, chunk_flatMap (fun block hblock => length_padded (h.full block hblock).1) h.within, blocks]
  split_ifs with hlast
  · have hnil : (0 : ℕ) < logHeaderLen := by decide
    have hread := readRecords_frames (fun fragment hfragment => h.fits layout.current (by simp) fragment hfragment)
      (show ([] : List UInt8).length < logHeaderLen from hnil)
    rw [List.append_nil] at hread
    rw [hread, hlast, List.getElem?_concat_length]
    rfl
  · rcases Nat.lt_or_ge index layout.full.length with hlt | hge
    · rw [List.getElem?_append_left hlt, List.getElem?_eq_getElem hlt]
      have hmem := List.getElem_mem hlt
      have hfull := h.full _ hmem
      refine readRecords_frames (h.fits _ (List.mem_append_left _ hmem)) ?_
      rw [List.length_replicate]
      omega
    · have hbeyond : (layout.full ++ [layout.current]).length ≤ index := by
        rw [List.length_append, List.length_singleton]
        omega
      rw [List.getElem?_eq_none hge, List.getElem?_eq_none hbeyond]
      rfl

theorem Layout.records_eq (layout : Layout) : layout.records = layout.blocks.flatten := by
  simp [records, blocks]

end Reading

/-- The blocks of a log. -/
def lay (batches : List (List UInt8)) : Layout :=
  batches.foldl (fun layout batch => layBatch (batch.length + 2) layout batch true) .empty

/-- A log is whole blocks of records, cut as LevelDB cuts, that are the pieces of its batches in order. -/
theorem lay_spec (batches : List (List UInt8)) :
    writeLog batches = (lay batches).bytes ∧ (lay batches).Ok ∧ (lay batches).Shaped true ∧
      ∃ parts, List.Forall₂ (Pieces true) batches parts ∧ (lay batches).records = parts.flatten := by
  induction batches using List.reverseRecOn with
  | nil =>
    refine ⟨rfl, Layout.ok_empty, ⟨?_, ?_, nofun⟩, [], .nil, rfl⟩
    · intro block hblock
      obtain rfl : block = [] := by simpa [lay, Layout.empty] using hblock
      exact shaped_nil
    · intro before fragment heq
      simp [lay, Layout.empty] at heq
  | append_singleton batches batch ih =>
    obtain ⟨hbytes, hok, hshaped, parts, hparts, hrecords⟩ := ih
    have hlay : lay (batches ++ [batch]) = layBatch (batch.length + 2) (lay batches) batch true := by
      simp [lay]
    have hwrite : writeLog (batches ++ [batch]) =
        writeBatch (batch.length + 3) (writeLog batches) batch true := by
      simp [writeLog]
    have hturns : turnsFor (lay batches) batch ≤ batch.length + 2 := by
      rw [turnsFor]
      split_ifs <;> omega
    obtain ⟨hok', hshaped', more, hmore, hrecords'⟩ := layBatch_spec hok hshaped hturns
    rw [hlay, hwrite, hbytes, writeBatch_eq hok]
    refine ⟨rfl, hok', hshaped', parts ++ [more], ?_, ?_⟩
    · exact List.rel_append hparts (.cons hmore .nil)
    · rw [hrecords', hrecords, List.flatten_append, List.flatten_singleton]

end UwuSsh.Chromium

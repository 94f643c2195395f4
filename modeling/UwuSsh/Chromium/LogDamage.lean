import UwuSsh.Lib.Fragments
import UwuSsh.Chromium.LogLayout

/-!
A log that is not as it was written. What is read of a file are records at places of its blocks, and the
checksums that do not fit; the batches that are applied are put together from these. A batch comes out of it
that was never written just where pieces are joined that were not written to one block and the next.
-/
namespace UwuSsh.Chromium

/-- A place of a log: the record there, none where the checksum does not fit. -/
structure Place where
  block : ℕ
  index : ℕ
  record : Option Fragment
deriving DecidableEq

namespace Place

def role (place : Place) : Fragments.Role :=
  match place.record with
  | none => .loss
  | some fragment =>
    if fragment.kind = 1 then .whole
    else if fragment.kind = 2 then .first
    else if fragment.kind = 3 then .middle
    else .last

def payload (place : Place) : List UInt8 := (place.record.map Fragment.payload).getD []

def Before (a b : Place) : Prop := a.block < b.block ∨ (a.block = b.block ∧ a.index < b.index)

instance : IsTrans Place Before where
  trans a b c hab hbc := by
    rw [Before] at hab hbc ⊢
    omega

instance : Std.Irrefl Before where
  irrefl a h := by
    rw [Before] at h
    omega

end Place

/-- The places of one block. -/
def places (block : ℕ) (read : List Fragment × Bool) : List Place :=
  (read.1.zipIdx.map fun (fragment, index) => { block, index, record := some fragment }) ++
    if read.2 then [{ block, index := read.1.length, record := none }] else []

/-- All that is read of a file. -/
def found (data : List UInt8) : List Place :=
  (List.range ((data.length + logBlock - 1) / logBlock)).flatMap fun block =>
    places block (readRecords (chunk logBlock block data))

/-- The pieces each batch that is applied was put together from. -/
def gathered (data : List UInt8) : List (List Place) := (Fragments.gather Place.role (found data)).groups

def joined (group : List Place) : List UInt8 := group.flatMap Place.payload

section Applied

variable {β : Type*} (apply : List UInt8 → β → β) (builder : β)

/-- The reader's state and the pieces it was put together from. -/
structure Tracks (state : LogState β) (pieces : Fragments.State Place) : Prop where
  fragments : state.fragments = pieces.opened.map joined
  builder : state.builder = pieces.groups.foldl (fun builder group => apply (joined group) builder) builder

variable {apply builder} {state : LogState β} {pieces : Fragments.State Place}

theorem Tracks.record (h : Tracks apply builder state pieces) {fragment : Fragment}
    (hknown : 1 ≤ fragment.kind.toNat ∧ fragment.kind.toNat ≤ 4) (block index : ℕ) :
    Tracks apply builder (state.follow apply fragment)
      (pieces.take Place.role { block, index, record := some fragment }) := by
  have hsome := mt (@take_eq_none_iff β apply state fragment).mp (not_not.mpr hknown)
  have hone : joined [{ block, index, record := some fragment }] = fragment.payload := by
    simp [joined, Place.payload]
  have hmore : ∀ group, joined (group ++ [{ block, index, record := some fragment }]) =
      joined group ++ fragment.payload := by
    intro group
    simp [joined, Place.payload]
  rw [LogState.follow, LogState.take, Fragments.State.take, Place.role] at *
  simp only
  split_ifs at hsome ⊢ with h1 h2 h3 h4
  · exact ⟨h.fragments, by simp [h.builder, hone]⟩
  · exact ⟨by simp [hone], h.builder⟩
  · refine ⟨?_, h.builder⟩
    rw [Option.getD_some, h.fragments, Option.map_map, Option.map_map]
    exact congrArg (Option.map · pieces.opened) (funext fun group => (hmore group).symm)
  · have hfragments := h.fragments
    cases hopen : pieces.opened with
    | none =>
      rw [hopen] at hfragments
      rw [hfragments]
      exact ⟨hfragments.trans (by rw [hopen]), h.builder⟩
    | some group =>
      rw [hopen] at hfragments
      rw [hfragments]
      exact ⟨rfl, by simp [h.builder, hmore]⟩
  · exact absurd rfl hsome

theorem Tracks.damaged (h : Tracks apply builder state pieces) (block index : ℕ) :
    Tracks apply builder { state with fragments := none }
      (pieces.take Place.role { block, index, record := none }) := ⟨rfl, h.builder⟩

theorem Tracks.records {records : List Fragment}
    (hknown : ∀ fragment ∈ records, 1 ≤ fragment.kind.toNat ∧ fragment.kind.toNat ≤ 4)
    (h : Tracks apply builder state pieces) (block start : ℕ) :
    Tracks apply builder (records.foldl (LogState.follow apply) state)
      (((records.zipIdx start).map fun (fragment, index) =>
        ({ block, index, record := some fragment } : Place)).foldl
          (Fragments.State.take Place.role) pieces) := by
  induction records generalizing state pieces start with
  | nil => exact h
  | cons fragment records ih =>
    exact ih (fun other hother => hknown other (List.mem_cons_of_mem _ hother))
      (h.record (hknown fragment List.mem_cons_self) block start) (start + 1)

theorem known_of_blockRecords {fuel : ℕ} {block : List UInt8} :
    ∀ fragment ∈ (blockRecords fuel block).1, 1 ≤ fragment.kind.toNat ∧ fragment.kind.toNat ≤ 4 := by
  induction fuel generalizing block with
  | zero => simp [blockRecords]
  | succ fuel ih =>
    intro fragment hfragment
    rw [blockRecords] at hfragment
    cases hat : recordAt block with
    | ended => simp [hat] at hfragment
    | torn => simp [hat] at hfragment
    | damaged => simp [hat] at hfragment
    | record other rest =>
      rw [hat] at hfragment
      simp only at hfragment
      split_ifs at hfragment with hknown
      · rcases List.mem_cons.mp hfragment with rfl | hlater
        · exact hknown
        · exact ih fragment hlater
      · exact absurd hfragment List.not_mem_nil

theorem Tracks.block (h : Tracks apply builder state pieces) (index : ℕ) (block : List UInt8) :
    Tracks apply builder (readLogBlock apply block.length block state)
      ((places index (readRecords block)).foldl (Fragments.State.take Place.role) pieces) := by
  have hrecords := h.records (@known_of_blockRecords block.length block) index 0
  rw [readLogBlock_eq, places, List.foldl_append, readRecords]
  split_ifs with hdamaged
  · exact hrecords.damaged index (blockRecords block.length block).1.length
  · exact hrecords

/-- The batches that are applied are the gathered pieces, joined. -/
theorem readLog_eq (apply : List UInt8 → β → β) (data : List UInt8) (builder : β) :
    readLog apply data builder =
      (gathered data).foldl (fun builder group => apply (joined group) builder) builder := by
  have hstart : Tracks apply builder { fragments := none, builder } { opened := none, groups := [] } := ⟨rfl, rfl⟩
  have hrun : ∀ (indices : List ℕ) {state : LogState β} {pieces : Fragments.State Place},
      Tracks apply builder state pieces →
      Tracks apply builder
        ((indices.map fun index => chunk logBlock index data).foldl
          (fun state block => readLogBlock apply block.length block state) state)
        ((indices.flatMap fun index => places index (readRecords (chunk logBlock index data))).foldl
          (Fragments.State.take Place.role) pieces) := by
    intro indices
    induction indices with
    | nil => exact fun h => h
    | cons index indices ih =>
      intro state pieces h
      rw [List.flatMap_cons, List.foldl_append]
      exact ih (h.block index _)
  exact (hrun _ hstart).builder

end Applied

section Found

variable {data : List UInt8} {place : Place}

theorem mem_places_iff {block : ℕ} {read : List Fragment × Bool} :
    place ∈ places block read ↔ place.block = block ∧
      ((∃ fragment, place.record = some fragment ∧ read.1[place.index]? = some fragment) ∨
        (place.record = none ∧ read.2 = true ∧ place.index = read.1.length)) := by
  obtain ⟨at_, index, record⟩ := place
  have hdamaged : (⟨at_, index, record⟩ : Place) ∈
      (if read.2 then [{ block, index := read.1.length, record := none }] else []) ↔
        at_ = block ∧ record = none ∧ read.2 = true ∧ index = read.1.length := by
    split_ifs with hread
    · simp only [List.mem_singleton, Place.mk.injEq, hread, true_and]
      tauto
    · simp [hread]
  rw [places, List.mem_append, List.mem_map, hdamaged]
  constructor
  · rintro (⟨⟨fragment, other⟩, hmem, heq⟩ | ⟨hblock, hnone, hread, hindex⟩)
    · rw [List.mem_zipIdx_iff_getElem?] at hmem
      simp only [Place.mk.injEq] at heq
      obtain ⟨rfl, rfl, rfl⟩ := heq
      exact ⟨rfl, .inl ⟨fragment, rfl, hmem⟩⟩
    · exact ⟨hblock, .inr ⟨hnone, hread, hindex⟩⟩
  · rintro ⟨rfl, ⟨fragment, rfl, hmem⟩ | ⟨hnone, hread, hindex⟩⟩
    · exact .inl ⟨(fragment, index), List.mem_zipIdx_iff_getElem?.mpr hmem, rfl⟩
    · exact .inr ⟨rfl, hnone, hread, hindex⟩

/-- Behind its end nothing of a file is read. -/
theorem places_beyond {block : ℕ} (h : (data.length + logBlock - 1) / logBlock ≤ block) :
    places block (readRecords (chunk logBlock block data)) = [] := by
  have hpos : 0 < logBlock := by decide
  have hlen : data.length ≤ block * logBlock := by
    have hlt := (Nat.div_lt_iff_lt_mul hpos).mp (Nat.lt_succ_of_le h)
    rw [Nat.succ_mul] at hlt
    omega
  rw [chunk, List.drop_eq_nil_of_le hlen]
  rfl

theorem mem_found_iff :
    place ∈ found data ↔ place ∈ places place.block (readRecords (chunk logBlock place.block data)) := by
  rw [found, List.mem_flatMap]
  constructor
  · rintro ⟨block, -, hmem⟩
    obtain rfl := (mem_places_iff.mp hmem).1
    exact hmem
  · intro hmem
    refine ⟨place.block, ?_, hmem⟩
    by_contra hbeyond
    rw [List.mem_range, Nat.not_lt] at hbeyond
    rw [places_beyond hbeyond] at hmem
    exact List.not_mem_nil hmem

theorem sorted_places (block : ℕ) (read : List Fragment × Bool) :
    (places block read).Pairwise Place.Before := by
  have hzip : ∀ (records : List Fragment) (start : ℕ), ((records.zipIdx start).map fun (fragment, index) =>
      ({ block, index, record := some fragment } : Place)).Pairwise Place.Before ∧
      ∀ place ∈ ((records.zipIdx start).map fun (fragment, index) =>
        ({ block, index, record := some fragment } : Place)),
        place.block = block ∧ start ≤ place.index ∧ place.index < start + records.length := by
    intro records
    induction records with
    | nil => simp
    | cons fragment records ih =>
      intro start
      obtain ⟨hsorted, hmem⟩ := ih (start + 1)
      rw [List.zipIdx_cons, List.map_cons, List.pairwise_cons]
      refine ⟨⟨fun place hplace => ?_, hsorted⟩, fun place hplace => ?_⟩
      · obtain ⟨hblock, hstart, -⟩ := hmem place hplace
        exact .inr ⟨hblock.symm, hstart⟩
      · rw [List.length_cons]
        rcases List.mem_cons.mp hplace with rfl | hlater
        · refine ⟨rfl, ?_⟩
          simp only
          omega
        · have := hmem place hlater
          omega
  obtain ⟨hsorted, hmem⟩ := hzip read.1 0
  rw [places, List.pairwise_append]
  refine ⟨hsorted, ?_, fun place hplace last hlast => ?_⟩
  · split_ifs <;> simp
  · split_ifs at hlast with hread
    · rw [List.mem_singleton.mp hlast]
      obtain ⟨hblock, -, hlt⟩ := hmem place hplace
      rw [Nat.zero_add] at hlt
      exact .inr ⟨hblock, hlt⟩
    · exact absurd hlast List.not_mem_nil

theorem sorted_found (data : List UInt8) : (found data).Pairwise Place.Before := by
  rw [found, List.pairwise_flatMap]
  refine ⟨fun block _ => sorted_places block _, ?_⟩
  refine List.pairwise_lt_range.imp fun {first second} hlt place hplace other hother => ?_
  left
  rw [(mem_places_iff.mp hplace).1, (mem_places_iff.mp hother).1]
  exact hlt

/-- A file's blocks may be counted past its end. -/
theorem found_eq {count : ℕ} (h : (data.length + logBlock - 1) / logBlock ≤ count) :
    found data = (List.range count).flatMap fun block =>
      places block (readRecords (chunk logBlock block data)) := by
  induction count, h using Nat.le_induction with
  | base => rfl
  | succ count h ih =>
    rw [List.range_succ, List.flatMap_append, ← ih, List.flatMap_singleton, places_beyond h, List.append_nil]

end Found

end UwuSsh.Chromium

import UwuSsh.Chromium.LogWhole

/-!
A log that was cut off. The records that lie wholly before the cut are read and nothing else, so the batches
that are applied are those that lie wholly before it.
-/
namespace UwuSsh.Chromium

/-- The records of a block that lie wholly within its first `length` bytes. -/
def cutRecords (length : ℕ) : List Fragment → List Fragment
  | [] => []
  | fragment :: fragments =>
    if (frame fragment).length ≤ length then
      fragment :: cutRecords (length - (frame fragment).length) fragments
    else []

/-- The same over blocks that follow each other. -/
def cutBlocks (length : ℕ) : List (List Fragment) → List Fragment
  | [] => []
  | block :: blocks => cutRecords length block ++ cutBlocks (length - logBlock) blocks

section Cutting

variable {fragments : List Fragment} {blocks : List (List Fragment)} {length : ℕ}

theorem used_cons (fragment : Fragment) (fragments : List Fragment) :
    used (fragment :: fragments) = (frame fragment).length + used fragments := by
  simp [used]

theorem cutRecords_of_le (h : used fragments ≤ length) : cutRecords length fragments = fragments := by
  induction fragments generalizing length with
  | nil => rfl
  | cons fragment fragments ih =>
    rw [used_cons] at h
    rw [cutRecords, if_pos (by omega), ih (by omega)]

theorem cutRecords_start (length : ℕ) (fragments : List Fragment) :
    cutRecords length fragments <+: fragments := by
  induction fragments generalizing length with
  | nil => exact List.prefix_refl _
  | cons fragment fragments ih =>
    rw [cutRecords]
    split_ifs
    · exact List.cons_prefix_cons.mpr ⟨rfl, ih _⟩
    · exact List.nil_prefix

theorem length_cutRecords_lt (h : length < used fragments) :
    (cutRecords length fragments).length < fragments.length := by
  induction fragments generalizing length with
  | nil => simp [used] at h
  | cons fragment fragments ih =>
    rw [used_cons] at h
    rw [cutRecords]
    split_ifs with hfits
    · exact Nat.succ_lt_succ (ih (by omega))
    · exact Nat.succ_pos _

theorem cutRecords_mono {longer : ℕ} (h : length ≤ longer) :
    (cutRecords length fragments).length ≤ (cutRecords longer fragments).length := by
  induction fragments generalizing length longer with
  | nil => exact Nat.le_refl _
  | cons fragment fragments ih =>
    rw [cutRecords, cutRecords]
    split_ifs with hshort hlong hlong
    · exact Nat.succ_le_succ (ih (by omega))
    · omega
    · exact Nat.zero_le _
    · exact Nat.le_refl _

theorem cutRecords_zero (fragments : List Fragment) : cutRecords 0 fragments = [] := by
  cases fragments with
  | nil => rfl
  | cons fragment fragments =>
    rw [cutRecords, if_neg (by rw [length_frame, logHeaderLen]; omega)]

theorem cutBlocks_zero (blocks : List (List Fragment)) : cutBlocks 0 blocks = [] := by
  induction blocks with
  | nil => rfl
  | cons block blocks ih => rw [cutBlocks, cutRecords_zero, Nat.zero_sub, ih, List.append_nil]

/-- What is read of a log that was cut off is what was written first. -/
theorem cutBlocks_start (h : ∀ block ∈ blocks, used block ≤ logBlock) :
    cutBlocks length blocks <+: blocks.flatten := by
  induction blocks generalizing length with
  | nil => exact List.prefix_refl _
  | cons block blocks ih =>
    have hblock := h block List.mem_cons_self
    rw [cutBlocks, List.flatten_cons]
    rcases Nat.lt_or_ge length (used block) with hshort | hlong
    · have hgone : length - logBlock = 0 := by omega
      rw [hgone, cutBlocks_zero, List.append_nil]
      exact (cutRecords_start length block).trans (List.prefix_append _ _)
    · rw [cutRecords_of_le hlong, List.prefix_append_right_inj]
      exact ih fun other hother => h other (List.mem_cons_of_mem _ hother)

theorem cutBlocks_mono {longer : ℕ} (h : length ≤ longer) :
    (cutBlocks length blocks).length ≤ (cutBlocks longer blocks).length := by
  induction blocks generalizing length longer with
  | nil => exact Nat.le_refl _
  | cons block blocks ih =>
    rw [cutBlocks, cutBlocks, List.length_append, List.length_append]
    have hblock := @cutRecords_mono block length longer h
    have hblocks := @ih (length - logBlock) (longer - logBlock) (by omega)
    omega

/-- A cut before the last block's end costs a record. -/
theorem length_cutBlocks_lt {block : List Fragment}
    (h : ∀ block ∈ blocks, used block ≤ logBlock) (hcut : length < blocks.length * logBlock + used block) :
    block ≠ [] → (cutBlocks length (blocks ++ [block])).length < (blocks ++ [block]).flatten.length := by
  intro hne
  induction blocks generalizing length with
  | nil =>
    have hlt : length < used block := by simpa using hcut
    simpa [cutBlocks] using length_cutRecords_lt hlt
  | cons first blocks ih =>
    have hmore := @ih (length - logBlock) fun other hother => h other (List.mem_cons_of_mem _ hother)
    have hfirst := (cutRecords_start length first).length_le
    rw [List.cons_append, cutBlocks, List.flatten_cons, List.length_append, List.length_append]
    rw [List.length_cons, Nat.succ_mul] at hcut
    rcases Nat.lt_or_ge length logBlock with hshort | hlong
    · -- nothing is read of the last block
      have hgone : length - logBlock = 0 := by omega
      have hsome : 0 < block.length := List.length_pos_of_ne_nil hne
      rw [hgone, cutBlocks_zero, List.flatten_append, List.length_append, List.flatten_singleton,
        List.length_nil]
      omega
    · have := hmore (by omega)
      omega

end Cutting

/-- A record that is cut off is not one. -/
theorem recordAt_cut {fragment : Fragment} (h : fragment.Fits) {length : ℕ}
    (hcut : length < (frame fragment).length) (rest : List UInt8) :
    recordAt ((frame fragment ++ rest).take length) = .ended ∨
      recordAt ((frame fragment ++ rest).take length) = .torn := by
  rw [List.take_append_of_le_length (by omega)]
  rw [length_frame] at hcut
  have hlen : ((frame fragment).take length).length = length := by
    rw [List.length_take, length_frame]
    omega
  by_cases hshort : length < logHeaderLen
  · left
    rw [recordAt, if_pos (by omega)]
  · right
    have hseven : 7 ≤ length := by
      rw [logHeaderLen] at hshort
      omega
    have hsize : (((frame fragment).take length).drop 4).take 2 = toLe 2 fragment.payload.length := by
      rw [List.drop_take, List.take_take, Nat.min_eq_left (by omega)]
      simp [frame]
    have hbounded : fragment.payload.length < 256 ^ 2 := h.short
    have hmissing : (((frame fragment).take length).drop logHeaderLen).length < fragment.payload.length := by
      rw [List.length_drop, hlen]
      omega
    rw [recordAt, if_neg (by omega)]
    simp only [hsize, ofLe_toLe hbounded]
    rw [if_pos (.inr hmissing)]

theorem blockRecords_cut {fragments : List Fragment} (h : ∀ fragment ∈ fragments, fragment.Fits)
    {rest : List UInt8} (hrest : rest.length < logHeaderLen) (length : ℕ) {fuel : ℕ}
    (hfuel : ((fragments.flatMap frame ++ rest).take length).length ≤ fuel) :
    blockRecords fuel ((fragments.flatMap frame ++ rest).take length) = (cutRecords length fragments, false) := by
  induction fragments generalizing length fuel with
  | nil =>
    have hended : (rest.take length).length < logHeaderLen := by
      rw [List.length_take]
      omega
    cases fuel with
    | zero => rfl
    | succ fuel =>
      rw [List.flatMap_nil, List.nil_append, blockRecords, recordAt, if_pos hended]
      rfl
  | cons fragment fragments ih =>
    have hfits := h fragment List.mem_cons_self
    rw [List.flatMap_cons, List.append_assoc] at hfuel ⊢
    rw [cutRecords]
    split_ifs with hwhole
    · have hsplit : (frame fragment ++ (fragments.flatMap frame ++ rest)).take length = frame fragment ++
          (fragments.flatMap frame ++ rest).take (length - (frame fragment).length) := by
        rw [List.take_append, List.take_of_length_le hwhole]
      rw [hsplit, List.length_append] at hfuel
      rw [hsplit]
      have hheader : 0 < (frame fragment).length := by
        rw [length_frame, logHeaderLen]
        omega
      cases fuel with
      | zero => omega
      | succ fuel =>
        have hmore := @ih (fun other hother => h other (List.mem_cons_of_mem _ hother))
          (length - (frame fragment).length) fuel (by omega)
        rw [blockRecords, recordAt_frame hfits]
        simp only [if_pos hfits.known, hmore]
    · cases fuel with
      | zero => rfl
      | succ fuel =>
        rcases recordAt_cut hfits (Nat.not_le.mp hwhole) (fragments.flatMap frame ++ rest) with hat | hat
        · rw [blockRecords, hat]
        · rw [blockRecords, hat]

section Reading

variable {β : Type*} (apply : List UInt8 → β → β)

/-- Where no checksum fails, a log is its records, one after another. -/
theorem readLog_records {data : List UInt8} (builder : β) {count : ℕ}
    (hcount : (data.length + logBlock - 1) / logBlock ≤ count)
    (h : ∀ block, (readRecords (chunk logBlock block data)).2 = false) :
    readLog apply data builder = (((List.range count).flatMap fun block =>
      (readRecords (chunk logBlock block data)).1).foldl (LogState.follow apply)
        { fragments := none, builder }).builder := by
  have hblocks : ∀ (indices : List ℕ) (state : LogState β),
      (indices.map fun index => chunk logBlock index data).foldl
        (fun state block => readLogBlock apply block.length block state) state =
      (indices.flatMap fun block => (readRecords (chunk logBlock block data)).1).foldl
        (LogState.follow apply) state := by
    intro indices
    induction indices with
    | nil => exact fun state => rfl
    | cons index indices ih =>
      intro state
      have hread := h index
      rw [readRecords] at hread
      rw [List.map_cons, List.foldl_cons, readLogBlock_eq, hread, if_neg Bool.false_ne_true, List.flatMap_cons,
        List.foldl_append, ih]
      rfl
  have hmore : ((List.range count).flatMap fun block => (readRecords (chunk logBlock block data)).1) =
      (List.range ((data.length + logBlock - 1) / logBlock)).flatMap fun block =>
        (readRecords (chunk logBlock block data)).1 := by
    induction count, hcount using Nat.le_induction with
    | base => rfl
    | succ count hcount ih =>
      have hnone : (readRecords (chunk logBlock count data)).1 = [] := by
        have hplaces := places_beyond hcount
        rw [places, List.append_eq_nil_iff, List.map_eq_nil_iff, List.zipIdx_eq_nil_iff] at hplaces
        exact hplaces.1
      rw [List.range_succ, List.flatMap_append, ih, List.flatMap_singleton, hnone, List.append_nil]
  rw [hmore, readLog, chunks, hblocks]

theorem chunk_take (size index length : ℕ) (data : List UInt8) :
    chunk size index (data.take length) = (chunk size index data).take (length - index * size) := by
  rw [chunk, chunk, List.drop_take, List.take_take, List.take_take, Nat.min_comm]

theorem cutBlocks_eq (length : ℕ) {blocks : List (List Fragment)} {count : ℕ} (hcount : blocks.length ≤ count) :
    cutBlocks length blocks = (List.range count).flatMap fun index =>
      cutRecords (length - index * logBlock) (blocks[index]?.getD []) := by
  induction blocks generalizing length count with
  | nil => simp [cutBlocks, cutRecords]
  | cons block blocks ih =>
    obtain ⟨more, rfl⟩ : ∃ more, count = more + 1 := ⟨count - 1, by rw [List.length_cons] at hcount; omega⟩
    have hshift : ∀ index, length - logBlock - index * logBlock = length - (index + 1) * logBlock := by
      intro index
      rw [Nat.succ_mul]
      omega
    rw [cutBlocks, ih _ (Nat.le_of_succ_le_succ hcount), List.range_succ_eq_map, List.flatMap_cons,
      List.flatMap_map]
    simp [hshift]

/-- Of a block that is cut off the records before the cut are read. -/
theorem readRecords_cut {layout : Layout} (h : layout.Ok) (length index : ℕ) :
    readRecords (chunk logBlock index (layout.bytes.take length)) =
      (cutRecords (length - index * logBlock) (layout.blocks[index]?.getD []), false) := by
  rw [chunk_take, Layout.bytes, chunk_flatMap (fun block hblock => Layout.length_padded (h.full block hblock).1)
    h.within, Layout.blocks]
  have hnil : ([] : List UInt8).length < logHeaderLen := by decide
  split_ifs with hlast
  · have hread := blockRecords_cut (h.fits layout.current (by simp)) hnil (length - index * logBlock)
      (Nat.le_refl _)
    rw [List.append_nil] at hread
    rw [readRecords, hread, hlast, List.getElem?_concat_length]
    rfl
  · rcases Nat.lt_or_ge index layout.full.length with hlt | hge
    · rw [List.getElem?_append_left hlt, List.getElem?_eq_getElem hlt]
      have hmem := List.getElem_mem hlt
      have hfull := h.full _ hmem
      have hpad : (List.replicate (logBlock - used layout.full[index]) (0 : UInt8)).length < logHeaderLen := by
        rw [List.length_replicate]
        omega
      exact blockRecords_cut (h.fits _ (List.mem_append_left _ hmem)) hpad _ (Nat.le_refl _)
    · have hbeyond : (layout.full ++ [layout.current]).length ≤ index := by
        rw [List.length_append, List.length_singleton]
        omega
      rw [List.getElem?_eq_none hge, List.getElem?_eq_none hbeyond]
      simp [readRecords, blockRecords, cutRecords]

/-- Of a log that is cut off the records before the cut are read. -/
theorem readLog_cut {layout : Layout} (h : layout.Ok) (length : ℕ) (builder : β) :
    readLog apply (layout.bytes.take length) builder =
      ((cutBlocks length layout.blocks).foldl (LogState.follow apply) { fragments := none, builder }).builder := by
  have hpos : 0 < logBlock := by decide
  have hcount : ((layout.bytes.take length).length + logBlock - 1) / logBlock ≤ layout.blocks.length := by
    have hwithin := h.within
    have hlen := List.length_take_le' length layout.bytes
    rw [h.length_bytes] at hlen
    rw [Layout.blocks, List.length_append, List.length_singleton, ← Nat.lt_succ_iff,
      Nat.div_lt_iff_lt_mul hpos, Nat.succ_mul, Nat.succ_mul]
    omega
  rw [readLog_records apply builder hcount fun block => by rw [readRecords_cut h],
    cutBlocks_eq length (Nat.le_refl _)]
  simp only [readRecords_cut h]

end Reading

section Batches

variable {β : Type*} (apply : List UInt8 → β → β) {first : Bool} {rest : List UInt8} {parts : List Fragment}

theorem follow_of_kind (state : LogState β) (fragment : Fragment) :
    (fragment.kind = 1 → state.follow apply fragment =
      { state with builder := apply fragment.payload state.builder }) ∧
    (fragment.kind = 2 → state.follow apply fragment = { state with fragments := some fragment.payload }) ∧
    (fragment.kind = 3 → state.follow apply fragment =
      { state with fragments := state.fragments.map (· ++ fragment.payload) }) ∧
    (fragment.kind = 4 → ∀ record, state.fragments = some record → state.follow apply fragment =
      { fragments := none, builder := apply (record ++ fragment.payload) state.builder }) := by
  refine ⟨fun h => ?_, fun h => ?_, fun h => ?_, fun h record hrecord => ?_⟩ <;>
    simp [LogState.follow, LogState.take, *]

theorem Pieces.follow_rest (h : Pieces first rest parts) (hfirst : first = false) (record : List UInt8)
    (builder : β) : parts.foldl (LogState.follow apply) { fragments := some record, builder } =
      { fragments := none, builder := apply (record ++ rest) builder } := by
  induction h generalizing record with
  | last first rest =>
    subst hfirst
    exact (follow_of_kind apply { fragments := some record, builder }
      { kind := fragmentKind false true, payload := rest }).2.2.2 rfl record rfl
  | more first piece h ih =>
    subst hfirst
    rw [List.foldl_cons, (follow_of_kind apply _ _).2.2.1 rfl]
    exact (ih rfl (record ++ piece)).trans (by rw [List.append_assoc])

/-- The pieces of a batch apply it. -/
theorem Pieces.follow (h : Pieces true rest parts) (builder : β) :
    parts.foldl (LogState.follow apply) { fragments := none, builder } =
      { fragments := none, builder := apply rest builder } := by
  cases h with
  | last =>
    exact (follow_of_kind apply { fragments := none, builder }
      { kind := fragmentKind true true, payload := rest }).1 rfl
  | more _ piece h =>
    rw [List.foldl_cons, (follow_of_kind apply _ _).2.1 rfl]
    exact h.follow_rest apply rfl piece builder

/-- Only the last piece applies anything. -/
theorem Pieces.follow_cut (h : Pieces true rest parts) {count : ℕ} (hcount : count < parts.length)
    (state : LogState β) :
    ((parts.take count).foldl (LogState.follow apply) state).builder = state.builder := by
  obtain ⟨init, last, rfl, -, hinit⟩ := h.ends
  rw [List.length_append, List.length_singleton] at hcount
  rw [List.take_append_of_le_length (by omega)]
  have hquiet : ∀ fragments : List Fragment, (∀ fragment ∈ fragments, fragment.kind = 2 ∨ fragment.kind = 3) →
      ∀ state : LogState β, (fragments.foldl (LogState.follow apply) state).builder = state.builder := by
    intro fragments
    induction fragments with
    | nil => exact fun _ _ => rfl
    | cons fragment fragments ih =>
      intro hkinds state
      rw [List.foldl_cons, ih fun other hother => hkinds other (List.mem_cons_of_mem _ hother)]
      rcases hkinds fragment List.mem_cons_self with h2 | h3
      · rw [(follow_of_kind apply state fragment).2.1 h2]
      · rw [(follow_of_kind apply state fragment).2.2.1 h3]
  exact hquiet _ (fun fragment hfragment => hinit fragment (List.mem_of_mem_take hfragment)) state

theorem writeBatch_start (fuel : ℕ) (out rest : List UInt8) (first : Bool) :
    out <+: writeBatch fuel out rest first := by
  induction fuel generalizing out rest first with
  | zero => exact List.prefix_refl _
  | succ fuel ih =>
    rw [writeBatch]
    simp only
    split_ifs
    · exact (List.prefix_append _ _).trans (ih _ _ _)
    · exact List.prefix_append _ _
    · exact (List.prefix_append _ _).trans (ih _ _ _)

theorem writeLog_concat (batches : List (List UInt8)) (batch : List UInt8) :
    writeLog (batches ++ [batch]) = writeBatch (batch.length + 3) (writeLog batches) batch true := by
  simp [writeLog]

theorem writeLog_start (batches more : List (List UInt8)) : writeLog batches <+: writeLog (batches ++ more) := by
  induction more using List.reverseRecOn with
  | nil => rw [List.append_nil]
  | append_singleton more batch ih =>
    rw [← List.append_assoc, writeLog_concat]
    exact ih.trans (writeBatch_start _ _ _ _)

theorem lay_concat (batches : List (List UInt8)) (batch : List UInt8) :
    (lay (batches ++ [batch])).current ≠ [] ∧ ∃ parts, Pieces true batch parts ∧
      (lay (batches ++ [batch])).records = (lay batches).records ++ parts := by
  obtain ⟨-, hok, hshaped, -⟩ := lay_spec batches
  have hlay : lay (batches ++ [batch]) = layBatch (batch.length + 2) (lay batches) batch true := by
    simp [lay]
  have hturns : turnsFor (lay batches) batch ≤ batch.length + 2 := by
    rw [turnsFor]
    split_ifs <;> omega
  obtain ⟨-, -, parts, hparts, hrecords⟩ := layBatch_spec hok hshaped hturns
  have hcurrent : ∀ (fuel : ℕ) (layout : Layout) (rest : List UInt8) (first : Bool),
      turnsFor layout rest ≤ fuel → (layBatch fuel layout rest first).current ≠ [] := by
    intro fuel
    induction fuel with
    | zero =>
      intro layout rest first h
      rw [turnsFor] at h
      omega
    | succ fuel ih =>
      intro layout rest first h
      rw [layBatch_succ]
      cases hmore : nextLast layout rest with
      | true => simp [pushNext, Layout.push]
      | false => exact ih _ _ _ (turnsFor_pushNext first h hmore)
  rw [hlay]
  exact ⟨hcurrent _ _ _ _ hturns, parts, hparts, hrecords⟩

theorem follow_records (batches : List (List UInt8)) (builder : β) :
    (lay batches).records.foldl (LogState.follow apply) { fragments := none, builder } =
      { fragments := none, builder := batches.foldl (fun builder batch => apply batch builder) builder } := by
  induction batches using List.reverseRecOn with
  | nil => rfl
  | append_singleton batches batch ih =>
    obtain ⟨-, parts, hparts, hrecords⟩ := lay_concat batches batch
    rw [hrecords, List.foldl_append, ih, hparts.follow, List.foldl_append]
    rfl

/-- The batches that lie wholly before a cut. -/
def wholeBefore (length : ℕ) (batches : List (List UInt8)) : List (List UInt8) :=
  batches.take (Nat.findGreatest (fun count => (writeLog (batches.take count)).length ≤ length) batches.length)

/-- The records of batches that lie before the cut are read. -/
theorem records_le_cut {batches : List (List UInt8)} (more : List (List UInt8)) {length : ℕ}
    (h : (writeLog batches).length ≤ length) :
    (lay batches).records.length ≤ (cutBlocks length (lay (batches ++ more)).blocks).length := by
  obtain ⟨hbytes, hok, -⟩ := lay_spec batches
  obtain ⟨hbytes', hok', -⟩ := lay_spec (batches ++ more)
  have hsame : (lay (batches ++ more)).bytes.take (writeLog batches).length =
      (lay batches).bytes.take (writeLog batches).length := by
    rw [← hbytes', ← hbytes, List.take_length]
    exact (List.prefix_iff_eq_take.mp (writeLog_start batches more)).symm
  have hblock : ∀ index, cutRecords ((writeLog batches).length - index * logBlock)
      ((lay (batches ++ more)).blocks[index]?.getD []) =
      cutRecords ((writeLog batches).length - index * logBlock) ((lay batches).blocks[index]?.getD []) := by
    intro index
    have hleft := readRecords_cut hok' (writeLog batches).length index
    rw [hsame, readRecords_cut hok] at hleft
    exact (Prod.mk.inj hleft).1.symm
  have hcut : cutBlocks (writeLog batches).length (lay (batches ++ more)).blocks =
      cutBlocks (writeLog batches).length (lay batches).blocks := by
    rw [cutBlocks_eq _ (Nat.le_max_left _ (lay batches).blocks.length),
      cutBlocks_eq _ (Nat.le_max_right (lay (batches ++ more)).blocks.length _)]
    simp only [hblock]
  have hall : ∀ (full : List (List Fragment)) (current : List Fragment) (length : ℕ),
      (∀ block ∈ full, used block ≤ logBlock) → full.length * logBlock + used current ≤ length →
      cutBlocks length (full ++ [current]) = (full ++ [current]).flatten := by
    intro full
    induction full with
    | nil =>
      intro current length _ hlen
      simp only [List.length_nil, Nat.zero_mul, Nat.zero_add] at hlen
      simp [cutBlocks, cutRecords_of_le hlen]
    | cons block full ih =>
      intro current length hfull hlen
      have hblock := hfull block List.mem_cons_self
      rw [List.length_cons, Nat.succ_mul] at hlen
      rw [List.cons_append, cutBlocks, cutRecords_of_le (by omega),
        ih current _ (fun other hother => hfull other (List.mem_cons_of_mem _ hother)) (by omega),
        List.flatten_cons]
  have hwhole : cutBlocks (writeLog batches).length (lay batches).blocks = (lay batches).records := by
    rw [Layout.records_eq]
    refine hall _ _ _ (fun block hblock => (hok.full block hblock).1) ?_
    rw [hbytes, hok.length_bytes]
  calc (lay batches).records.length
      = (cutBlocks (writeLog batches).length (lay (batches ++ more)).blocks).length := by rw [hcut, hwhole]
    _ ≤ _ := cutBlocks_mono h

theorem cut_start_records (batches : List (List UInt8)) (length : ℕ) :
    cutBlocks length (lay batches).blocks <+: (lay batches).records := by
  obtain ⟨-, hok, -⟩ := lay_spec batches
  rw [Layout.records_eq]
  refine cutBlocks_start fun block hblock => ?_
  rcases List.mem_append.mp hblock with hfull | hcurrent
  · exact (hok.full block hfull).1
  · rw [List.mem_singleton.mp hcurrent]
    exact hok.within

/-- Of a log that is cut off the batches that lie wholly before the cut are applied. -/
theorem readLog_take (batches : List (List UInt8)) (length : ℕ) (builder : β) :
    readLog apply ((writeLog batches).take length) builder =
      (wholeBefore length batches).foldl (fun builder batch => apply batch builder) builder := by
  have hnone : (writeLog (batches.take 0)).length ≤ length := Nat.zero_le _
  have hlast := Nat.findGreatest_spec (P := fun count => (writeLog (batches.take count)).length ≤ length)
    (Nat.zero_le batches.length) hnone
  have hnext := fun h => Nat.findGreatest_is_greatest
    (P := fun count => (writeLog (batches.take count)).length ≤ length) (n := batches.length)
    (Nat.lt_succ_self _) h
  rw [wholeBefore]
  generalize Nat.findGreatest (fun count => (writeLog (batches.take count)).length ≤ length) batches.length =
    count at hlast hnext
  cases hmore : batches.drop count with
  | nil =>
    have hwhole : batches.take count = batches := List.take_of_length_le (List.drop_eq_nil_iff.mp hmore)
    rw [hwhole] at hlast ⊢
    obtain ⟨hbytes, hok, -⟩ := lay_spec batches
    have hall := records_le_cut [] hlast
    rw [List.append_nil] at hall
    rw [hbytes, readLog_cut apply hok, (cut_start_records batches length).eq_of_length_le hall, follow_records]
  | cons batch more =>
    have hsplit : batches = batches.take count ++ [batch] ++ more := by
      rw [List.append_assoc, List.singleton_append, ← hmore, List.take_append_drop]
    have hlt : count < batches.length := by
      by_contra hbeyond
      rw [List.drop_eq_nil_of_le (Nat.not_lt.mp hbeyond)] at hmore
      exact absurd hmore (by simp)
    have htake : batches.take (count + 1) = batches.take count ++ [batch] := by
      rw [List.take_add_one, ← List.head?_drop, hmore]
      rfl
    have hcut : length < (writeLog (batches.take count ++ [batch])).length := by
      rw [← htake]
      exact Nat.not_le.mp (hnext hlt)
    have hdata : (writeLog batches).take length = (writeLog (batches.take count ++ [batch])).take length := by
      obtain ⟨tail, htail⟩ := writeLog_start (batches.take count ++ [batch]) more
      rw [← hsplit] at htail
      rw [← htail, List.take_append_of_le_length (Nat.le_of_lt hcut)]
    obtain ⟨hbytes, hok, -⟩ := lay_spec (batches.take count ++ [batch])
    obtain ⟨hcurrent, parts, hparts, hrecords⟩ := lay_concat (batches.take count) batch
    have hge := records_le_cut [batch] hlast
    have hless := length_cutBlocks_lt (fun block hblock => (hok.full block hblock).1)
      (by rw [← hok.length_bytes, ← hbytes]; exact hcut) hcurrent
    have hread := List.prefix_iff_eq_take.mp (cut_start_records (batches.take count ++ [batch]) length)
    rw [← Layout.blocks, ← Layout.records_eq, hrecords, List.length_append] at hless
    rw [hrecords, List.take_append, List.take_of_length_le hge] at hread
    rw [hdata, hbytes, readLog_cut apply hok, hread, List.foldl_append, follow_records,
      hparts.follow_cut apply (by omega)]

end Batches

end UwuSsh.Chromium

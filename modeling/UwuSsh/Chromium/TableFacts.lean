import UwuSsh.Chromium.Table

/-!
A table that was written is read back: its blocks entry by entry, as long as the restarts are no further
apart than the copies of the keys may be, and then the table block by block.
-/
namespace UwuSsh.Chromium

section Entries

theorem sharedLength_spec (previous key : List UInt8) :
    sharedLength previous key ≤ previous.length ∧ sharedLength previous key ≤ key.length ∧
      previous.take (sharedLength previous key) = key.take (sharedLength previous key) := by
  induction previous generalizing key with
  | nil => simp [sharedLength]
  | cons a previous ih =>
    cases key with
    | nil => simp [sharedLength]
    | cons b key =>
      by_cases hab : a = b
      · obtain ⟨hprevious, hkey, htake⟩ := ih key
        have hcons : sharedLength (a :: previous) (b :: key) = sharedLength previous key + 1 := by
          simp [sharedLength, hab]
        rw [hcons, List.length_cons, List.length_cons, List.take_succ_cons, List.take_succ_cons, htake, hab]
        exact ⟨Nat.succ_le_succ hprevious, Nat.succ_le_succ hkey, rfl⟩
      · have hnone : sharedLength (a :: previous) (b :: key) = 0 := by simp [sharedLength, hab]
        simp [hnone]

/-- What the copies of the keys may take up by now: those since the last restart are no longer than what was
written since. -/
def Copied (interval index : ℕ) (key : List UInt8) (pos copied : ℕ) : Prop :=
  ∃ base group turn, base + group = pos ∧ key.length ≤ group ∧ turn ≤ 16 ∧
    (index % interval ≠ 0 → turn = index % interval) ∧ copied ≤ 16 * base + turn * group

theorem Copied.le {interval index : ℕ} {key : List UInt8} {pos copied : ℕ}
    (h : Copied interval index key pos copied) : copied ≤ 16 * pos ∧ key.length ≤ pos := by
  obtain ⟨base, group, turn, hpos, hkey, hturn, -, hcopied⟩ := h
  have hgroup : turn * group ≤ 16 * group := Nat.mul_le_mul_right group hturn
  omega

theorem Copied.step {interval index : ℕ} {previous key : List UInt8} {pos copied shared length : ℕ}
    (hinterval : 1 ≤ interval ∧ interval ≤ 16) (h : Copied interval index previous pos copied)
    (hrestart : index % interval = 0 → shared = 0) (hshared : shared ≤ previous.length)
    (hlength : key.length - shared ≤ length) :
    Copied interval (index + 1) key (pos + length) (saturated (copied + key.length)) := by
  obtain ⟨base, group, turn, hpos, hprevious, hturn, hindex, hcopied⟩ := h
  have hsaturated : saturated (copied + key.length) ≤ copied + key.length := Nat.min_le_left _ _
  have hlt := Nat.mod_lt index hinterval.1
  have hnext : (index + 1) % interval ≠ 0 → (index + 1) % interval = index % interval + 1 := by
    intro hne
    rw [Nat.add_mod] at hne ⊢
    rcases Nat.lt_or_ge (index % interval + 1) interval with hless | hmore
    · have hone : 1 % interval = 1 := Nat.mod_eq_of_lt (by omega)
      rw [hone, Nat.mod_eq_of_lt hless]
    · have hfull : index % interval + 1 = interval := by omega
      rcases Nat.lt_or_ge 1 interval with hbig | hone
      · rw [Nat.mod_eq_of_lt hbig, hfull, Nat.mod_self] at hne
        exact absurd rfl hne
      · have hunit : interval = 1 := by omega
        rw [hunit, Nat.mod_one] at hne
        exact absurd rfl hne
  by_cases hzero : index % interval = 0
  · -- a restart: what was written before it is behind
    have hnone := hrestart hzero
    have hgroup : turn * group ≤ 16 * group := Nat.mul_le_mul_right group hturn
    refine ⟨base + group, length, 1, by omega, by omega, by omega, fun hne => ?_, by omega⟩
    rw [hnext hne, hzero]
  · have hturneq := hindex hzero
    have hkey : key.length ≤ group + length := by omega
    refine ⟨base, group + length, turn + 1, by omega, hkey, by omega, fun hne => ?_, ?_⟩
    · rw [hnext hne, hturneq]
    · have hmono : turn * group ≤ turn * (group + length) := Nat.mul_le_mul_left turn (by omega)
      rw [Nat.add_mul, Nat.one_mul]
      omega

theorem writeEntry_length (shared : ℕ) (key value : List UInt8) :
    (writeEntry shared key value).length = (putVarint shared).length + (putVarint (key.length - shared)).length +
      (putVarint value.length).length + (key.length - shared) + value.length := by
  simp only [writeEntry, List.length_append, List.length_drop]

/-- Entries that were written are read, one after another. -/
theorem blockEntriesFrom_written {block tail : List UInt8} {interval entriesEnd budget : ℕ}
    (hinterval : 1 ≤ interval ∧ interval ≤ 16) (hsize : block.length < 2 ^ 64)
    (hbudget : saturated (block.length * 16) ≤ budget) {entries : List BlockEntry} {fuel index pos copied offset : ℕ}
    {previous : List UInt8}
    (hdata : block.drop pos = (writeEntries interval index previous offset entries).1 ++ tail)
    (hend : entriesEnd = pos + (writeEntries interval index previous offset entries).1.length)
    (hfuel : entries.length ≤ fuel) (hcopied : Copied interval index previous pos copied) :
    blockEntriesFrom block entriesEnd budget fuel pos previous copied = .ok entries := by
  induction entries generalizing fuel index pos copied offset previous with
  | nil =>
    have hdone : ¬ pos < entriesEnd := by
      rw [hend, writeEntries, List.length_nil]
      omega
    cases fuel with
    | zero => rfl
    | succ fuel => rw [blockEntriesFrom, if_neg hdone]
  | cons entry entries ih =>
    obtain ⟨key, value⟩ := entry
    cases fuel with
    | zero => simp at hfuel
    | succ fuel =>
      -- what the writer wrote for this entry
      generalize hshare : (if index % interval == 0 then 0 else sharedLength previous key) = shared
      have hshared : shared ≤ previous.length ∧ shared ≤ key.length ∧
          previous.take shared ++ key.drop shared = key := by
        obtain ⟨hprevious, hkey, htake⟩ := sharedLength_spec previous key
        split_ifs at hshare
        · subst hshare
          simp
        · subst hshare
          rw [htake, List.take_append_drop]
          exact ⟨hprevious, hkey, rfl⟩
      have hrestart : index % interval = 0 → shared = 0 := by
        intro hzero
        rw [← hshare, hzero]
        rfl
      have hwritten : (writeEntries interval index previous offset ((key, value) :: entries)).1 =
          writeEntry shared key value ++
            (writeEntries interval (index + 1) key (offset + (writeEntry shared key value).length) entries).1 := by
        rw [← hshare]
        rfl
      generalize hmore : (writeEntries interval (index + 1) key (offset + (writeEntry shared key value).length)
        entries).1 = more at hwritten
      rw [hwritten, List.length_append] at hend
      rw [hwritten, List.append_assoc] at hdata
      have hnext := drop_of_drop hdata
      have hlen : pos + (writeEntry shared key value).length + (more ++ tail).length = block.length := by
        refine le_of_drop hdata ?_
        rw [writeEntry]
        simp [putVarint_ne_nil]
      rw [List.length_append] at hlen
      have hlength := writeEntry_length shared key value
      have hkeylen := hcopied.le.2
      have hdata0 : block.drop pos = putVarint shared ++ (putVarint (key.length - shared) ++
          (putVarint value.length ++ (key.drop shared ++ (value ++ (more ++ tail))))) := by
        rw [hdata, writeEntry]
        simp only [List.append_assoc]
      have hdata1 := drop_of_drop hdata0
      have hdata2 := drop_of_drop hdata1
      have hdata3 := drop_of_drop hdata2
      have hdata4 := drop_of_drop hdata3
      rw [List.length_drop] at hdata4
      have hstep := hcopied.step hinterval hrestart hshared.1
        (show key.length - shared ≤ (writeEntry shared key value).length by omega)
      have hwithin : saturated (copied + key.length) ≤ budget := by
        have hcopies := hstep.le.1
        rw [saturated] at hbudget hcopies ⊢
        omega
      have hpos : pos < entriesEnd := by
        have hsome := List.length_pos_of_ne_nil (putVarint_ne_nil shared)
        omega
      rw [blockEntriesFrom, if_pos hpos, varint_put hdata0 (by omega)]
      simp only
      rw [varint_put hdata1 (by omega)]
      simp only
      rw [varint_put hdata2 (by omega)]
      simp only
      have hkeyread : previous.take shared ++ (block.drop (pos + (putVarint shared).length +
          (putVarint (key.length - shared)).length + (putVarint value.length).length)).take (key.length - shared) =
          key := by
        rw [hdata3, ← List.length_drop, List.take_append_length, hshared.2.2]
      rw [if_neg (by omega), hkeyread, if_neg (Nat.not_lt.mpr hwithin), hdata4, List.take_append_length]
      have hposeq : pos + (putVarint shared).length + (putVarint (key.length - shared)).length +
          (putVarint value.length).length + (key.length - shared) + value.length =
          pos + (writeEntry shared key value).length := by omega
      rw [hposeq, @ih fuel (index + 1) (pos + (writeEntry shared key value).length) _
        (offset + (writeEntry shared key value).length) key (by rw [hmore]; exact hnext) (by rw [hmore]; omega)
        (Nat.le_of_succ_le_succ hfuel) hstep]

/-- How many restarts a block has. -/
def restartCount (interval : ℕ) (entries : List BlockEntry) : ℕ := (writeEntries interval 0 [] 0 entries).2.length

theorem length_entries_le (interval index : ℕ) (previous : List UInt8) (offset : ℕ) (entries : List BlockEntry) :
    entries.length ≤ (writeEntries interval index previous offset entries).1.length := by
  induction entries generalizing index previous offset with
  | nil => exact Nat.le_refl _
  | cons entry entries ih =>
    obtain ⟨key, value⟩ := entry
    simp only [writeEntries, List.length_cons, List.length_append]
    generalize (if index % interval == 0 then 0 else sharedLength previous key) = shared
    have hmore := ih (index + 1) key (offset + (writeEntry shared key value).length)
    have hlength := writeEntry_length shared key value
    have hsome := List.length_pos_of_ne_nil (putVarint_ne_nil shared)
    omega

/-- A block of entries that was written is read back. -/
theorem blockEntries_contents {interval : ℕ} (hinterval : 1 ≤ interval ∧ interval ≤ 16)
    {entries : List BlockEntry} (hsize : (blockContents interval entries).length < 2 ^ 64)
    (hrestarts : restartCount interval entries < 2 ^ 32) :
    blockEntries (blockContents interval entries) = .ok entries := by
  have hcontents : blockContents interval entries = (writeEntries interval 0 [] 0 entries).1 ++
      ((writeEntries interval 0 [] 0 entries).2.flatMap (toLe 4) ++ toLe 4 (restartCount interval entries)) := by
    rw [blockContents, List.append_assoc]
    rfl
  have hoffsets : ∀ restarts : List ℕ, (restarts.flatMap (toLe 4)).length = restarts.length * 4 := by
    intro restarts
    induction restarts with
    | nil => rfl
    | cons restart restarts ih =>
      rw [List.flatMap_cons, List.length_append, length_toLe, ih, List.length_cons]
      omega
  have hlen : (blockContents interval entries).length =
      (writeEntries interval 0 [] 0 entries).1.length + (restartCount interval entries * 4 + 4) := by
    rw [hcontents, List.length_append, List.length_append, hoffsets, length_toLe, restartCount]
  have hlast : (blockContents interval entries).drop ((blockContents interval entries).length - 4) =
      toLe 4 (restartCount interval entries) := by
    have hsplit : blockContents interval entries = ((writeEntries interval 0 [] 0 entries).1 ++
        (writeEntries interval 0 [] 0 entries).2.flatMap (toLe 4)) ++ toLe 4 (restartCount interval entries) := rfl
    have hbefore : (blockContents interval entries).length - 4 = ((writeEntries interval 0 [] 0 entries).1 ++
        (writeEntries interval 0 [] 0 entries).2.flatMap (toLe 4)).length := by
      rw [hlen, List.length_append, hoffsets, restartCount]
      omega
    rw [hbefore, hsplit, List.drop_append_length]
  have hcount : ofLe (toLe 4 (restartCount interval entries)) = restartCount interval entries := ofLe_toLe hrestarts
  have hfuel := length_entries_le interval 0 [] 0 entries
  rw [blockEntries, if_neg (by omega)]
  simp only [hlast, hcount]
  rw [if_neg (by omega)]
  refine blockEntriesFrom_written hinterval hsize ?_ (by rw [List.drop_zero]; exact hcontents) (by omega)
    (by omega) ⟨0, 0, 0, rfl, Nat.le_refl 0, by omega, ?_, by omega⟩
  · rw [saturated, saturated]
    omega
  · intro h
    rw [Nat.zero_mod] at h
    exact absurd rfl h

end Entries

section Blocks

variable {snap : Snappy} {data after : List UInt8} {offset : ℕ}

/-- What a block takes up of the file besides its trailer. -/
def storedLength (snap : Snappy) (contents : List UInt8) (compress : Bool) : ℕ :=
  (sealBlock snap contents compress).length - blockTrailerLen

theorem length_sealBlock (snap : Snappy) (contents : List UInt8) (compress : Bool) :
    (sealBlock snap contents compress).length =
      (if compress then snap.compress contents else contents).length + blockTrailerLen := by
  simp [sealBlock, blockTrailerLen]

theorem crc_seal (stored : List UInt8) (kind : UInt8) :
    unmask (UInt32.ofNat (ofLe (toLe 4 (mask (crc32cExtend (crc32c stored) [kind])).toNat))) =
      crc32cExtend (crc32c stored) [kind] := by
  have hlt : (mask (crc32cExtend (crc32c stored) [kind])).toNat < 256 ^ 4 := UInt32.toNat_lt _
  rw [ofLe_toLe hlt, UInt32.ofNat_toNat, unmask_mask]

/-- What stands where a sealed block was put: it passes its checksum, and is opened by its kind. -/
theorem readBlock_seal {contents : List UInt8} {compress : Bool}
    (hdata : data.drop offset = sealBlock snap contents compress ++ after) :
    readBlock snap data (offset, storedLength snap contents compress) =
      if compress then decompressBlock snap (snap.compress contents) else .ok contents := by
  generalize hstored : (if compress then snap.compress contents else contents) = stored
  generalize hkind : (if compress then (1 : UInt8) else 0) = kind
  have hseal : sealBlock snap contents compress =
      stored ++ ([kind] ++ toLe 4 (mask (crc32cExtend (crc32c stored) [kind])).toNat) := by
    rw [← hstored, ← hkind, sealBlock, List.append_assoc]
  have hlength : storedLength snap contents compress = stored.length := by
    rw [storedLength, length_sealBlock, hstored, blockTrailerLen]
    omega
  have hlen := le_of_drop hdata (by rw [hseal]; simp)
  rw [length_sealBlock, hstored] at hlen
  rw [hseal, List.append_assoc] at hdata
  have hrest := drop_of_drop hdata
  have hcrc : (data.drop (offset + stored.length + 1)).take 4 =
      toLe 4 (mask (crc32cExtend (crc32c stored) [kind])).toNat := by
    rw [← List.tail_drop, hrest, List.append_assoc, List.singleton_append, List.tail_cons,
      List.take_append_of_le_length (by simp), List.take_of_length_le (by simp)]
  rw [readBlock, hlength]
  simp only
  rw [if_neg (by omega), hdata, List.take_append_length, hrest, hcrc]
  have hhead : ([kind] ++ toLe 4 (mask (crc32cExtend (crc32c stored) [kind])).toNat ++ after).headD 0 = kind := rfl
  rw [hhead, crc_seal, if_neg (by simp)]
  cases compress with
  | false =>
    simp only [Bool.false_eq_true, if_false] at hstored hkind ⊢
    rw [← hkind, if_pos rfl, hstored]
  | true =>
    simp only [if_true] at hstored hkind ⊢
    rw [← hkind, if_neg (by decide), if_pos rfl, hstored]

/-- A block is read back unless it is compressed and too large. -/
theorem readBlock_sealed (hsnap : snap.Lawful) {contents : List UInt8} {compress : Bool}
    (hdata : data.drop offset = sealBlock snap contents compress ++ after)
    (hsmall : compress = true → contents.length ≤ maxDecompressed) :
    readBlock snap data (offset, storedLength snap contents compress) = .ok contents := by
  rw [readBlock_seal hdata]
  cases compress with
  | false => rfl
  | true =>
    have hmax := hsmall rfl
    have hu32 : contents.length < 2 ^ 32 := by
      have hfits : maxDecompressed < 2 ^ 32 := by decide
      omega
    rw [if_pos rfl, decompressBlock, hsnap.len contents hu32, hsnap.data contents hu32]
    simp only
    rw [if_neg (by omega)]

/-- A compressed block that is too large is not. -/
theorem readBlock_too_large (hsnap : snap.Lawful) {contents : List UInt8}
    (hdata : data.drop offset = sealBlock snap contents true ++ after)
    (hu32 : contents.length < 2 ^ 32) (hlarge : maxDecompressed < contents.length) :
    readBlock snap data (offset, storedLength snap contents true) = .error "snappy block too large" := by
  rw [readBlock_seal hdata, if_pos rfl, decompressBlock, hsnap.len contents hu32]
  simp only
  rw [if_pos hlarge]

theorem blockHandle_put {size pos : ℕ} (hdata : data.drop pos = putHandle offset size ++ after)
    (hoffset : offset < 2 ^ 64) (hsize : size < 2 ^ 64) :
    blockHandle data pos = .ok ((offset, size), pos + (putHandle offset size).length) := by
  rw [putHandle, List.append_assoc] at hdata
  rw [blockHandle, varint_put hdata hoffset]
  simp only
  rw [varint_put (drop_of_drop hdata) hsize, putHandle, List.length_append, Nat.add_assoc]

theorem splitInternalKey_internalKey (write : Write) (h : write.stamp < 2 ^ 56) :
    splitInternalKey (internalKey write) = .ok (write.key, write.stamp, write.value.isSome) := by
  generalize hbit : (if write.value.isSome then 1 else 0 : ℕ) = bit
  have hsmall : bit < 2 ^ 8 := by
    rw [← hbit]
    split_ifs <;> decide
  have htag : write.stamp <<< 8 ||| bit = write.stamp * 256 + bit := by
    rw [Nat.shiftLeft_eq, Nat.mul_comm, ← Nat.two_pow_add_eq_or_of_lt hsmall]
  have hfits : write.stamp * 256 + bit < 256 ^ 8 := by omega
  have hkey : internalKey write = write.key ++ toLe 8 (write.stamp * 256 + bit) := by
    rw [internalKey, hbit, htag]
  have hlen : (internalKey write).length = write.key.length + 8 := by
    rw [hkey, List.length_append, length_toLe]
  have hat : (internalKey write).length - 8 = write.key.length := by omega
  have hhigh : (write.stamp * 256 + bit) >>> 8 = write.stamp := by
    rw [Nat.shiftRight_eq_div_pow]
    omega
  have hlow : (write.stamp * 256 + bit) &&& 0xff = bit := by
    have hmask : (0xff : ℕ) = 2 ^ 8 - 1 := rfl
    rw [hmask, Nat.and_two_pow_sub_one_eq_mod]
    omega
  rw [splitInternalKey, if_neg (by omega)]
  simp only [hat]
  rw [hkey, List.drop_append_length, List.take_append_length, ofLe_toLe hfits, hhigh, hlow, ← hbit]
  cases write.value.isSome <;> rfl

/-- A block's entries are put as they were written. -/
theorem putEntries_entries {block : DataBlock} (h : ∀ write ∈ block.writes, write.stamp < 2 ^ 56)
    (builder : Builder) : putEntries block.entries builder = (block.writes.foldl Builder.write builder, none) := by
  rw [DataBlock.entries]
  generalize block.writes = writes at h
  induction writes generalizing builder with
  | nil => rfl
  | cons write writes ih =>
    rw [List.map_cons, putEntries, splitInternalKey_internalKey write (h write List.mem_cons_self)]
    have hvalue : (if write.value.isSome then some (write.value.getD []) else none) = write.value := by
      cases write.value <;> rfl
    simp only
    rw [hvalue, ih _ fun other hother => h other (List.mem_cons_of_mem _ hother)]
    rfl

end Blocks

/-- A table as a database writes it: restarts no further apart than 16 entries, sequence numbers that leave a
tag room for its kind, and what its format counts in a `u32` and a `u64`. -/
structure Table (snap : Snappy) where
  interval : ℕ
  indexInterval : ℕ
  blocks : List DataBlock
  restarts : 1 ≤ interval ∧ interval ≤ 16
  indexRestarts : 1 ≤ indexInterval ∧ indexInterval ≤ 16
  numbered : ∀ block ∈ blocks, ∀ write ∈ block.writes, write.stamp < 2 ^ 56
  counted : ∀ block ∈ blocks, restartCount interval block.entries < 2 ^ 32
  indexed : restartCount indexInterval (writeBlocks snap interval 0 blocks).2 < 2 ^ 32
  sized : (writeTable snap interval indexInterval blocks).length < 2 ^ 64

namespace Table

variable {snap : Snappy}

def bytes (table : Table snap) : List UInt8 := writeTable snap table.interval table.indexInterval table.blocks

def writes (table : Table snap) : List Write := table.blocks.flatMap DataBlock.writes

/-- No compressed block holds more than is decompressed. -/
def Small (table : Table snap) : Prop :=
  ∀ block ∈ table.blocks, block.compress = true →
    (blockContents table.interval block.entries).length ≤ maxDecompressed

end Table

section Reading

variable {snap : Snappy} {data after : List UInt8}

theorem length_putVarint_le (value : ℕ) : (putVarint value).length ≤ 10 := by
  have hturns : ∀ turns value, (putVarintFrom turns value).length ≤ turns := by
    intro turns
    induction turns with
    | zero => exact fun _ => Nat.le_refl 0
    | succ turns ih =>
      intro value
      rw [putVarintFrom]
      split_ifs
      · exact Nat.succ_le_succ (ih _)
      · exact Nat.succ_le_succ (Nat.zero_le turns)
  exact hturns 10 value

/-- The blocks of a table are read in turn. -/
theorem readBlocks_written (hsnap : snap.Lawful) {interval : ℕ} (hinterval : 1 ≤ interval ∧ interval ≤ 16)
    (hsize : data.length < 2 ^ 64) {blocks : List DataBlock} {offset : ℕ}
    (hdata : data.drop offset = (writeBlocks snap interval offset blocks).1 ++ after)
    (hnumbered : ∀ block ∈ blocks, ∀ write ∈ block.writes, write.stamp < 2 ^ 56)
    (hcounted : ∀ block ∈ blocks, restartCount interval block.entries < 2 ^ 32)
    (hsmall : ∀ block ∈ blocks, block.compress = true →
      (blockContents interval block.entries).length ≤ maxDecompressed) (builder : Builder) :
    readBlocks snap data (writeBlocks snap interval offset blocks).2 builder =
      ((blocks.flatMap DataBlock.writes).foldl Builder.write builder, none) := by
  induction blocks generalizing offset builder with
  | nil => rfl
  | cons block blocks ih =>
    generalize hsealed : sealBlock snap (blockContents interval block.entries) block.compress = stored
    have hbytes : (writeBlocks snap interval offset (block :: blocks)).1 =
        stored ++ (writeBlocks snap interval (offset + stored.length) blocks).1 := by
      rw [← hsealed]
      rfl
    rw [hbytes, List.append_assoc] at hdata
    have hlength := length_sealBlock snap (blockContents interval block.entries) block.compress
    rw [hsealed] at hlength
    have htrailer : 0 < blockTrailerLen := by decide
    have hlen := le_of_drop hdata (List.ne_nil_of_length_pos (by omega))
    have hhandle : blockHandle (putHandle offset (stored.length - blockTrailerLen)) 0 =
        .ok ((offset, stored.length - blockTrailerLen), 0 + (putHandle offset (stored.length - blockTrailerLen)).length) :=
      blockHandle_put (by rw [List.drop_zero, List.append_nil]) (by omega) (by omega)
    have hstored : stored.length - blockTrailerLen =
        storedLength snap (blockContents interval block.entries) block.compress := by
      rw [storedLength, hsealed]
    have hblock := readBlock_sealed hsnap (by rw [hsealed]; exact hdata) (hsmall block List.mem_cons_self)
    have hcontents : (blockContents interval block.entries).length < 2 ^ 64 := by
      cases hcompress : block.compress with
      | false =>
        rw [hcompress] at hlength
        simp only [Bool.false_eq_true, if_false] at hlength
        omega
      | true =>
        have hmax := hsmall block List.mem_cons_self hcompress
        have hfits : maxDecompressed < 2 ^ 64 := by decide
        omega
    have hentries := blockEntries_contents hinterval hcontents (hcounted block List.mem_cons_self)
    have hindex : (writeBlocks snap interval offset (block :: blocks)).2 =
        ((block.entries.getLast?.map Prod.fst).getD [], putHandle offset (stored.length - blockTrailerLen)) ::
          (writeBlocks snap interval (offset + stored.length) blocks).2 := by
      rw [← hsealed]
      rfl
    rw [hindex, readBlocks, hhandle]
    simp only
    rw [hstored, hblock]
    simp only
    rw [hentries]
    simp only
    rw [putEntries_entries (hnumbered block List.mem_cons_self)]
    simp only
    rw [ih (drop_of_drop hdata) (fun other hother => hnumbered other (List.mem_cons_of_mem _ hother))
      (fun other hother => hcounted other (List.mem_cons_of_mem _ hother))
      (fun other hother => hsmall other (List.mem_cons_of_mem _ hother)), List.flatMap_cons, List.foldl_append]

/-- The footer, and where the index of a table is. -/
theorem readTable_index (table : Table snap) (builder : Builder) :
    readTable snap table.bytes builder =
      readBlocks snap table.bytes (writeBlocks snap table.interval 0 table.blocks).2 builder ∧
    ∃ rest, table.bytes = (writeBlocks snap table.interval 0 table.blocks).1 ++ rest := by
  have hsize := table.sized
  have hdata : table.bytes = writeTable snap table.interval table.indexInterval table.blocks := rfl
  rw [← hdata] at hsize
  rw [writeTable] at hdata
  generalize hwritten : writeBlocks snap table.interval 0 table.blocks = written at hdata
  generalize hmeta : sealBlock snap (blockContents table.interval []) false = metaindex at hdata
  generalize hindex : sealBlock snap (blockContents table.indexInterval written.2) false = index at hdata
  generalize hfirst : putHandle written.1.length (metaindex.length - blockTrailerLen) = first at hdata
  generalize hsecond : putHandle (written.1.length + metaindex.length) (index.length - blockTrailerLen) = second at hdata
  have hhandles : first.length + second.length ≤ 40 := by
    rw [← hfirst, ← hsecond, putHandle, putHandle, List.length_append, List.length_append]
    have h1 := length_putVarint_le written.1.length
    have h2 := length_putVarint_le (metaindex.length - blockTrailerLen)
    have h3 := length_putVarint_le (written.1.length + metaindex.length)
    have h4 := length_putVarint_le (index.length - blockTrailerLen)
    omega
  have hpadded : (first ++ second ++ List.replicate 40 (0 : UInt8)).take 40 =
      first ++ second ++ List.replicate (40 - (first.length + second.length)) 0 := by
    rw [List.take_append, List.take_of_length_le (by rw [List.length_append]; exact hhandles), List.length_append,
      List.take_replicate, Nat.min_eq_left (by omega)]
  rw [hpadded] at hdata
  generalize hpad : List.replicate (40 - (first.length + second.length)) (0 : UInt8) = pad at hdata
  have hpadlen : pad.length = 40 - (first.length + second.length) := by rw [← hpad, List.length_replicate]
  have hmagic : (toLe 8 tableMagic).length = 8 := length_toLe 8 tableMagic
  have hlength : table.bytes.length = written.1.length + metaindex.length + index.length + 48 := by
    rw [hdata]
    simp only [List.length_append, hmagic]
    omega
  have hfooter : table.bytes.drop (table.bytes.length - footerLen) =
      first ++ (second ++ (pad ++ toLe 8 tableMagic)) := by
    have hbefore : table.bytes.length - footerLen = (written.1 ++ metaindex ++ index).length := by
      rw [hlength, footerLen]
      simp only [List.length_append]
      omega
    have hsplit : table.bytes = written.1 ++ metaindex ++ index ++ (first ++ (second ++ (pad ++ toLe 8 tableMagic))) := by
      rw [hdata]
      simp only [List.append_assoc]
    rw [hbefore, hsplit, List.drop_append_length]
  have hmagicread : ((table.bytes.drop (table.bytes.length - footerLen)).drop 40).take 8 = toLe 8 tableMagic := by
    have hforty : 40 = (first ++ (second ++ pad)).length := by
      simp only [List.length_append]
      omega
    have hsplit : first ++ (second ++ (pad ++ toLe 8 tableMagic)) = (first ++ (second ++ pad)) ++ toLe 8 tableMagic := by
      simp only [List.append_assoc]
    rw [hfooter, hsplit]
    nth_rewrite 1 [hforty]
    rw [List.drop_append_length, List.take_of_length_le (by omega)]
  have hindexlen := length_sealBlock snap (blockContents table.indexInterval written.2) false
  rw [hindex] at hindexlen
  simp only [Bool.false_eq_true, if_false] at hindexlen
  have hindexdata : table.bytes.drop (written.1.length + metaindex.length) =
      index ++ (first ++ (second ++ (pad ++ toLe 8 tableMagic))) := by
    have hsplit : table.bytes = (written.1 ++ metaindex) ++ (index ++ (first ++ (second ++ (pad ++ toLe 8 tableMagic)))) := by
      rw [hdata]
      simp only [List.append_assoc]
    rw [hsplit, ← List.length_append, List.drop_append_length]
  have hfirstread : blockHandle (table.bytes.drop (table.bytes.length - footerLen)) 0 =
      .ok ((written.1.length, metaindex.length - blockTrailerLen), 0 + first.length) := by
    have hat : (table.bytes.drop (table.bytes.length - footerLen)).drop 0 =
        putHandle written.1.length (metaindex.length - blockTrailerLen) ++ (second ++ (pad ++ toLe 8 tableMagic)) := by
      rw [List.drop_zero, hfooter, hfirst]
    rw [← hfirst]
    exact blockHandle_put hat (by omega) (by omega)
  have hsecondread : blockHandle (table.bytes.drop (table.bytes.length - footerLen)) (0 + first.length) =
      .ok ((written.1.length + metaindex.length, index.length - blockTrailerLen),
        0 + first.length + second.length) := by
    have hat : (table.bytes.drop (table.bytes.length - footerLen)).drop (0 + first.length) =
        putHandle (written.1.length + metaindex.length) (index.length - blockTrailerLen) ++
          (pad ++ toLe 8 tableMagic) := by
      rw [Nat.zero_add, hfooter, List.drop_append_length, hsecond]
    rw [← hsecond]
    exact blockHandle_put hat (by omega) (by omega)
  have hstored : index.length - blockTrailerLen =
      storedLength snap (blockContents table.indexInterval written.2) false := by
    rw [storedLength, hindex]
  have hblock : readBlock snap table.bytes (written.1.length + metaindex.length, index.length - blockTrailerLen) =
      .ok (blockContents table.indexInterval written.2) := by
    rw [hstored, readBlock_seal (by rw [hindex]; exact hindexdata)]
    rfl
  have hentries : blockEntries (blockContents table.indexInterval written.2) = .ok written.2 := by
    refine blockEntries_contents table.indexRestarts (by omega) ?_
    rw [← hwritten]
    exact table.indexed
  have htable : ofLe (toLe 8 tableMagic) = tableMagic := ofLe_toLe (by decide)
  refine ⟨?_, metaindex ++ (index ++ (first ++ (second ++ (pad ++ toLe 8 tableMagic)))), ?_⟩
  · rw [readTable, if_neg (by rw [hlength, footerLen]; omega)]
    simp only
    rw [hmagicread, htable, if_neg (by simp), hfirstread]
    simp only
    rw [hsecondread]
    simp only
    rw [hblock]
    simp only
    rw [hentries]
  · rw [hdata]
    simp only [List.append_assoc]

/-- A table that was written is read back. -/
theorem readTable_written (hsnap : snap.Lawful) (table : Table snap) (hsmall : table.Small) (builder : Builder) :
    readTable snap table.bytes builder = (table.writes.foldl Builder.write builder, none) := by
  obtain ⟨hread, rest, hdata⟩ := readTable_index table builder
  have hsize : table.bytes.length < 2 ^ 64 := table.sized
  rw [hread]
  exact readBlocks_written hsnap table.restarts hsize (by rw [List.drop_zero]; exact hdata) table.numbered
    table.counted hsmall builder

end Reading

end UwuSsh.Chromium

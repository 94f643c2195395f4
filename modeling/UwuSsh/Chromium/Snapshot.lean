import UwuSsh.Chromium.LogCut
import UwuSsh.Chromium.TableFacts

/-!
What is read of a database is its state. A log that was cut off gives the state after the batches before the
cut, and tables and logs give for each key the value of its newest write, in whatever order they are read
and however often a write is met.
-/
namespace UwuSsh.Chromium

/-- What each key of a database holds. -/
abbrev Db := List UInt8 → Option (List UInt8)

def Op.run (db : Db) : Op → Db
  | put key value => Function.update db key (some value)
  | delete key => Function.update db key none

/-- The state of a database after these batches. -/
def replay (batches : List Batch) : Db :=
  batches.foldl (fun db batch => batch.ops.foldl Op.run db) fun _ => none

/-- `log` -/
def log (batches : List Batch) : List UInt8 := writeLog (batches.map Batch.encode)

/-- Each batch takes its sequence numbers behind those before it. -/
def Increasing (batches : List Batch) : Prop :=
  batches.Pairwise fun a b => a.first + a.ops.length ≤ b.first

/-- The batches that lie wholly before a cut. -/
def batchesBefore (cut : ℕ) (batches : List Batch) : List Batch :=
  batches.take (Nat.findGreatest (fun count => (log (batches.take count)).length ≤ cut) batches.length)

def allWrites (batches : List Batch) : List Write := batches.flatMap Batch.writes

/-- A file of a database. -/
inductive DbFile (snap : Snappy)
  | table (file : Table snap)
  | log (batches : List Batch)

namespace DbFile

variable {snap : Snappy}

def writes : DbFile snap → List Write
  | .table file => file.writes
  | .log batches => allWrites batches

def Small : DbFile snap → Prop
  | .table file => file.Small
  | .log _ => True

def read (builder : Builder) : DbFile snap → Builder
  | .table file => (readTable snap file.bytes builder).1
  | .log batches => readLog applyBatch (Chromium.log batches) builder

end DbFile

/-- The snapshot of a database, its files in the order they are met. -/
def snapshot {snap : Snappy} (files : List (DbFile snap)) : Db := (files.foldl DbFile.read Builder.empty).finish

section Writes

theorem stamp_numberedFrom {sequence : ℕ} {ops : List Op} :
    ∀ write ∈ numberedFrom sequence ops, sequence ≤ write.stamp ∧ write.stamp < sequence + ops.length := by
  induction ops generalizing sequence with
  | nil => simp [numberedFrom]
  | cons op ops ih =>
    intro write hwrite
    rw [List.length_cons]
    rcases List.mem_cons.mp hwrite with rfl | hlater
    · have hstamp : (op.write sequence).stamp = sequence := by cases op <;> rfl
      omega
    · have := ih write hlater
      omega

theorem sorted_numberedFrom (sequence : ℕ) (ops : List Op) :
    (numberedFrom sequence ops).Pairwise fun a b => a.stamp < b.stamp := by
  induction ops generalizing sequence with
  | nil => exact .nil
  | cons op ops ih =>
    refine .cons (fun write hwrite => ?_) (ih (sequence + 1))
    have hstamp : (op.write sequence).stamp = sequence := by cases op <;> rfl
    have := stamp_numberedFrom write hwrite
    omega

theorem Increasing.sorted {batches : List Batch} (h : Increasing batches) :
    (allWrites batches).Pairwise fun a b => a.stamp < b.stamp := by
  rw [allWrites, List.pairwise_flatMap]
  refine ⟨fun batch _ => sorted_numberedFrom _ _, h.imp fun {a b} hab x hx y hy => ?_⟩
  have hbelow := stamp_numberedFrom x hx
  have habove := stamp_numberedFrom y hy
  omega

/-- In an increasing history a sequence number is one write's. -/
theorem Increasing.consistent {batches : List Batch} (h : Increasing batches) {writes : List Write}
    (hwrites : ∀ write ∈ writes, write ∈ allWrites batches) : Newest.Consistent writes := by
  intro a ha b hb _ hstamp
  have hsame : ∀ {all : List Write}, all.Pairwise (fun a b => a.stamp < b.stamp) → a ∈ all → b ∈ all → a = b := by
    intro all hall
    induction all with
    | nil => exact fun ha => absurd ha List.not_mem_nil
    | cons first rest ih =>
      intro ha hb
      rw [List.pairwise_cons] at hall
      rcases List.mem_cons.mp ha with hafirst | ha
      · rcases List.mem_cons.mp hb with hbfirst | hb
        · rw [hafirst, hbfirst]
        · rw [hafirst] at hstamp
          exact absurd hstamp (Nat.ne_of_lt (hall.1 b hb))
      · rcases List.mem_cons.mp hb with hbfirst | hb
        · rw [hbfirst] at hstamp
          exact absurd hstamp (Nat.ne_of_gt (hall.1 a ha))
        · exact ih hall.2 ha hb
  rw [hsame h.sorted (hwrites a ha) (hwrites b hb)]

theorem latest_foldl (writes : List Write) (builder : Builder) :
    (writes.foldl Builder.write builder).latest = writes.foldl Newest.put builder.latest := by
  induction writes generalizing builder with
  | nil => rfl
  | cons write writes ih => exact ih _

/-- What the newest writes of a history leave is its state. -/
theorem finish_collect {batches : List Batch} (h : Increasing batches) :
    (⟨Newest.collect (allWrites batches)⟩ : Builder).finish = replay batches := by
  have hops : ∀ (ops : List Op) (sequence : ℕ) (latest : List UInt8 → Option (ℕ × Option (List UInt8))) (db : Db),
      (⟨latest⟩ : Builder).finish = db →
      (⟨(numberedFrom sequence ops).foldl (fun (latest : List UInt8 → Option (ℕ × Option (List UInt8))) write =>
        Function.update latest write.key (some (write.stamp, write.value))) latest⟩ : Builder).finish =
        ops.foldl Op.run db := by
    intro ops
    induction ops with
    | nil => exact fun _ _ _ h => h
    | cons op ops ih =>
      intro sequence latest db hdb
      refine ih (sequence + 1) _ _ ?_
      funext key
      have hkey := congrFun hdb key
      rw [Builder.finish] at hkey ⊢
      cases op with
      | put other value =>
        rw [Op.run, Op.write]
        by_cases heq : key = other
        · subst heq
          simp
        · simp [Function.update_of_ne heq, hkey]
      | delete other =>
        rw [Op.run, Op.write]
        by_cases heq : key = other
        · subst heq
          simp
        · simp [Function.update_of_ne heq, hkey]
  have hbatches : ∀ (batches : List Batch) (latest : List UInt8 → Option (ℕ × Option (List UInt8))) (db : Db),
      (⟨latest⟩ : Builder).finish = db →
      (⟨(allWrites batches).foldl (fun (latest : List UInt8 → Option (ℕ × Option (List UInt8))) write =>
        Function.update latest write.key (some (write.stamp, write.value))) latest⟩ : Builder).finish =
        batches.foldl (fun db batch => batch.ops.foldl Op.run db) db := by
    intro batches
    induction batches with
    | nil => exact fun _ _ h => h
    | cons batch batches ih =>
      intro latest db hdb
      have hcons : allWrites (batch :: batches) = batch.writes ++ allWrites batches := rfl
      rw [hcons, List.foldl_append]
      exact ih _ _ (hops batch.ops batch.first latest db hdb)
  rw [Newest.collect_of_increasing h.sorted]
  exact hbatches batches _ _ rfl

end Writes

section Files

variable {snap : Snappy}

theorem foldl_applyBatch (batches : List Batch) (builder : Builder) :
    (batches.map Batch.encode).foldl (fun builder batch => applyBatch batch builder) builder =
      (allWrites batches).foldl Builder.write builder := by
  induction batches generalizing builder with
  | nil => rfl
  | cons batch batches ih =>
    have hcons : allWrites (batch :: batches) = batch.writes ++ allWrites batches := rfl
    rw [List.map_cons, List.foldl_cons, applyBatch_encode, ih, hcons, List.foldl_append]

/-- Of a log that was cut off. -/
theorem readLog_log_cut (batches : List Batch) (cut : ℕ) (builder : Builder) :
    readLog applyBatch ((log batches).take cut) builder =
      (allWrites (batchesBefore cut batches)).foldl Builder.write builder := by
  have hbefore : wholeBefore cut (batches.map Batch.encode) = (batchesBefore cut batches).map Batch.encode := by
    rw [wholeBefore, batchesBefore, List.length_map, List.map_take]
    simp only [log, List.map_take]
  rw [log, readLog_take, hbefore, foldl_applyBatch]

theorem readLog_log (batches : List Batch) (builder : Builder) :
    readLog applyBatch (log batches) builder = (allWrites batches).foldl Builder.write builder := by
  have hall : (log batches).take (log batches).length = log batches := List.take_length
  have hbefore : batchesBefore (log batches).length batches = batches := by
    have hgreatest : Nat.findGreatest (fun count => (log (batches.take count)).length ≤ (log batches).length)
        batches.length = batches.length := by
      refine Nat.findGreatest_eq ?_
      rw [List.take_length]
    rw [batchesBefore, hgreatest, List.take_length]
  have hread := readLog_log_cut batches (log batches).length builder
  rw [hall, hbefore] at hread
  exact hread

theorem read_files (hsnap : snap.Lawful) {files : List (DbFile snap)} (hsmall : ∀ file ∈ files, file.Small)
    (builder : Builder) :
    files.foldl DbFile.read builder = (files.flatMap DbFile.writes).foldl Builder.write builder := by
  induction files generalizing builder with
  | nil => rfl
  | cons file files ih =>
    have hfile := hsmall file List.mem_cons_self
    rw [List.foldl_cons, ih fun other hother => hsmall other (List.mem_cons_of_mem _ hother), List.flatMap_cons,
      List.foldl_append]
    congr 1
    cases file with
    | table table => rw [DbFile.read, readTable_written hsnap table hfile]; rfl
    | log batches => exact readLog_log batches builder

theorem snapshot_eq (hsnap : snap.Lawful) {files : List (DbFile snap)} (hsmall : ∀ file ∈ files, file.Small) :
    snapshot files = (⟨Newest.collect (files.flatMap DbFile.writes)⟩ : Builder).finish := by
  have hlatest := latest_foldl (files.flatMap DbFile.writes) Builder.empty
  rw [snapshot, read_files hsnap hsmall]
  exact congrArg (fun latest => (⟨latest⟩ : Builder).finish) hlatest

theorem finish_collect_iff {writes : List Write} (h : Newest.Consistent writes) {key value : List UInt8} :
    (⟨Newest.collect writes⟩ : Builder).finish key = some value ↔
      ∃ sequence, Newest.IsNewest writes key sequence (some value) := by
  have hentry : (⟨Newest.collect writes⟩ : Builder).finish key = some value ↔
      ∃ sequence, Newest.collect writes key = some (sequence, some value) := by
    rw [Builder.finish, Option.bind_eq_some_iff]
    simp [Prod.exists]
  rw [hentry]
  exact exists_congr fun sequence => Newest.collect_iff h

/-- Two lists of the same writes leave the same. -/
theorem finish_collect_congr {writes others : List Write} (h : Newest.Consistent writes)
    (hsame : ∀ write, write ∈ writes ↔ write ∈ others) :
    (⟨Newest.collect writes⟩ : Builder).finish = (⟨Newest.collect others⟩ : Builder).finish := by
  have hothers : Newest.Consistent others := fun a ha b hb =>
    h a ((hsame a).mpr ha) b ((hsame b).mpr hb)
  funext key
  refine Option.ext fun value => ?_
  rw [finish_collect_iff h, finish_collect_iff hothers]
  exact exists_congr fun sequence => and_congr (hsame _) (forall_congr' fun write => by rw [hsame])

/-- The state after the batches before the cut, and of any files the newest write of each key: all of a
history, in any order and any number of times, is its state. -/
theorem snapshot_is_state (hsnap : snap.Lawful) {history : List Batch} (h : Increasing history) :
    (∀ cut, (readLog applyBatch ((log history).take cut) Builder.empty).finish =
      replay (batchesBefore cut history)) ∧
    ∀ files : List (DbFile snap), (∀ file ∈ files, file.Small) →
      (∀ write ∈ files.flatMap DbFile.writes, write ∈ allWrites history) →
      (∀ key value, snapshot files key = some value ↔
        ∃ sequence, Newest.IsNewest (files.flatMap DbFile.writes) key sequence (some value)) ∧
      ((∀ write ∈ allWrites history, write ∈ files.flatMap DbFile.writes) → snapshot files = replay history) := by
  refine ⟨fun cut => ?_, fun files hsmall hfiles => ⟨fun key value => ?_, fun hall => ?_⟩⟩
  · have hbefore : Increasing (batchesBefore cut history) := List.Pairwise.sublist (List.take_sublist _ _) h
    have hlatest := latest_foldl (allWrites (batchesBefore cut history)) Builder.empty
    rw [readLog_log_cut, ← finish_collect hbefore]
    exact congrArg (fun latest => (⟨latest⟩ : Builder).finish) hlatest
  · rw [snapshot_eq hsnap hsmall]
    exact finish_collect_iff (h.consistent hfiles)
  · rw [snapshot_eq hsnap hsmall, ← finish_collect h]
    exact finish_collect_congr (h.consistent hfiles) fun write => ⟨hfiles write, hall write⟩

end Files

section Literals

/-- A Snappy stream of one literal: the length, then a tag with the literal's length, then the bytes. -/
def literals : Snappy where
  compress data :=
    putVarint data.length ++ if data = [] then [] else 0xfc :: (toLe 4 (data.length - 1) ++ data)
  decompressLen data := (varint data 0).map Prod.fst
  decompress data :=
    match varint data 0 with
    | none => none
    | some (len, pos) =>
      if len = 0 then some []
      else if (data.drop pos).headD 0 = 0xfc then some ((data.drop (pos + 5)).take len)
      else none

theorem literals_lawful : literals.Lawful := by
  have hread : ∀ data : List UInt8, data.length < 2 ^ 32 →
      varint (literals.compress data) 0 = some (data.length, 0 + (putVarint data.length).length) :=
    fun data h => varint_put (by rw [List.drop_zero]; rfl) (by omega)
  refine ⟨fun data h => ?_, fun data h => ?_⟩
  · have hlen : literals.decompressLen (literals.compress data) =
        (varint (literals.compress data) 0).map Prod.fst := rfl
    rw [hlen, hread data h]
    rfl
  · simp only [literals] at hread ⊢
    rw [hread data h]
    cases data with
    | nil => rfl
    | cons byte data =>
      have hsome : ¬ (byte :: data).length = 0 := by simp
      have hne : ¬ byte :: data = [] := by simp
      have hfive : (0xfc :: (toLe 4 ((byte :: data).length - 1) ++ byte :: data)).drop 5 = byte :: data := by
        rw [List.drop_succ_cons, List.drop_append, List.drop_eq_nil_of_le (by simp)]
        simp
      simp only [if_neg hsome, if_neg hne, Nat.zero_add]
      rw [List.drop_append_length, if_pos (by rfl), ← List.drop_drop, List.drop_append_length, hfive,
        List.take_length]

/-- A table of one block that holds one value. -/
def smallTable : Table literals where
  interval := 2
  indexInterval := 1
  blocks := [{ writes := [{ key := [107], stamp := 1, value := some [118] }], compress := false }]
  restarts := by decide
  indexRestarts := by decide
  numbered := by simp
  counted := by decide +kernel
  indexed := by decide +kernel
  sized := by decide +kernel

/-- A value in a table that a later log deletes, each file met in the wrong order and one of them twice. -/
theorem snapshot_of_deleted :
    snapshot [.log [⟨2, [.delete [107]], by decide, by decide, by decide⟩], DbFile.table smallTable,
        .log [⟨2, [.delete [107]], by decide, by decide, by decide⟩]] =
      replay [⟨1, [.put [107] [118]], by decide, by decide, by decide⟩,
        ⟨2, [.delete [107]], by decide, by decide, by decide⟩] := by
  refine ((snapshot_is_state literals_lawful ?_).2 _ ?_ ?_).2 ?_
  · simp [Increasing]
  · simp [DbFile.Small, Table.Small, smallTable]
  · simp [DbFile.writes, Table.writes, smallTable, allWrites, Batch.writes, numberedFrom, Op.write]
  · simp [DbFile.writes, Table.writes, smallTable, allWrites, Batch.writes, numberedFrom, Op.write]

end Literals

section Large

variable {value : List UInt8}

/-- A block that holds one value, compressed. -/
def oneValue (value : List UInt8) : DataBlock :=
  { writes := [{ key := [], stamp := 1, value := some value }], compress := true }

theorem length_contents_one (key value : List UInt8) :
    (blockContents 2 [(key, value)]).length = (writeEntry 0 key value).length + 8 := by
  simp [blockContents, writeEntries]

theorem contents_one_bounds (key value : List UInt8) :
    value.length < (blockContents 2 [(key, value)]).length ∧
      (blockContents 2 [(key, value)]).length ≤ value.length + key.length + 38 := by
  have h1 := length_putVarint_le 0
  have h2 := length_putVarint_le (key.length - 0)
  have h3 := length_putVarint_le value.length
  rw [length_contents_one, writeEntry_length]
  omega

theorem length_literals_le (data : List UInt8) : (literals.compress data).length ≤ data.length + 15 := by
  have hvarint := length_putVarint_le data.length
  have hcompress : literals.compress data =
      putVarint data.length ++ if data = [] then [] else 0xfc :: (toLe 4 (data.length - 1) ++ data) := rfl
  rw [hcompress, List.length_append]
  split_ifs
  · simp only [List.length_nil]
    omega
  · simp only [List.length_cons, List.length_append, length_toLe]
    omega

theorem entries_one (value : List UInt8) : ∃ key : List UInt8, key.length = 8 ∧
    (oneValue value).entries = [(key, value)] :=
  ⟨internalKey { key := [], stamp := 1, value := some value }, by simp [internalKey], rfl⟩

theorem length_writeTable_le (snap : Snappy) (interval indexInterval : ℕ) (blocks : List DataBlock) :
    (writeTable snap interval indexInterval blocks).length ≤ (writeBlocks snap interval 0 blocks).1.length +
      (sealBlock snap (blockContents interval []) false).length +
      (sealBlock snap (blockContents indexInterval (writeBlocks snap interval 0 blocks).2) false).length + 48 := by
  rw [writeTable]
  simp only [List.length_append, length_toLe]
  have hforty := List.length_take_le 40 (putHandle (writeBlocks snap interval 0 blocks).1.length
    ((sealBlock snap (blockContents interval []) false).length - blockTrailerLen) ++
    putHandle ((writeBlocks snap interval 0 blocks).1.length + (sealBlock snap (blockContents interval []) false).length)
      ((sealBlock snap (blockContents indexInterval (writeBlocks snap interval 0 blocks).2) false).length -
        blockTrailerLen) ++ List.replicate 40 0)
  omega

/-- The one block of a table, and its index entry. -/
theorem writeBlocks_one (value : List UInt8) : ∃ key : List UInt8, key.length = 8 ∧
    writeBlocks literals 2 0 [oneValue value] =
      (sealBlock literals (blockContents 2 [(key, value)]) true,
        [(key, putHandle 0 (storedLength literals (blockContents 2 [(key, value)]) true))]) := by
  obtain ⟨key, hkey, hentries⟩ := entries_one value
  refine ⟨key, hkey, ?_⟩
  have hcompress : (oneValue value).compress = true := rfl
  rw [writeBlocks, writeBlocks, hentries, hcompress]
  simp only [List.append_nil]
  rfl

theorem length_table_one (value : List UInt8) :
    (writeTable literals 2 2 [oneValue value]).length ≤ value.length + 300 := by
  have htable := length_writeTable_le literals 2 2 [oneValue value]
  obtain ⟨key, hkey, hwritten⟩ := writeBlocks_one value
  have hmeta : (sealBlock literals (blockContents 2 []) false).length = 9 := by
    rw [length_sealBlock]
    rfl
  have hcontents := contents_one_bounds key value
  have hstored := length_literals_le (blockContents 2 [(key, value)])
  have hsealed := length_sealBlock literals (blockContents 2 [(key, value)]) true
  rw [hwritten, hmeta] at htable
  simp only [if_true] at hsealed htable
  generalize hhandle : putHandle 0 (storedLength literals (blockContents 2 [(key, value)]) true) = handle at htable
  have hlen : handle.length ≤ 20 := by
    rw [← hhandle, putHandle, List.length_append]
    exact Nat.add_le_add (length_putVarint_le _) (length_putVarint_le _)
  have hindex := contents_one_bounds key handle
  have hindexsealed := length_sealBlock literals (blockContents 2 [(key, handle)]) false
  simp only [Bool.false_eq_true, if_false] at hindexsealed
  have htrailer : blockTrailerLen = 5 := rfl
  omega

theorem counted_one (key value : List UInt8) : restartCount 2 [(key, value)] = 1 := rfl

/-- The table whose only block holds this value. -/
def largeTable (value : List UInt8) (h : value.length < 2 ^ 31) : Table literals where
  interval := 2
  indexInterval := 2
  blocks := [oneValue value]
  restarts := by decide
  indexRestarts := by decide
  numbered := by simp [oneValue]
  counted := by
    obtain ⟨key, -, hentries⟩ := entries_one value
    simp [hentries, counted_one]
  indexed := by
    obtain ⟨key, -, hwritten⟩ := writeBlocks_one value
    rw [hwritten, counted_one]
    decide
  sized := by
    have hlen := length_table_one value
    omega

/-- A compressed block beyond the limit is left out, and with it what only this block holds. -/
theorem large_table_empty (h : value.length < 2 ^ 31) (hlarge : maxDecompressed < value.length) (builder : Builder) :
    (readTable literals (largeTable value h).bytes builder).1 = builder := by
  obtain ⟨hread, rest, hdata⟩ := readTable_index (largeTable value h) builder
  obtain ⟨key, hkey, hwritten⟩ := writeBlocks_one value
  have hblocks : writeBlocks literals (largeTable value h).interval 0 (largeTable value h).blocks =
      writeBlocks literals 2 0 [oneValue value] := rfl
  rw [hblocks, hwritten] at hread hdata
  simp only at hread hdata
  have hcontents := contents_one_bounds key value
  have hblock : (largeTable value h).bytes.drop 0 =
      sealBlock literals (blockContents 2 [(key, value)]) true ++ rest := by
    rw [List.drop_zero, hdata]
  have herror := readBlock_too_large literals_lawful hblock (by omega) (by omega)
  have hbytes : (largeTable value h).bytes.length < 2 ^ 64 := (largeTable value h).sized
  have hlen := congrArg List.length hdata
  rw [List.length_append] at hlen
  have hsize : storedLength literals (blockContents 2 [(key, value)]) true < 2 ^ 64 := by
    rw [storedLength]
    omega
  have hat : (putHandle 0 (storedLength literals (blockContents 2 [(key, value)]) true)).drop 0 =
      putHandle 0 (storedLength literals (blockContents 2 [(key, value)]) true) ++ [] := by
    rw [List.drop_zero, List.append_nil]
  rw [hread, readBlocks, blockHandle_put hat (by omega) hsize]
  simp only
  rw [herror]

end Large

/-- A value of more than 64 MiB in a compressed block is not in the snapshot. -/
theorem large_value_lost : literals.Lawful ∧ ∃ (history : List Batch) (files : List (DbFile literals)),
    Increasing history ∧ (∀ write, write ∈ files.flatMap DbFile.writes ↔ write ∈ allWrites history) ∧
      snapshot files ≠ replay history := by
  obtain ⟨value, hlength⟩ : ∃ value : List UInt8, value.length = maxDecompressed + 1 :=
    ⟨List.replicate (maxDecompressed + 1) 0, List.length_replicate⟩
  have hfits : maxDecompressed + 1 < 2 ^ 31 := by decide
  have hshort : value.length < 2 ^ 31 := by omega
  have hsized : ∀ op ∈ [Op.put [] value], op.encode.length < 2 ^ 64 := by
    have hkey := length_putVarint_le 0
    have hvalue := length_putVarint_le value.length
    simp only [List.mem_singleton, forall_eq, Op.encode, prefixed, List.length_cons, List.length_append,
      List.length_nil]
    omega
  refine ⟨literals_lawful, [⟨1, [.put [] value], by simp, by simp, hsized⟩], [.table (largeTable value hshort)],
    List.pairwise_singleton _ _, fun write => Iff.rfl, fun hsame => ?_⟩
  have hnone : snapshot [DbFile.table (largeTable value hshort)] [] = none := by
    rw [snapshot, List.foldl_cons, List.foldl_nil, DbFile.read, large_table_empty hshort (by omega)]
    rfl
  rw [hsame] at hnone
  exact Option.some_ne_none value hnone

end UwuSsh.Chromium

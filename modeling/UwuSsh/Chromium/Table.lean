import UwuSsh.Chromium.WriteBatch

/-!
LevelDB's tables: blocks of entries whose keys share prefixes with the key before them, an index block that
says where each block is, and a footer that says where the index is.
-/
namespace UwuSsh.Chromium

def tableMagic : ℕ := 0xdb4775248b80fb57

def footerLen : ℕ := 48

def blockTrailerLen : ℕ := 5

def maxDecompressed : ℕ := 64 * 1024 * 1024

/-- The compression that blocks may have. -/
structure Snappy where
  compress : List UInt8 → List UInt8
  decompressLen : List UInt8 → Option ℕ
  decompress : List UInt8 → Option (List UInt8)

/-- What was compressed is what comes out again; its length is a `u32`. -/
structure Snappy.Lawful (snap : Snappy) : Prop where
  len : ∀ data, data.length < 2 ^ 32 → snap.decompressLen (snap.compress data) = some data.length
  data : ∀ data, data.length < 2 ^ 32 → snap.decompress (snap.compress data) = some data

/-- Where a block is, and where the handle ends. -/
def blockHandle (data : List UInt8) (pos : ℕ) : Except String ((ℕ × ℕ) × ℕ) :=
  match varint data pos with
  | none => .error "bad block handle"
  | some (offset, pos) =>
    match varint data pos with
    | none => .error "bad block handle"
    | some (size, pos) => .ok ((offset, size), pos)

def decompressBlock (snap : Snappy) (contents : List UInt8) : Except String (List UInt8) :=
  match snap.decompressLen contents with
  | none => .error "bad snappy block"
  | some size =>
    if maxDecompressed < size then .error "snappy block too large"
    else
      match snap.decompress contents with
      | none => .error "bad snappy block"
      | some block => .ok block

def readBlock (snap : Snappy) (data : List UInt8) (handle : ℕ × ℕ) : Except String (List UInt8) :=
  let last := handle.1 + handle.2
  if data.length < last + blockTrailerLen then .error "block outside the file"
  else
    let contents := (data.drop handle.1).take handle.2
    let kind := (data.drop last).headD 0
    let stored := UInt32.ofNat (ofLe ((data.drop (last + 1)).take 4))
    if unmask stored ≠ crc32cExtend (crc32c contents) [kind] then .error "block checksum mismatch"
    else if kind = 0 then .ok contents
    else if kind = 1 then decompressBlock snap contents
    else .error "unknown block compression"

abbrev BlockEntry := List UInt8 × List UInt8

/-- `saturating_add`, `saturating_mul` -/
def saturated (value : ℕ) : ℕ := min value (2 ^ 64 - 1)

def blockEntriesFrom (block : List UInt8) (entriesEnd budget : ℕ) :
    ℕ → ℕ → List UInt8 → ℕ → Except String (List BlockEntry)
  | 0, _, _, _ => .ok []
  | fuel + 1, pos, key, copied =>
    if pos < entriesEnd then
      match varint block pos with
      | none => .error "malformed block"
      | some (shared, pos) =>
        match varint block pos with
        | none => .error "malformed block"
        | some (unshared, pos) =>
          match varint block pos with
          | none => .error "malformed block"
          | some (valueLen, pos) =>
            let keyEnd := pos + unshared
            let valueEnd := keyEnd + valueLen
            if key.length < shared ∨ entriesEnd < valueEnd then .error "malformed block"
            else
              let key := key.take shared ++ (block.drop pos).take unshared
              let copied := saturated (copied + key.length)
              if budget < copied then .error "malformed block"
              else
                match blockEntriesFrom block entriesEnd budget fuel valueEnd key copied with
                | .error problem => .error problem
                | .ok entries => .ok ((key, (block.drop keyEnd).take valueLen) :: entries)
    else .ok []

/-- The entries of a block; every one takes some of its bytes. The copies of the keys have a budget. -/
def blockEntries (block : List UInt8) : Except String (List BlockEntry) :=
  if block.length < 4 then .error "malformed block"
  else
    let restarts := ofLe (block.drop (block.length - 4))
    if block.length < 4 + restarts * 4 then .error "malformed block"
    else
      blockEntriesFrom block (block.length - (4 + restarts * 4))
        (saturated (saturated (block.length * 16) + 64 * 1024)) block.length 0 [] 0

/-- The user's key, the sequence number, and whether there is a value. -/
def splitInternalKey (key : List UInt8) : Except String (List UInt8 × ℕ × Bool) :=
  if key.length < 8 then .error "internal key too short"
  else
    let at_ := key.length - 8
    let tag := ofLe (key.drop at_)
    .ok (key.take at_, tag >>> 8, tag &&& 0xff == 1)

/-- Puts a block's entries; those before a bad one stay. -/
def putEntries : List BlockEntry → Builder → Builder × Option String
  | [], builder => (builder, none)
  | (internalKey, value) :: entries, builder =>
    match splitInternalKey internalKey with
    | .error problem => (builder, some problem)
    | .ok (key, sequence, isValue) =>
      putEntries entries (builder.put key sequence (if isValue then some value else none))

def readBlocks (snap : Snappy) (data : List UInt8) : List BlockEntry → Builder → Builder × Option String
  | [], builder => (builder, none)
  | (_, handle) :: index, builder =>
    match blockHandle handle 0 with
    | .error problem => (builder, some problem)
    | .ok (handle, _) =>
      match readBlock snap data handle with
      | .error problem => (builder, some problem)
      | .ok block =>
        match blockEntries block with
        | .error problem => (builder, some problem)
        | .ok entries =>
          match putEntries entries builder with
          | (builder, some problem) => (builder, some problem)
          | (builder, none) => readBlocks snap data index builder

/-- The builder, and the problem that a table was left with. -/
def readTable (snap : Snappy) (data : List UInt8) (builder : Builder) : Builder × Option String :=
  if data.length < footerLen then (builder, some "table shorter than its footer")
  else
    let footer := data.drop (data.length - footerLen)
    if ofLe ((footer.drop 40).take 8) ≠ tableMagic then
      (builder, some "table without footer, probably still being written")
    else
      match blockHandle footer 0 with
      | .error problem => (builder, some problem)
      | .ok (_, pos) =>
        match blockHandle footer pos with
        | .error problem => (builder, some problem)
        | .ok (index, _) =>
          match readBlock snap data index with
          | .error problem => (builder, some problem)
          | .ok index =>
            match blockEntries index with
            | .error problem => (builder, some problem)
            | .ok index => readBlocks snap data index builder

/-- How much of a key is as in the one before it. -/
def sharedLength (previous key : List UInt8) : ℕ :=
  ((previous.zip key).takeWhile fun (a, b) => a == b).length

/-- One entry: nothing is shared at a restart. -/
def writeEntry (shared : ℕ) (key value : List UInt8) : List UInt8 :=
  putVarint shared ++ putVarint (key.length - shared) ++ putVarint value.length ++ key.drop shared ++ value

/-- A block's entries and where its restarts are, one every `interval` entries. -/
def writeEntries (interval : ℕ) : ℕ → List UInt8 → ℕ → List BlockEntry → List UInt8 × List ℕ
  | _, _, _, [] => ([], [])
  | index, previous, offset, (key, value) :: entries =>
    let restart := index % interval == 0
    let entry := writeEntry (if restart then 0 else sharedLength previous key) key value
    let more := writeEntries interval (index + 1) key (offset + entry.length) entries
    (entry ++ more.1, if restart then offset :: more.2 else more.2)

def blockContents (interval : ℕ) (entries : List BlockEntry) : List UInt8 :=
  let written := writeEntries interval 0 [] 0 entries
  written.1 ++ written.2.flatMap (toLe 4) ++ toLe 4 written.2.length

/-- A block and its trailer: how it is compressed, and its checksum. -/
def sealBlock (snap : Snappy) (contents : List UInt8) (compress : Bool) : List UInt8 :=
  let stored := if compress then snap.compress contents else contents
  let kind : UInt8 := if compress then 1 else 0
  stored ++ [kind] ++ toLe 4 (mask (crc32cExtend (crc32c stored) [kind])).toNat

def internalKey (write : Write) : List UInt8 :=
  write.key ++ toLe 8 ((write.stamp <<< 8) ||| (if write.value.isSome then 1 else 0))

/-- A block of a table and whether it is compressed. -/
structure DataBlock where
  writes : List Write
  compress : Bool

def DataBlock.entries (block : DataBlock) : List BlockEntry :=
  block.writes.map fun write => (internalKey write, write.value.getD [])

def putHandle (offset size : ℕ) : List UInt8 := putVarint offset ++ putVarint size

/-- The data blocks of a table, and an index entry for each. -/
def writeBlocks (snap : Snappy) (interval : ℕ) : ℕ → List DataBlock → List UInt8 × List BlockEntry
  | _, [] => ([], [])
  | offset, block :: blocks =>
    let data := sealBlock snap (blockContents interval block.entries) block.compress
    let more := writeBlocks snap interval (offset + data.length) blocks
    (data ++ more.1, ((block.entries.getLast?.map Prod.fst).getD [],
      putHandle offset (data.length - blockTrailerLen)) :: more.2)

/-- `table`, for any data blocks, and with the restarts of its index as far apart as they may be. -/
def writeTable (snap : Snappy) (interval indexInterval : ℕ) (blocks : List DataBlock) : List UInt8 :=
  let written := writeBlocks snap interval 0 blocks
  let metaindex := sealBlock snap (blockContents interval []) false
  let index := sealBlock snap (blockContents indexInterval written.2) false
  let metaindexOffset := written.1.length
  let indexOffset := metaindexOffset + metaindex.length
  let footer := putHandle metaindexOffset (metaindex.length - blockTrailerLen) ++
    putHandle indexOffset (index.length - blockTrailerLen)
  written.1 ++ metaindex ++ index ++ (footer ++ List.replicate 40 0).take 40 ++ toLe 8 tableMagic

end UwuSsh.Chromium

import UwuSsh.Lib.BigEndian

/-!
LevelDB's log files: records in blocks of 32 KiB, each with a masked checksum, a length and a kind. A
batch that does not fit into what is left of a block is cut into fragments, one a block. The reader hands
each whole batch on and half-assembled ones over to the next block; the writer lays batches out as
LevelDB does.
-/
namespace UwuSsh.Chromium

def logBlock : ℕ := 32 * 1024

def logHeaderLen : ℕ := 7

/-- `from_le_bytes`. -/
def ofLe (bytes : List UInt8) : ℕ := BigEndian.ofBytes bytes.reverse

/-- `to_le_bytes`. -/
def toLe (width value : ℕ) : List UInt8 := (BigEndian.toBytes width value).reverse

/-- One entry of the table that the checksum is computed with. -/
def crc32cTable (index : UInt32) : UInt32 :=
  (List.range 8).foldl
    (fun crc _ => if crc &&& 1 = 1 then (crc >>> 1) ^^^ 0x82f63b78 else crc >>> 1) index

def crc32cExtend (crc : UInt32) (data : List UInt8) : UInt32 :=
  ~~~(data.foldl
    (fun crc byte => crc32cTable ((crc ^^^ byte.toUInt32) &&& 0xff) ^^^ (crc >>> 8)) (~~~crc))

def crc32c (data : List UInt8) : UInt32 := crc32cExtend 0 data

example : crc32c [49, 50, 51, 52, 53, 54, 55, 56, 57] = 0xe3069283 := by decide +kernel

/-- Checksums are stored masked, as data may itself contain checksums. -/
def unmask (masked : UInt32) : UInt32 :=
  let rot := masked - 0xa282ead8
  rot <<< 15 ||| rot >>> 17

def mask (crc : UInt32) : UInt32 := (crc >>> 15 ||| crc <<< 17) + 0xa282ead8

/-- A record: a whole batch, or the first, a middle or the last piece of one. -/
structure Fragment where
  kind : UInt8
  payload : List UInt8
deriving DecidableEq

/-- What stands where a record may begin. -/
inductive RecordAt
  /-- No room for a header. -/
  | ended
  /-- Space nobody has written to, or a record that runs past its block. -/
  | torn
  /-- The checksum does not fit. -/
  | damaged
  | record (fragment : Fragment) (rest : List UInt8)
deriving DecidableEq

def recordAt (block : List UInt8) : RecordAt :=
  if block.length < logHeaderLen then .ended
  else
    let stored := UInt32.ofNat (ofLe (block.take 4))
    let len := ofLe ((block.drop 4).take 2)
    let kind := (block.drop 6).headD 0
    let rest := block.drop logHeaderLen
    if (kind = 0 ∧ len = 0) ∨ rest.length < len then .torn
    else
      let payload := rest.take len
      if unmask stored ≠ crc32cExtend (crc32c [kind]) payload then .damaged
      else .record { kind, payload } (rest.drop len)

structure LogState (β : Type*) where
  fragments : Option (List UInt8)
  builder : β

variable {β : Type*}

/-- What a record does; nothing for a kind that is not known. -/
def LogState.take (apply : List UInt8 → β → β) (state : LogState β) (fragment : Fragment) :
    Option (LogState β) :=
  if fragment.kind = 1 then some { state with builder := apply fragment.payload state.builder }
  else if fragment.kind = 2 then some { state with fragments := some fragment.payload }
  else if fragment.kind = 3 then
    some { state with fragments := state.fragments.map (· ++ fragment.payload) }
  else if fragment.kind = 4 then
    match state.fragments with
    | some record =>
      some { fragments := none, builder := apply (record ++ fragment.payload) state.builder }
    | none => some state
  else none

/-- One block; every turn takes a header at least off it. -/
def readLogBlock (apply : List UInt8 → β → β) : ℕ → List UInt8 → LogState β → LogState β
  | 0, _, state => state
  | fuel + 1, block, state =>
    match recordAt block with
    | .ended => state
    | .torn => state
    | .damaged => { state with fragments := none }
    | .record fragment rest =>
      match state.take apply fragment with
      | some state => readLogBlock apply fuel rest state
      | none => state

/-- `chunks`: the last one may be shorter. -/
def chunk (size index : ℕ) (data : List UInt8) : List UInt8 := (data.drop (index * size)).take size

def chunks (size : ℕ) (data : List UInt8) : List (List UInt8) :=
  (List.range ((data.length + size - 1) / size)).map fun index => chunk size index data

/-- Every batch of a log, handed to `apply` in turn. -/
def readLog (apply : List UInt8 → β → β) (data : List UInt8) (builder : β) : β :=
  ((chunks logBlock data).foldl (fun state block => readLogBlock apply block.length block state)
    { fragments := none, builder }).builder

/-- A record as it is written. -/
def frame (fragment : Fragment) : List UInt8 :=
  toLe 4 (mask (crc32cExtend (crc32c [fragment.kind]) fragment.payload)).toNat ++
    toLe 2 fragment.payload.length ++ [fragment.kind] ++ fragment.payload

def fragmentKind (first last : Bool) : UInt8 :=
  match first, last with
  | true, true => 1
  | true, false => 2
  | false, false => 3
  | false, true => 4

/-- What is left of a batch goes behind what was written; a block's end that no header fits into is
filled up. Two turns at most go by without a byte of the batch. -/
def writeBatch : ℕ → List UInt8 → List UInt8 → Bool → List UInt8
  | 0, out, _, _ => out
  | fuel + 1, out, rest, first =>
    let leftInBlock := logBlock - out.length % logBlock
    if leftInBlock < logHeaderLen then writeBatch fuel (out ++ List.replicate leftInBlock 0) rest first
    else
      let count := min rest.length (leftInBlock - logHeaderLen)
      let last := count == rest.length
      let out := out ++ frame { kind := fragmentKind first last, payload := rest.take count }
      if last then out else writeBatch fuel out (rest.drop count) false

/-- Lay batches out as log records. -/
def writeLog (batches : List (List UInt8)) : List UInt8 :=
  batches.foldl (fun out batch => writeBatch (batch.length + 3) out batch true) []

end UwuSsh.Chromium

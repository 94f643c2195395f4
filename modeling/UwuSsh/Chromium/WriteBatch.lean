import Mathlib.Algebra.Group.Nat.Defs
import UwuSsh.Lib.Newest
import UwuSsh.Chromium.LogLayout

/-!
LevelDB's write batches: a starting sequence number, a count, then puts and deletes that each take the next
sequence number. What was encoded is what is applied.
-/
namespace UwuSsh.Chromium

/-- Seven bits a byte, as many bytes as a `u64` takes at most. -/
def varintFrom (data : List UInt8) : ℕ → ℕ → ℕ → ℕ → Option (ℕ × ℕ)
  | 0, _, _, _ => none
  | turns + 1, shift, value, pos =>
    match data[pos]? with
    | none => none
    | some byte =>
      let value := value ||| ((byte &&& 0x7f).toNat <<< shift) % 2 ^ 64
      if byte &&& 0x80 = 0 then some (value, pos + 1)
      else varintFrom data turns (shift + 7) value (pos + 1)

/-- The number at `pos` and where it ends. -/
def varint (data : List UInt8) (pos : ℕ) : Option (ℕ × ℕ) := varintFrom data 10 0 0 pos

example : varint [0x96, 0x01, 0x05] 0 = some (150, 2) := by decide

def putVarintFrom : ℕ → ℕ → List UInt8
  | 0, _ => []
  | turns + 1, value =>
    if 0x80 ≤ value then (UInt8.ofNat value ||| 0x80) :: putVarintFrom turns (value >>> 7)
    else [UInt8.ofNat value]

def putVarint (value : ℕ) : List UInt8 := putVarintFrom 10 value

def lengthPrefixed (data : List UInt8) (pos : ℕ) : Option (List UInt8 × ℕ) :=
  match varint data pos with
  | none => none
  | some (len, pos) => if pos + len ≤ data.length then some ((data.drop pos).take len, pos + len) else none

/-- The newest write of each key. -/
structure Builder where
  latest : List UInt8 → Option (ℕ × Option (List UInt8))

namespace Builder

def empty : Builder := { latest := fun _ => none }

def put (builder : Builder) (key : List UInt8) (sequence : ℕ) (value : Option (List UInt8)) : Builder :=
  { latest := Newest.put builder.latest { key, stamp := sequence, value } }

/-- The entries: keys whose newest write is a value. -/
def finish (builder : Builder) (key : List UInt8) : Option (List UInt8) :=
  (builder.latest key).bind Prod.snd

end Builder

/-- The operations of a batch, until one that is not whole. -/
def applyOps (batch : List UInt8) : ℕ → ℕ → ℕ → Builder → Builder
  | 0, _, _, builder => builder
  | count + 1, sequence, pos, builder =>
    match batch[pos]? with
    | none => builder
    | some kind =>
      match lengthPrefixed batch (pos + 1) with
      | none => builder
      | some (key, pos) =>
        if kind = 1 then
          match lengthPrefixed batch pos with
          | none => builder
          | some (value, pos) => applyOps batch count (sequence + 1) pos (builder.put key sequence (some value))
        else if kind = 0 then applyOps batch count (sequence + 1) pos (builder.put key sequence none)
        else builder

/-- The sequence numbers end at the largest a `u64` can be. -/
def applyBatch (batch : List UInt8) (builder : Builder) : Builder :=
  if batch.length < 12 then builder
  else
    let first := ofLe (batch.take 8)
    let count := ofLe ((batch.drop 8).take 4)
    applyOps batch (min (first + count) (2 ^ 64 - 1) - first) first 12 builder

inductive Op
  | put (key value : List UInt8)
  | delete (key : List UInt8)
deriving DecidableEq

def prefixed (bytes : List UInt8) : List UInt8 := putVarint bytes.length ++ bytes

def Op.encode : Op → List UInt8
  | put key value => 1 :: (prefixed key ++ prefixed value)
  | delete key => 0 :: prefixed key

/-- A batch that a database can hold: its sequence numbers and lengths are numbers that a `u64` and a `u32`
can be. -/
structure Batch where
  first : ℕ
  ops : List Op
  numbered : first + ops.length < 2 ^ 64
  counted : ops.length < 2 ^ 32
  sized : ∀ op ∈ ops, op.encode.length < 2 ^ 64

/-- `batch` -/
def Batch.encode (batch : Batch) : List UInt8 :=
  toLe 8 batch.first ++ toLe 4 batch.ops.length ++ batch.ops.flatMap Op.encode

/-- A write of a key: a value, or none where the key is deleted. -/
abbrev Write := Newest.Write (List UInt8) ℕ (Option (List UInt8))

def Op.write (sequence : ℕ) : Op → Write
  | put key value => { key, stamp := sequence, value := some value }
  | delete key => { key, stamp := sequence, value := none }

/-- The operations with the sequence numbers they take. -/
def numberedFrom : ℕ → List Op → List Write
  | _, [] => []
  | sequence, op :: ops => op.write sequence :: numberedFrom (sequence + 1) ops

def Batch.writes (batch : Batch) : List Write := numberedFrom batch.first batch.ops

def Builder.write (builder : Builder) (write : Write) : Builder := builder.put write.key write.stamp write.value

section RoundTrip

theorem low_bits : ∀ n : Fin 256, ((UInt8.ofNat n ||| 0x80) &&& 0x7f).toNat = n % 128 ∧
    (UInt8.ofNat n ||| 0x80) &&& 0x80 ≠ 0 := by
  decide +kernel

theorem low_bits_small : ∀ n : Fin 128, (UInt8.ofNat n &&& 0x7f).toNat = n ∧ UInt8.ofNat n &&& 0x80 = 0 := by
  decide +kernel

theorem or_shift {acc bits shift : ℕ} (hacc : acc < 2 ^ shift) (hbits : bits * 2 ^ shift < 2 ^ 64) :
    acc ||| (bits <<< shift) % 2 ^ 64 = acc + bits * 2 ^ shift := by
  rw [Nat.shiftLeft_eq, Nat.mod_eq_of_lt hbits, Nat.mul_comm bits, Nat.or_comm,
    ← Nat.two_pow_add_eq_or_of_lt hacc, Nat.add_comm]

theorem varintFrom_put {data after : List UInt8} {turns shift acc value pos : ℕ}
    (hdata : data.drop pos = putVarintFrom turns value ++ after) (hvalue : value < 128 ^ turns)
    (hacc : acc < 2 ^ shift) (hfits : value * 2 ^ shift < 2 ^ 64) (hturns : 0 < turns) :
    varintFrom data turns shift acc pos =
      some (acc + value * 2 ^ shift, pos + (putVarintFrom turns value).length) := by
  induction turns generalizing shift acc value pos with
  | zero => exact absurd hturns (Nat.lt_irrefl 0)
  | succ turns ih =>
    rw [putVarintFrom] at hdata
    rw [varintFrom, putVarintFrom]
    by_cases hmore : 0x80 ≤ value
    · rw [if_pos hmore, List.cons_append] at hdata
      have hbyte : data[pos]? = some (UInt8.ofNat value ||| 0x80) := by
        rw [← List.head?_drop, hdata]
        rfl
      have hrest : data.drop (pos + 1) = putVarintFrom turns (value >>> 7) ++ after := by
        rw [← List.tail_drop, hdata]
        rfl
      obtain ⟨hlow, hhigh⟩ := low_bits ⟨value % 256, Nat.mod_lt _ (by decide)⟩
      have hsame : UInt8.ofNat (value % 256) = UInt8.ofNat value := by
        rw [← UInt8.toNat_inj, UInt8.toNat_ofNat', UInt8.toNat_ofNat', Nat.mod_mod]
      simp only [hsame] at hlow hhigh
      have hdigit : value % 256 % 128 = value % 128 := by omega
      rw [hdigit] at hlow
      have hdivide : value >>> 7 = value / 128 := Nat.shiftRight_eq_div_pow value 7
      have hsplit : value = value % 128 + 128 * (value / 128) := (Nat.mod_add_div value 128).symm
      have hpow : 2 ^ (shift + 7) = 128 * 2 ^ shift := by rw [Nat.pow_add, Nat.mul_comm]
      have hpart : (value % 128) * 2 ^ shift ≤ value * 2 ^ shift :=
        Nat.mul_le_mul_right _ (Nat.mod_le value 128)
      have hrestfits : (value / 128) * 2 ^ (shift + 7) ≤ value * 2 ^ shift := by
        rw [hpow, ← Nat.mul_assoc]
        exact Nat.mul_le_mul_right _ (Nat.div_mul_le_self value 128)
      have htotal : acc + (value % 128) * 2 ^ shift + (value / 128) * 2 ^ (shift + 7) =
          acc + value * 2 ^ shift := by
        rw [hpow, ← Nat.mul_assoc, Nat.add_assoc, ← Nat.add_mul, Nat.mul_comm (value / 128), ← hsplit]
      have hturns' : 0 < turns := by
        rcases Nat.eq_zero_or_pos turns with hzero | hpos
        · subst hzero
          have hsmall : value < 128 := hvalue
          omega
        · exact hpos
      rw [hdivide] at hrest
      have hnext := @ih (shift + 7) (acc + (value % 128) * 2 ^ shift) (value / 128) (pos + 1)
        hrest (by rw [Nat.div_lt_iff_lt_mul (by decide)]; exact hvalue)
        (by
          rw [hpow]
          have hlt : (value % 128) * 2 ^ shift ≤ 127 * 2 ^ shift :=
            Nat.mul_le_mul_right _ (Nat.le_of_lt_succ (Nat.mod_lt value (by decide)))
          omega)
        (by omega) hturns'
      rw [hbyte, if_pos hmore]
      simp only
      rw [if_neg hhigh, hlow, or_shift hacc (by omega), hnext, htotal, List.length_cons, hdivide,
        Nat.add_assoc, Nat.add_comm 1]
    · rw [if_neg hmore] at hdata
      have hbyte : data[pos]? = some (UInt8.ofNat value) := by
        rw [← List.head?_drop, hdata]
        rfl
      obtain ⟨hlow, hhigh⟩ := low_bits_small ⟨value, Nat.not_le.mp hmore⟩
      simp only at hlow hhigh
      rw [hbyte, if_neg hmore]
      simp only
      rw [if_pos hhigh, hlow, or_shift hacc hfits]
      rfl

theorem drop_of_drop {data bytes after : List UInt8} {pos : ℕ} (h : data.drop pos = bytes ++ after) :
    data.drop (pos + bytes.length) = after := by
  rw [← List.drop_drop, h, List.drop_append_length]

theorem le_of_drop {data bytes after : List UInt8} {pos : ℕ} (h : data.drop pos = bytes ++ after)
    (hbytes : bytes ≠ []) : pos + bytes.length + after.length = data.length := by
  have hlen := congrArg List.length h
  have hpos := List.length_pos_of_ne_nil hbytes
  rw [List.length_drop, List.length_append] at hlen
  omega

theorem putVarint_ne_nil (value : ℕ) : putVarint value ≠ [] := by
  rw [putVarint, putVarintFrom]
  split_ifs <;> simp

/-- A number that was written is read back. -/
theorem varint_put {data after : List UInt8} {value pos : ℕ} (hdata : data.drop pos = putVarint value ++ after)
    (hvalue : value < 2 ^ 64) : varint data pos = some (value, pos + (putVarint value).length) := by
  have hread := @varintFrom_put data after 10 0 0 value pos hdata (Nat.lt_trans hvalue (by decide)) (by decide)
    (by omega) (by decide)
  rw [Nat.zero_add, Nat.pow_zero, Nat.mul_one] at hread
  exact hread

theorem lengthPrefixed_put {data bytes after : List UInt8} {pos : ℕ}
    (hdata : data.drop pos = prefixed bytes ++ after) (hbytes : bytes.length < 2 ^ 64) :
    lengthPrefixed data pos = some (bytes, pos + (prefixed bytes).length) := by
  rw [prefixed, List.append_assoc] at hdata
  have hrest := drop_of_drop hdata
  have hlen := le_of_drop hdata (putVarint_ne_nil _)
  rw [List.length_append] at hlen
  rw [lengthPrefixed, varint_put hdata hbytes]
  simp only
  rw [if_pos (by omega), hrest, List.take_append_length, prefixed, List.length_append, Nat.add_assoc]

/-- A batch is applied operation by operation as it was written. -/
theorem applyOps_encode {data : List UInt8} {ops : List Op} (hsized : ∀ op ∈ ops, op.encode.length < 2 ^ 64)
    {pos : ℕ} (hdata : data.drop pos = ops.flatMap Op.encode) (sequence : ℕ) (builder : Builder) :
    applyOps data ops.length sequence pos builder = (numberedFrom sequence ops).foldl Builder.write builder := by
  induction ops generalizing pos sequence builder with
  | nil => rfl
  | cons op ops ih =>
    have hmore := fun other hother => hsized other (List.mem_cons_of_mem _ hother)
    have hsize := hsized op List.mem_cons_self
    rw [List.flatMap_cons] at hdata
    rw [List.length_cons, applyOps]
    cases op with
    | put key value =>
      have hkind : data[pos]? = some 1 := by
        rw [← List.head?_drop, hdata]
        rfl
      have hbody : data.drop (pos + 1) = prefixed key ++ (prefixed value ++ ops.flatMap Op.encode) := by
        rw [← List.tail_drop, hdata, Op.encode, List.cons_append, List.tail_cons, List.append_assoc]
      simp only [Op.encode, prefixed, List.length_cons, List.length_append] at hsize
      have hkey := lengthPrefixed_put hbody (by omega)
      have hnext := drop_of_drop hbody
      have hvalue := lengthPrefixed_put hnext (by omega)
      rw [hkind]
      simp only [hkey, if_true, hvalue]
      exact ih hmore (drop_of_drop hnext) (sequence + 1) _
    | delete key =>
      have hkind : data[pos]? = some 0 := by
        rw [← List.head?_drop, hdata]
        rfl
      have hbody : data.drop (pos + 1) = prefixed key ++ ops.flatMap Op.encode := by
        rw [← List.tail_drop, hdata, Op.encode, List.cons_append, List.tail_cons]
      simp only [Op.encode, prefixed, List.length_cons, List.length_append] at hsize
      have hkey := lengthPrefixed_put hbody (by omega)
      have hzero : ¬ (0 : UInt8) = 1 := by decide
      rw [hkind]
      simp only [hkey, if_neg hzero, if_true]
      exact ih hmore (drop_of_drop hbody) (sequence + 1) _

theorem applyBatch_encode (batch : Batch) (builder : Builder) :
    applyBatch batch.encode builder = batch.writes.foldl Builder.write builder := by
  have hnumbered := batch.numbered
  have hfirst : batch.encode.take 8 = toLe 8 batch.first := by
    rw [Batch.encode, List.append_assoc, List.take_append_of_le_length (by simp), List.take_of_length_le (by simp)]
  have hdrop : batch.encode.drop 8 = toLe 4 batch.ops.length ++ batch.ops.flatMap Op.encode := by
    rw [Batch.encode, List.append_assoc, List.drop_append, List.drop_eq_nil_of_le (by simp)]
    simp
  have hcount : (batch.encode.drop 8).take 4 = toLe 4 batch.ops.length := by
    rw [hdrop, List.take_append_of_le_length (by simp), List.take_of_length_le (by simp)]
  have hops : batch.encode.drop 12 = batch.ops.flatMap Op.encode := by
    have htwelve : batch.encode.drop 12 = (batch.encode.drop 8).drop 4 := by rw [List.drop_drop]
    rw [htwelve, hdrop, List.drop_append, List.drop_eq_nil_of_le (by simp)]
    simp
  have hlen : ¬ batch.encode.length < 12 := by
    simp only [Batch.encode, List.length_append, length_toLe]
    omega
  have hfirst64 : batch.first < 256 ^ 8 := by
    have hsame : (256 : ℕ) ^ 8 = 2 ^ 64 := by decide
    omega
  have hcount32 : batch.ops.length < 256 ^ 4 := batch.counted
  rw [applyBatch, if_neg hlen]
  simp only [hfirst, hcount, ofLe_toLe hfirst64, ofLe_toLe hcount32]
  have hturns : min (batch.first + batch.ops.length) (2 ^ 64 - 1) - batch.first = batch.ops.length := by omega
  rw [hturns, applyOps_encode batch.sized hops]
  rfl

end RoundTrip

end UwuSsh.Chromium

import Mathlib.Tactic.Positivity
import Mathlib.Tactic.Ring

/-!
Big-endian byte strings of fixed width. `toBytes width value` writes the low
`width` bytes of a number, most significant first, and `ofBytes` reads any byte
list back. The two are inverse to each other on numbers that fit the width and on
lists of that length.
-/
namespace BigEndian

def toBytes : ℕ → ℕ → List UInt8
  | 0, _ => []
  | width + 1, value => UInt8.ofNat (value / 256 ^ width) :: toBytes width value

def ofBytes : List UInt8 → ℕ
  | [] => 0
  | byte :: rest => byte.toNat * 256 ^ rest.length + ofBytes rest

@[simp] theorem length_toBytes (width value : ℕ) : (toBytes width value).length = width := by
  induction width with
  | zero => rfl
  | succ width ih => simp [toBytes, ih]

theorem ofBytes_toBytes_mod (width value : ℕ) :
    ofBytes (toBytes width value) = value % 256 ^ width := by
  induction width with
  | zero => simp [toBytes, ofBytes, Nat.mod_one]
  | succ width ih =>
    have hbyte : (UInt8.ofNat (value / 256 ^ width)).toNat = value / 256 ^ width % 256 := by simp
    have hsplit : value % (256 ^ width * 256) =
        value % 256 ^ width + 256 ^ width * (value / 256 ^ width % 256) := Nat.mod_mul
    rw [toBytes, ofBytes, length_toBytes, ih, hbyte, Nat.pow_succ, hsplit]
    ring

theorem ofBytes_toBytes (width : ℕ) {value : ℕ} (h : value < 256 ^ width) :
    ofBytes (toBytes width value) = value := by
  rw [ofBytes_toBytes_mod, Nat.mod_eq_of_lt h]

theorem ofBytes_lt (bytes : List UInt8) : ofBytes bytes < 256 ^ bytes.length := by
  induction bytes with
  | nil => simp [ofBytes]
  | cons byte rest ih =>
    have hbyte : byte.toNat + 1 ≤ 256 := byte.toNat_lt
    calc ofBytes (byte :: rest) < byte.toNat * 256 ^ rest.length + 256 ^ rest.length := by
          simpa [ofBytes] using ih
      _ = (byte.toNat + 1) * 256 ^ rest.length := by ring
      _ ≤ 256 * 256 ^ rest.length := Nat.mul_le_mul_right _ hbyte
      _ = 256 ^ (byte :: rest).length := by rw [List.length_cons, Nat.pow_succ, Nat.mul_comm]

/-- The bytes below the written width do not depend on anything above it. -/
theorem toBytes_add_mul (width value high : ℕ) :
    toBytes width (high * 256 ^ width + value) = toBytes width value := by
  induction width generalizing high with
  | zero => rfl
  | succ width ih =>
    have hsplit : high * 256 ^ (width + 1) + value = (high * 256) * 256 ^ width + value := by ring
    have hhead : UInt8.ofNat ((high * 256 * 256 ^ width + value) / 256 ^ width) =
        UInt8.ofNat (value / 256 ^ width) := by
      apply UInt8.toNat_inj.mp
      rw [Nat.mul_comm _ (256 ^ width), Nat.mul_add_div (by positivity)]
      simp only [UInt8.toNat_ofNat']
      omega
    rw [hsplit, toBytes, toBytes, hhead, ih]

theorem toBytes_ofBytes (bytes : List UInt8) :
    toBytes bytes.length (ofBytes bytes) = bytes := by
  induction bytes with
  | nil => rfl
  | cons byte rest ih =>
    have hlt := ofBytes_lt rest
    have hhead : ofBytes (byte :: rest) / 256 ^ rest.length = byte.toNat := by
      rw [ofBytes, Nat.mul_comm, Nat.mul_add_div (by positivity), Nat.div_eq_of_lt hlt, Nat.add_zero]
    rw [List.length_cons, toBytes, hhead, UInt8.ofNat_toNat, ofBytes, toBytes_add_mul, ih]

theorem toBytes_ofBytes_of_length {width : ℕ} {bytes : List UInt8} (h : bytes.length = width) :
    toBytes width (ofBytes bytes) = bytes := by
  subst h
  exact toBytes_ofBytes bytes

end BigEndian

import Mathlib.Algebra.Order.Ring.Nat
import Mathlib.Data.List.Induction
import Mathlib.Tactic.Ring

/-!
Digits of so many bits each, regrouped into digits of another size through a register of bounded width. Only the
low bits of the register count: they are what has come in and not yet gone out, whatever is still above them.
-/
namespace Radix

/-- The number that digits of `w` bits stand for, the first the highest. -/
def ofDigits (w : ℕ) (digits : List ℕ) : ℕ := digits.foldl (fun n d => n * 2 ^ w + d) 0

theorem ofDigits_concat (w : ℕ) (digits : List ℕ) (d : ℕ) :
    ofDigits w (digits ++ [d]) = ofDigits w digits * 2 ^ w + d := by
  rw [ofDigits, List.foldl_append]
  rfl

/-- As many digits for one number are the same digits. -/
theorem ofDigits_injective {w : ℕ} {a b : List ℕ} (ha : ∀ d ∈ a, d < 2 ^ w) (hb : ∀ d ∈ b, d < 2 ^ w)
    (hlen : a.length = b.length) (h : ofDigits w a = ofDigits w b) : a = b := by
  induction a using List.reverseRecOn generalizing b with
  | nil => exact (List.length_eq_zero_iff.mp hlen.symm).symm
  | append_singleton a x ih =>
    induction b using List.reverseRecOn with
    | nil => simp at hlen
    | append_singleton b y _ =>
      have hx : x < 2 ^ w := ha x (by simp)
      have hy : y < 2 ^ w := hb y (by simp)
      have hlen' : a.length = b.length := by simpa using hlen
      rw [ofDigits_concat, ofDigits_concat] at h
      have hlow : x = y := by
        have hmod := congrArg (fun n => n % 2 ^ w) h
        simpa only [Nat.mul_add_mod_of_lt hx, Nat.mul_add_mod_of_lt hy] using hmod
      subst hlow
      have hhigh : ofDigits w a = ofDigits w b := Nat.eq_of_mul_eq_mul_right (Nat.two_pow_pos w) (Nat.add_right_cancel h)
      rw [ih (fun d hd => ha d (List.mem_append_left _ hd)) (fun d hd => hb d (List.mem_append_left _ hd)) hlen' hhigh]

/-- A digit comes into a register that is `width` bits wide. -/
def shiftIn (width w acc d : ℕ) : ℕ := ((acc <<< w) % 2 ^ width) ||| d

/-- Below what was there already, the digit is what the register now holds. -/
theorem shiftIn_mod {width w acc d bits : ℕ} (hd : d < 2 ^ w) (hfits : bits + w ≤ width) :
    shiftIn width w acc d % 2 ^ (bits + w) = acc % 2 ^ bits * 2 ^ w + d := by
  obtain ⟨k, hk⟩ : ∃ k, width = w + k := ⟨width - w, by omega⟩
  have hcut : (acc <<< w) % 2 ^ width = (acc % 2 ^ k) <<< w := by
    rw [Nat.shiftLeft_eq, Nat.shiftLeft_eq, hk, Nat.pow_add, Nat.mul_comm acc, Nat.mul_mod_mul_left, Nat.mul_comm]
  have hor : (acc % 2 ^ k) <<< w ||| d = (acc % 2 ^ k) * 2 ^ w + d := by
    rw [← Nat.shiftLeft_add_eq_or_of_lt hd, Nat.shiftLeft_eq]
  have hbits : bits ≤ k := by omega
  have hlow : acc % 2 ^ k % 2 ^ bits = acc % 2 ^ bits := Nat.mod_mod_of_dvd _ (Nat.pow_dvd_pow 2 hbits)
  have hquotient : (acc % 2 ^ k * 2 ^ w + d) / 2 ^ w = acc % 2 ^ k := by
    rw [Nat.mul_comm, Nat.mul_add_div (Nat.two_pow_pos w), Nat.div_eq_of_lt hd, Nat.add_zero]
  rw [shiftIn, hcut, hor, Nat.pow_add, Nat.mul_comm (2 ^ bits), Nat.mod_mul, Nat.mul_add_mod_of_lt hd, hquotient, hlow,
    Nat.mul_comm, Nat.add_comm]

/-- What came in is what has gone out, and below it what the register still holds. -/
def Holds (value w : ℕ) (out : List ℕ) (bits acc : ℕ) : Prop := value = ofDigits w out * 2 ^ bits + acc % 2 ^ bits

theorem holds_empty (w acc : ℕ) : Holds 0 w [] 0 acc := by
  simp [Holds, ofDigits, Nat.mod_one]

theorem Holds.shiftIn {value w out bits acc width v d} (h : Holds value w out bits acc) (hd : d < 2 ^ v)
    (hfits : bits + v ≤ width) : Holds (value * 2 ^ v + d) w out (bits + v) (Radix.shiftIn width v acc d) := by
  rw [Holds, shiftIn_mod hd hfits, h, Nat.pow_add]
  ring

/-- A digit goes out at the top. -/
theorem Holds.shiftOut {value w out bits acc} (h : Holds value w out (bits + w) acc) :
    Holds value w (out ++ [(acc >>> bits) % 2 ^ w]) bits acc := by
  have hsplit : acc % 2 ^ (bits + w) = acc % 2 ^ bits + 2 ^ bits * ((acc >>> bits) % 2 ^ w) := by
    rw [Nat.pow_add, Nat.mod_mul, Nat.shiftRight_eq_div_pow]
  rw [Holds, ofDigits_concat, h, hsplit, Nat.pow_add]
  ring

/-- The last digit of what is held is what the register is short of, made up with zeros. -/
theorem Holds.pad {value w out bits acc} (h : Holds value w out bits acc) (hbits : bits ≤ w) :
    ofDigits w (out ++ [acc % 2 ^ bits * 2 ^ (w - bits)]) = value * 2 ^ (w - bits) := by
  obtain ⟨k, rfl⟩ : ∃ k, w = bits + k := ⟨w - bits, by omega⟩
  rw [ofDigits_concat, h, Nat.add_sub_cancel_left, Nat.pow_add]
  ring

end Radix

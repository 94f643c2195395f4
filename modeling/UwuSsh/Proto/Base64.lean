import Mathlib.Algebra.Group.Nat.Defs
import Mathlib.Data.List.TakeWhile

/-!
Base64 for the byte vectors of an envelope, so that it stays readable in a JSON body.
Text is kept as its bytes. The encoder works on three bytes at a time and pads the
last group. The decoder runs one loop over the text: it stops at the padding, skips
what the alphabet does not have, and shifts every other character into an accumulator
that is never masked. `octets` says what the loop computes group by group, and `tidy`
what is lost when its result is encoded again.
-/
namespace UwuSsh.SerdeBytesVec

def alphabet : List UInt8 :=
  "ABCDEFGHIJKLMNOPQRSTUVWXYZabcdefghijklmnopqrstuvwxyz0123456789+/".toList.map
    fun c => UInt8.ofNat c.toNat

/-- The byte of `=`. -/
def padding : UInt8 := 61

/-- `ALPHABET[i as usize]` -/
def letter (i : UInt32) : UInt8 := alphabet.getD i.toNat padding

/-- The four characters of one chunk: its bytes, with `0` for those it does not have,
and how many it has. -/
def encodeChunk (b₀ b₁ b₂ : UInt8) (len : ℕ) : List UInt8 :=
  let n := b₀.toUInt32 <<< 16 ||| b₁.toUInt32 <<< 8 ||| b₂.toUInt32
  [letter (n >>> 18 &&& 63), letter (n >>> 12 &&& 63),
    if len > 1 then letter (n >>> 6 &&& 63) else padding,
    if len > 2 then letter (n &&& 63) else padding]

def serialize : List UInt8 → List UInt8
  | [] => []
  | [b₀] => encodeChunk b₀ 0 0 1
  | [b₀, b₁] => encodeChunk b₀ b₁ 0 2
  | b₀ :: b₁ :: b₂ :: rest => encodeChunk b₀ b₁ b₂ 3 ++ serialize rest

/-- `ALPHABET.iter().position(|&a| a == c)` -/
def position (c : UInt8) : Option ℕ := alphabet.findIdx? (· == c)

/-- One character of the alphabet: the accumulator, the bits of it that wait for a
byte, and what was put out so far. -/
def shiftIn (v : ℕ) : UInt32 × UInt32 × List UInt8 → UInt32 × UInt32 × List UInt8
  | (acc, bits, out) =>
    let acc := acc <<< 6 ||| UInt32.ofNat v
    let bits := bits + 6
    if bits ≥ 8 then (acc, bits - 8, out ++ [(acc >>> (bits - 8)).toUInt8]) else (acc, bits, out)

def decodeFrom : UInt32 × UInt32 × List UInt8 → List UInt8 → List UInt8
  | (_, _, out), [] => out
  | state, c :: text =>
      if c = padding then state.2.2
      else match position c with
        | none => decodeFrom state text
        | some v => decodeFrom (shiftIn v state) text

def deserialize (text : List UInt8) : List UInt8 := decodeFrom (0, 0, []) text

/-- The values the decoder reads: of every character of the alphabet before the first
padding. -/
def sextets (text : List UInt8) : List ℕ := (text.takeWhile (· != padding)).filterMap position

/-- The bytes of a row of values, four at a time. Bits that do not fill a byte are lost. -/
def octets : List ℕ → List UInt8
  | a :: b :: c :: d :: rest =>
      UInt8.ofNat (a * 4 + b / 16) :: UInt8.ofNat (b % 16 * 16 + c / 4) ::
        UInt8.ofNat (c % 4 * 64 + d) :: octets rest
  | [a, b, c] => [UInt8.ofNat (a * 4 + b / 16), UInt8.ofNat (b % 16 * 16 + c / 4)]
  | [a, b] => [UInt8.ofNat (a * 4 + b / 16)]
  | [_] => []
  | [] => []

/-- Values spelled in the alphabet and padded to a multiple of four characters. A value
alone in the last group goes, and of the last value of a group that is not full only the
bits that belong to a byte stay. -/
def spell : List ℕ → List UInt8
  | a :: b :: c :: d :: rest =>
      letter (UInt32.ofNat a) :: letter (UInt32.ofNat b) :: letter (UInt32.ofNat c) ::
        letter (UInt32.ofNat d) :: spell rest
  | [a, b, c] =>
      [letter (UInt32.ofNat a), letter (UInt32.ofNat b), letter (UInt32.ofNat (c / 4 * 4)), padding]
  | [a, b] => [letter (UInt32.ofNat a), letter (UInt32.ofNat (b / 16 * 16)), padding, padding]
  | [_] => []
  | [] => []

/-- The one spelling of what the decoder reads in a text. -/
def tidy (text : List UInt8) : List UInt8 := spell (sextets text)

theorem length_alphabet : alphabet.length = 64 := rfl

theorem position_lt {c : UInt8} {v : ℕ} (h : position c = some v) : v < 64 := by
  obtain ⟨hlt, -⟩ := List.findIdx?_eq_some_iff_getElem.mp h
  rwa [length_alphabet] at hlt

theorem sextets_lt {text : List UInt8} : ∀ v ∈ sextets text, v < 64 := by
  intro v hv
  obtain ⟨c, -, hc⟩ := List.mem_filterMap.mp hv
  exact position_lt hc

/-- Shifting six bits in moves everything up by six. The old high bits are still there
until they leave the word. -/
theorem toNat_shiftIn (acc : UInt32) {v : ℕ} (h : v < 64) :
    (acc <<< 6 ||| UInt32.ofNat v).toNat = acc.toNat % 2 ^ 26 * 64 + v := by
  have hshift : (acc <<< 6).toNat = 2 ^ 6 * (acc.toNat % 2 ^ 26) := by
    rw [UInt32.toNat_shiftLeft]
    simp only [UInt32.reduceToNat, Nat.shiftLeft_eq, Nat.reduceMod, Nat.reducePow]
    omega
  have hv : (UInt32.ofNat v).toNat = v := by
    rw [UInt32.toNat_ofNat']
    omega
  rw [UInt32.toNat_or, hshift, hv, ← Nat.two_pow_add_eq_or_of_lt h]
  omega

/-- The byte that is put out is the next eight bits, whatever stands above them. -/
theorem toUInt8_shiftRight (acc : UInt32) {bits : ℕ} (h : bits < 32) :
    (acc >>> UInt32.ofNat bits).toUInt8 = UInt8.ofNat (acc.toNat / 2 ^ bits) := by
  apply UInt8.toNat_inj.mp
  have hbits : (UInt32.ofNat bits).toNat % 32 = bits := by
    rw [UInt32.toNat_ofNat']
    omega
  rw [UInt32.toNat_toUInt8, UInt32.toNat_shiftRight, hbits, Nat.shiftRight_eq_div_pow,
    UInt8.toNat_ofNat']

theorem decodeFrom_eq (text : List UInt8) (state : UInt32 × UInt32 × List UInt8) :
    decodeFrom state text = ((sextets text).foldl (fun s v => shiftIn v s) state).2.2 := by
  induction text generalizing state with
  | nil => rfl
  | cons c text ih =>
    by_cases hpad : c = padding
    · simp [decodeFrom, sextets, hpad]
    · have hrest : sextets (c :: text) = (position c).toList ++ sextets text := by
        simp only [sextets, List.takeWhile_cons, bne_iff_ne, ne_eq, hpad, not_false_eq_true,
          if_true, List.filterMap_cons]
        cases position c <;> rfl
      rw [decodeFrom, if_neg hpad, hrest]
      cases position c with
      | none => exact ih state
      | some v => exact ih (shiftIn v state)

theorem shiftIn_empty (v : ℕ) (acc : UInt32) (out : List UInt8) :
    shiftIn v (acc, 0, out) = (acc <<< 6 ||| UInt32.ofNat v, UInt32.ofNat 6, out) := rfl

/-- With two to six bits waiting, the next character completes a byte. -/
theorem shiftIn_waiting (v : ℕ) (acc : UInt32) (out : List UInt8) {bits : ℕ} (hlow : 2 ≤ bits)
    (hhigh : bits ≤ 6) :
    shiftIn v (acc, UInt32.ofNat bits, out) =
      (acc <<< 6 ||| UInt32.ofNat v, UInt32.ofNat (bits - 2),
        out ++ [UInt8.ofNat ((acc <<< 6 ||| UInt32.ofNat v).toNat / 2 ^ (bits - 2))]) := by
  have hfull : UInt32.ofNat bits + 6 ≥ 8 := by
    rw [ge_iff_le, UInt32.le_iff_toNat_le, UInt32.toNat_add, UInt32.toNat_ofNat']
    simp only [UInt32.reduceToNat]
    omega
  have hleft : UInt32.ofNat bits + 6 - 8 = UInt32.ofNat (bits - 2) := by
    rw [← UInt32.toNat_inj, UInt32.toNat_sub_of_le _ _ hfull, UInt32.toNat_add,
      UInt32.toNat_ofNat', UInt32.toNat_ofNat']
    simp only [UInt32.reduceToNat]
    omega
  simp only [shiftIn, if_pos hfull, hleft, toUInt8_shiftRight _ (show bits - 2 < 32 by omega)]

theorem ofNat_congr {m n : ℕ} (h : m % 256 = n % 256) : UInt8.ofNat m = UInt8.ofNat n := by
  apply UInt8.toNat_inj.mp
  rw [UInt8.toNat_ofNat', UInt8.toNat_ofNat']
  exact h

/-- Group by group the loop puts out the bytes of the values, whatever the accumulator held
when the group began. -/
theorem foldl_shiftIn (vs : List ℕ) (h : ∀ v ∈ vs, v < 64) (acc : UInt32) (out : List UInt8) :
    (vs.foldl (fun s v => shiftIn v s) (acc, 0, out)).2.2 = out ++ octets vs := by
  have zero : UInt32.ofNat (2 - 2) = 0 := rfl
  fun_induction octets vs generalizing acc out with
  | case1 a b c d rest ih =>
    obtain ⟨ha, hb, hc, hd, hrest⟩ : a < 64 ∧ b < 64 ∧ c < 64 ∧ d < 64 ∧ ∀ v ∈ rest, v < 64 := by
      simpa using h
    simp only [List.foldl_cons, shiftIn_empty]
    rw [shiftIn_waiting b _ _ (by decide) (by decide),
      shiftIn_waiting c _ _ (by decide) (by decide), shiftIn_waiting d _ _ (by decide) (by decide),
      zero, ih hrest, toNat_shiftIn _ hd, toNat_shiftIn _ hc, toNat_shiftIn _ hb,
      toNat_shiftIn _ ha]
    simp only [List.append_assoc, List.cons_append, List.nil_append, List.append_cancel_left_eq,
      List.cons.injEq, and_true]
    refine ⟨ofNat_congr ?_, ofNat_congr ?_, ofNat_congr ?_⟩ <;> omega
  | case2 a b c =>
    obtain ⟨ha, hb, hc⟩ : a < 64 ∧ b < 64 ∧ c < 64 := by simpa using h
    simp only [List.foldl_cons, List.foldl_nil, shiftIn_empty]
    rw [shiftIn_waiting b _ _ (by decide) (by decide),
      shiftIn_waiting c _ _ (by decide) (by decide), toNat_shiftIn _ hc, toNat_shiftIn _ hb,
      toNat_shiftIn _ ha]
    simp only [List.append_assoc, List.cons_append, List.nil_append, List.append_cancel_left_eq,
      List.cons.injEq, and_true]
    refine ⟨ofNat_congr ?_, ofNat_congr ?_⟩ <;> omega
  | case3 a b =>
    obtain ⟨ha, hb⟩ : a < 64 ∧ b < 64 := by simpa using h
    simp only [List.foldl_cons, List.foldl_nil, shiftIn_empty]
    rw [shiftIn_waiting b _ _ (by decide) (by decide), toNat_shiftIn _ hb,
      toNat_shiftIn _ ha]
    simp only [List.append_cancel_left_eq, List.cons.injEq, and_true]
    exact ofNat_congr (by omega)
  | case4 a => simp [shiftIn_empty]
  | case5 => simp

theorem deserialize_eq (text : List UInt8) : deserialize text = octets (sextets text) := by
  rw [deserialize, decodeFrom_eq, foldl_shiftIn _ sextets_lt, List.nil_append]

/-! The encoder -/

theorem position_letter {v : ℕ} (h : v < 64) : position (letter (UInt32.ofNat v)) = some v := by
  have hall : ∀ i : Fin 64, position (letter (UInt32.ofNat i)) = some i.val := by decide +kernel
  exact hall ⟨v, h⟩

theorem letter_ne_padding {v : ℕ} (h : v < 64) : letter (UInt32.ofNat v) ≠ padding := by
  have hall : ∀ i : Fin 64, letter (UInt32.ofNat i) ≠ padding := by decide +kernel
  exact hall ⟨v, h⟩

theorem sextets_letter {v : ℕ} (h : v < 64) (text : List UInt8) :
    sextets (letter (UInt32.ofNat v) :: text) = v :: sextets text := by
  rw [sextets, List.takeWhile_cons, if_pos (by simpa using letter_ne_padding h),
    List.filterMap_cons, position_letter h]
  rfl

theorem sextets_padding (text : List UInt8) : sextets (padding :: text) = [] := by
  rw [sextets, List.takeWhile_cons, if_neg (by simp)]
  rfl

/-- Six bits of the word of a chunk. -/
theorem and_sixtyThree (n : UInt32) (k : ℕ) (hk : k < 32) :
    n >>> UInt32.ofNat k &&& 63 = UInt32.ofNat (n.toNat / 2 ^ k % 64) := by
  have hshift : (n >>> UInt32.ofNat k).toNat = n.toNat / 2 ^ k := by
    rw [UInt32.toNat_shiftRight, UInt32.toNat_ofNat', Nat.shiftRight_eq_div_pow]
    congr 2
    omega
  have hmask : (63 : UInt32).toNat = 2 ^ 6 - 1 := rfl
  rw [← UInt32.toNat_inj, UInt32.toNat_and, hmask, Nat.and_two_pow_sub_one_eq_mod, hshift,
    UInt32.toNat_ofNat']
  omega

theorem toNat_chunk (b₀ b₁ b₂ : UInt8) :
    (b₀.toUInt32 <<< 16 ||| b₁.toUInt32 <<< 8 ||| b₂.toUInt32).toNat =
      b₀.toNat * 65536 + b₁.toNat * 256 + b₂.toNat := by
  have h₀ := b₀.toNat_lt
  have h₁ := b₁.toNat_lt
  have h₂ := b₂.toNat_lt
  have hhigh : (b₀.toUInt32 <<< 16).toNat = 2 ^ 16 * b₀.toNat := by
    rw [UInt32.toNat_shiftLeft, UInt8.toNat_toUInt32]
    simp only [UInt32.reduceToNat, Nat.shiftLeft_eq, Nat.reduceMod, Nat.reducePow]
    omega
  have hmid : (b₁.toUInt32 <<< 8).toNat = 2 ^ 8 * b₁.toNat := by
    rw [UInt32.toNat_shiftLeft, UInt8.toNat_toUInt32]
    simp only [UInt32.reduceToNat, Nat.shiftLeft_eq, Nat.reduceMod, Nat.reducePow]
    omega
  have hlow : 2 ^ 8 * b₁.toNat ||| b₂.toNat = 2 ^ 8 * b₁.toNat + b₂.toNat :=
    (Nat.two_pow_add_eq_or_of_lt (by omega) _).symm
  rw [UInt32.toNat_or, UInt32.toNat_or, hhigh, hmid, UInt8.toNat_toUInt32, Nat.or_assoc, hlow,
    ← Nat.two_pow_add_eq_or_of_lt (by omega)]
  omega

/-- The four characters of a chunk are its bytes cut into six bits each. -/
theorem encodeChunk_eq (b₀ b₁ b₂ : UInt8) (len : ℕ) :
    encodeChunk b₀ b₁ b₂ len =
      [letter (UInt32.ofNat (b₀.toNat / 4)),
        letter (UInt32.ofNat (b₀.toNat % 4 * 16 + b₁.toNat / 16)),
        if len > 1 then letter (UInt32.ofNat (b₁.toNat % 16 * 4 + b₂.toNat / 64)) else padding,
        if len > 2 then letter (UInt32.ofNat (b₂.toNat % 64)) else padding] := by
  have hword := toNat_chunk b₀ b₁ b₂
  have h₀ := b₀.toNat_lt
  have h₁ := b₁.toNat_lt
  have h₂ := b₂.toNat_lt
  simp only [encodeChunk]
  generalize b₀.toUInt32 <<< 16 ||| b₁.toUInt32 <<< 8 ||| b₂.toUInt32 = n at hword
  have first : n >>> 18 &&& 63 = UInt32.ofNat (b₀.toNat / 4) := by
    rw [show (18 : UInt32) = UInt32.ofNat 18 from rfl, and_sixtyThree n 18 (by decide), hword]
    congr 1
    omega
  have second : n >>> 12 &&& 63 = UInt32.ofNat (b₀.toNat % 4 * 16 + b₁.toNat / 16) := by
    rw [show (12 : UInt32) = UInt32.ofNat 12 from rfl, and_sixtyThree n 12 (by decide), hword]
    congr 1
    omega
  have third : n >>> 6 &&& 63 = UInt32.ofNat (b₁.toNat % 16 * 4 + b₂.toNat / 64) := by
    rw [show (6 : UInt32) = UInt32.ofNat 6 from rfl, and_sixtyThree n 6 (by decide), hword]
    congr 1
    omega
  have fourth : n &&& 63 = UInt32.ofNat (b₂.toNat % 64) := by
    rw [show n &&& 63 = n >>> UInt32.ofNat 0 &&& 63 by simp, and_sixtyThree n 0 (by decide), hword]
    congr 1
    omega
  rw [first, second, third, fourth]

theorem ofNat_eq {n : ℕ} {b : UInt8} (h : n % 256 = b.toNat) : UInt8.ofNat n = b := by
  apply UInt8.toNat_inj.mp
  rw [UInt8.toNat_ofNat']
  exact h

/-- The decoder reads from the encoder's text the values the bytes were cut into, and joins
them to the bytes again. -/
theorem octets_sextets_serialize (bytes : List UInt8) :
    octets (sextets (serialize bytes)) = bytes := by
  fun_induction serialize bytes with
  | case1 => rfl
  | case2 b₀ =>
    have h₀ := b₀.toNat_lt
    have hzero : (0 : UInt8).toNat = 0 := rfl
    simp only [encodeChunk_eq, hzero, gt_iff_lt, lt_self_iff_false, Nat.reduceLT, if_false]
    rw [sextets_letter (by omega), sextets_letter (by omega), sextets_padding, octets]
    congr 1
    exact ofNat_eq (by omega)
  | case3 b₀ b₁ =>
    have h₀ := b₀.toNat_lt
    have h₁ := b₁.toNat_lt
    have hzero : (0 : UInt8).toNat = 0 := rfl
    simp only [encodeChunk_eq, hzero, gt_iff_lt, lt_self_iff_false, Nat.reduceLT, if_false, if_true]
    rw [sextets_letter (by omega), sextets_letter (by omega), sextets_letter (by omega),
      sextets_padding, octets]
    congr 1
    · exact ofNat_eq (by omega)
    · congr 1
      exact ofNat_eq (by omega)
  | case4 b₀ b₁ b₂ rest ih =>
    have h₀ := b₀.toNat_lt
    have h₁ := b₁.toNat_lt
    have h₂ := b₂.toNat_lt
    simp only [encodeChunk_eq, gt_iff_lt, Nat.reduceLT, if_true, List.cons_append, List.nil_append]
    rw [sextets_letter (by omega), sextets_letter (by omega), sextets_letter (by omega),
      sextets_letter (by omega), octets, ih]
    congr 1
    · exact ofNat_eq (by omega)
    · congr 1
      · exact ofNat_eq (by omega)
      · congr 1
        exact ofNat_eq (by omega)

/-- Bytes read from values are spelled as those values, less what did not fill a byte. -/
theorem serialize_octets (vs : List ℕ) (h : ∀ v ∈ vs, v < 64) :
    serialize (octets vs) = spell vs := by
  have hbyte (n : ℕ) (hn : n < 256) : (UInt8.ofNat n).toNat = n := by
    rw [UInt8.toNat_ofNat']
    exact Nat.mod_eq_of_lt hn
  have hzero : (0 : UInt8).toNat = 0 := rfl
  fun_induction octets vs with
  | case1 a b c d rest ih =>
    obtain ⟨ha, hb, hc, hd, hrest⟩ : a < 64 ∧ b < 64 ∧ c < 64 ∧ d < 64 ∧ ∀ v ∈ rest, v < 64 := by
      simpa using h
    have first : (a * 4 + b / 16) / 4 = a := by omega
    have second : (a * 4 + b / 16) % 4 * 16 + (b % 16 * 16 + c / 4) / 16 = b := by omega
    have third : (b % 16 * 16 + c / 4) % 16 * 4 + (c % 4 * 64 + d) / 64 = c := by omega
    have fourth : (c % 4 * 64 + d) % 64 = d := by omega
    rw [serialize, spell, encodeChunk_eq, hbyte _ (by omega), hbyte _ (by omega),
      hbyte _ (by omega), first, second, third, fourth, ih hrest]
    simp
  | case2 a b c =>
    obtain ⟨ha, hb, hc⟩ : a < 64 ∧ b < 64 ∧ c < 64 := by simpa using h
    have first : (a * 4 + b / 16) / 4 = a := by omega
    have second : (a * 4 + b / 16) % 4 * 16 + (b % 16 * 16 + c / 4) / 16 = b := by omega
    have third : (b % 16 * 16 + c / 4) % 16 * 4 + 0 / 64 = c / 4 * 4 := by omega
    rw [serialize, spell, encodeChunk_eq, hbyte _ (by omega), hbyte _ (by omega), hzero, first,
      second, third]
    simp
  | case3 a b =>
    obtain ⟨ha, hb⟩ : a < 64 ∧ b < 64 := by simpa using h
    have first : (a * 4 + b / 16) / 4 = a := by omega
    have second : (a * 4 + b / 16) % 4 * 16 + 0 / 16 = b / 16 * 16 := by omega
    rw [serialize, spell, encodeChunk_eq, hbyte _ (by omega), hzero, first, second]
    simp
  | case4 a => rfl
  | case5 => rfl

theorem deserialize_serialize (bytes : List UInt8) : deserialize (serialize bytes) = bytes := by
  rw [deserialize_eq, octets_sextets_serialize]

theorem serialize_deserialize (text : List UInt8) : serialize (deserialize text) = tidy text := by
  rw [deserialize_eq, serialize_octets _ sextets_lt, tidy]

/-- Decoding undoes encoding, encoding what was decoded spells the text tidily, and the texts
that come back as they were are the encoder's own. -/
theorem base64_exact :
    (∀ bytes, deserialize (serialize bytes) = bytes) ∧
      (∀ text, serialize (deserialize text) = tidy text) ∧
      ∀ text, tidy text = text ↔ ∃ bytes, text = serialize bytes := by
  refine ⟨deserialize_serialize, serialize_deserialize, fun text => ⟨?_, ?_⟩⟩
  · intro htidy
    exact ⟨deserialize text, by rw [serialize_deserialize, htidy]⟩
  · rintro ⟨bytes, rfl⟩
    rw [← serialize_deserialize, deserialize_serialize]

end UwuSsh.SerdeBytesVec

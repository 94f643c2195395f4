import Mathlib.Tactic.NormNum.Basic
import UwuSsh.Lib.Search

/-!
Bytes read as UTF-8 where they may be anything: each longest piece that no character goes on from
becomes one U+FFFD. ASCII bytes stand for themselves wherever they are, and no other byte yields an
ASCII character, so an ASCII pattern is found in the text just where it is in the bytes.
-/
namespace Utf8

/-- A character begun: how many bytes are missing, the range of the next one, and the bits so far. -/
structure Pending where
  missing : ℕ
  low : ℕ
  high : ℕ
  bits : ℕ
deriving DecidableEq

def replacement : Char := '\uFFFD'

/-- The first byte of a character, or one that stands alone. -/
def lead (b : UInt8) : List Char × Option Pending :=
  if b < 0x80 then ([Char.ofNat b.toNat], none)
  else if 0xC2 ≤ b ∧ b ≤ 0xDF then ([], some ⟨1, 0x80, 0xBF, b.toNat - 0xC0⟩)
  else if b = 0xE0 then ([], some ⟨2, 0xA0, 0xBF, 0⟩)
  else if b = 0xED then ([], some ⟨2, 0x80, 0x9F, 13⟩)
  else if 0xE1 ≤ b ∧ b ≤ 0xEF then ([], some ⟨2, 0x80, 0xBF, b.toNat - 0xE0⟩)
  else if b = 0xF0 then ([], some ⟨3, 0x90, 0xBF, 0⟩)
  else if b = 0xF4 then ([], some ⟨3, 0x80, 0x8F, 4⟩)
  else if 0xF1 ≤ b ∧ b ≤ 0xF3 then ([], some ⟨3, 0x80, 0xBF, b.toNat - 0xF0⟩)
  else ([replacement], none)

/-- `String::from_utf8_lossy`, behind what was begun. -/
def decodeFrom : Option Pending → List UInt8 → List Char
  | none, [] => []
  | some _, [] => [replacement]
  | none, b :: rest => (lead b).1 ++ decodeFrom (lead b).2 rest
  | some p, b :: rest =>
    if p.low ≤ b.toNat ∧ b.toNat ≤ p.high then
      let bits := p.bits * 64 + b.toNat % 64
      if p.missing = 1 then Char.ofNat bits :: decodeFrom none rest
      else decodeFrom (some ⟨p.missing - 1, 0x80, 0xBF, bits⟩) rest
    else replacement :: ((lead b).1 ++ decodeFrom (lead b).2 rest)

def decodeLossy (bytes : List UInt8) : List Char := decodeFrom none bytes

example : decodeLossy [0x61, 0xE2, 0x82, 0x62, 0xC3, 0xA9, 0xF0] = ['a', '\uFFFD', 'b', 'é', '\uFFFD'] := by
  decide

/-- A code point that is a character and no ASCII one. -/
def Wide (n : ℕ) : Prop := 0x80 ≤ n ∧ (n < 0xD800 ∨ 0xE000 ≤ n ∧ n < 0x110000)

theorem le_toNat_of_wide {n : ℕ} (h : Wide n) : 0x80 ≤ (Char.ofNat n).toNat := by
  have hvalid : n.isValidChar := by
    obtain ⟨-, hlow | hhigh⟩ := h
    · exact .inl hlow
    · exact .inr ⟨by omega, hhigh.2⟩
  have hsame : (Char.ofNat n).toNat = n := by
    rw [Char.ofNat, dif_pos hvalid]
    rfl
  rw [hsame]
  exact h.1

/-- The least code point that may come of what was begun. -/
def Pending.least (p : Pending) : ℕ := (p.bits * 64 + (p.low - 0x80)) * 64 ^ (p.missing - 1)

def Pending.greatest (p : Pending) : ℕ := (p.bits * 64 + (p.high - 0x80) + 1) * 64 ^ (p.missing - 1) - 1

/-- Whatever bytes complete the character, it is no ASCII one. -/
def Pending.Ok (p : Pending) : Prop :=
  (0x80 ≤ p.low ∧ p.low ≤ p.high ∧ p.high ≤ 0xBF) ∧ (1 ≤ p.missing ∧ p.missing ≤ 3) ∧
    0x80 ≤ p.least ∧ (p.greatest < 0xD800 ∨ 0xE000 ≤ p.least ∧ p.greatest < 0x110000)

instance (p : Pending) : Decidable p.Ok := inferInstanceAs (Decidable (_ ∧ _))

theorem ok_lead (b : UInt8) : ∀ p ∈ (lead b).2, p.Ok := by
  have hall : ∀ n < 256, ∀ p ∈ (lead (UInt8.ofNat n)).2, p.Ok := by decide +kernel
  have hb : UInt8.ofNat b.toNat = b := UInt8.ofNat_toNat
  rw [← hb]
  exact hall b.toNat b.toNat_lt

theorem wide_of_ok {p : Pending} (h : p.Ok) (hlast : p.missing = 1) {b : ℕ} (hlow : p.low ≤ b)
    (hhigh : b ≤ p.high) : Wide (p.bits * 64 + b % 64) := by
  obtain ⟨hrange, -, hleast⟩ := h
  simp only [Pending.least, Pending.greatest, hlast, Nat.sub_self, Nat.pow_zero, Nat.mul_one] at hleast
  unfold Wide
  omega

theorem ok_next {p : Pending} (h : p.Ok) (hmore : p.missing ≠ 1) {b : ℕ} (hlow : p.low ≤ b)
    (hhigh : b ≤ p.high) : (Pending.mk (p.missing - 1) 0x80 0xBF (p.bits * 64 + b % 64)).Ok := by
  obtain ⟨hrange, hmissing, hleast⟩ := h
  have hcases : p.missing = 2 ∨ p.missing = 3 := by omega
  rcases hcases with hm | hm <;>
    simp only [Pending.least, Pending.greatest, Pending.Ok, hm] at hleast ⊢ <;> omega

theorem lead_ascii {b : UInt8} (h : b < 0x80) : lead b = ([Char.ofNat b.toNat], none) := by
  simp [lead, h]

/-- A byte that is not ASCII stands alone, as a character that is none either, or begins a character. -/
theorem lead_not_ascii {b : UInt8} (h : 0x80 ≤ b) :
    (∃ c, 0x80 ≤ c.toNat ∧ lead b = ([c], none)) ∨ ∃ p : Pending, p.Ok ∧ lead b = ([], some p) := by
  have hshape : (lead b).1 = [] ∧ (lead b).2.isSome ∨ (lead b).1 = [replacement] ∧ (lead b).2 = none := by
    have hnot : ¬ b < 0x80 := UInt8.not_lt.mpr h
    simp only [lead, hnot, if_false]
    split_ifs <;> simp
  rcases hshape with ⟨hnone, hsome⟩ | ⟨hone, hnone⟩
  · obtain ⟨p, hp⟩ := Option.isSome_iff_exists.mp hsome
    exact .inr ⟨p, ok_lead b p hp, Prod.ext hnone hp⟩
  · exact .inl ⟨replacement, by decide, Prod.ext hone hnone⟩

theorem decodeFrom_some_cons (p : Pending) (b : UInt8) (rest : List UInt8)
    (h : ¬ (p.low ≤ b.toNat ∧ b.toNat ≤ p.high)) :
    decodeFrom (some p) (b :: rest) = replacement :: decodeFrom none (b :: rest) := by
  simp only [decodeFrom, if_neg h]

/-- What was begun ends as a character that is not ASCII. -/
theorem decodeFrom_some {p : Pending} (h : p.Ok) (bytes : List UInt8) :
    ∃ c rest, decodeFrom (some p) bytes = c :: rest ∧ 0x80 ≤ c.toNat := by
  induction bytes generalizing p with
  | nil => exact ⟨replacement, [], rfl, by decide⟩
  | cons b rest ih =>
    by_cases hb : p.low ≤ b.toNat ∧ b.toNat ≤ p.high
    · rw [decodeFrom, if_pos hb]
      by_cases hlast : p.missing = 1
      · rw [if_pos hlast]
        exact ⟨_, _, rfl, le_toNat_of_wide (wide_of_ok h hlast hb.1 hb.2)⟩
      · rw [if_neg hlast]
        exact ih (ok_next h hlast hb.1 hb.2)
    · exact ⟨replacement, _, decodeFrom_some_cons p b rest hb, by decide⟩

theorem decodeFrom_none_not_ascii {b : UInt8} (h : 0x80 ≤ b) (rest : List UInt8) :
    ∃ c text, decodeFrom none (b :: rest) = c :: text ∧ 0x80 ≤ c.toNat := by
  rw [decodeFrom]
  rcases lead_not_ascii h with ⟨c, hc, hlead⟩ | ⟨p, hp, hlead⟩
  · exact ⟨c, _, by rw [hlead]; rfl, hc⟩
  · rw [hlead]
    exact decodeFrom_some hp rest

def IsAscii (text : List Char) : Prop := ∀ c ∈ text, c.toNat < 0x80

instance (text : List Char) : Decidable (IsAscii text) :=
  decidable_of_iff (text.all fun c => c.toNat < 0x80) (by simp [IsAscii])

def asciiBytes (text : List Char) : List UInt8 := text.map fun c => UInt8.ofNat c.toNat

theorem asciiBytes_cons (c : Char) (text : List Char) :
    asciiBytes (c :: text) = UInt8.ofNat c.toNat :: asciiBytes text := rfl

theorem ofNat_eq_iff {c : Char} (hc : c.toNat < 0x80) {b : UInt8} (hb : b < 0x80) :
    Char.ofNat b.toNat = c ↔ b = UInt8.ofNat c.toNat := by
  constructor
  · rintro rfl
    have hvalid : (b.toNat).isValidChar := .inl (by have := UInt8.lt_iff_toNat_lt.mp hb; simp at this; omega)
    have hsame : (Char.ofNat b.toNat).toNat = b.toNat := by
      rw [Char.ofNat, dif_pos hvalid]
      rfl
    rw [hsame, UInt8.ofNat_toNat]
  · rintro rfl
    rw [UInt8.toNat_ofNat', Nat.mod_eq_of_lt (by omega), Char.ofNat_toNat]

theorem isPrefix_decode_iff {pattern : List Char} (h : IsAscii pattern) (bytes : List UInt8) :
    pattern <+: decodeFrom none bytes ↔ asciiBytes pattern <+: bytes := by
  induction pattern generalizing bytes with
  | nil => simp [asciiBytes]
  | cons c pattern ih =>
    have hc : c.toNat < 0x80 := h c List.mem_cons_self
    have htail : IsAscii pattern := fun d hd => h d (List.mem_cons_of_mem c hd)
    cases bytes with
    | nil => simp [decodeFrom, asciiBytes]
    | cons b rest =>
      by_cases hb : b < 0x80
      · rw [decodeFrom, lead_ascii hb, List.singleton_append, List.cons_prefix_cons, ih htail,
          asciiBytes_cons, List.cons_prefix_cons, eq_comm, ofNat_eq_iff hc hb, @eq_comm _ b]
      · obtain ⟨d, text, hdecode, hd⟩ := decodeFrom_none_not_ascii (UInt8.not_lt.mp hb) rest
        rw [hdecode, asciiBytes_cons, List.cons_prefix_cons, List.cons_prefix_cons]
        refine iff_of_false (fun hboth => ?_) fun hboth => hb ?_
        · rw [← hboth.1] at hd
          omega
        · rw [← hboth.1, UInt8.lt_iff_toNat_lt, UInt8.toNat_ofNat']
          exact Nat.lt_of_le_of_lt (Nat.mod_le _ _) hc

/-- A character or a byte that is not ASCII is in no occurrence of an ASCII pattern. -/
theorem occurrences_cons_wide {pattern : List Char} (h : IsAscii pattern) (hne : pattern ≠ []) {c : Char}
    (hc : 0x80 ≤ c.toNat) (text : List Char) :
    Search.occurrences pattern (c :: text) = Search.occurrences pattern text := by
  obtain ⟨d, rest, rfl⟩ := List.exists_cons_of_ne_nil hne
  have hd : d.toNat < 0x80 := h d List.mem_cons_self
  have hnot : ¬ d :: rest <+: c :: text := fun hpre => by
    rw [(List.cons_prefix_cons.mp hpre).1] at hd
    omega
  rw [Search.occurrences, if_neg hnot, Nat.zero_add]

theorem occurrences_cons_not_ascii {pattern : List Char} (h : IsAscii pattern) (hne : pattern ≠ [])
    {b : UInt8} (hb : 0x80 ≤ b) (bytes : List UInt8) :
    Search.occurrences (asciiBytes pattern) (b :: bytes) = Search.occurrences (asciiBytes pattern) bytes := by
  obtain ⟨d, rest, rfl⟩ := List.exists_cons_of_ne_nil hne
  have hd : d.toNat < 0x80 := h d List.mem_cons_self
  have hnot : ¬ asciiBytes (d :: rest) <+: b :: bytes := fun hpre => by
    have hb' := UInt8.le_iff_toNat_le.mp hb
    rw [← (List.cons_prefix_cons.mp hpre).1, UInt8.toNat_ofNat', Nat.mod_eq_of_lt (by omega)] at hb'
    have hlit : (0x80 : UInt8).toNat = 128 := rfl
    omega
  rw [Search.occurrences, if_neg hnot, Nat.zero_add]

/-- Where a character begins, the pattern starts as often in the text as in the bytes, if it does so in
the rest, whatever was begun there. -/
theorem occurrences_decode_step {pattern : List Char} (h : IsAscii pattern) (hne : pattern ≠ [])
    {b : UInt8} {rest : List UInt8}
    (hnone : Search.occurrences pattern (decodeFrom none rest) =
      Search.occurrences (asciiBytes pattern) rest)
    (hsome : ∀ p : Pending, p.Ok → Search.occurrences pattern (decodeFrom (some p) rest) =
      Search.occurrences (asciiBytes pattern) rest) :
    Search.occurrences pattern (decodeFrom none (b :: rest)) =
      Search.occurrences (asciiBytes pattern) (b :: rest) := by
  by_cases hb : b < 0x80
  · have hpre := isPrefix_decode_iff h (b :: rest)
    rw [decodeFrom, lead_ascii hb, List.singleton_append] at hpre ⊢
    simp only [Search.occurrences, hpre, hnone]
  · have hb' := UInt8.not_lt.mp hb
    rw [decodeFrom, occurrences_cons_not_ascii h hne hb']
    rcases lead_not_ascii hb' with ⟨c, hc, hlead⟩ | ⟨p, hp, hlead⟩
    · rw [hlead, List.singleton_append, occurrences_cons_wide h hne hc, hnone]
    · rw [hlead, List.nil_append, hsome p hp]

theorem occurrences_decodeFrom {pattern : List Char} (h : IsAscii pattern) (hne : pattern ≠ [])
    (bytes : List UInt8) :
    Search.occurrences pattern (decodeFrom none bytes) = Search.occurrences (asciiBytes pattern) bytes ∧
      ∀ p : Pending, p.Ok → Search.occurrences pattern (decodeFrom (some p) bytes) =
        Search.occurrences (asciiBytes pattern) bytes := by
  induction bytes with
  | nil => exact ⟨rfl, fun p _ => occurrences_cons_wide h hne (by decide) []⟩
  | cons b rest ih =>
    have hstart := @occurrences_decode_step pattern h hne b rest ih.1 ih.2
    refine ⟨hstart, fun p hp => ?_⟩
    by_cases hb : p.low ≤ b.toNat ∧ b.toNat ≤ p.high
    · have hb' : 0x80 ≤ b := UInt8.le_iff_toNat_le.mpr (Nat.le_trans hp.1.1 hb.1)
      rw [decodeFrom, if_pos hb, occurrences_cons_not_ascii h hne hb']
      by_cases hlast : p.missing = 1
      · rw [if_pos hlast, occurrences_cons_wide h hne (le_toNat_of_wide (wide_of_ok hp hlast hb.1 hb.2)), ih.1]
      · rw [if_neg hlast]
        exact ih.2 _ (ok_next hp hlast hb.1 hb.2)
    · rw [decodeFrom_some_cons p b rest hb, occurrences_cons_wide h hne (by decide), hstart]

/-- The text has an ASCII pattern where the bytes have it. -/
theorem occurrences_decodeLossy {pattern : List Char} (h : IsAscii pattern) (hne : pattern ≠ [])
    (bytes : List UInt8) :
    Search.occurrences pattern (decodeLossy bytes) = Search.occurrences (asciiBytes pattern) bytes :=
  (occurrences_decodeFrom h hne bytes).1

/-- An ASCII byte ends what was begun and stands for itself. -/
theorem decodeFrom_append_ascii {b : UInt8} (hb : b < 0x80) (front back : List UInt8) :
    decodeFrom none (front ++ b :: back) =
        decodeFrom none front ++ Char.ofNat b.toNat :: decodeFrom none back ∧
      ∀ p : Pending, p.Ok → decodeFrom (some p) (front ++ b :: back) =
        decodeFrom (some p) front ++ Char.ofNat b.toNat :: decodeFrom none back := by
  induction front with
  | nil =>
    have hstart : decodeFrom none (b :: back) = Char.ofNat b.toNat :: decodeFrom none back := by
      rw [decodeFrom, lead_ascii hb, List.singleton_append]
    refine ⟨hstart, fun p hp => ?_⟩
    have hout : ¬ (p.low ≤ b.toNat ∧ b.toNat ≤ p.high) := fun hin => by
      have hlt := UInt8.lt_iff_toNat_lt.mp hb
      have hlit : (0x80 : UInt8).toNat = 128 := rfl
      have hlow := hp.1.1
      omega
    rw [List.nil_append, decodeFrom_some_cons p b back hout, hstart]
    rfl
  | cons c rest ih =>
    have hstart : decodeFrom none (c :: (rest ++ b :: back)) =
        decodeFrom none (c :: rest) ++ Char.ofNat b.toNat :: decodeFrom none back := by
      simp only [decodeFrom, List.append_assoc]
      cases hlead : (lead c).2 with
      | none => rw [ih.1]
      | some p => rw [ih.2 p (ok_lead c p hlead)]
    refine ⟨hstart, fun p hp => ?_⟩
    rw [List.cons_append]
    by_cases hc : p.low ≤ c.toNat ∧ c.toNat ≤ p.high
    · rw [decodeFrom, if_pos hc, decodeFrom, if_pos hc]
      by_cases hlast : p.missing = 1
      · rw [if_pos hlast, if_pos hlast, ih.1, List.cons_append]
      · rw [if_neg hlast, if_neg hlast]
        exact ih.2 _ (ok_next hp hlast hc.1 hc.2)
    · rw [decodeFrom_some_cons p c _ hc, decodeFrom_some_cons p c _ hc, hstart, List.cons_append]

/-- Behind an ASCII pattern the text ends with it. -/
theorem decodeLossy_append_ascii {pattern : List Char} (h : IsAscii pattern) (front : List UInt8) :
    decodeLossy (front ++ asciiBytes pattern) = decodeLossy front ++ pattern := by
  induction pattern generalizing front with
  | nil => simp [asciiBytes]
  | cons c pattern ih =>
    have hc : c.toNat < 0x80 := h c List.mem_cons_self
    have htail : IsAscii pattern := fun d hd => h d (List.mem_cons_of_mem c hd)
    have hb : UInt8.ofNat c.toNat < 0x80 := by
      rw [UInt8.lt_iff_toNat_lt, UInt8.toNat_ofNat']
      exact Nat.lt_of_le_of_lt (Nat.mod_le _ _) hc
    have hself : Char.ofNat (UInt8.ofNat c.toNat).toNat = c := (ofNat_eq_iff hc hb).mpr rfl
    have hrest : decodeLossy (asciiBytes pattern) = pattern := by simpa [decodeLossy, decodeFrom] using ih htail []
    rw [asciiBytes_cons, decodeLossy, (decodeFrom_append_ascii hb front _).1, hself]
    exact congrArg (decodeFrom none front ++ c :: ·) hrest

/-! ### Text as bytes -/

/-- The bytes of a text. -/
def encode (text : List Char) : List UInt8 := text.flatMap String.utf8EncodeChar

theorem lead_two : ∀ n < 32, 2 ≤ n → lead (UInt8.ofNat (n + 0xC0)) = ([], some ⟨1, 0x80, 0xBF, n⟩) := by
  decide +kernel

theorem lead_three : ∀ n < 16, lead (UInt8.ofNat (n + 0xE0)) =
    ([], some ⟨2, if n = 0 then 0xA0 else 0x80, if n = 13 then 0x9F else 0xBF, n⟩) := by
  decide +kernel

theorem lead_four : ∀ n < 5, lead (UInt8.ofNat (n + 0xF0)) =
    ([], some ⟨3, if n = 0 then 0x90 else 0x80, if n = 4 then 0x8F else 0xBF, n⟩) := by
  decide +kernel

theorem toNat_six {k : ℕ} (hk : k < 64) : (UInt8.ofNat (k + 0x80)).toNat = k + 0x80 := by
  rw [UInt8.toNat_ofNat']
  omega

/-- The last byte of a character. -/
theorem decodeFrom_last {low high bits k : ℕ} (hk : k < 64) (hlow : low ≤ k + 0x80) (hhigh : k + 0x80 ≤ high)
    (rest : List UInt8) : decodeFrom (some ⟨1, low, high, bits⟩) (UInt8.ofNat (k + 0x80) :: rest) =
      Char.ofNat (bits * 64 + k) :: decodeFrom none rest := by
  have hbits : (k + 0x80) % 64 = k := by omega
  rw [decodeFrom, toNat_six hk, if_pos ⟨hlow, hhigh⟩, if_pos rfl, hbits]

/-- A byte in the middle of one. -/
theorem decodeFrom_middle {missing low high bits k : ℕ} (hk : k < 64) (hlow : low ≤ k + 0x80) (hhigh : k + 0x80 ≤ high)
    (rest : List UInt8) : decodeFrom (some ⟨missing + 2, low, high, bits⟩) (UInt8.ofNat (k + 0x80) :: rest) =
      decodeFrom (some ⟨missing + 1, 0x80, 0xBF, bits * 64 + k⟩) rest := by
  have hbits : (k + 0x80) % 64 = k := by omega
  rw [decodeFrom, toNat_six hk, if_pos ⟨hlow, hhigh⟩, if_neg (by simp), hbits]
  rfl

theorem decodeFrom_utf8EncodeChar (c : Char) (rest : List UInt8) :
    decodeFrom none (String.utf8EncodeChar c ++ rest) = c :: decodeFrom none rest := by
  have hself : Char.ofNat c.val.toNat = c := Char.ofNat_toNat c
  have hvalid : c.val.toNat < 0xD800 ∨ 0xDFFF < c.val.toNat ∧ c.val.toNat < 0x110000 := c.valid
  generalize hv : c.val.toNat = v at hself hvalid
  unfold String.utf8EncodeChar
  simp only [hv]
  split
  · next hone =>
    have hbyte : (UInt8.ofNat v).toNat = v := by
      rw [UInt8.toNat_ofNat']
      omega
    have hascii : UInt8.ofNat v < 0x80 := by
      rw [UInt8.lt_iff_toNat_lt, hbyte]
      change v < 128
      omega
    rw [List.singleton_append, decodeFrom, lead_ascii hascii, hbyte, hself]
    rfl
  · split
    · have hsum : v / 64 % 0x20 * 64 + v % 0x40 = v := by omega
      rw [List.cons_append, decodeFrom, lead_two _ (by omega) (by omega)]
      refine (decodeFrom_last (by omega) (by omega) (by omega) rest).trans ?_
      rw [hsum, hself]
    · split
      · have hsum : (v / 4096 % 0x10 * 64 + v / 64 % 0x40) * 64 + v % 0x40 = v := by omega
        rw [List.cons_append, decodeFrom, lead_three _ (by omega)]
        refine (decodeFrom_middle (by omega) (by split <;> omega) (by split <;> omega) _).trans ?_
        refine (decodeFrom_last (by omega) (by omega) (by omega) rest).trans ?_
        rw [hsum, hself]
      · have hsum : ((v / 262144 % 0x08 * 64 + v / 4096 % 0x40) * 64 + v / 64 % 0x40) * 64 + v % 0x40 = v := by
          omega
        rw [List.cons_append, decodeFrom, lead_four _ (by omega)]
        refine (decodeFrom_middle (by omega) (by split <;> omega) (by split <;> omega) _).trans ?_
        refine (decodeFrom_middle (by omega) (by omega) (by omega) _).trans ?_
        refine (decodeFrom_last (by omega) (by omega) (by omega) rest).trans ?_
        rw [hsum, hself]

/-- A text is read back from its bytes. -/
theorem decodeLossy_encode (text : List Char) : decodeLossy (encode text) = text := by
  induction text with
  | nil => rfl
  | cons c text ih =>
    rw [encode, List.flatMap_cons, decodeLossy, decodeFrom_utf8EncodeChar]
    exact congrArg (c :: ·) ih

end Utf8

import Mathlib.Algebra.Group.Nat.Defs
import Mathlib.Data.List.DropRight

/-!
Text as the source's standard library handles it: white space and control
characters by their Unicode properties, trimming, ASCII lower case, and
hexadecimal digits. Strings are taken apart as lists of characters.
-/
namespace Text

/-- `char::is_whitespace`: the Unicode property White_Space. -/
def isWhite (c : Char) : Bool :=
  (9 ≤ c.toNat && c.toNat ≤ 13) || c.toNat == 0x20 || c.toNat == 0x85 || c.toNat == 0xA0 ||
    c.toNat == 0x1680 || (0x2000 ≤ c.toNat && c.toNat ≤ 0x200A) || c.toNat == 0x2028 ||
    c.toNat == 0x2029 || c.toNat == 0x202F || c.toNat == 0x205F || c.toNat == 0x3000

/-- `char::is_control`: the Unicode category Cc. -/
def isControl (c : Char) : Bool := c.toNat < 32 || (127 ≤ c.toNat && c.toNat < 160)

def trimStart (cs : List Char) : List Char := cs.dropWhile isWhite

def trimEnd (cs : List Char) : List Char := (cs.reverse.dropWhile isWhite).reverse

def trim (s : String) : String := String.ofList (trimEnd (trimStart s.toList))

def asciiLowerChar (c : Char) : Char := if 'A' ≤ c ∧ c ≤ 'Z' then Char.ofNat (c.toNat + 32) else c

def asciiLower (s : String) : String := String.ofList (s.toList.map asciiLowerChar)

def isAsciiLower (c : Char) : Bool := 'a' ≤ c && c ≤ 'z'

def isAsciiDigit (c : Char) : Bool := '0' ≤ c && c ≤ '9'

def isAsciiAlphanumeric (c : Char) : Bool :=
  isAsciiLower c || ('A' ≤ c && c ≤ 'Z') || isAsciiDigit c

def stripPrefix (start s : String) : Option String :=
  if s.toList.take start.length = start.toList then some (String.ofList (s.toList.drop start.length))
  else none

def stripSuffix (ending s : String) : Option String :=
  if ending.toList.isSuffixOf s.toList then
    some (String.ofList (s.toList.take (s.length - ending.length)))
  else none

/-- One hexadecimal digit, in either case. -/
def hexDigit (c : Char) : Option ℕ :=
  if isAsciiDigit c then some (c.toNat - 48)
  else if isAsciiLower (asciiLowerChar c) ∧ asciiLowerChar c ≤ 'f' then
    some ((asciiLowerChar c).toNat - 87)
  else none

def hexValue (cs : List Char) : Option ℕ :=
  cs.foldlM (fun acc c => (hexDigit c).map (acc * 16 + ·)) 0

/-- `parse` to an unsigned integer of so many bits: digits, perhaps behind a plus. -/
def parseUnsigned (bits : ℕ) (cs : List Char) : Option ℕ :=
  let digits := match cs with
    | '+' :: rest => rest
    | rest => rest
  if digits ≠ [] ∧ digits.all isAsciiDigit then
    let n := digits.foldl (fun n c => n * 10 + (c.toNat - 48)) 0
    if n < 2 ^ bits then some n else none
  else none

def hexChar (n : ℕ) : Char := if n < 10 then Char.ofNat (48 + n) else Char.ofNat (87 + n)

/-- The low `width` hexadecimal digits, in lower case. -/
def hexChars : ℕ → ℕ → List Char
  | 0, _ => []
  | width + 1, value => hexChar (value / 16 ^ width % 16) :: hexChars width value

theorem trimStart_trimEnd {cs : List Char} (h : trimStart cs = cs) :
    trimStart (trimEnd cs) = trimEnd cs := by
  have hprefix : trimEnd cs <+: cs := List.rdropWhile_prefix isWhite cs
  obtain ⟨rest, hrest⟩ := hprefix
  cases hend : trimEnd cs with
  | nil => rfl
  | cons c tail =>
    rw [hend] at hrest
    rw [← hrest] at h
    by_cases hc : isWhite c
    · have hlen := congrArg List.length h
      have hle := (List.dropWhile_suffix isWhite (l := tail ++ rest)).length_le
      simp only [trimStart, List.cons_append, List.dropWhile_cons_of_pos hc, List.length_cons] at hlen
      omega
    · exact List.dropWhile_cons_of_neg hc

theorem trim_trim (s : String) : trim (trim s) = trim s := by
  have hstart : trimStart (trimStart s.toList) = trimStart s.toList :=
    List.dropWhile_idempotent isWhite _
  have hend : trimEnd (trimEnd (trimStart s.toList)) = trimEnd (trimStart s.toList) :=
    List.rdropWhile_idempotent isWhite _
  simp only [trim, String.toList_ofList, trimStart_trimEnd hstart, hend]

theorem trim_sublist (s : String) : (trim s).toList.Sublist s.toList := by
  rw [trim, String.toList_ofList]
  have hstart : (trimStart s.toList).Sublist s.toList := List.dropWhile_sublist isWhite
  exact (List.rdropWhile_prefix isWhite _).sublist.trans hstart

/-- A text that trimming leaves as long as it was is left as it was. -/
theorem trim_of_size {s : String} (h : (trim s).utf8ByteSize = s.utf8ByteSize) : trim s = s := by
  obtain ⟨before, hbefore⟩ : trimStart s.toList <:+ s.toList := List.dropWhile_suffix isWhite
  obtain ⟨after, hafter⟩ : trimEnd (trimStart s.toList) <+: trimStart s.toList := List.rdropWhile_prefix isWhite _
  have hwhole : String.ofList before ++ (trim s ++ String.ofList after) = s := by
    rw [trim, ← String.ofList_append, ← String.ofList_append, hafter, hbefore, String.ofList_toList]
  have hsize := congrArg String.utf8ByteSize hwhole
  rw [String.utf8ByteSize_append, String.utf8ByteSize_append] at hsize
  have hnone : String.ofList before = "" := String.utf8ByteSize_eq_zero_iff.mp (by omega)
  have hnone' : String.ofList after = "" := String.utf8ByteSize_eq_zero_iff.mp (by omega)
  rw [hnone, hnone', String.empty_append, String.append_empty] at hwhole
  exact hwhole

theorem trimStart_take {cs : List Char} (h : trimStart cs = cs) (count : ℕ) :
    trimStart (cs.take count) = cs.take count := by
  cases cs with
  | nil => rw [List.take_nil]; rfl
  | cons c rest =>
    cases count with
    | zero => rfl
    | succ count =>
      by_cases hc : isWhite c
      · have hlen := congrArg List.length h
        have hle := (List.dropWhile_suffix isWhite (l := rest)).length_le
        simp only [trimStart, List.dropWhile_cons_of_pos hc, List.length_cons] at hlen
        omega
      · exact List.dropWhile_cons_of_neg hc

theorem trim_of_not_white {s : String} (h : ∀ c ∈ s.toList, isWhite c = false) : trim s = s := by
  have hdrop {cs : List Char} (hcs : ∀ c ∈ cs, isWhite c = false) : cs.dropWhile isWhite = cs := by
    cases cs with
    | nil => rfl
    | cons c rest => exact List.dropWhile_cons_of_neg (by simp [hcs c List.mem_cons_self])
  have hreverse : ∀ c ∈ s.toList.reverse, isWhite c = false := fun c hc => h c (List.mem_reverse.mp hc)
  rw [trim, trimStart, hdrop h, trimEnd, hdrop hreverse, List.reverse_reverse, String.ofList_toList]

/-- What a test finds nothing in, at one look over the whole text. -/
theorem isWhite_asciiLowerChar (c : Char) : isWhite (asciiLowerChar c) = isWhite c := by
  unfold asciiLowerChar
  split
  · rename_i hupper
    have hlow : 65 ≤ c.toNat := hupper.1
    have hhigh : c.toNat ≤ 90 := hupper.2
    have hvalid : (c.toNat + 32).isValidChar := Or.inl (by omega)
    have hnat : (Char.ofNat (c.toNat + 32)).toNat = c.toNat + 32 := by
      rw [Char.ofNat, dif_pos hvalid]
      rfl
    have hleft : isWhite (Char.ofNat (c.toNat + 32)) = false := by
      simp only [isWhite, hnat]
      simp
      omega
    have hright : isWhite c = false := by
      simp only [isWhite]
      simp
      omega
    rw [hleft, hright]
  · rfl

theorem asciiLowerChar_asciiLowerChar (c : Char) : asciiLowerChar (asciiLowerChar c) = asciiLowerChar c := by
  by_cases hupper : 'A' ≤ c ∧ c ≤ 'Z'
  · have hlow : 65 ≤ c.toNat := hupper.1
    have hhigh : c.toNat ≤ 90 := hupper.2
    have hvalid : (c.toNat + 32).isValidChar := Or.inl (by omega)
    have hnat : (Char.ofNat (c.toNat + 32)).toNat = c.toNat + 32 := by
      rw [Char.ofNat, dif_pos hvalid]
      rfl
    have hlowered : asciiLowerChar c = Char.ofNat (c.toNat + 32) := if_pos hupper
    rw [hlowered]
    apply if_neg
    intro hagain
    have hle : (Char.ofNat (c.toNat + 32)).toNat ≤ 90 := hagain.2
    omega
  · have hsame : asciiLowerChar c = c := if_neg hupper
    rw [hsame, hsame]

/-- Lower case neither makes white space nor takes it away. -/
theorem trim_asciiLower (s : String) : trim (asciiLower s) = asciiLower (trim s) := by
  have hdrop : ∀ cs : List Char, (cs.map asciiLowerChar).dropWhile isWhite =
      (cs.dropWhile isWhite).map asciiLowerChar := by
    intro cs
    have hwhite : isWhite ∘ asciiLowerChar = isWhite := funext isWhite_asciiLowerChar
    rw [List.dropWhile_map, hwhite]
  simp only [trim, asciiLower, trimStart, trimEnd, String.toList_ofList]
  rw [hdrop, ← List.map_reverse, hdrop, ← List.map_reverse]

theorem asciiLower_asciiLower (s : String) : asciiLower (asciiLower s) = asciiLower s := by
  have hchar : asciiLowerChar ∘ asciiLowerChar = asciiLowerChar := funext asciiLowerChar_asciiLowerChar
  rw [asciiLower, asciiLower, String.toList_ofList, List.map_map, hchar]

theorem eq_false_of_all_not {p : Char → Bool} {cs : List Char} (h : (cs.all fun c => !p c) = true) :
    ∀ c ∈ cs, p c = false := by
  intro c hc
  simpa using List.all_eq_true.mp h c hc

theorem hexDigit_hexChar {d : ℕ} (h : d < 16) : hexDigit (hexChar d) = some d := by
  have hall : ∀ d : Fin 16, hexDigit (hexChar d) = some d := by decide
  exact hall ⟨d, h⟩

theorem foldlM_hexChars (width value acc : ℕ) :
    (hexChars width value).foldlM (fun acc c => (hexDigit c).map (acc * 16 + ·)) acc =
      some (acc * 16 ^ width + value % 16 ^ width) := by
  induction width generalizing acc with
  | zero => simp [hexChars, Nat.mod_one]
  | succ width ih =>
    have hdigit : value / 16 ^ width % 16 < 16 := Nat.mod_lt _ (by decide)
    have hsplit : value % 16 ^ (width + 1) = value % 16 ^ width + 16 ^ width * (value / 16 ^ width % 16) := by
      rw [Nat.pow_succ, Nat.mod_mul]
    have hshift : (acc * 16 + value / 16 ^ width % 16) * 16 ^ width =
        acc * 16 ^ (width + 1) + 16 ^ width * (value / 16 ^ width % 16) := by
      rw [Nat.add_mul, Nat.mul_comm (value / 16 ^ width % 16), Nat.mul_assoc, Nat.pow_succ, Nat.mul_comm 16]
    rw [hexChars, List.foldlM_cons, hexDigit_hexChar hdigit]
    change (hexChars width value).foldlM (fun acc c => (hexDigit c).map (acc * 16 + ·))
      (acc * 16 + value / 16 ^ width % 16) = _
    rw [ih, hsplit, hshift, Nat.add_assoc, Nat.add_comm (16 ^ width * _)]

/-- A number reads back from its digits, up to what they have no place for. -/
theorem hexValue_hexChars (width value : ℕ) : hexValue (hexChars width value) = some (value % 16 ^ width) := by
  rw [hexValue, foldlM_hexChars, Nat.zero_mul, Nat.zero_add]

theorem length_hexChars (width value : ℕ) : (hexChars width value).length = width := by
  induction width with
  | zero => rfl
  | succ width ih => rw [hexChars, List.length_cons, ih]

theorem hexChar_injective {a b : ℕ} (ha : a < 16) (hb : b < 16) (h : hexChar a = hexChar b) : a = b := by
  have hall : ∀ a b : Fin 16, hexChar a = hexChar b → a = b := by decide
  exact congrArg Fin.val (hall ⟨a, ha⟩ ⟨b, hb⟩ h)

theorem mem_hexChars {width value : ℕ} {c : Char} (h : c ∈ hexChars width value) : ∃ d < 16, hexChar d = c := by
  induction width with
  | zero => cases h
  | succ width ih =>
    rcases List.mem_cons.mp h with rfl | hrest
    · exact ⟨_, Nat.mod_lt _ (by omega), rfl⟩
    · exact ih hrest

theorem ne_hyphen_of_mem_hexChars {width value : ℕ} {c : Char} (h : c ∈ hexChars width value) : c ≠ '-' := by
  obtain ⟨d, hd, rfl⟩ := mem_hexChars h
  have hall : ∀ d : Fin 16, hexChar d ≠ '-' := by decide
  exact hall ⟨d, hd⟩

/-- Digits tell the number, up to what they have no place for. -/
theorem hexChars_injective {width a b : ℕ} (h : hexChars width a = hexChars width b) :
    a % 16 ^ width = b % 16 ^ width := by
  induction width with
  | zero => omega
  | succ width ih =>
    obtain ⟨hhead, htail⟩ := List.cons.inj h
    have hdigit := hexChar_injective (Nat.mod_lt _ (by omega)) (Nat.mod_lt _ (by omega)) hhead
    rw [Nat.pow_succ, Nat.mod_mul, Nat.mod_mul, ih htail, hdigit]

end Text

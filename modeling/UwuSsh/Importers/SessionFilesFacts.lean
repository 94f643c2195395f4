import UwuSsh.Importers.SessionFiles

/-!
What the writers of sessions write, and that it is read back. The registry editor escapes quotes and backslashes,
gives a number eight digits and breaks a binary value over as many lines as it takes; whatever stands in other keys
leaves the sessions alone.
-/
namespace UwuSsh.SessionFiles

open Text SshConfig

/-! ### Lines -/

/-- Lines, each with its end. -/
def rendered (ls : List Chars) : Chars := ls.flatMap fun line => line ++ "\r\n".toList

theorem lines_append {line : Chars} (h : '\n' ∉ line) (rest : Chars) :
    lines (line ++ '\n' :: rest) = stripReturn line :: lines rest := by
  have hother : ∀ c ∈ line, (c == '\n') = false := by
    intro c hc
    rw [beq_eq_false_iff_ne]
    rintro rfl
    exact h hc
  have hsplit : (line ++ '\n' :: rest).splitOn '\n' = line :: rest.splitOn '\n' :=
    List.splitOnP_append_cons_of_forall_mem hother '\n' rfl rest
  have hne : rest.splitOn '\n' ≠ [] := List.splitOnP_ne_nil _ _
  obtain ⟨part, parts, hparts⟩ := List.exists_cons_of_ne_nil hne
  rw [lines, lines, hsplit, hparts]
  simp

theorem lines_rendered {ls : List Chars} (h : ∀ line ∈ ls, '\n' ∉ line) : lines (rendered ls) = ls := by
  induction ls with
  | nil => rfl
  | cons line ls ih =>
    obtain ⟨hline, hrest⟩ := List.forall_mem_cons.mp h
    have hone : '\n' ∉ line ++ ['\r'] := by simpa using hline
    have hshape : rendered (line :: ls) = (line ++ ['\r']) ++ '\n' :: rendered ls := by
      simp [rendered]
    rw [hshape, lines_append hone, ih hrest]
    simp [stripReturn]

/-! ### A session file -/

/-- The lines of a session file. -/
def sessionLines (values : List (Chars × Chars)) : List Chars :=
  values.map fun value => value.1 ++ '\\' :: value.2 ++ ['\\']

/-- A name the reader takes. -/
def IsName (name : Chars) : Prop := name ≠ [] ∧ name.length ≤ 64 ∧ name.all isAsciiGraphic = true

instance (name : Chars) : Decidable (IsName name) := inferInstanceAs (Decidable (_ ∧ _))

theorem sessionLine_eq {name : Chars} (hname : '\\' ∉ name) (value : Chars) (values : Dictionary Chars Chars) :
    sessionLine values (name ++ '\\' :: value ++ ['\\']) =
      if IsName name then values.set name value else values := by
  have hend : (name ++ '\\' :: value ++ ['\\']).rdropWhile (fun c => c = '\r' ∨ c = '\n') =
      name ++ '\\' :: value ++ ['\\'] := by
    rw [List.rdropWhile_concat_neg]
    decide
  have hsplit : ∀ c ∈ name, decide (c ≠ '\\') = true := by
    intro c hc
    rw [decide_eq_true_eq]
    rintro rfl
    exact hname hc
  have htake : (name ++ '\\' :: (value ++ ['\\'])).takeWhile (· ≠ '\\') = name := by
    rw [List.takeWhile_append_of_pos hsplit]
    simp
  have hdrop : (name ++ '\\' :: (value ++ ['\\'])).dropWhile (· ≠ '\\') = '\\' :: (value ++ ['\\']) := by
    rw [List.dropWhile_append_of_pos hsplit]
    simp
  have hshape : name ++ '\\' :: value ++ ['\\'] = name ++ '\\' :: (value ++ ['\\']) := by simp
  have hcases : (name = [] ∨ 64 < name.length ∨ ¬ name.all isAsciiGraphic = true) ↔ ¬ IsName name := by
    rw [IsName, not_and_or, not_and_or, not_not, not_le]
  have hmem : '\\' ∈ name ++ '\\' :: (value ++ ['\\']) := by simp
  rw [sessionLine, hend, hshape]
  dsimp only
  rw [if_pos hmem, htake, hdrop, List.drop_one, List.tail_cons, if_pos (by simp [endsWith]), List.dropLast_concat]
  by_cases hok : IsName name
  · rw [if_neg (hcases.not.mpr (not_not.mpr hok)), if_pos hok]
  · rw [if_pos (hcases.mpr hok), if_neg hok]

theorem entries_set_of_not_mem {values : Dictionary Chars Chars} {name : Chars} (h : name ∉ values.keys) (value : Chars) :
    (values.set name value).entries = values.entries ++ [(name, value)] := by
  rw [Dictionary.set, dif_neg h]

/-- Every line with a name the reader takes becomes a value. -/
theorem foldl_sessionLine {values : List (Chars × Chars)} (hname : ∀ value ∈ values, '\\' ∉ value.1)
    (hnodup : (values.map Prod.fst).Nodup) {read : Dictionary Chars Chars}
    (hnew : ∀ value ∈ values, value.1 ∉ read.keys) :
    ((sessionLines values).foldl sessionLine read).entries =
      read.entries ++ values.filter fun value => IsName value.1 := by
  induction values generalizing read with
  | nil => simp [sessionLines]
  | cons value values ih =>
    obtain ⟨hfirst, hrest⟩ := List.forall_mem_cons.mp hname
    obtain ⟨hnot, hnodup⟩ := List.nodup_cons.mp hnodup
    obtain ⟨hhere, hnew⟩ := List.forall_mem_cons.mp hnew
    change ((sessionLines values).foldl sessionLine (sessionLine read _)).entries = _
    rw [sessionLine_eq hfirst]
    by_cases hok : IsName value.1
    · have hkeys : ∀ other ∈ values, other.1 ∉ (read.set value.1 value.2).keys := by
        intro other hother
        rw [Dictionary.keys, entries_set_of_not_mem hhere, List.map_append, List.mem_append]
        rintro (hold | hsame)
        · exact hnew other hother hold
        · obtain heq : other.1 = value.1 := by simpa using hsame
          exact hnot (heq ▸ List.mem_map_of_mem hother)
      rw [if_pos hok, ih hrest hnodup hkeys, entries_set_of_not_mem hhere, List.filter_cons_of_pos (by simpa using hok)]
      simp
    · rw [if_neg hok, ih hrest hnodup hnew, List.filter_cons_of_neg (by simpa using hok)]

/-- A session file is read back, less the names the reader does not take. -/
theorem parseSessionFile_rendered {values : List (Chars × Chars)}
    (hname : ∀ value ∈ values, '\\' ∉ value.1 ∧ '\n' ∉ value.1 ∧ '\n' ∉ value.2)
    (hnodup : (values.map Prod.fst).Nodup) :
    (parseSessionFile (rendered (sessionLines values))).map Dictionary.entries =
      if (values.filter fun value => IsName value.1) = [] then none
      else some (values.filter fun value => IsName value.1) := by
  have hlines : ∀ line ∈ sessionLines values, '\n' ∉ line := by
    intro line hline
    obtain ⟨value, hvalue, rfl⟩ := List.mem_map.mp hline
    obtain ⟨-, hleft, hright⟩ := hname value hvalue
    simp [hleft, hright]
  have hread : ((sessionLines values).foldl sessionLine .empty).entries = values.filter fun value => IsName value.1 :=
    foldl_sessionLine (fun value hvalue => (hname value hvalue).1) hnodup fun value _ => List.not_mem_nil
  rw [parseSessionFile, lines_rendered hlines, hread]
  split
  · rfl
  · rw [Option.map_some, hread]

/-! ### What the registry editor writes -/

/-- Quotes and backslashes behind a backslash. -/
def escaped (text : Chars) : Chars := text.flatMap fun c => if c = '"' ∨ c = '\\' then ['\\', c] else [c]

/-- A value of a key. A binary one has the digits of its type's number, if that is said, and its bytes as they are
broken into lines. -/
inductive RegValue
  | text (value : Chars)
  | dword (n : UInt32)
  | binary (type : Option (List (Fin 16))) (first : List UInt8) (more : List (List UInt8))

/-- Bytes with commas between them. -/
def pairs : List UInt8 → Chars
  | [] => []
  | [b] => hexChars 2 b.toNat
  | b :: rest => hexChars 2 b.toNat ++ ',' :: pairs rest

/-- The lines of a binary value: each but the last ends with a backslash. -/
def hexLines (front : Chars) : List UInt8 → List (List UInt8) → List Chars
  | bytes, [] => [front ++ pairs bytes]
  | bytes, next :: more =>
    (front ++ pairs bytes ++ (if bytes = [] then "\\".toList else ",\\".toList)) :: hexLines "  ".toList next more

def typeText : Option (List (Fin 16)) → Chars
  | none => "hex:".toList
  | some digits => "hex(".toList ++ digits.map (fun d => hexChar d.val) ++ "):".toList

def valueLines (value : Chars × RegValue) : List Chars :=
  let front := '"' :: escaped value.1 ++ "\"=".toList
  match value.2 with
  | .text text => [front ++ '"' :: escaped text ++ "\"".toList]
  | .dword n => [front ++ "dword:".toList ++ hexChars 8 n.toNat]
  | .binary type first more => hexLines (front ++ typeText type) first more

/-- The values that are read: texts, and numbers in decimal. -/
def RegValue.shown : RegValue → Option Chars
  | .text written => some written
  | .dword n => some (toString n.toNat).toList
  | .binary _ _ _ => none

def shownValues (values : List (Chars × RegValue)) : List (Chars × Chars) :=
  values.filterMap fun value => value.2.shown.map (value.1, ·)

def root : Source → Chars
  | .putty => "HKEY_CURRENT_USER\\Software\\SimonTatham\\PuTTY\\Sessions\\".toList
  | .kitty => "HKEY_CURRENT_USER\\Software\\9bis.com\\KiTTY\\Sessions\\".toList

/-- A session as it is written. Its name has no backslash, as one in it is encoded. -/
structure Session where
  source : Source
  name : Chars
  values : List (Chars × RegValue)
  named : name ≠ []
  encoded : '\\' ∉ name ∧ '\n' ∉ name
  nodup : (values.map Prod.fst).Nodup
  oneLine : ∀ value ∈ values, '\n' ∉ value.1 ∧ ∀ text, value.2 = .text text → '\n' ∉ text

/-- A name stands directly under a key `Sessions`. -/
def UnderSessions (key : Chars) : Prop := ∃ front name : Chars,
  key.map asciiLowerChar = front ++ "\\sessions\\".toList ++ name ∧ name ≠ [] ∧ '\\' ∉ name

/-- Any other key, with lines that are none of a key. -/
structure OtherKey where
  key : Chars
  body : List Chars
  notSession : ¬ UnderSessions key
  values : ∀ line ∈ body, (trimmed line).head? ≠ some '['
  oneLine : '\n' ∉ key ∧ ∀ line ∈ body, '\n' ∉ line

inductive Part
  | session (session : Session)
  | other (key : OtherKey)

def Part.session? : Part → Option Session
  | .session s => some s
  | .other _ => none

/-- A key, its values and an empty line. -/
def Part.lines : Part → List Chars
  | .session s => ('[' :: (root s.source ++ s.name) ++ [']']) :: s.values.flatMap valueLines ++ [[]]
  | .other key => ('[' :: key.key ++ [']']) :: key.body ++ [[]]

def exportText (parts : List Part) : Chars :=
  rendered ("Windows Registry Editor Version 5.00".toList :: [] :: parts.flatMap Part.lines)

/-! ### Reading a value -/

theorem trimmed_of_ends {line : Chars} {a b : Char} (ha : isWhite a = false) (hb : isWhite b = false)
    (hfirst : line.head? = some a) (hlast : line.getLast? = some b) : trimmed line = line := by
  obtain ⟨rest, rfl⟩ : ∃ rest, line = a :: rest := List.head?_eq_some_iff.mp hfirst
  have hstart : trimStart (a :: rest) = a :: rest := List.dropWhile_cons_of_neg (by simp [ha])
  obtain ⟨init, hinit⟩ := List.getLast?_eq_some_iff.mp hlast
  rw [trimmed, hstart, hinit, trimEnd, List.reverse_append]
  have hend : ([b].reverse ++ init.reverse).dropWhile isWhite = b :: init.reverse :=
    List.dropWhile_cons_of_neg (by simp [hb])
  rw [hend, List.reverse_cons, List.reverse_reverse]

theorem unquote_escaped (text rest : Chars) : unquote (escaped text ++ '"' :: rest) = some text := by
  induction text with
  | nil => rfl
  | cons c text ih =>
    rw [escaped, List.flatMap_cons, List.append_assoc]
    change unquote (_ ++ (escaped text ++ '"' :: rest)) = _
    by_cases hc : c = '"' ∨ c = '\\'
    · rw [if_pos hc]
      change (unquote (escaped text ++ '"' :: rest)).map (c :: ·) = _
      rw [ih]
      rfl
    · rw [if_neg hc, List.singleton_append, unquote, ih]
      · rfl
      · rintro rfl -
        exact hc (.inr rfl)
      · rintro _ _ rfl -
        exact hc (.inr rfl)
      · rintro rfl
        exact hc (.inl rfl)

theorem readName_escaped (name after : Chars) :
    readName (escaped name ++ "\"=".toList ++ after) = some (name, trimmed after) := by
  induction name with
  | nil => rfl
  | cons c name ih =>
    rw [escaped, List.flatMap_cons, List.append_assoc, List.append_assoc]
    change readName (_ ++ (escaped name ++ ("\"=".toList ++ after))) = _
    rw [List.append_assoc] at ih
    by_cases hc : c = '"' ∨ c = '\\'
    · rw [if_pos hc]
      change (readName (escaped name ++ ("\"=".toList ++ after))).map _ = _
      rw [ih]
      rfl
    · rw [if_neg hc, List.singleton_append, readName, ih]
      · rfl
      · rintro rfl -
        exact hc (.inr rfl)
      · rintro _ _ rfl -
        exact hc (.inr rfl)
      · rintro _ rfl -
        exact hc (.inl rfl)
      · rintro rfl
        exact hc (.inl rfl)

/-! ### Reading a key -/

theorem rfind_spec {pattern text : Chars} {found : ℕ} (h : rfind pattern text = some found) :
    ∃ front rest, text = front ++ pattern ++ rest ∧ front.length = found := by
  induction text generalizing found with
  | nil =>
    rw [rfind] at h
    split at h
    · next hnil =>
      cases h
      exact ⟨[], [], by simp [hnil], rfl⟩
    · cases h
  | cons c text ih =>
    rw [rfind] at h
    split at h
    · next before hbefore =>
      obtain ⟨front, rest, htext, hlen⟩ := ih hbefore
      cases h
      exact ⟨c :: front, rest, by simp [htext], by simp [hlen]⟩
    · split at h
      · next hstart =>
        obtain ⟨rest, hrest⟩ := hstart
        cases h
        exact ⟨[], rest, hrest.symm, rfl⟩
      · cases h

theorem rfind_append {pattern rest : Chars} {found : ℕ} (h : rfind pattern rest = some found) (front : Chars) :
    rfind pattern (front ++ rest) = some (front.length + found) := by
  induction front with
  | nil => simpa using h
  | cons c front ih =>
    rw [List.cons_append, rfind, ih, List.length_cons]
    simp only [Option.some.injEq]
    omega

theorem toNat_lower {c : Char} (h : 'A' ≤ c ∧ c ≤ 'Z') : 97 ≤ (asciiLowerChar c).toNat := by
  have hall : ∀ k : Fin 26, 97 ≤ (Char.ofNat (k + 65 + 32)).toNat := by decide
  have hlow : 65 ≤ c.toNat := h.1
  have hhigh : c.toNat ≤ 90 := h.2
  have hletter := hall ⟨c.toNat - 65, by omega⟩
  have hsum : c.toNat - 65 + 65 = c.toNat := by omega
  rw [asciiLowerChar, if_pos h]
  simpa only [hsum] using hletter

theorem lower_eq_backslash {c : Char} : asciiLowerChar c = '\\' ↔ c = '\\' := by
  by_cases h : 'A' ≤ c ∧ c ≤ 'Z'
  · have hletter := toNat_lower h
    constructor
    · intro heq
      rw [heq] at hletter
      exact absurd hletter (by decide)
    · rintro rfl
      exact absurd h (by decide)
  · rw [asciiLowerChar, if_neg h]

theorem backslash_mem_lower {text : Chars} : '\\' ∈ text.map asciiLowerChar ↔ '\\' ∈ text := by
  rw [List.mem_map]
  constructor
  · rintro ⟨c, hc, heq⟩
    exact lower_eq_backslash.mp heq ▸ hc
  · exact fun h => ⟨'\\', h, rfl⟩

/-- What a key is in lower case up to the name. -/
def keyFront : Source → Chars
  | .putty => "hkey_current_user\\software\\simontatham\\putty".toList
  | .kitty => "hkey_current_user\\software\\9bis.com\\kitty".toList

theorem lower_root (source : Source) : (root source).map asciiLowerChar = keyFront source ++ "\\sessions\\".toList := by
  cases source <;> decide +kernel

/-- The last key of a path that is named `Sessions` is found where a name without a backslash stands behind it. -/
theorem rfind_sessions {name : Chars} (h : '\\' ∉ name) (front : Chars) :
    rfind "\\sessions\\".toList (front ++ "\\sessions\\".toList ++ name) = some front.length := by
  have hnone : rfind "\\sessions\\".toList ("sessions\\".toList ++ name) = none := by
    cases hfound : rfind "\\sessions\\".toList ("sessions\\".toList ++ name) with
    | none => rfl
    | some found =>
      obtain ⟨before, rest, htext, -⟩ := rfind_spec hfound
      have hcount := congrArg (List.count '\\') htext
      rw [List.count_append, List.count_append, List.count_append, List.count_eq_zero.mpr h] at hcount
      have hone : "sessions\\".toList.count '\\' = 1 := by decide
      have htwo : "\\sessions\\".toList.count '\\' = 2 := by decide
      omega
  have hhere : rfind "\\sessions\\".toList ("\\sessions\\".toList ++ name) = some 0 := by
    change rfind "\\sessions\\".toList ('\\' :: ("sessions\\".toList ++ name)) = some 0
    rw [rfind, hnone]
    exact if_pos ⟨name, rfl⟩
  rw [List.append_assoc]
  exact rfind_append hhere front

theorem infix_of_append {pattern a b : Chars} {c : Char} (hc : c ∉ b) (h : pattern ++ [c] <:+: a ++ b) :
    pattern ++ [c] <:+: a := by
  obtain ⟨before, after, heq⟩ := h
  rcases List.append_eq_append_iff.mp heq with ⟨rest, ha, -⟩ | ⟨rest, ha, hb⟩
  · exact ⟨before, rest, ha.symm⟩
  · rcases List.eq_nil_or_concat rest with rfl | ⟨init, d, rfl⟩
    · exact ⟨before, [], by simpa using ha⟩
    · have hlast := congrArg List.getLast? ha
      rw [List.concat_eq_append, ← List.append_assoc, List.getLast?_concat, ← List.append_assoc, List.getLast?_concat]
        at hlast
      cases hlast
      exact absurd (by simp [hb]) hc

theorem sessionOf_root {name : Chars} (hne : name ≠ []) (h : '\\' ∉ name) (source : Source) :
    sessionOf (root source ++ name) = some (name, source) := by
  have hlower : (root source ++ name).map asciiLowerChar =
      keyFront source ++ "\\sessions\\".toList ++ name.map asciiLowerChar := by
    rw [List.map_append, lower_root]
  have hplain : '\\' ∉ name.map asciiLowerChar := backslash_mem_lower.not.mpr h
  have hdrop : (root source ++ name).drop ((keyFront source).length + "\\sessions\\".length) = name := by
    have hlen : (keyFront source).length + "\\sessions\\".length = (root source).length := by
      cases source <;> decide +kernel
    rw [hlen, List.drop_left]
  have hkitty : "\\kitty\\".toList <:+: keyFront source ++ "\\sessions\\".toList ++ name.map asciiLowerChar ↔
      source = .kitty := by
    constructor
    · intro hinfix
      have hfront : "\\kitty\\".toList <:+: keyFront source ++ "\\sessions\\".toList :=
        @infix_of_append "\\kitty".toList _ _ _ hplain hinfix
      cases source with
      | putty => exact absurd hfront (by decide +kernel)
      | kitty => rfl
    · rintro rfl
      have hfront : "\\kitty\\".toList <:+: keyFront .kitty ++ "\\sessions\\".toList := by decide +kernel
      exact hfront.trans (List.prefix_append _ _).isInfix
  rw [sessionOf, hlower]
  simp only [rfind_sessions hplain, hdrop, hkitty]
  rw [if_neg (not_or.mpr ⟨hne, h⟩)]
  cases source <;> rfl

theorem sessionOf_eq_none {key : Chars} (h : ¬ UnderSessions key) : sessionOf key = none := by
  rw [sessionOf]
  cases hfound : rfind "\\sessions\\".toList (key.map asciiLowerChar) with
  | none => rfl
  | some found =>
    obtain ⟨front, rest, htext, hlen⟩ := rfind_spec hfound
    apply if_pos
    by_contra hname
    obtain ⟨hne, hplain⟩ := not_or.mp hname
    have hrest : rest = (key.drop (found + "\\sessions\\".length)).map asciiLowerChar := by
      have hpattern : "\\sessions\\".length = "\\sessions\\".toList.length := rfl
      rw [List.map_drop, htext, ← hlen, hpattern, ← List.length_append, List.drop_left]
    refine h ⟨front, rest, htext, ?_, ?_⟩
    · rw [hrest]
      simpa using hne
    · rw [hrest]
      exact backslash_mem_lower.not.mpr hplain

/-! ### Reading a line -/

/-- No space, so that trimming leaves it, and no backslash. -/
def Plain (text : Chars) : Prop := ∀ c ∈ text, isWhite c = false ∧ c ≠ '\\'

theorem Plain.append {a b : Chars} (ha : Plain a) (hb : Plain b) : Plain (a ++ b) :=
  List.forall_mem_append.mpr ⟨ha, hb⟩

theorem plain_of_all {text : Chars} (h : (text.all fun c => !isWhite c && c != '\\') = true) : Plain text := by
  intro c hc
  simpa using List.all_eq_true.mp h c hc

theorem plain_hexChars (width value : ℕ) : Plain (hexChars width value) := by
  intro c hc
  obtain ⟨d, hd, rfl⟩ := mem_hexChars hc
  have hall : ∀ d : Fin 16, isWhite (hexChar d) = false ∧ hexChar d ≠ '\\' := by decide
  exact hall ⟨d, hd⟩

theorem plain_pairs (bytes : List UInt8) : Plain (pairs bytes) := by
  fun_induction pairs bytes with
  | case1 => exact fun c hc => absurd hc List.not_mem_nil
  | case2 b => exact plain_hexChars _ _
  | case3 b rest hrest ih =>
    have hcomma : Plain [','] := plain_of_all (by decide)
    exact (plain_hexChars _ _).append (hcomma.append ih)

theorem plain_typeText (type : Option (List (Fin 16))) : Plain (typeText type) := by
  cases type with
  | none => exact plain_of_all (by decide)
  | some digits =>
    have hall : ∀ d : Fin 16, isWhite (hexChar d.val) = false ∧ hexChar d.val ≠ '\\' := by decide
    have hdigits : Plain (digits.map fun d => hexChar d.val) := by
      intro c hc
      obtain ⟨d, -, rfl⟩ := List.mem_map.mp hc
      exact hall d
    exact ((plain_of_all (by decide)).append hdigits).append (plain_of_all (by decide))

theorem trimmed_append {text : Chars} {a b : Char} (ha : isWhite a = false) (hb : isWhite b = false) :
    trimmed (a :: text ++ [b]) = a :: text ++ [b] :=
  trimmed_of_ends ha hb rfl (by rw [List.getLast?_concat])

theorem trimmed_plain {text : Chars} (h : ∀ c ∈ text, isWhite c = false) : trimmed text = text := by
  cases hhead : text.head? with
  | none =>
    rw [List.head?_eq_none_iff.mp hhead]
    rfl
  | some a =>
    have hne : text ≠ [] := by
      rintro rfl
      cases hhead
    exact trimmed_of_ends (h a (List.mem_of_head? hhead)) (h _ (List.getLast_mem hne)) hhead
      (List.getLast?_eq_getLast_of_ne_nil hne)

/-- A line that begins with no space and ends with none is not trimmed. -/
theorem trimmed_front {text rest : Chars} {a : Char} (ha : isWhite a = false) (hne : rest ≠ [])
    (hrest : ∀ c ∈ rest, isWhite c = false) : trimmed (a :: text ++ rest) = a :: text ++ rest := by
  refine trimmed_of_ends ha (hrest _ (List.getLast_mem hne)) rfl ?_
  rw [List.getLast?_append_of_ne_nil _ hne, List.getLast?_eq_getLast_of_ne_nil hne]

theorem endsWith_trimmed_backslash (text : Chars) : endsWith '\\' (trimmed (text ++ ['\\'])) = true := by
  obtain ⟨init, hinit⟩ : ∃ init, trimStart (text ++ ['\\']) = init ++ ['\\'] := by
    induction text with
    | nil => exact ⟨[], rfl⟩
    | cons c text ih =>
      by_cases hc : isWhite c = true
      · obtain ⟨init, hinit⟩ := ih
        exact ⟨init, (List.dropWhile_cons_of_pos hc).trans hinit⟩
      · exact ⟨c :: text, List.dropWhile_cons_of_neg hc⟩
  have hkeep : trimEnd (init ++ ['\\']) = init ++ ['\\'] := List.rdropWhile_concat_neg _ _ _ (by decide)
  rw [trimmed, hinit, hkeep, endsWith, List.getLast?_concat]
  rfl

theorem endsWith_of_not_mem {text : Chars} {c : Char} (h : c ∉ text) : endsWith c text = false := by
  rw [endsWith, beq_eq_false_iff_ne]
  exact fun hlast => h (List.mem_of_getLast? hlast)

theorem mem_of_mem_trimmed {text : Chars} {c : Char} (h : c ∈ trimmed text) : c ∈ text :=
  (List.dropWhile_sublist _).subset ((List.rdropWhile_prefix _ _).subset h)

theorem stripPlus_hexChars (width value : ℕ) : stripPlus (hexChars width value) = hexChars width value := by
  have hall : ∀ d : Fin 16, hexChar d ≠ '+' := by decide
  unfold stripPlus
  split
  · next rest heq =>
    obtain ⟨d, hd, hplus⟩ := mem_hexChars (heq ▸ List.mem_cons_self)
    exact absurd hplus (hall ⟨d, hd⟩)
  · rfl

theorem fromHex_hexChars {bits width value : ℕ} (hwidth : 0 < width) (hbits : 16 ^ width = 2 ^ bits)
    (hvalue : value < 2 ^ bits) : fromHex bits (hexChars width value) = some value := by
  have hne : hexChars width value ≠ [] := by
    intro hnil
    have hlen := length_hexChars width value
    rw [hnil, List.length_nil] at hlen
    omega
  have hread : hexValue (hexChars width value) = some value := by
    rw [hexValue_hexChars, hbits, Nat.mod_eq_of_lt hvalue]
  rw [fromHex, stripPlus_hexChars, if_neg hne, hread]
  exact Option.filter_some_pos (decide_eq_true hvalue)

/-- A scan with a session as the one that is read. -/
def scanning (before : List RegSession) (session : RegSession) : Scan := ⟨before ++ [session], some before.length, false⟩

section value

variable (before : List RegSession) (session : RegSession) (name : Chars)

theorem insert_scanning (value : Chars) : (scanning before session).insert before.length name (some value) =
    scanning before (session.set name value) := by
  have hlast : ∀ before : List RegSession, (before ++ [session]).modify before.length (·.set name value) =
      before ++ [session.set name value] := by
    intro before
    induction before with
    | nil => rfl
    | cons first before ih => simpa using ih
  rw [Scan.insert, scanning, hlast]
  rfl

/-- What a line for a value does, once it is split. -/
theorem line_value {rest : Chars} (htrimmed : trimmed ('"' :: escaped name ++ "\"=".toList ++ rest) =
    '"' :: escaped name ++ "\"=".toList ++ rest) :
    (scanning before session).line ('"' :: escaped name ++ "\"=".toList ++ rest) =
      (scanning before session).value before.length ('"' :: escaped name ++ "\"=".toList ++ rest) ∧
    splitValue ('"' :: escaped name ++ "\"=".toList ++ rest) = some (name, trimmed rest) := by
  constructor
  · rw [Scan.line, htrimmed]
    rfl
  · exact readName_escaped name rest

theorem line_text (text : Chars) : (scanning before session).line
    ('"' :: escaped name ++ "\"=".toList ++ '"' :: escaped text ++ "\"".toList) =
      scanning before (session.set name text) := by
  have hshape : '"' :: escaped name ++ "\"=".toList ++ '"' :: escaped text ++ "\"".toList =
      '"' :: escaped name ++ "\"=".toList ++ ('"' :: escaped text ++ ['"']) := by simp
  have hend : '"' :: escaped name ++ "\"=".toList ++ ('"' :: escaped text ++ ['"']) =
      '"' :: (escaped name ++ "\"=".toList ++ '"' :: escaped text) ++ ['"'] := by simp
  rw [hshape]
  have htrimmed : trimmed ('"' :: escaped name ++ "\"=".toList ++ ('"' :: escaped text ++ ['"'])) =
      '"' :: escaped name ++ "\"=".toList ++ ('"' :: escaped text ++ ['"']) := by
    rw [hend, trimmed_append (by decide) (by decide)]
  obtain ⟨hline, hsplit⟩ := line_value before session name htrimmed
  rw [hline, Scan.value, hsplit, trimmed_append (by decide) (by decide)]
  have hquote : ('"' :: escaped text ++ ['"']).head? = some '"' := rfl
  have hread : unquote (('"' :: escaped text ++ ['"']).drop 1) = some text := unquote_escaped text []
  dsimp only
  rw [if_pos hquote, hread, insert_scanning]

theorem line_dword (n : UInt32) : (scanning before session).line
    ('"' :: escaped name ++ "\"=".toList ++ "dword:".toList ++ hexChars 8 n.toNat) =
      scanning before (session.set name (toString n.toNat).toList) := by
  have hplain : Plain ("dword:".toList ++ hexChars 8 n.toNat) := (plain_of_all (by decide)).append (plain_hexChars _ _)
  rw [List.append_assoc]
  have hne : "dword:".toList ++ hexChars 8 n.toNat ≠ [] := by simp
  obtain ⟨hline, hsplit⟩ := line_value before session name
    (trimmed_front (by decide) hne fun c hc => (hplain c hc).1)
  rw [hline, Scan.value, hsplit, trimmed_plain fun c hc => (hplain c hc).1]
  have hquote : ("dword:".toList ++ hexChars 8 n.toNat).head? ≠ some '"' := by simp
  have hdrop : ("dword:".toList ++ hexChars 8 n.toNat).drop 6 = hexChars 8 n.toNat := rfl
  dsimp only
  rw [if_neg hquote, if_pos (List.prefix_append _ _), hdrop, trimmed_plain fun c hc => (plain_hexChars _ _ c hc).1,
    fromHex_hexChars (by decide) (by decide) n.toNat_lt, Option.map_some, insert_scanning]

/-- The lines a binary value goes on with. -/
theorem foldl_hexLines (bytes : List UInt8) (more : List (List UInt8)) :
    (hexLines "  ".toList bytes more).foldl Scan.line { scanning before session with continued := true } =
      scanning before session := by
  have hplain := plain_pairs
  induction more generalizing bytes with
  | nil =>
    have hnone : '\\' ∉ trimmed ("  ".toList ++ pairs bytes) := by
      intro hmem
      rcases List.mem_append.mp (mem_of_mem_trimmed hmem) with hspace | hbyte
      · exact absurd hspace (by decide)
      · exact (hplain bytes _ hbyte).2 rfl
    rw [hexLines, List.foldl_cons, List.foldl_nil, Scan.line]
    simp only [if_true, endsWith_of_not_mem hnone]
    rfl
  | cons next more ih =>
    have hbroken : ∀ init : Chars, ∃ init' : Chars,
        init ++ (if bytes = [] then "\\".toList else ",\\".toList) = init' ++ ['\\'] := by
      intro init
      split
      · exact ⟨init, rfl⟩
      · exact ⟨init ++ [','], by simp⟩
    obtain ⟨init, hinit⟩ := hbroken ("  ".toList ++ pairs bytes)
    rw [hexLines, List.foldl_cons, hinit, Scan.line]
    simp only [if_true, endsWith_trimmed_backslash]
    exact ih next

/-- A binary value is passed over, all of its lines. -/
theorem foldl_binary (type : Option (List (Fin 16))) (first : List UInt8) (more : List (List UInt8)) :
    (hexLines ('"' :: escaped name ++ "\"=".toList ++ typeText type) first more).foldl Scan.line
      (scanning before session) = scanning before session := by
  -- One line: what stands behind the `=` is neither a text nor a number.
  have hstep : ∀ rest : Chars, Plain (typeText type ++ rest) ∨ (∃ init, Plain (typeText type ++ init) ∧
      rest = init ++ ['\\']) → (scanning before session).line
        ('"' :: escaped name ++ "\"=".toList ++ typeText type ++ rest) =
      { scanning before session with continued := endsWith '\\' (typeText type ++ rest) } := by
    intro rest hrest
    have hwhite : ∀ c ∈ typeText type ++ rest, isWhite c = false := by
      intro c hc
      rcases hrest with hplain | ⟨init, hplain, rfl⟩
      · exact (hplain c hc).1
      · rw [← List.append_assoc] at hc
        rcases List.mem_append.mp hc with hc | hc
        · exact (hplain c hc).1
        · rw [List.mem_singleton.mp hc]
          decide
    have hne : typeText type ++ rest ≠ [] := by cases type <;> simp [typeText]
    have hquote : (typeText type ++ rest).head? ≠ some '"' := by cases type <;> simp [typeText]
    have hdword : ¬ "dword:".toList <+: typeText type ++ rest := by cases type <;> simp [typeText]
    rw [List.append_assoc]
    obtain ⟨hline, hsplit⟩ := line_value before session name (trimmed_front (by decide) hne hwhite)
    rw [hline, Scan.value, hsplit, trimmed_plain hwhite]
    dsimp only
    rw [if_neg hquote, if_neg hdword]
  have hplain : Plain (typeText type ++ pairs first) := (plain_typeText type).append (plain_pairs first)
  cases more with
  | nil =>
    have hnone : '\\' ∉ typeText type ++ pairs first := fun hmem => (hplain _ hmem).2 rfl
    rw [hexLines, List.foldl_cons, List.foldl_nil, hstep _ (.inl hplain), endsWith_of_not_mem hnone]
    rfl
  | cons next more =>
    obtain ⟨init, hinit, hbroken⟩ : ∃ init, Plain (typeText type ++ init) ∧
        pairs first ++ (if first = [] then "\\".toList else ",\\".toList) = init ++ ['\\'] := by
      split
      · exact ⟨pairs first, hplain, rfl⟩
      · refine ⟨pairs first ++ [','], ?_, by simp⟩
        rw [← List.append_assoc]
        exact hplain.append (plain_of_all (by decide))
    have hlast : endsWith '\\' (typeText type ++ (init ++ ['\\'])) = true := by
      rw [endsWith, ← List.append_assoc, List.getLast?_concat]
      rfl
    rw [hexLines, List.foldl_cons, List.append_assoc _ (pairs first), hbroken, hstep _ (.inr ⟨init, hinit, rfl⟩), hlast]
    exact foldl_hexLines before session next more

/-- A session with what a value shows. -/
def RegSession.put (session : RegSession) (value : Chars × RegValue) : RegSession :=
  match value.2.shown with
  | some shown => session.set value.1 shown
  | none => session

theorem foldl_valueLines (value : Chars × RegValue) :
    (valueLines value).foldl Scan.line (scanning before session) = scanning before (session.put value) := by
  obtain ⟨name, value⟩ := value
  cases value with
  | text text => exact line_text before session name text
  | dword n => exact line_dword before session name n
  | binary type first more => exact foldl_binary before session name type first more

theorem foldl_values (values : List (Chars × RegValue)) :
    (values.flatMap valueLines).foldl Scan.line (scanning before session) =
      scanning before (values.foldl RegSession.put session) := by
  induction values generalizing session with
  | nil => rfl
  | cons value values ih => rw [List.flatMap_cons, List.foldl_append, foldl_valueLines, ih, List.foldl_cons]

end value

/-! ### Reading an export -/

theorem shownValues_cons (value : Chars × RegValue) (values : List (Chars × RegValue)) :
    shownValues (value :: values) = (value.2.shown.map (value.1, ·)).toList ++ shownValues values := by
  rw [shownValues, List.filterMap_cons]
  cases value.2.shown <;> rfl

theorem shownValues_sublist (values : List (Chars × RegValue)) :
    ((shownValues values).map Prod.fst).Sublist (values.map Prod.fst) := by
  induction values with
  | nil => exact .slnil
  | cons value values ih =>
    rw [shownValues_cons, List.map_cons]
    cases value.2.shown with
    | none => exact ih.cons _
    | some shown => exact ih.cons_cons _

/-- The session that is read. -/
def Session.read (s : Session) : RegSession where
  name := s.name
  values := ⟨shownValues s.values, s.nodup.sublist (shownValues_sublist s.values)⟩
  source := s.source

theorem eq_of_entries {d e : Dictionary Chars Chars} (h : d.entries = e.entries) : d = e := by
  obtain ⟨entries, _⟩ := d
  obtain ⟨entries', _⟩ := e
  obtain rfl : entries = entries' := h
  rfl

theorem foldl_put {values : List (Chars × RegValue)} (hnodup : (values.map Prod.fst).Nodup) {session : RegSession}
    (hnew : ∀ value ∈ values, value.1 ∉ session.values.keys) : ∃ d : Dictionary Chars Chars,
      values.foldl RegSession.put session = { session with values := d } ∧
        d.entries = session.values.entries ++ shownValues values := by
  induction values generalizing session with
  | nil => exact ⟨session.values, rfl, (List.append_nil _).symm⟩
  | cons value values ih =>
    obtain ⟨hnot, hnodup⟩ := List.nodup_cons.mp hnodup
    obtain ⟨hhere, hnew⟩ := List.forall_mem_cons.mp hnew
    rw [List.foldl_cons, RegSession.put, shownValues_cons]
    cases value.2.shown with
    | none => exact ih hnodup hnew
    | some shown =>
      have hset := entries_set_of_not_mem hhere shown
      have hkeys : ∀ other ∈ values, other.1 ∉ (session.set value.1 shown).values.keys := by
        intro other hother
        rw [RegSession.set, Dictionary.keys, hset, List.map_append, List.mem_append]
        rintro (hold | hsame)
        · exact hnew other hother hold
        · obtain heq : other.1 = value.1 := by simpa using hsame
          exact hnot (heq ▸ List.mem_map_of_mem hother)
      obtain ⟨d, hfold, hentries⟩ := ih hnodup hkeys
      refine ⟨d, hfold, hentries.trans ?_⟩
      rw [RegSession.set, hset, List.append_assoc]
      rfl

theorem line_nil (scan : Scan) (h : scan.continued = false) : scan.line [] = scan := by
  obtain ⟨sessions, current, continued⟩ := scan
  obtain rfl : continued = false := h
  cases current <;> rfl

theorem line_key (before : List RegSession) (current : Option ℕ) (key : Chars) :
    (Scan.mk before current false).line ('[' :: key ++ [']']) = match sessionOf key with
      | some (name, source) => scanning before ⟨name, .empty, source⟩
      | none => ⟨before, none, false⟩ := by
  have hends : ('[' :: key ++ [']']).head? = some '[' ∧ endsWith ']' ('[' :: key ++ [']']) = true := by
    refine ⟨rfl, ?_⟩
    rw [endsWith, List.getLast?_concat]
    rfl
  have hkey : (('[' :: key ++ [']']).drop 1).dropLast = key := List.dropLast_concat
  rw [Scan.line, trimmed_append (by decide) (by decide)]
  dsimp only
  rw [if_neg Bool.false_ne_true, if_pos hends, hkey]
  rfl

theorem line_other {before : List RegSession} {line : Chars} (h : (trimmed line).head? ≠ some '[') :
    (Scan.mk before none false).line line = ⟨before, none, false⟩ := by
  rw [Scan.line]
  dsimp only
  rw [if_neg Bool.false_ne_true, if_neg fun hends => h hends.1]

/-- A session's part is read as that session, and any other leaves the sessions. -/
theorem foldl_part (part : Part) (before : List RegSession) (current : Option ℕ) : ∃ current',
    part.lines.foldl Scan.line ⟨before, current, false⟩ =
      ⟨before ++ (part.session?.map Session.read).toList, current', false⟩ := by
  cases part with
  | session s =>
    obtain ⟨d, hfold, hentries⟩ := @foldl_put s.values s.nodup ⟨s.name, .empty, s.source⟩
      fun value _ => List.not_mem_nil
    obtain rfl : d = s.read.values := eq_of_entries hentries
    refine ⟨some before.length, ?_⟩
    rw [Part.lines, List.cons_append, List.foldl_cons, line_key, sessionOf_root s.named s.encoded.1, List.foldl_append,
      List.foldl_cons, List.foldl_nil]
    dsimp only
    rw [foldl_values, hfold, line_nil _ rfl]
    rfl
  | other key =>
    have hbody : ∀ lines : List Chars, (∀ line ∈ lines, (trimmed line).head? ≠ some '[') →
        lines.foldl Scan.line ⟨before, none, false⟩ = ⟨before, none, false⟩ := by
      intro lines hlines
      induction lines with
      | nil => rfl
      | cons line lines ih =>
        obtain ⟨hline, hlines⟩ := List.forall_mem_cons.mp hlines
        rw [List.foldl_cons, line_other hline, ih hlines]
    refine ⟨none, ?_⟩
    rw [Part.lines, List.cons_append, List.foldl_cons, line_key, sessionOf_eq_none key.notSession, List.foldl_append,
      List.foldl_cons, List.foldl_nil]
    dsimp only
    rw [hbody _ key.values, line_nil _ rfl]
    exact congrArg (Scan.mk · none false) (List.append_nil before).symm

theorem foldl_parts (parts : List Part) (before : List RegSession) (current : Option ℕ) :
    ((parts.flatMap Part.lines).foldl Scan.line ⟨before, current, false⟩).sessions =
      before ++ (parts.filterMap Part.session?).map Session.read := by
  induction parts generalizing before current with
  | nil => exact (List.append_nil before).symm
  | cons part parts ih =>
    obtain ⟨current', hpart⟩ := foldl_part part before current
    rw [List.flatMap_cons, List.foldl_append, hpart, ih, List.append_assoc, List.filterMap_cons]
    cases part.session? <;> rfl

theorem newline_escaped {text : Chars} (h : '\n' ∉ text) : '\n' ∉ escaped text := by
  intro hmem
  obtain ⟨c, hc, hesc⟩ := List.mem_flatMap.mp hmem
  have hself : '\n' = c := by
    split at hesc
    · rcases List.mem_cons.mp hesc with heq | hesc
      · exact absurd heq (by decide)
      · exact List.mem_singleton.mp hesc
    · exact List.mem_singleton.mp hesc
  exact h (hself ▸ hc)

theorem Plain.newline {text : Chars} (h : Plain text) : '\n' ∉ text := fun hmem => absurd (h _ hmem).1 (by decide)

theorem newline_hexLines {front : Chars} (h : '\n' ∉ front) (bytes : List UInt8) (more : List (List UInt8)) :
    ∀ line ∈ hexLines front bytes more, '\n' ∉ line := by
  induction more generalizing front bytes with
  | nil =>
    intro line hline
    rw [List.mem_singleton.mp hline, List.mem_append, not_or]
    exact ⟨h, (plain_pairs bytes).newline⟩
  | cons next more ih =>
    intro line hline
    rcases List.mem_cons.mp hline with rfl | hline
    · rw [List.mem_append, List.mem_append, not_or, not_or]
      refine ⟨⟨h, (plain_pairs bytes).newline⟩, ?_⟩
      split <;> decide
    · exact ih (by decide) next line hline

theorem newline_valueLines {value : Chars × RegValue} (hname : '\n' ∉ value.1)
    (htext : ∀ text, value.2 = .text text → '\n' ∉ text) : ∀ line ∈ valueLines value, '\n' ∉ line := by
  obtain ⟨name, value⟩ := value
  have hfront : '\n' ∉ '"' :: escaped name ++ "\"=".toList := by
    have hname : '\n' ∉ escaped name := newline_escaped hname
    simp [hname]
  cases value with
  | text text =>
    intro line hline
    rw [List.mem_singleton.mp hline]
    have htext : '\n' ∉ escaped text := newline_escaped (htext text rfl)
    simpa [htext] using hfront
  | dword n =>
    intro line hline
    rw [List.mem_singleton.mp hline, List.mem_append, List.mem_append, not_or, not_or]
    exact ⟨⟨hfront, by decide⟩, (plain_hexChars _ _).newline⟩
  | binary type first more =>
    refine newline_hexLines ?_ first more
    rw [List.mem_append, not_or]
    exact ⟨hfront, (plain_typeText type).newline⟩

theorem newline_part (part : Part) : ∀ line ∈ part.lines, '\n' ∉ line := by
  cases part with
  | session s =>
    have hroot : '\n' ∉ root s.source := by cases s.source <;> decide
    intro line hline
    rw [Part.lines, List.cons_append, List.mem_cons, List.mem_append, List.mem_singleton] at hline
    rcases hline with rfl | hline | rfl
    · simp [hroot, s.encoded.2]
    · obtain ⟨value, hvalue, hline⟩ := List.mem_flatMap.mp hline
      exact newline_valueLines (s.oneLine value hvalue).1 (s.oneLine value hvalue).2 line hline
    · exact List.not_mem_nil
  | other key =>
    intro line hline
    rw [Part.lines, List.cons_append, List.mem_cons, List.mem_append, List.mem_singleton] at hline
    rcases hline with rfl | hline | rfl
    · simp [key.oneLine.1]
    · exact key.oneLine.2 line hline
    · exact List.not_mem_nil

theorem parseReg_exportText (parts : List Part) :
    parseReg (exportText parts) = (parts.filterMap Part.session?).map Session.read := by
  have hlines : ∀ line ∈ "Windows Registry Editor Version 5.00".toList :: [] :: parts.flatMap Part.lines,
      '\n' ∉ line := by
    refine List.forall_mem_cons.mpr ⟨by decide, List.forall_mem_cons.mpr ⟨List.not_mem_nil, fun line hline => ?_⟩⟩
    obtain ⟨part, -, hline⟩ := List.mem_flatMap.mp hline
    exact newline_part part line hline
  have hheader : (trimmed "Windows Registry Editor Version 5.00".toList).head? ≠ some '[' := by decide +kernel
  rw [parseReg, exportText, lines_rendered hlines, List.foldl_cons, List.foldl_cons, line_other hheader,
    line_nil _ rfl, foldl_parts]
  rfl

/-! ### Names -/

/-- A name's bytes behind a percent sign, or as they are if they are none. -/
inductive Encodes : List UInt8 → List UInt8 → Prop
  | nil : Encodes [] []
  | kept {b : UInt8} {name encoded : List UInt8} (h : b ≠ 37) (rest : Encodes name encoded) :
    Encodes (b :: name) (b :: encoded)
  | percent {b high low : UInt8} {h l : ℕ} {name encoded : List UInt8}
    (hhigh : hexDigit (Char.ofNat high.toNat) = some h) (hlow : hexDigit (Char.ofNat low.toNat) = some l)
    (hbyte : b.toNat = h * 16 + l) (rest : Encodes name encoded) :
    Encodes (b :: name) (37 :: high :: low :: encoded)

theorem percentByte_of_ne {b : UInt8} (h : b ≠ 37) (high low : UInt8) : percentByte b high low = none := if_neg h

theorem percentByte_digits {b high low : UInt8} {h l : ℕ} (hhigh : hexDigit (Char.ofNat high.toNat) = some h)
    (hlow : hexDigit (Char.ofNat low.toNat) = some l) (hbyte : b.toNat = h * 16 + l) :
    percentByte 37 high low = some b := by
  have hstrip : stripPlus [Char.ofNat high.toNat, Char.ofNat low.toNat] =
      [Char.ofNat high.toNat, Char.ofNat low.toNat] := by
    unfold stripPlus
    split
    · next rest heq =>
      have hplus : hexDigit '+' = none := by decide
      rw [(List.cons.inj heq).1, hplus] at hhigh
      cases hhigh
    · rfl
  have hvalue : hexValue [Char.ofNat high.toNat, Char.ofNat low.toNat] = some b.toNat := by
    simp [hexValue, hhigh, hlow, hbyte]
  have hread : fromHex 8 [Char.ofNat high.toNat, Char.ofNat low.toNat] = some b.toNat := by
    rw [fromHex, hstrip, if_neg (by simp), hvalue]
    exact Option.filter_some_pos (decide_eq_true b.toNat_lt)
  rw [percentByte, if_pos rfl, hread, Option.map_some, UInt8.ofNat_toNat]

theorem decodeBytes_encodes {name encoded : List UInt8} (h : Encodes name encoded) : decodeBytes encoded = name := by
  induction h with
  | nil => rfl
  | @kept b name encoded hb _ ih =>
    rcases encoded with _ | ⟨high, _ | ⟨low, more⟩⟩
    · rw [decodeBytes, ih]
      simp
    · rw [decodeBytes, ih]
      simp
    · rw [decodeBytes, percentByte_of_ne hb, ih]
  | percent hhigh hlow hbyte _ ih => rw [decodeBytes, percentByte_digits hhigh hlow hbyte, ih]

/-- An export of the registry is read back as the sessions in it, each with its texts and numbers; a session file as
the values with a name the reader takes; and a name as what was encoded. -/
theorem sessions_read_back :
    (∀ parts, parseReg (exportText parts) = (parts.filterMap Part.session?).map Session.read) ∧
    (∀ values : List (Chars × Chars), (∀ value ∈ values, '\\' ∉ value.1 ∧ '\n' ∉ value.1 ∧ '\n' ∉ value.2) →
      (values.map Prod.fst).Nodup → (parseSessionFile (rendered (sessionLines values))).map Dictionary.entries =
        if (values.filter fun value => IsName value.1) = [] then none
        else some (values.filter fun value => IsName value.1)) ∧
    ∀ name encoded : Chars, Encodes (Utf8.encode name) (Utf8.encode encoded) → decodeSessionName encoded = name := by
  refine ⟨parseReg_exportText, fun values => parseSessionFile_rendered, fun name encoded h => ?_⟩
  rw [decodeSessionName, decodeBytes_encodes h, Utf8.decodeLossy_encode]

/-- A session of PuTTY's, with a number, quotes and backslashes, and bytes over two lines in front of another value. -/
def proxSession : Session where
  source := .putty
  name := "homelab%2Fprox-1".toList
  values := [("HostName".toList, .text "192.0.2.12".toList), ("PortNumber".toList, .dword 2222),
    ("PublicKeyFile".toList, .text "C:\\keys\\home \"lab\"\\".toList), ("Colour0".toList, .binary none [1, 2] [[3, 4]]),
    ("Log\\File".toList, .text "[log]=\\".toList)]
  named := by decide
  encoded := by decide +kernel
  nodup := by decide +kernel
  oneLine := by simp

def webSession : Session where
  source := .kitty
  name := "web".toList
  values := [("HostName".toList, .text "web.example".toList)]
  named := by decide
  encoded := by decide +kernel
  nodup := by decide +kernel
  oneLine := by simp

/-- The key that PuTTY's sessions stand in. -/
def sessionsKey : OtherKey where
  key := "HKEY_CURRENT_USER\\Software\\SimonTatham\\PuTTY\\Sessions".toList
  body := ["\"HostName\"=\"elsewhere.example\"".toList]
  notSession := by
    rintro ⟨front, name, hkey, -⟩
    have hnot : ¬ "\\sessions\\".toList <:+:
        "HKEY_CURRENT_USER\\Software\\SimonTatham\\PuTTY\\Sessions".toList.map asciiLowerChar := by decide +kernel
    exact hnot ⟨front, name, hkey.symm⟩
  values := by decide +kernel
  oneLine := by decide +kernel

def exportedParts : List Part := [.other sessionsKey, .session proxSession, .other sessionsKey, .session webSession]

/-- An export of both programs' sessions, a session file of KiTTY's and a name are read as what stands in them. -/
theorem sessions_read_back_both :
    exportText exportedParts = rendered (["Windows Registry Editor Version 5.00", "",
      "[HKEY_CURRENT_USER\\Software\\SimonTatham\\PuTTY\\Sessions]", "\"HostName\"=\"elsewhere.example\"", "",
      "[HKEY_CURRENT_USER\\Software\\SimonTatham\\PuTTY\\Sessions\\homelab%2Fprox-1]", "\"HostName\"=\"192.0.2.12\"",
      "\"PortNumber\"=dword:000008ae", "\"PublicKeyFile\"=\"C:\\\\keys\\\\home \\\"lab\\\"\\\\\"",
      "\"Colour0\"=hex:01,02,\\", "  03,04", "\"Log\\\\File\"=\"[log]=\\\\\"", "",
      "[HKEY_CURRENT_USER\\Software\\SimonTatham\\PuTTY\\Sessions]", "\"HostName\"=\"elsewhere.example\"", "",
      "[HKEY_CURRENT_USER\\Software\\9bis.com\\KiTTY\\Sessions\\web]", "\"HostName\"=\"web.example\"", ""].map
        String.toList) ∧
    (parseReg (exportText exportedParts)).map (fun session => (session.name, session.source, session.values.entries)) =
      [("homelab%2Fprox-1".toList, .putty, [("HostName".toList, "192.0.2.12".toList),
        ("PortNumber".toList, "2222".toList), ("PublicKeyFile".toList, "C:\\keys\\home \"lab\"\\".toList),
        ("Log\\File".toList, "[log]=\\".toList)]),
      ("web".toList, .kitty, [("HostName".toList, "web.example".toList)])] ∧
    (parseSessionFile "HostName\\192.0.2.12\\\r\nHost Name\\other\\\r\nPublicKeyFile\\C:\\keys\\nas.ppk\\\r\n".toList).map
      Dictionary.entries = some [("HostName".toList, "192.0.2.12".toList),
        ("PublicKeyFile".toList, "C:\\keys\\nas.ppk".toList)] ∧
    decodeSessionName "nas%2F%c3%bc".toList = "nas/ü".toList := by
  obtain ⟨hexports, hfiles, hnames⟩ := sessions_read_back
  have hfile := hfiles [("HostName".toList, "192.0.2.12".toList), ("Host Name".toList, "other".toList),
    ("PublicKeyFile".toList, "C:\\keys\\nas.ppk".toList)] (by decide +kernel) (by decide +kernel)
  refine ⟨by decide +kernel, ?_, ?_, ?_⟩
  · rw [hexports]
    decide +kernel
  · refine Eq.trans (congrArg _ (congrArg _ ?_)) (hfile.trans ?_)
    · decide +kernel
    · decide +kernel
  · have hname : Utf8.encode "nas/ü".toList = [110, 97, 115, 47, 195, 188] := by decide +kernel
    have hencoded : Utf8.encode "nas%2F%c3%bc".toList =
        [110, 97, 115, 37, 50, 70, 37, 99, 51, 37, 98, 99] := by decide +kernel
    refine hnames _ _ ?_
    rw [hname, hencoded]
    refine .kept (by decide) (.kept (by decide) (.kept (by decide) ?_))
    exact .percent (h := 2) (l := 15) (by decide) (by decide) (by decide)
      (.percent (h := 12) (l := 3) (by decide) (by decide) (by decide)
        (.percent (h := 11) (l := 12) (by decide) (by decide) (by decide) .nil))

/-- A value is lost whose name has a space in it. -/
theorem session_file_not_always_read : ¬ ∀ values : List (Chars × Chars), values ≠ [] →
    (∀ value ∈ values, value.1 ≠ [] ∧ '\\' ∉ value.1 ∧ '\n' ∉ value.1 ∧ '\n' ∉ value.2) →
    (values.map Prod.fst).Nodup →
    (parseSessionFile (rendered (sessionLines values))).map Dictionary.entries = some values := by
  intro h
  have hread := h [("Host Name".toList, "192.0.2.12".toList)] (by simp) (by simp) (by simp)
  exact absurd hread (by decide +kernel)

end UwuSsh.SessionFiles

import Mathlib.Data.Char
import UwuSsh.Assist.Prompt

/-!
What the floor is worth. No rule asks for a word to be absent, so a dangerous command line is dangerous inside any
other; what is returned as the command is what was looked at; and a recursive or forced `rm` is found where nothing
but options stands between it and the option, and the option is spelled out.
-/
namespace UwuSsh.Prompt

open Text

/-! ### Words of a line inside another -/

theorem isBreak_lower (c : Char) : isBreak (asciiLowerChar c) = isBreak c := by
  unfold asciiLowerChar
  split
  · rename_i hupper
    have hlow : 65 ≤ c.toNat := hupper.1
    have hhigh : c.toNat ≤ 90 := hupper.2
    have hall : ∀ k : Fin 26, isBreak (Char.ofNat (k + 65 + 32)) = isBreak (Char.ofNat (k + 65)) := by decide
    have hletter := hall ⟨c.toNat - 65, by omega⟩
    have hsum : c.toNat - 65 + 65 = c.toNat := by omega
    simp only [hsum, Char.ofNat_toNat] at hletter
    exact hletter
  · rfl

theorem wordsOf_append {s : Char} (hs : isBreak s = true) (a b : Chars) :
    wordsOf (a ++ s :: b) = wordsOf a ++ wordsOf b := by
  rw [wordsOf, List.splitOnP_append_cons _ _ hs, List.filter_append]
  rfl

/-- All that the rules can see of one line is in the other. -/
structure Line.Within (l l' : Line) : Prop where
  lower : l.lower <:+: l'.lower
  words : l.words <:+: l'.words

/-- A line stands in another where something that breaks words is around it. -/
theorem lineOf_within {front back : Chars} (hfront : ∀ s ∈ front.getLast?, isBreak s = true)
    (hback : ∀ s ∈ back.head?, isBreak s = true) (c : Chars) : (lineOf c).Within (lineOf (front ++ c ++ back)) := by
  have hbefore : ∃ ws, ∀ rest, wordsOf (front.map asciiLowerChar ++ rest) = ws ++ wordsOf rest := by
    rcases List.eq_nil_or_concat front with rfl | ⟨init, s, rfl⟩
    · exact ⟨[], fun rest => rfl⟩
    · have hs : isBreak (asciiLowerChar s) = true := by
        rw [isBreak_lower]
        exact hfront s (by simp)
      refine ⟨wordsOf (init.map asciiLowerChar), fun rest => ?_⟩
      have hsplit := wordsOf_append hs (init.map asciiLowerChar) rest
      simpa using hsplit
  have hafter : ∃ ws, ∀ init, wordsOf (init ++ back.map asciiLowerChar) = wordsOf init ++ ws := by
    cases back with
    | nil => exact ⟨[], fun init => by simp⟩
    | cons s rest =>
      have hs : isBreak (asciiLowerChar s) = true := by
        rw [isBreak_lower]
        exact hback s (by simp)
      exact ⟨wordsOf (rest.map asciiLowerChar), fun init => wordsOf_append hs init _⟩
  obtain ⟨before, hbefore⟩ := hbefore
  obtain ⟨after, hafter⟩ := hafter
  refine ⟨⟨front.map asciiLowerChar, back.map asciiLowerChar, by simp [lineOf]⟩, ⟨before, after, ?_⟩⟩
  simp only [lineOf, List.map_append]
  rw [hafter, hbefore]

/-! ### The rules -/

/-- A rule that what stands around a line does not take back. -/
def Rising (rule : Line → Bool) : Prop := ∀ l l' : Line, l.Within l' → rule l = true → rule l' = true

namespace Rising

variable {f g : Line → Bool}

theorem and (hf : Rising f) (hg : Rising g) : Rising fun l => f l && g l := by
  intro l l' h hl
  obtain ⟨hleft, hright⟩ := Bool.and_eq_true_iff.mp hl
  exact Bool.and_eq_true_iff.mpr ⟨hf l l' h hleft, hg l l' h hright⟩

theorem or (hf : Rising f) (hg : Rising g) : Rising fun l => f l || g l := by
  intro l l' h hl
  obtain hleft | hright := Bool.or_eq_true_iff.mp hl
  · exact Bool.or_eq_true_iff.mpr (.inl (hf l l' h hleft))
  · exact Bool.or_eq_true_iff.mpr (.inr (hg l l' h hright))

theorem any {rules : List (Line → Bool)} (hrules : ∀ rule ∈ rules, Rising rule) :
    Rising fun l => rules.any fun rule => rule l := by
  intro l l' h hl
  obtain ⟨rule, hrule, hl⟩ := List.any_eq_true.mp hl
  exact List.any_eq_true.mpr ⟨rule, hrule, hrules rule hrule l l' h hl⟩

theorem words (p : Chars → Bool) : Rising fun l => l.words.any p := by
  intro l l' h hl
  obtain ⟨word, hword, hp⟩ := List.any_eq_true.mp hl
  exact List.any_eq_true.mpr ⟨word, h.words.subset hword, hp⟩

theorem has (word : String) : Rising fun l => l.has word := by
  intro l l' h hl
  have hmem : word.toList ∈ l.words := List.contains_iff_mem.mp hl
  exact List.contains_iff_mem.mpr (h.words.subset hmem)

theorem contains (part : String) : Rising fun l => l.contains part := by
  intro l l' h hl
  exact decide_eq_true ((of_decide_eq_true hl).trans h.lower)

theorem hasAny (list : List String) : Rising fun l => l.hasAny list := by
  intro l l' h hl
  obtain ⟨word, hword, hl⟩ := List.any_eq_true.mp hl
  exact List.any_eq_true.mpr ⟨word, hword, has word l l' h hl⟩

theorem containsAny (list : List String) : Rising fun l => l.containsAny list := by
  intro l l' h hl
  obtain ⟨part, hpart, hl⟩ := List.any_eq_true.mp hl
  exact List.any_eq_true.mpr ⟨part, hpart, contains part l l' h hl⟩

/-- What is found from some word on is found with more words behind it. -/
theorem tails {p : List Chars → Bool} (hp : ∀ ws more, p ws = true → p (ws ++ more) = true) :
    Rising fun l => l.words.tails.any p := by
  intro l l' h hl
  obtain ⟨ws, hws, hfound⟩ := List.any_eq_true.mp hl
  obtain ⟨skipped, hskipped⟩ := (List.mem_tails _ _).mp hws
  obtain ⟨before, after, hwords⟩ := h.words
  refine List.any_eq_true.mpr ⟨ws ++ after, (List.mem_tails _ _).mpr ⟨before ++ skipped, ?_⟩, hp ws after hfound⟩
  rw [← hwords, ← hskipped]
  simp only [List.append_assoc]

end Rising

theorem isRm_iff {ws : List Chars} : isRm ws = true ↔ ∃ flags rest, ws = "rm".toList :: (flags ++ rest) ∧
    (∀ flag ∈ flags, startsWith "-" flag = true) ∧ ∃ flag ∈ flags, isRecursiveOrForce flag = true := by
  cases ws with
  | nil => simp [isRm]
  | cons word rest =>
    rw [isRm, Bool.and_eq_true_iff, beq_iff_eq, List.any_eq_true]
    constructor
    · rintro ⟨rfl, flag, hflag, hforce⟩
      refine ⟨rest.takeWhile (startsWith "-"), rest.dropWhile (startsWith "-"), ?_, ?_, flag, hflag, hforce⟩
      · rw [List.takeWhile_append_dropWhile]
      · exact fun flag hflag => List.mem_takeWhile_imp hflag
    · rintro ⟨flags, more, heq, hflags, flag, hflag, hforce⟩
      obtain ⟨rfl, rfl⟩ := List.cons.inj heq
      refine ⟨rfl, flag, ?_, hforce⟩
      rw [List.takeWhile_append_of_pos hflags]
      exact List.mem_append_left _ hflag

theorem rising_rm : Rising Line.rm := by
  apply Rising.tails
  intro ws more h
  obtain ⟨flags, rest, rfl, hflags, hforce⟩ := isRm_iff.mp h
  exact isRm_iff.mpr ⟨flags, rest ++ more, by simp, hflags, hforce⟩

theorem rising_format : Rising fun l => l.words.tails.any isFormat := by
  apply Rising.tails
  rintro (_ | ⟨word, _ | ⟨drive, rest⟩⟩) more h
  · cases h
  · cases h
  · exact h

theorem rising_otherRules : ∀ rule ∈ otherRules, Rising rule := by
  unfold otherRules
  simp only [List.forall_mem_cons, List.not_mem_nil, false_imp_iff, implies_true, and_true]
  refine ⟨.hasAny _, .words _, rising_format, ?_⟩
  refine ⟨(Rising.has _).and (.contains _), (Rising.has _).and (.contains _),
    (Rising.has _).and ((Rising.has _).or (.has _)), ?_⟩
  refine ⟨(((Rising.has _).or (.has _)).or (.has _)).and ((Rising.has _).or (.has _)),
    (Rising.has _).and (.containsAny _), ((Rising.has _).or (.has _)).and (.containsAny _), ?_⟩
  refine ⟨((Rising.has _).or (.has _)).and (.contains _), (Rising.has _).and (.hasAny _),
    (Rising.has _).and (.has _), (Rising.has _).and (.containsAny _), ?_⟩
  refine ⟨(Rising.has _).and (.hasAny _), (Rising.has _).and (.contains _), (Rising.hasAny _).and (.hasAny _),
    (Rising.has _).and (.hasAny _), ?_⟩
  refine ⟨(Rising.has _).and ((Rising.has _).or ((Rising.has _).and (.has _))), .containsAny _,
    (Rising.has _).and (.has _), ?_⟩
  exact ⟨(Rising.has _).and (.containsAny _), .has _, .containsAny _⟩

/-- A dangerous command is dangerous in any other that it is a part of. -/
theorem looksDangerous_within {front back : Chars} (hfront : ∀ s ∈ front.getLast?, isBreak s = true)
    (hback : ∀ s ∈ back.head?, isBreak s = true) {c : Chars} (h : looksDangerous c = true) :
    looksDangerous (front ++ c ++ back) = true :=
  (rising_rm.or (Rising.any rising_otherRules)) _ _ (lineOf_within hfront hback c) h

theorem front_of_space (front : Chars) : ∀ s ∈ (front ++ [' ']).getLast?, isBreak s = true := by
  intro s hs
  obtain rfl : ' ' = s := by simpa using hs
  decide

theorem front_of_paren (front : Chars) : ∀ s ∈ (front ++ ['(']).getLast?, isBreak s = true := by
  intro s hs
  obtain rfl : '(' = s := by simpa using hs
  decide

theorem head_of_semicolon (back : Chars) : ∀ s ∈ (';' :: back).head?, isBreak s = true := by
  intro s hs
  obtain rfl : ';' = s := by simpa using hs
  decide

theorem head_of_paren (back : Chars) : ∀ s ∈ (')' :: back).head?, isBreak s = true := by
  intro s hs
  obtain rfl : ')' = s := by simpa using hs
  decide

theorem head_of_nil : ∀ s ∈ ([] : Chars).head?, isBreak s = true := by
  rintro s ⟨⟩

/-! ### The answer -/

theorem isControl_cleaned {raw : Chars} : ∀ c ∈ cleaned raw, isControl c = false := by
  intro c hc
  have hshown := List.mem_of_mem_take hc
  have hkept := (List.dropWhile_sublist _).subset ((List.rdropWhile_prefix _ _).subset hshown)
  simpa using (List.mem_filter.mp hkept).2

/-- What an answer shows was cleaned, and its flag is of what it shows. -/
theorem parseAnswer_spec {reader : JsonReader} {text : Chars} {answer : Answer}
    (h : parseAnswer reader text = .ok answer) : (∃ raw, answer.command = cleaned raw) ∧
      (looksDangerous answer.command = true → answer.dangerous = true) := by
  unfold parseAnswer at h
  split at h
  · cases h
  · dsimp only at h
    split at h
    · cases h
    · cases h
      exact ⟨⟨_, rfl⟩, fun hdangerous => Bool.or_eq_true_iff.mpr (.inr hdangerous)⟩

/-! ### The floor for `rm` -/

/-- An option that makes `rm` go into folders or not ask: letters behind one dash, or a long name, which may
be cut short as long as nothing else begins like it. -/
def isForceOption : Chars → Bool
  | '-' :: '-' :: name => !name.isEmpty && (name.isPrefixOf "recursive".toList || name.isPrefixOf "force".toList)
  | '-' :: letters => letters.contains 'r' || letters.contains 'f'
  | _ => false

/-- A long name that is cut short. -/
def Abbreviated (option : Chars) : Prop :=
  startsWith "--" option = true ∧ option ≠ "--recursive".toList ∧ option ≠ "--force".toList

/-- What ends a command on a command line. -/
def isSeparator (c : Char) : Bool := "|;&()".toList.contains c

/-- The commands of a line in lower case. -/
def commandsOf (command : Chars) : List Chars := (command.map asciiLowerChar).splitOnP isSeparator

/-- Behind an `rm`, anywhere before the command ends, stands a recursive or force option. -/
def Forced (command : Chars) : Prop := ∃ part ∈ commandsOf command, ∃ before between option after,
  wordsOf part = before ++ "rm".toList :: between ++ option :: after ∧ isForceOption option = true

/-- Behind some `rm` of the line stands such an option, not cut short, with no operand before it. -/
def OptionsFirst (command : Chars) : Prop := ∃ before between option after,
  (lineOf command).words = before ++ "rm".toList :: between ++ option :: after ∧
    (∀ word ∈ between, startsWith "-" word = true) ∧ isForceOption option = true ∧ ¬ Abbreviated option

theorem startsWith_dash {word : Chars} : startsWith "-" word = true ↔ ∃ letters, word = '-' :: letters := by
  rw [startsWith, List.isPrefixOf_iff_prefix]
  constructor
  · rintro ⟨letters, rfl⟩
    exact ⟨letters, rfl⟩
  · rintro ⟨letters, rfl⟩
    exact ⟨letters, rfl⟩

theorem startsWith_of_isForceOption {word : Chars} (h : isForceOption word = true) : startsWith "-" word = true := by
  unfold isForceOption at h
  split at h
  · exact startsWith_dash.mpr ⟨_, rfl⟩
  · exact startsWith_dash.mpr ⟨_, rfl⟩
  · cases h

/-- The code's test takes the options that are not cut short. -/
theorem isRecursiveOrForce_iff {word : Chars} (hdash : startsWith "-" word = true) :
    isRecursiveOrForce word = true ↔ isForceOption word = true ∧ ¬ Abbreviated word := by
  obtain ⟨letters, rfl⟩ := startsWith_dash.mp hdash
  by_cases hlong : ∃ name, letters = '-' :: name
  · obtain ⟨name, rfl⟩ := hlong
    have hstart : startsWith "--" ('-' :: '-' :: name) = true := by simp [startsWith]
    constructor
    · intro h
      simp only [isRecursiveOrForce, hstart, Bool.not_true, Bool.false_and, Bool.or_false, Bool.or_eq_true_iff,
        beq_iff_eq] at h
      obtain heq | heq := h
      · rw [heq]
        exact ⟨by decide, fun hcut => hcut.2.1 rfl⟩
      · rw [heq]
        exact ⟨by decide, fun hcut => hcut.2.2 rfl⟩
    · rintro ⟨-, hwhole⟩
      rw [isRecursiveOrForce, Bool.or_eq_true_iff, Bool.or_eq_true_iff, beq_iff_eq, beq_iff_eq]
      by_contra hne
      rw [not_or, not_or] at hne
      exact hwhole ⟨hstart, hne.1.1, hne.1.2⟩
  · have hshort : startsWith "--" ('-' :: letters) = false := by
      rw [Bool.eq_false_iff]
      intro hstart
      rw [startsWith, List.isPrefixOf_iff_prefix] at hstart
      obtain ⟨name, hname⟩ := hstart
      exact hlong ⟨name, (List.cons.inj hname).2.symm⟩
    have hname : isForceOption ('-' :: letters) = (letters.contains 'r' || letters.contains 'f') := by
      rw [isForceOption]
      exact fun name hletters => hlong ⟨name, hletters⟩
    have hcut : ¬ Abbreviated ('-' :: letters) := fun hcut =>
      Bool.false_ne_true (hshort.symm.trans hcut.1)
    have hrecursive : ('-' :: letters == "--recursive".toList) = false := by
      rw [beq_eq_false_iff_ne]
      exact fun heq => hlong ⟨_, (List.cons.inj heq).2⟩
    have hforce : ('-' :: letters == "--force".toList) = false := by
      rw [beq_eq_false_iff_ne]
      exact fun heq => hlong ⟨_, (List.cons.inj heq).2⟩
    rw [hname, isRecursiveOrForce, hrecursive, hforce, hshort]
    simp [hcut]

theorem rm_iff {command : Chars} : (lineOf command).rm = true ↔ OptionsFirst command := by
  rw [Line.rm, List.any_eq_true]
  constructor
  · rintro ⟨ws, hws, hrm⟩
    obtain ⟨before, hbefore⟩ := (List.mem_tails _ _).mp hws
    obtain ⟨flags, rest, rfl, hflags, flag, hflag, hforce⟩ := isRm_iff.mp hrm
    obtain ⟨between, after, rfl⟩ := List.append_of_mem hflag
    refine ⟨before, between, flag, after ++ rest, by rw [← hbefore]; simp, fun word hword => ?_, ?_⟩
    · exact hflags word (by simp [hword])
    · exact (isRecursiveOrForce_iff (hflags flag hflag)).mp hforce
  · rintro ⟨before, between, option, after, hwords, hbetween, hoption, hwhole⟩
    have hdash := startsWith_of_isForceOption hoption
    refine ⟨"rm".toList :: between ++ option :: after, (List.mem_tails _ _).mpr ⟨before, ?_⟩, isRm_iff.mpr
      ⟨between ++ [option], after, by simp, fun word hword => ?_, option, by simp, ?_⟩⟩
    · rw [hwords]
      simp
    · rcases List.mem_append.mp hword with hword | hword
      · exact hbetween word hword
      · rw [List.mem_singleton.mp hword]
        exact hdash
    · exact (isRecursiveOrForce_iff hdash).mpr ⟨hoption, hwhole⟩

theorem looksDangerous_iff {command : Chars} : looksDangerous command = true ↔
    OptionsFirst command ∨ ∃ rule ∈ otherRules, rule (lineOf command) = true := by
  rw [looksDangerous, Bool.or_eq_true_iff, rm_iff, List.any_eq_true]

/-! A piece of a text that was split stands between two of the characters it was split at. -/

theorem splitOnP_first_piece {p : Char → Bool} {text first : Chars} {others : List Chars}
    (h : text.splitOnP p = first :: others) : ∃ back, text = first ++ back ∧ ∀ s ∈ back.head?, p s = true := by
  induction text generalizing first others with
  | nil =>
    obtain ⟨rfl, -⟩ := List.cons.inj h
    exact ⟨[], rfl, by simp⟩
  | cons c text ih =>
    rw [List.splitOnP_cons_eq_if_modifyHead] at h
    split at h
    · rename_i hc
      obtain ⟨rfl, -⟩ := List.cons.inj h
      exact ⟨c :: text, rfl, fun s hs => Option.some.inj hs ▸ hc⟩
    · obtain ⟨head, rest, hsplit⟩ := List.exists_cons_of_ne_nil (List.splitOnP_ne_nil p text)
      rw [hsplit, List.modifyHead_cons] at h
      obtain ⟨rfl, -⟩ := List.cons.inj h
      obtain ⟨back, htext, hback⟩ := ih hsplit
      exact ⟨back, by rw [htext]; rfl, hback⟩

theorem splitOnP_other_piece {p : Char → Bool} {text first part : Chars} {others : List Chars}
    (h : text.splitOnP p = first :: others) (hpart : part ∈ others) : ∃ front s back,
      text = front ++ s :: (part ++ back) ∧ p s = true ∧ ∀ s ∈ back.head?, p s = true := by
  induction text generalizing first others with
  | nil =>
    obtain ⟨-, rfl⟩ := List.cons.inj h
    exact absurd hpart List.not_mem_nil
  | cons c text ih =>
    obtain ⟨head, rest, hsplit⟩ := List.exists_cons_of_ne_nil (List.splitOnP_ne_nil p text)
    rw [List.splitOnP_cons_eq_if_modifyHead, hsplit] at h
    split at h
    · rename_i hc
      obtain ⟨-, rfl⟩ := List.cons.inj h
      rcases List.mem_cons.mp hpart with rfl | hpart
      · obtain ⟨back, htext, hback⟩ := splitOnP_first_piece hsplit
        exact ⟨[], c, back, by rw [htext]; rfl, hc, hback⟩
      · obtain ⟨front, s, back, htext, hs, hback⟩ := ih hsplit hpart
        exact ⟨c :: front, s, back, by rw [htext]; rfl, hs, hback⟩
    · rw [List.modifyHead_cons] at h
      obtain ⟨-, rfl⟩ := List.cons.inj h
      obtain ⟨front, s, back, htext, hs, hback⟩ := ih hsplit hpart
      exact ⟨c :: front, s, back, by rw [htext]; rfl, hs, hback⟩

theorem isBreak_of_isSeparator {c : Char} (h : isSeparator c = true) : isBreak c = true := by
  have hall : "|;&()".toList.all isBreak = true := by decide
  exact List.all_eq_true.mp hall c (List.contains_iff_mem.mp h)

/-- The words of a command are words of the line, one behind the other. -/
theorem words_of_command {command part : Chars} (h : part ∈ commandsOf command) :
    wordsOf part <:+: (lineOf command).words := by
  obtain ⟨first, others, hsplit⟩ := List.exists_cons_of_ne_nil
    (List.splitOnP_ne_nil isSeparator (command.map asciiLowerChar))
  have hframe : ∃ front back, command.map asciiLowerChar = front ++ part ++ back ∧
      (∀ s ∈ front.getLast?, isBreak s = true) ∧ ∀ s ∈ back.head?, isBreak s = true := by
    rw [commandsOf, hsplit] at h
    rcases List.mem_cons.mp h with rfl | h
    · obtain ⟨back, htext, hback⟩ := splitOnP_first_piece hsplit
      exact ⟨[], back, htext, by simp, fun s hs => isBreak_of_isSeparator (hback s hs)⟩
    · obtain ⟨front, s, back, htext, hs, hback⟩ := splitOnP_other_piece hsplit h
      refine ⟨front ++ [s], back, by rw [htext]; simp, fun s' hs' => ?_,
        fun s hs => isBreak_of_isSeparator (hback s hs)⟩
      obtain rfl : s = s' := by simpa using hs'
      exact isBreak_of_isSeparator hs
  obtain ⟨front, back, htext, hfront, hback⟩ := hframe
  have hlower : ∀ text : Chars, text.map asciiLowerChar = text → (lineOf text).words = wordsOf text :=
    fun text htext => congrArg wordsOf htext
  have hwhole : (command.map asciiLowerChar).map asciiLowerChar = command.map asciiLowerChar := by
    rw [List.map_map]
    exact List.map_congr_left fun c _ => asciiLowerChar_asciiLowerChar c
  have hpart : part.map asciiLowerChar = part := by
    rw [htext, List.map_append, List.map_append, List.append_assoc, List.append_assoc] at hwhole
    have hfirst := List.append_inj hwhole (List.length_map _)
    exact (List.append_inj hfirst.2 (List.length_map _)).1
  have hwithin := (lineOf_within hfront hback part).words
  rw [hlower part hpart, ← htext, hlower _ hwhole] at hwithin
  exact hwithin

/-- An `rm` of the line is found by an option that is not cut short and has no operand before it. -/
theorem looksDangerous_of_option {command part option : Chars} {before between after : List Chars}
    (hpart : part ∈ commandsOf command) (hwords : wordsOf part = before ++ "rm".toList :: between ++ option :: after)
    (hbetween : ∀ word ∈ between, startsWith "-" word = true) (hoption : isForceOption option = true)
    (hwhole : ¬ Abbreviated option) : looksDangerous command = true := by
  obtain ⟨front, back, hline⟩ := words_of_command hpart
  have hfound : OptionsFirst command := by
    refine ⟨front ++ before, between, option, after ++ back, ?_, hbetween, hoption, hwhole⟩
    rw [← hline, hwords]
    simp
  exact looksDangerous_iff.mpr (.inl hfound)

/-- A line in which a recursive or force option stands behind an `rm` is found just if some `rm` of it has such an
option, not cut short, with no operand before it, or another rule finds the line. What is dangerous stays so inside
another command. And a command that is returned has no control characters, is not too long, and is flagged if it
looks dangerous as it is returned. -/
theorem danger_floor (command : Chars) :
    ((Forced command → looksDangerous command = true) ↔
      (¬ Forced command ∨ OptionsFirst command ∨ ∃ rule ∈ otherRules, rule (lineOf command) = true)) ∧
    (∀ part ∈ commandsOf command, ∀ before between option after,
      wordsOf part = before ++ "rm".toList :: between ++ option :: after →
      (∀ word ∈ between, startsWith "-" word = true) → isForceOption option = true → ¬ Abbreviated option →
      looksDangerous command = true) ∧
    (looksDangerous command = true → ∀ a b, looksDangerous (a ++ "; ".toList ++ command ++ "; ".toList ++ b) = true ∧
      looksDangerous (a ++ " | ".toList ++ command) = true ∧ looksDangerous ("sudo ".toList ++ command) = true ∧
      looksDangerous ("$(".toList ++ command ++ ")".toList) = true) ∧
    ∀ reader text answer, parseAnswer reader text = .ok answer → (∀ c ∈ answer.command, isControl c = false) ∧
      answer.command.length ≤ maxCommandChars ∧
      (looksDangerous answer.command = true → answer.dangerous = true) := by
  refine ⟨by rw [looksDangerous_iff, imp_iff_not_or], fun part hpart before between option after => ?_,
    fun h a b => ⟨?_, ?_, ?_, ?_⟩, fun reader text answer h => ?_⟩
  · exact fun hwords hbetween hoption hwhole => looksDangerous_of_option hpart hwords hbetween hoption hwhole
  · have hbetween := looksDangerous_within (front_of_space (a ++ [';'])) (head_of_semicolon (' ' :: b)) h
    simpa using hbetween
  · have hbehind := looksDangerous_within (front_of_space (a ++ [' ', '|'])) head_of_nil h
    simpa using hbehind
  · have hbehind := looksDangerous_within (front_of_space "sudo".toList) head_of_nil h
    simpa using hbehind
  · exact looksDangerous_within (front_of_paren ['$']) (head_of_paren []) h
  · obtain ⟨⟨raw, hraw⟩, hflag⟩ := parseAnswer_spec h
    refine ⟨?_, ?_, hflag⟩
    · rw [hraw]
      exact isControl_cleaned
    · rw [hraw]
      exact List.length_take_le _ _

/-- An option behind an operand is not looked at, and one that is cut short is not known. -/
theorem forced_not_always_found :
    (Forced "rm build -rf".toList ∧ looksDangerous "rm build -rf".toList = false) ∧
      Forced "rm --recurs /".toList ∧ looksDangerous "rm --recurs /".toList = false := by
  refine ⟨⟨⟨"rm build -rf".toList, by decide +kernel, [], ["build".toList], "-rf".toList, [], by decide +kernel,
    by decide⟩, by decide +kernel⟩, ⟨"rm --recurs /".toList, by decide +kernel, [], [], "--recurs".toList,
    ["/".toList], by decide +kernel, by decide⟩, by decide +kernel⟩

end UwuSsh.Prompt

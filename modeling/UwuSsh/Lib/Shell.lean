import Mathlib.Data.List.Forall2

/-!
How a POSIX shell takes one command line apart: blanks end a word, quotes and backslashes are removed,
and two quoted pieces without a blank between them are one word. A line with an operator, an expansion
or a pattern in it, or with a quote left open, is not a simple list of words and has no reading here.
-/
namespace Shell

inductive Mode
  | plain
  | escaped
  | single
  | double
  | doubleEscaped
deriving DecidableEq

structure Reader where
  mode : Mode
  word : Option (List Char)
  words : List (List Char)
deriving DecidableEq

namespace Reader

/-- Between two words. -/
def between (words : List (List Char)) : Reader := { mode := .plain, word := none, words }

def add (reader : Reader) (c : Char) : Reader :=
  { reader with word := some (reader.word.getD [] ++ [c]) }

/-- A quote begins a word also where it stays empty. -/
def enter (reader : Reader) (mode : Mode) : Reader :=
  { reader with mode, word := some (reader.word.getD []) }

def endWord (reader : Reader) : Reader := between (reader.words ++ reader.word.toList)

end Reader

def isBlank (c : Char) : Bool := c == ' ' || c == '\t'

/-- What means something to the shell when it is not quoted. -/
def isSpecial (c : Char) : Bool :=
  ['|', '&', ';', '<', '>', '(', ')', '$', '\x60', '\n', '*', '?', '[', '#', '~', '=', '%', '!', '\x7b',
    '\x7d'].contains c

/-- What a backslash keeps its meaning for between double quotes. -/
def isEscapable (c : Char) : Bool := ['$', '\x60', '"', '\\'].contains c

def step (reader : Reader) (c : Char) : Option Reader :=
  match reader.mode with
  | .plain =>
    if isBlank c then some reader.endWord
    else if c = '\'' then some (reader.enter .single)
    else if c = '"' then some (reader.enter .double)
    else if c = '\\' then some { reader with mode := .escaped }
    else if isSpecial c then none
    else some (reader.add c)
  | .escaped =>
    -- An escaped line end joins two lines.
    if c = '\n' then some { reader with mode := .plain }
    else some { reader.add c with mode := .plain }
  | .single => if c = '\'' then some { reader with mode := .plain } else some (reader.add c)
  | .double =>
    if c = '"' then some { reader with mode := .plain }
    else if c = '\\' then some { reader with mode := .doubleEscaped }
    else if c = '$' ∨ c = '\x60' then none
    else some (reader.add c)
  | .doubleEscaped =>
    if c = '\n' then some { reader with mode := .double }
    else if isEscapable c then some { reader.add c with mode := .double }
    else some { (reader.add '\\').add c with mode := .double }

def read (reader : Reader) (text : List Char) : Option Reader := text.foldlM step reader

/-- The words of a line. -/
def split (line : List Char) : Option (List (List Char)) :=
  (read (.between []) line).bind fun reader =>
    if reader.mode = .plain then some reader.endWord.words else none

/-- Text between single quotes, with each single quote in it closed, escaped and opened again. -/
def quoted (text : List Char) : List Char :=
  '\'' :: text.flatMap (fun c => if c = '\'' then ['\'', '\\', '\'', '\''] else [c]) ++ ['\'']

theorem read_append (reader : Reader) (first second : List Char) :
    read reader (first ++ second) = (read reader first).bind (read · second) := by
  simp only [read, List.foldlM_append]
  rfl

theorem read_cons (reader : Reader) (c : Char) (text : List Char) :
    read reader (c :: text) = (step reader c).bind (read · text) := rfl

/-- A character that stands for itself outside quotes. -/
def isBare (c : Char) : Bool := !isBlank c && c != '\'' && c != '"' && c != '\\' && !isSpecial c

theorem step_bare {c : Char} (h : isBare c) (word : Option (List Char)) (words : List (List Char)) :
    step { mode := .plain, word, words } c =
      some { mode := .plain, word := some (word.getD [] ++ [c]), words } := by
  simp only [isBare, Bool.and_eq_true, Bool.not_eq_true', bne_iff_ne, ne_eq] at h
  simp [step, Reader.add, h]

theorem read_bare {text : List Char} (h : ∀ c ∈ text, isBare c) (word : List Char)
    (words : List (List Char)) :
    read { mode := .plain, word := some word, words } text =
      some { mode := .plain, word := some (word ++ text), words } := by
  induction text generalizing word with
  | nil => simp [read]
  | cons c rest ih =>
    rw [read_cons, step_bare (h c (by simp)), Option.bind_some, Option.getD_some,
      ih (fun d hd => h d (by simp [hd]))]
    simp

/-- What is between single quotes is taken as it is, the escaped quotes as quotes. -/
theorem read_between_quotes (text word : List Char) (words : List (List Char)) :
    read { mode := .single, word := some word, words }
        (text.flatMap fun c => if c = '\'' then ['\'', '\\', '\'', '\''] else [c]) =
      some { mode := .single, word := some (word ++ text), words } := by
  induction text generalizing word with
  | nil => simp [read]
  | cons c rest ih =>
    have hstep : read { mode := .single, word := some word, words }
        (if c = '\'' then ['\'', '\\', '\'', '\''] else [c]) =
          some { mode := .single, word := some (word ++ [c]), words } := by
      by_cases hc : c = '\''
      · subst hc
        rfl
      · simp [hc, read, step, Reader.add]
    rw [List.flatMap_cons, read_append, hstep, Option.bind_some, ih]
    simp

/-- A piece of a line that stands for one word. -/
def Renders (piece word : List Char) : Prop :=
  ∀ words, read (.between words) piece = some { mode := .plain, word := some word, words }

theorem renders_bare {word : List Char} (hsome : word ≠ []) (h : ∀ c ∈ word, isBare c) :
    Renders word word := by
  intro words
  obtain ⟨c, rest, rfl⟩ := List.exists_cons_of_ne_nil hsome
  rw [read_cons, Reader.between, step_bare (h c (by simp)), Option.bind_some,
    read_bare (fun d hd => h d (by simp [hd]))]
  rfl

/-- Quoting makes one word of any text, of none at all too. -/
theorem renders_quoted (text : List Char) : Renders (quoted text) text := by
  intro words
  have hopen : step (.between words) '\'' = some { mode := .single, word := some [], words } := rfl
  rw [quoted, List.cons_append, read_cons, hopen, Option.bind_some, read_append, read_between_quotes,
    Option.bind_some, List.nil_append]
  rfl

theorem read_word {piece word : List Char} (h : Renders piece word) (words : List (List Char))
    (rest : List Char) :
    read (.between words) (piece ++ ' ' :: rest) = read (.between (words ++ [word])) rest := by
  rw [read_append, h, Option.bind_some, read_cons]
  rfl

/-- Pieces with one blank between two of them are their words. -/
theorem read_pieces {pieces words : List (List Char)} (h : List.Forall₂ Renders pieces words)
    (before : List (List Char)) :
    ∃ reader, read (.between before) ([' '].intercalate pieces) = some reader ∧ reader.mode = .plain ∧
      reader.endWord.words = before ++ words := by
  induction h generalizing before with
  | nil => exact ⟨.between before, rfl, rfl, by simp [Reader.endWord, Reader.between]⟩
  | @cons piece word pieces words hpiece hrest ih =>
    cases pieces with
    | nil =>
      cases hrest
      exact ⟨_, by simpa using hpiece before, rfl, by simp [Reader.endWord, Reader.between]⟩
    | cons next pieces =>
      obtain ⟨reader, hread, hplain, hwords⟩ := ih (before ++ [word])
      refine ⟨reader, ?_, hplain, by simpa using hwords⟩
      have hline : [' '].intercalate (piece :: next :: pieces) =
          piece ++ ' ' :: [' '].intercalate (next :: pieces) := by simp
      rw [hline, read_word hpiece, hread]

theorem split_of_read {reader : Reader} {line : List Char} (hread : read (.between []) line = some reader)
    (hplain : reader.mode = .plain) : split line = some reader.endWord.words := by
  simp [split, hread, hplain]

end Shell

import UwuSsh.Importers.SshConfig
import UwuSsh.Lib.Dictionary
import UwuSsh.Lib.Utf8

/-!
Saved sessions as text: a session file of KiTTY's, which is lines of a name and a value, and an export of the
registry, whose sections are scanned line by line with the session that is being read and a mark for a value that
goes on. The name of a session stands there with percent signs, and is decoded byte by byte.
-/
namespace UwuSsh.SessionFiles

open Text SshConfig

inductive Source
  | putty
  | kitty
deriving DecidableEq

/-- A `\r` in front of a line's end belongs to the end. -/
def stripReturn (line : Chars) : Chars := if line.getLast? = some '\r' then line.dropLast else line

/-- `str::lines` -/
def lines (text : Chars) : List Chars :=
  let parts := text.splitOn '\n'
  parts.dropLast.map stripReturn ++ (parts.getLast?.filter (· ≠ [])).toList

def endsWith (c : Char) (line : Chars) : Bool := line.getLast? == some c

/-! ### A session file -/

def isAsciiGraphic (c : Char) : Bool := 33 ≤ c.toNat && c.toNat ≤ 126

/-- One line, if it has the shape `Name\Value\`. -/
def sessionLine (values : Dictionary Chars Chars) (raw : Chars) : Dictionary Chars Chars :=
  let line := raw.rdropWhile fun c => c = '\r' ∨ c = '\n'
  if '\\' ∈ line then
    let name := line.takeWhile (· ≠ '\\')
    let rest := (line.dropWhile (· ≠ '\\')).drop 1
    if endsWith '\\' rest then
      if name = [] ∨ 64 < name.length ∨ ¬ name.all isAsciiGraphic then values
      else values.set name rest.dropLast
    else values
  else values

/-- `none` when not a single line has that shape. -/
def parseSessionFile (text : Chars) : Option (Dictionary Chars Chars) :=
  let values := (lines text).foldl sessionLine .empty
  if values.entries = [] then none else some values

/-! ### A registry export -/

/-- `str::rfind` -/
def rfind (pattern : Chars) : Chars → Option ℕ
  | [] => if pattern = [] then some 0 else none
  | c :: text =>
    match rfind pattern text with
    | some found => some (found + 1)
    | none => if pattern <+: c :: text then some 0 else none

/-- The session a registry key names, if it is one directly under a Sessions key. -/
def sessionOf (key : Chars) : Option (Chars × Source) :=
  let lower := key.map asciiLowerChar
  match rfind "\\sessions\\".toList lower with
  | none => none
  | some found =>
    let name := key.drop (found + "\\sessions\\".length)
    if name = [] ∨ '\\' ∈ name then none
    else some (name, if "\\kitty\\".toList <:+: lower then .kitty else .putty)

/-- The name of a value, behind its opening quote, and what stands behind the `=`. -/
def readName : Chars → Option (Chars × Chars)
  | [] => none
  | '\\' :: [] => none
  | '\\' :: next :: rest => (readName rest).map fun read => (next :: read.1, read.2)
  | '"' :: '=' :: after => some ([], trimmed after)
  | '"' :: _ => none
  | other :: rest => (readName rest).map fun read => (other :: read.1, read.2)

/-- `"Name"=value` → (`Name`, `value`). -/
def splitValue : Chars → Option (Chars × Chars)
  | '"' :: rest => readName rest
  | _ => none

/-- The rest of a quoted string after its opening quote, unescaped. -/
def unquote : Chars → Option Chars
  | [] => none
  | '\\' :: [] => none
  | '\\' :: next :: rest => (unquote rest).map (next :: ·)
  | '"' :: _ => some []
  | other :: rest => (unquote rest).map (other :: ·)

def stripPlus : Chars → Chars
  | '+' :: rest => rest
  | rest => rest

/-- `from_str_radix` with 16, to an unsigned integer of so many bits. -/
def fromHex (bits : ℕ) (text : Chars) : Option ℕ :=
  if stripPlus text = [] then none else (hexValue (stripPlus text)).filter (· < 2 ^ bits)

structure RegSession where
  name : Chars
  values : Dictionary Chars Chars
  source : Source

structure Scan where
  sessions : List RegSession
  current : Option ℕ
  /-- The value on the last line goes on in this one. -/
  continued : Bool

def RegSession.set (session : RegSession) (name value : Chars) : RegSession :=
  { session with values := session.values.set name value }

def Scan.insert (scan : Scan) (index : ℕ) (name : Chars) : Option Chars → Scan
  | some parsed => { scan with sessions := scan.sessions.modify index (·.set name parsed) }
  | none => scan

/-- A line of a section that is a session's. -/
def Scan.value (scan : Scan) (index : ℕ) (line : Chars) : Scan :=
  match splitValue line with
  | none => { scan with continued := endsWith '\\' line }
  | some (name, value) =>
    if value.head? = some '"' then scan.insert index name (unquote (value.drop 1))
    else if "dword:".toList <+: value then
      scan.insert index name ((fromHex 32 (trimmed (value.drop 6))).map fun n => (toString n).toList)
    else { scan with continued := endsWith '\\' value }

def Scan.line (scan : Scan) (raw : Chars) : Scan :=
  let line := trimmed raw
  -- A hex value that runs over several lines ends each with a backslash.
  if scan.continued then { scan with continued := endsWith '\\' line }
  else if line.head? = some '[' ∧ endsWith ']' line then
    match sessionOf (line.drop 1).dropLast with
    | some (name, source) =>
      { scan with sessions := scan.sessions ++ [⟨name, .empty, source⟩], current := some scan.sessions.length }
    | none => { scan with current := none }
  else
    match scan.current with
    | some index => scan.value index line
    | none => scan

def parseReg (text : Chars) : List RegSession := ((lines text).foldl Scan.line ⟨[], none, false⟩).sessions

/-! ### The name of a session -/

/-- A percent sign and two digits. A byte outside ASCII is no digit, whatever character it is read as. -/
def percentByte (b high low : UInt8) : Option UInt8 :=
  if b = 37 then (fromHex 8 [Char.ofNat high.toNat, Char.ofNat low.toNat]).map UInt8.ofNat else none

def decodeBytes : List UInt8 → List UInt8
  | [] => []
  | b :: high :: low :: more =>
    match percentByte b high low with
    | some byte => byte :: decodeBytes more
    | none => b :: decodeBytes (high :: low :: more)
  | b :: rest => b :: decodeBytes rest

/-- `My%20Server` → `My Server`. -/
def decodeSessionName (encoded : Chars) : Chars := Utf8.decodeLossy (decodeBytes (Utf8.encode encoded))

end UwuSsh.SessionFiles

import Mathlib.Data.List.Sort
import UwuSsh.Lib.Text
import UwuSsh.Proto.Entities

/-!
The user's keyboard shortcuts. A keymap that arrives by sync is held to what the
form accepts: a binding it would refuse and a text under an id that is not a UUID
as this build writes it are left out, labels are cut, and beyond the limits the
first texts by position and the first bindings by action id stay.
-/
namespace UwuSsh

open Text

/-- `Uuid::to_string`: lower case, with hyphens. -/
def uuidText (id : Uuid) : String :=
  let digits := hexChars 32 id.toNat
  String.ofList (digits.take 8 ++ '-' :: (digits.drop 8).take 4 ++ '-' :: (digits.drop 12).take 4 ++
    '-' :: (digits.drop 16).take 4 ++ '-' :: digits.drop 20)

def parseHyphenated (cs : List Char) : Option Uuid :=
  if cs.length = 36 ∧ cs[8]? = some '-' ∧ cs[13]? = some '-' ∧ cs[18]? = some '-' ∧
      cs[23]? = some '-' then
    (hexValue (cs.take 8 ++ (cs.drop 9).take 4 ++ (cs.drop 14).take 4 ++ (cs.drop 19).take 4 ++
      cs.drop 24)).map (BitVec.ofNat 128)
  else none

/-- `Uuid::parse_str`: hyphenated, plain, in braces or as a URN. -/
def parseUuid (s : String) : Option Uuid :=
  let cs := s.toList
  if cs.length = 32 then (hexValue cs).map (BitVec.ofNat 128)
  else if cs.length = 36 then parseHyphenated cs
  else if cs.length = 38 ∧ cs.head? = some '{' ∧ cs.getLast? = some '}' then
    parseHyphenated ((cs.drop 1).take 36)
  else if cs.length = 45 ∧ cs.take 9 = "urn:uuid:".toList then parseHyphenated (cs.drop 9)
  else none

def maxActions : ℕ := 300
def maxActionChars : ℕ := 80
def maxChords : ℕ := 8
def maxCodeChars : ℕ := 32
def maxTexts : ℕ := 100
def maxLabelChars : ℕ := 100

def validAction (id : String) : Bool :=
  1 ≤ id.utf8ByteSize && id.utf8ByteSize ≤ maxActionChars &&
    id.toList.all fun c => isAsciiLower c || isAsciiDigit c || c == ':' || c == '_' || c == '-'

def validCode (code : String) : Bool :=
  1 ≤ code.utf8ByteSize && code.utf8ByteSize ≤ maxCodeChars && code.toList.all isAsciiAlphanumeric

/-- What keeps one binding out of a keymap: the field and the problem. -/
def bindingProblem (action : String) (chords : List ChordPayload) : Option (String × String) :=
  if !validAction action then some ("action", "invalid")
  else if chords.length > maxChords then some ("chords", "too-many")
  else if !chords.all (fun chord => validCode chord.code) then some ("code", "invalid")
  else none

/-- What keeps a text's label, already trimmed, out of a keymap. -/
def labelProblem (label : String) : Option (String × String) :=
  if label.toList.length > maxLabelChars then some ("label", "too-long")
  else if label.toList.any isControl then some ("label", "invalid")
  else none

/-- The text a `text:` action is for; `some none` is one whose id does not read. -/
def textOfAction (action : String) : Option (Option Uuid) :=
  (stripPrefix "text:" action).map parseUuid

def bindingHasItsText (action : String) (texts : List (String × KeymapTextPayload)) : Bool :=
  match textOfAction action with
  | none => true
  | some (some text) => texts.any fun t => t.1 == uuidText text
  | some none => false

def sanitiseLabel (label : String) : String :=
  let trimmed := trim label
  if trimmed.utf8ByteSize ≠ label.utf8ByteSize ∨ (labelProblem trimmed).isSome then
    let kept := trim (String.ofList (label.toList.filter fun c => !isControl c))
    String.ofList (trimEnd (kept.toList.take maxLabelChars))
  else label

/-- A keymap that arrived by sync, cut down to what the form would have written. -/
def sanitiseSynced (keymap : KeymapPayload) : KeymapPayload :=
  let canonical := keymap.texts.filter fun t => (parseUuid t.1).any fun id => uuidText id == t.1
  let order := (canonical.map fun t => (t.2.position, t.1)).insertionSort fun a b =>
    a.1 < b.1 ∨ (a.1 = b.1 ∧ a.2 ≤ b.2)
  let gone := (order.drop maxTexts).map (·.2)
  let kept := canonical.filter fun t => !gone.contains t.1
  let texts := kept.map fun t => (t.1, { t.2 with label := sanitiseLabel t.2.label })
  let bindings := keymap.bindings.filter fun b =>
    (bindingProblem b.1 b.2).isNone && bindingHasItsText b.1 texts
  { keymap with texts, bindings := bindings.take maxActions }

/-- The text a keymap is taken in as: one that needed nothing left out is kept as it came. -/
def KeymapBody.taken (arrived : KeymapBody) : KeymapBody :=
  let keymap := sanitiseSynced arrived.read
  if keymap = arrived.read then arrived else keymap.written

end UwuSsh

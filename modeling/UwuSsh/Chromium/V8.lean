import UwuSsh.Lib.Attempt
import UwuSsh.Lib.Text
import UwuSsh.Lib.Utf8
import UwuSsh.Chromium.Table

/-!
V8's structured-clone format, the way values are stored in an IndexedDB: tagged values, objects numbered in
the order they begin, references back to those that are complete. The reader counts how deep it is and how
many values it has made, each reference at its full size. Beside what the code keeps, the model notes how
deep the values reach that were put in without being read, and how many nodes were held at one time.
-/
namespace UwuSsh.Chromium.V8

open Attempt

inductive Value
  | undefined
  | null
  | bool (value : Bool)
  | number (value : Float)
  | bigInt (negative : Bool) (digits : List UInt8)
  | string (text : String)
  | date (millis : Float)
  | regExp (pattern : String) (flags : ℕ)
  | bytes (bytes : List UInt8)
  | array (items : List Value)
  | object (properties : List (String × Value))
  | map (entries : List (Value × Value))
  | set (items : List Value)

inductive V8Error
  | truncated
  | unsupportedTag (tag : UInt8)
  | tooDeep
  | malformed (what : String)
  /-- A loop had not ended after the turns it was given. -/
  | unfinished
deriving DecidableEq

def versionTag : UInt8 := 0xff

def paddingTag : UInt8 := 0

def verifyObjectCount : UInt8 := 63

def endObject : UInt8 := 123

def endSparseArray : UInt8 := 64

def endDenseArray : UInt8 := 36

def endMap : UInt8 := 58

def endSet : UInt8 := 44

def arrayBufferView : UInt8 := 86

inductive StringTag
  | utf8
  | oneByte
  | twoByte

/-- The tags that a value may begin with. -/
inductive Tag
  | undefined
  | null
  | bool (value : Bool)
  | int32
  | uint32
  | double
  | bigInt
  | string (kind : StringTag)
  | objectReference
  | beginObject
  | beginSparseArray
  | beginDenseArray
  | date
  | boolObject (value : Bool)
  | numberObject
  | bigIntObject
  | stringObject
  | regExp
  | beginMap
  | beginSet
  | arrayBuffer (resizable : Bool)

def stringTag (byte : UInt8) : Option StringTag :=
  if byte = 83 then some .utf8
  else if byte = 34 then some .oneByte
  else if byte = 99 then some .twoByte
  else none

def tagOf (byte : UInt8) : Option Tag :=
  if byte = 95 ∨ byte = 45 then some .undefined
  else if byte = 48 then some .null
  else if byte = 84 then some (.bool true)
  else if byte = 70 then some (.bool false)
  else if byte = 73 then some .int32
  else if byte = 85 then some .uint32
  else if byte = 78 then some .double
  else if byte = 90 then some .bigInt
  else if byte = 94 then some .objectReference
  else if byte = 111 then some .beginObject
  else if byte = 97 then some .beginSparseArray
  else if byte = 65 then some .beginDenseArray
  else if byte = 68 then some .date
  else if byte = 121 then some (.boolObject true)
  else if byte = 120 then some (.boolObject false)
  else if byte = 110 then some .numberObject
  else if byte = 122 then some .bigIntObject
  else if byte = 115 then some .stringObject
  else if byte = 82 then some .regExp
  else if byte = 59 then some .beginMap
  else if byte = 39 then some .beginSet
  else if byte = 66 then some (.arrayBuffer false)
  else if byte = 126 then some (.arrayBuffer true)
  else (stringTag byte).map .string

def maxDepth : ℕ := 128

def maxSparseLen : ℕ := 2 ^ 16

def maxNodes : ℕ := 200000

mutual

/-- How many values stand one inside the other. -/
def Value.depth : Value → ℕ
  | .array items => depths items + 1
  | .object properties => depthsOf properties + 1
  | .map entries => depthsIn entries + 1
  | .set items => depths items + 1
  | _ => 1

def depths : List Value → ℕ
  | [] => 0
  | item :: items => max item.depth (depths items)

def depthsOf : List (String × Value) → ℕ
  | [] => 0
  | (_, value) :: properties => max value.depth (depthsOf properties)

def depthsIn : List (Value × Value) → ℕ
  | [] => 0
  | (key, value) :: entries => max (max key.depth value.depth) (depthsIn entries)

end

mutual

/-- How many values a value is made of, itself one of them. -/
def Value.nodes : Value → ℕ
  | .array items => count items + 1
  | .object properties => countOf properties + 1
  | .map entries => countIn entries + 1
  | .set items => count items + 1
  | _ => 1

def count : List Value → ℕ
  | [] => 0
  | item :: items => item.nodes + count items

def countOf : List (String × Value) → ℕ
  | [] => 0
  | (_, value) :: properties => value.nodes + countOf properties

def countIn : List (Value × Value) → ℕ
  | [] => 0
  | (key, value) :: entries => key.nodes + value.nodes + countIn entries

end

/-- A value that can be referenced, with how many values it expands to. -/
structure Object where
  value : Value
  weight : ℕ

/-- A value as it is read. `reaches` is the model's own: how deep each of its parts goes that was put in
without being read, counted from the outermost value. -/
structure Part where
  value : Value
  reaches : List ℕ

def Part.leaf (value : Value) : Part := { value, reaches := [] }

def Part.array (items : List Part) : Part :=
  { value := .array (items.map Part.value), reaches := items.flatMap Part.reaches }

def Part.object (properties : List (String × Part)) : Part :=
  { value := .object (properties.map fun p => (p.1, p.2.value)), reaches := properties.flatMap fun p => p.2.reaches }

def Part.map (entries : List (Part × Part)) : Part :=
  { value := .map (entries.map fun e => (e.1.value, e.2.value)),
    reaches := entries.flatMap fun e => e.1.reaches ++ e.2.reaches }

def Part.set (items : List Part) : Part :=
  { value := .set (items.map Part.value), reaches := items.flatMap Part.reaches }

structure Reader where
  data : List UInt8
  pos : ℕ
  version : ℕ
  /-- Objects by their ids; `none` while one is still being read. -/
  objects : List (Option Object)
  depth : ℕ
  nodes : ℕ
  /-- For each object id, the node count when it began. -/
  starts : List ℕ
  /-- The model's own: the nodes of the unfinished values around what is being read. -/
  around : ℕ
  /-- The model's own: the most nodes that a value, finished or not, has had so far. -/
  peak : ℕ

abbrev Read := Prog Reader V8Error

def malformed (what : String) : Read α := throw (.malformed what)

def byte : Read UInt8 :=
  attempt .truncated fun s => s.data[s.pos]?.map fun byte => (byte, { s with pos := s.pos + 1 })

/-- The first byte that is no padding, and where it ends. -/
def tagFrom : List UInt8 → ℕ → Option (UInt8 × ℕ)
  | [], _ => none
  | byte :: rest, pos => if byte = paddingTag then tagFrom rest (pos + 1) else some (byte, pos + 1)

def tag : Read UInt8 :=
  attempt .truncated fun s => (tagFrom (s.data.drop s.pos) s.pos).map fun r => (r.1, { s with pos := r.2 })

def peekTag : Read UInt8 :=
  attempt .truncated fun s => (tagFrom (s.data.drop s.pos) s.pos).map fun r => (r.1, s)

def varint : Read ℕ :=
  attempt .truncated fun s => (Chromium.varint s.data s.pos).map fun r => (r.1, { s with pos := r.2 })

/-- A number that only stands there in some cases. -/
def varintIf (c : Prop) [Decidable c] : Read ℕ := if c then varint else pure 0

/-- A length that the bytes left could hold. -/
def length : Read ℕ := do
  let len ← varint
  let left ← look fun s => s.data.length - s.pos
  if left < len then throw .truncated else pure len

def bytes (len : ℕ) : Read (List UInt8) :=
  attempt .truncated fun s =>
    if s.pos + len ≤ s.data.length then some ((s.data.drop s.pos).take len, { s with pos := s.pos + len }) else none

def double : Read Float := do
  let raw ← bytes 8
  pure (Float.ofBits (UInt64.ofNat (ofLe raw)))

def reserveId : Read ℕ := do
  let id ← look fun s => s.objects.length
  alter fun s => { s with objects := s.objects ++ [none], starts := s.starts ++ [s.nodes] }
  pure id

def remember (id : ℕ) (part : Part) : Read Part := do
  alter fun s =>
    let weight := max (s.nodes - s.starts.getD id 0) 1
    { s with objects := s.objects.set id (some { value := part.value, weight }) }
  pure part

def countNodes (nodes : ℕ) : Read Unit := do
  alter fun s => { s with nodes := saturated (s.nodes + nodes) }
  let total ← look Reader.nodes
  if maxNodes < total then malformed "the value expands too far" else pure ()

/-- A value of so many nodes is held, within what is unfinished around it. -/
def hold (nodes : ℕ) : Read Unit := alter fun s => { s with peak := max s.peak (s.around + nodes) }

/-- What is read while a value that has so many nodes so far is unfinished. -/
def within (nodes : ℕ) (prog : Read α) : Read α := do
  alter fun s => { s with around := s.around + nodes }
  let a ← prog
  alter fun s => { s with around := s.around - nodes }
  pure a

/-- `while self.peek_tag()? != end`; each turn reads a byte or more. -/
def untilTag (stop : UInt8) (body : α → Read α) (a : α) : Read α := do
  let len ← look fun s => s.data.length
  untilStop (fun _ => do
    let next ← peekTag
    pure (next == stop)) body .unfinished (len + 1) a

/-- `(raw >> 1) as i32 ^ -((raw & 1) as i32)` -/
def zigzag (raw : ℕ) : ℤ := if raw % 2 = 1 then -(raw / 2 : ℕ) - 1 else (raw / 2 : ℕ)

def bigint : Read Value := do
  let bitfield ← varint
  let digits ← bytes (bitfield / 2)
  pure (.bigInt (bitfield % 2 == 1) digits)

/-- `u16::from_le_bytes` of each two bytes; none for an odd one left over. -/
def units : List UInt8 → Option (List ℕ)
  | [] => some []
  | [_] => none
  | low :: high :: rest => (units rest).map fun units => (low.toNat + 256 * high.toNat) :: units

/-- `String::from_utf16_lossy`. -/
def decodeUtf16Lossy : List ℕ → List Char
  | [] => []
  | [unit] => [if 0xD800 ≤ unit ∧ unit < 0xE000 then Utf8.replacement else Char.ofNat unit]
  | unit :: next :: rest =>
    if 0xD800 ≤ unit ∧ unit < 0xDC00 ∧ 0xDC00 ≤ next ∧ next < 0xE000 then
      Char.ofNat (0x10000 + (unit - 0xD800) * 0x400 + (next - 0xDC00)) :: decodeUtf16Lossy rest
    else (if 0xD800 ≤ unit ∧ unit < 0xE000 then Utf8.replacement else Char.ofNat unit) :: decodeUtf16Lossy (next :: rest)

def stringBody (kind : StringTag) : Read String := do
  let len ← varint
  let raw ← bytes len
  match kind with
  | .oneByte => pure (String.ofList (raw.map fun b => Char.ofNat b.toNat))
  | .twoByte =>
    match units raw with
    | none => malformed "odd two-byte string"
    | some units => pure (String.ofList (decodeUtf16Lossy units))
  | .utf8 => pure (String.ofList (Utf8.decodeLossy raw))

/-- A string wherever the format requires one, such as a regexp's pattern. -/
def string : Read String := do
  let next ← tag
  match stringTag next with
  | some kind => stringBody kind
  | none => malformed "expected a string"

/-- `fract` -/
def fract (n : Float) : Float := n - (if n < 0 then n.ceil else n.floor)

variable (display : Float → String)

/-- The name that a value stands for as a property key. -/
def keyOf : Value → Option String
  | .string text => some text
  | .number n => some (if fract n == 0 && n.abs < 9.0e15 then toString n.toInt64.toInt else display n)
  | _ => none

/-- Property names are strings, except integer-like ones, which V8 writes as numbers. -/
def propertyKey (value : Read Part) : Read String := do
  let key ← value
  match keyOf display key.value with
  | some text => pure text
  | none => malformed "property key is not a string or number"

/-- A copy of an object that is complete. -/
def reference : Read Part := do
  let id ← varint
  let object ← look fun s => s.objects[id]?
  match object with
  | some (some object) => do
    countNodes object.weight
    let depth ← look Reader.depth
    pure { value := object.value, reaches := [depth - 1 + object.value.depth] }
  | some none => malformed "cyclic reference"
  | none => malformed "reference to an unknown object"

def object (value : Read Part) : Read Part := do
  let id ← reserveId
  let properties ← untilTag endObject (fun properties => within (Part.object properties).value.nodes do
    let key ← propertyKey display value
    let part ← value
    pure (properties ++ [(key, part)])) []
  let _ ← tag
  let _ ← varint
  remember id (.object properties)

def denseArray (value : Read Part) : Read Part := do
  let id ← reserveId
  let len ← length
  let items ← times (fun items => within (Part.array items).value.nodes do
    let part ← value
    pure (items ++ [part])) len []
  -- Named properties on an array are read past.
  let _ ← untilTag endDenseArray (fun _ => within (Part.array items).value.nodes do
    let _ ← propertyKey display value
    let _ ← value
    pure ()) ()
  let _ ← tag
  let _ ← varint
  let _ ← varint
  remember id (.array items)

def sparseArray (value : Read Part) : Read Part := do
  let id ← reserveId
  let len ← varint
  if maxSparseLen < len then malformed "sparse array too long" else
  countNodes len
  let depth ← look Reader.depth
  let holes := List.replicate len { value := .undefined, reaches := [depth + 1] }
  hold (Part.array holes).value.nodes
  let items ← untilTag endSparseArray (fun items => within (Part.array items).value.nodes do
    let key ← propertyKey display value
    let part ← value
    match Text.parseUnsigned 64 key.toList with
    | some i => pure (items.set i part)
    | none => pure items) holes
  let _ ← tag
  let _ ← varint
  let _ ← varint
  remember id (.array items)

def map (value : Read Part) : Read Part := do
  let id ← reserveId
  let entries ← untilTag endMap (fun entries => within (Part.map entries).value.nodes do
    let key ← value
    let part ← within key.value.nodes value
    pure (entries ++ [(key, part)])) []
  let _ ← tag
  let _ ← varint
  remember id (.map entries)

def set (value : Read Part) : Read Part := do
  let id ← reserveId
  let items ← untilTag endSet (fun items => within (Part.set items).value.nodes do
    let part ← value
    pure (items ++ [part])) []
  let _ ← tag
  let _ ← varint
  remember id (.set items)

/-- A typed array or `DataView` over the buffer just read. -/
def view (buffer : List UInt8) : Read Part := do
  let id ← reserveId
  let _ ← byte
  let offset ← varint
  let len ← varint
  let version ← look Reader.version
  let _ ← varintIf (14 ≤ version)
  if offset + len ≤ buffer.length then remember id (.leaf (.bytes ((buffer.drop offset).take len)))
  else malformed "view outside its buffer"

def arrayBuffer (resizable : Bool) : Read Part := do
  let id ← reserveId
  let len ← length
  let _ ← varintIf resizable
  let buffer ← bytes len
  let _ ← remember id (.leaf (.bytes buffer))
  let next ← look fun s => (tagFrom (s.data.drop s.pos) s.pos).map Prod.fst
  if next = some arrayBufferView then do
    let _ ← tag
    view buffer
  else pure (.leaf (.bytes buffer))

/-- An object that is one value read by `body`. -/
def boxed (body : Read Value) : Read Part := do
  let id ← reserveId
  let value ← body
  remember id (.leaf value)

/-- The first tag that is no object count. -/
def valueTag : Read UInt8 := do
  let first ← tag
  let len ← look fun s => s.data.length
  untilStop (fun next => pure (next != verifyObjectCount)) (fun _ => do
    let _ ← varint
    tag) .unfinished (len + 1) first

def valueInner (value : Read Part) : Read Part := do
  let first ← valueTag
  match tagOf first with
  | none => throw (.unsupportedTag first)
  | some .undefined => pure (.leaf .undefined)
  | some .null => pure (.leaf .null)
  | some (.bool b) => pure (.leaf (.bool b))
  | some .int32 => do
    let raw ← varint
    pure (.leaf (.number (Float.ofInt (zigzag (raw % 2 ^ 32)))))
  | some .uint32 => do
    let raw ← varint
    pure (.leaf (.number (Float.ofNat (raw % 2 ^ 32))))
  | some .double => do
    let n ← double
    pure (.leaf (.number n))
  | some .bigInt => do
    let n ← bigint
    pure (.leaf n)
  | some (.string kind) => do
    let s ← stringBody kind
    pure (.leaf (.string s))
  | some .objectReference => reference
  | some .beginObject => object display value
  | some .beginDenseArray => denseArray display value
  | some .beginSparseArray => sparseArray display value
  | some .date => boxed do
    let millis ← double
    pure (.date millis)
  | some (.boolObject b) => boxed (pure (.bool b))
  | some .numberObject => boxed do
    let n ← double
    pure (.number n)
  | some .bigIntObject => boxed bigint
  | some .stringObject => boxed do
    let s ← string
    pure (.string s)
  | some .regExp => boxed do
    let pattern ← string
    let flags ← varint
    pure (.regExp pattern flags)
  | some .beginMap => map value
  | some .beginSet => set value
  | some (.arrayBuffer resizable) => arrayBuffer resizable

/-- What is read one level deeper. -/
def deeper (prog : Read α) : Read α := do
  alter fun s => { s with depth := s.depth + 1 }
  let a ← prog
  alter fun s => { s with depth := s.depth - 1 }
  pure a

/-- `levels` is one more than may still be begun. -/
def value : ℕ → Read Part
  | 0 => throw .tooDeep
  | levels + 1 => do
    let depth ← look Reader.depth
    if maxDepth ≤ depth then throw .tooDeep
    else deeper do
      countNodes 1
      let part ← valueInner display (value levels)
      hold part.value.nodes
      pure part

def start (data : List UInt8) : Reader where
  data
  pos := 0
  version := 0
  objects := []
  depth := 0
  nodes := 0
  starts := []
  around := 0
  peak := 0

def deserializeParts : Read Part := do
  let first ← tag
  if first ≠ versionTag then malformed "no version header" else
  let version ← varint
  alter fun s => { s with version }
  value display (maxDepth + 1)

/-- How reading ends, with the reader as it is then. -/
def read (data : List UInt8) : Except V8Error Part × Reader := (deserializeParts display).run (start data)

def deserialize (data : List UInt8) : Except V8Error Value := (read display data).1.map Part.value

end UwuSsh.Chromium.V8

import UwuSsh.Lib.Radix
import UwuSsh.Lib.Sha256

/-!
The account key as it is written on paper: its 128 bits as symbols of Crockford's alphabet, two more to catch a
typo, in groups of seven. Reading it back takes either case, spaces and dashes, and the letters that people
write for one and zero.
-/
namespace UwuSsh.AccountKey

/-- Sixteen bytes. -/
structure Key where
  bytes : List UInt8
  length_eq : bytes.length = 16

/-- Crockford's base32. -/
def alphabet : List UInt8 := [
  48, 49, 50, 51, 52, 53, 54, 55, 56, 57, 65, 66, 67, 68, 69, 70, 71, 72, 74, 75, 77, 78, 80, 81, 82, 83, 84, 86, 87,
  88, 89, 90]

example : alphabet = "0123456789ABCDEFGHJKMNPQRSTVWXYZ".toUTF8.toList := by decide +kernel

def keyChars : ℕ := 26

def checkChars : ℕ := 2

def group : ℕ := 7

/-- The registers are `u16`. -/
def registerBits : ℕ := 16

/-- `while bits >= 5`: the symbols that are in the register, and the bits left. -/
def drain (accumulator : ℕ) : ℕ → ℕ → List ℕ × ℕ
  | turns + 1, bits =>
    if 5 ≤ bits then
      let rest := drain accumulator turns (bits - 5)
      (((accumulator >>> (bits - 5)) &&& 31) :: rest.1, rest.2)
    else ([], bits)
  | 0, bits => ([], bits)

structure Encoder where
  symbols : List ℕ
  accumulator : ℕ
  bits : ℕ

def Encoder.push (e : Encoder) (byte : UInt8) : Encoder :=
  let accumulator := Radix.shiftIn registerBits 8 e.accumulator byte.toNat
  let drained := drain accumulator (e.bits + 8) (e.bits + 8)
  { symbols := e.symbols ++ drained.1, accumulator, bits := drained.2 }

/-- 128 bits as 26 five-bit symbols, the last one carrying two spare zeroes. -/
def encode (bytes : List UInt8) : List ℕ :=
  let e := bytes.foldl Encoder.push { symbols := [], accumulator := 0, bits := 0 }
  if 0 < e.bits then e.symbols ++ [((e.accumulator <<< (5 - e.bits)) % 2 ^ registerBits) &&& 31] else e.symbols

structure Decoder where
  bytes : List UInt8
  accumulator : ℕ
  bits : ℕ

def Decoder.push (d : Decoder) (index : ℕ) : Decoder :=
  let accumulator := Radix.shiftIn registerBits 5 d.accumulator index
  let bits := d.bits + 5
  if 8 ≤ bits then
    { bytes := d.bytes ++ [UInt8.ofNat (accumulator >>> (bits - 8))], accumulator, bits := bits - 8 }
  else { d with accumulator, bits }

/-- The other way: 26 alphabet indices back into 16 bytes. -/
def decode (indices : List ℕ) : Option Key :=
  let d := indices.foldl Decoder.push { bytes := [], accumulator := 0, bits := 0 }
  if h : d.bytes.length = 16 then some ⟨d.bytes, h⟩ else none

/-- Ten bits over the key. -/
def checksum (bytes : List UInt8) : List ℕ :=
  let digest := Sha256.digest ("uwussh/account-key/check/v1".toUTF8.toList ++ bytes)
  [(digest.getD 0 0).toNat &&& 31, (digest.getD 1 0).toNat &&& 31]

def letter (symbol : ℕ) : UInt8 := alphabet.getD symbol 0

def symbolsOf (key : Key) : List ℕ := encode key.bytes ++ checksum key.bytes

/-- Four groups of seven characters. -/
def toCode (key : Key) : List UInt8 :=
  (symbolsOf key).zipIdx.flatMap fun entry =>
    (if 0 < entry.2 ∧ entry.2 % group = 0 then [45] else []) ++ [letter entry.1]

/-- Dash, space, tab, line ends and underscore. -/
def isSeparator (byte : UInt8) : Bool :=
  byte == 45 || byte == 32 || byte == 9 || byte == 13 || byte == 10 || byte == 95

def toAsciiUppercase (byte : UInt8) : UInt8 := if 97 ≤ byte ∧ byte ≤ 122 then byte - 32 else byte

/-- One symbol as the alphabet's index, taking the letters people substitute. -/
def normalise (byte : UInt8) : Option ℕ :=
  let upper := toAsciiUppercase byte
  let upper := if upper = 73 ∨ upper = 76 then 49 else if upper = 79 then 48 else upper
  alphabet.findIdx? (· == upper)

/-- The alphabet's indices in a text, separators left out. -/
def readSymbols (code : List UInt8) : Option (List ℕ) := (code.filter fun byte => !isSeparator byte).mapM normalise

def fromCode (code : List UInt8) : Except String Key :=
  match readSymbols code with
  | none => .error "that is not an account key"
  | some symbols =>
    if symbols.length ≠ keyChars + checkChars then
      .error ("an account key is " ++ toString (keyChars + checkChars) ++ " characters, that one is " ++
        toString symbols.length)
    else
      match decode (symbols.take keyChars) with
      | none => .error "that is not an account key"
      | some key =>
        if symbols.drop keyChars ≠ checksum key.bytes then .error "that account key has a typo in it somewhere"
        else .ok key

end UwuSsh.AccountKey

import UwuSsh.Lib.BigEndian
import UwuSsh.Lib.Reader
import UwuSsh.Lib.Text
import UwuSsh.Proto.Base64

/-!
Key pairs as PuTTY's files, versions 3 and 2: a header, the public key in base64, the private key in base64, and
a MAC over both and the header. With a passphrase the private part is padded to whole blocks and encrypted after
the MAC was made. The text is kept as its bytes; hashes, Argon2 and the cipher are somebody else's. At the end
stands what reads such a file by the layout alone.
-/
namespace UwuSsh.Ppk

/-! ### Keys -/

/-- A number that is not negative as SSH writes it: no leading zeros, and one zero byte in front if the top bit
is set. -/
def isMpint : List UInt8 → Bool
  | [] => true
  | first :: rest => first < 0x80 && (first != 0 || rest.head?.any (0x80 ≤ ·))

/-- A number of an RSA key, no longer than its encoding takes. -/
structure Mpint where
  bytes : List UInt8
  small : bytes.length ≤ 0xFFFFF
  shortest : isMpint bytes = true

inductive Curve
  | nistP256 | nistP384 | nistP521
  deriving DecidableEq

def Curve.size : Curve → ℕ
  | .nistP256 => 32
  | .nistP384 => 48
  | .nistP521 => 66

inductive KeypairData
  | rsa (d p q iqmp : Mpint)
  | ed25519 (secret : List UInt8) (length_eq : secret.length = 32)
  | ecdsa (curve : Curve) (scalar : List UInt8) (length_eq : scalar.length = curve.size)
  /-- A key of another algorithm. -/
  | other (algorithm : String)

def KeypairData.algorithm : KeypairData → String
  | .rsa .. => "ssh-rsa"
  | .ed25519 .. => "ssh-ed25519"
  | .ecdsa .nistP256 .. => "ecdsa-sha2-nistp256"
  | .ecdsa .nistP384 .. => "ecdsa-sha2-nistp384"
  | .ecdsa .nistP521 .. => "ecdsa-sha2-nistp521"
  | .other algorithm => algorithm

def KeypairData.isSupported : KeypairData → Bool
  | .other _ => false
  | _ => true

/-- A private key with its public part, as SSH encodes it. -/
structure PrivateKey where
  data : KeypairData
  publicBlob : List UInt8
  small : publicBlob.length ≤ 0xFFFFFF
  comment : String

inductive KeygenError
  | unsupported (reason : String)
  | random
  | encode

def singleLine (comment : String) : String :=
  String.ofList (comment.toList.map fun c => if Text.isControl c then ' ' else c)

/-- A key that can be written, with a comment of one line. -/
structure KeyPair where
  key : PrivateKey
  supported : key.data.isSupported = true
  oneLine : ∀ c ∈ key.comment.toList, Text.isControl c = false

theorem singleLine_oneLine (comment : String) : ∀ c ∈ (singleLine comment).toList, Text.isControl c = false := by
  intro c hc
  rw [singleLine, String.toList_ofList] at hc
  obtain ⟨d, -, rfl⟩ := List.mem_map.mp hc
  split
  · decide
  · rename_i hd
    simpa using hd

def KeyPair.new (key : PrivateKey) : Except KeygenError KeyPair :=
  if h : key.data.isSupported = true then
    .ok { key := { key with comment := singleLine key.comment }, supported := h, oneLine := singleLine_oneLine _ }
  else .error (.unsupported (key.data.algorithm ++ " keys are not supported"))

def KeyPair.setComment (pair : KeyPair) (comment : String) : KeyPair where
  key := { pair.key with comment := singleLine comment }
  supported := pair.supported
  oneLine := singleLine_oneLine comment

/-! ### Writing -/

def utf8 (text : String) : List UInt8 := text.toList.flatMap String.utf8EncodeChar

inductive Version
  | v2 | v3
  deriving DecidableEq

def argon2Memory : ℕ := 8192
def argon2Passes : ℕ := 13
def argon2Parallelism : ℕ := 1
def aesBlock : ℕ := 16
def lineWidth : ℕ := 64

structure Secrets where
  cipherKey : List UInt8
  iv : List UInt8
  macKey : List UInt8

/-- Hashes, key derivation and cipher. Argon2 takes its memory, passes and parallelism, a passphrase and a salt. -/
structure Crypto where
  sha1 : List UInt8 → List UInt8
  sha1_length : ∀ text, (sha1 text).length = 20
  hmacSha1 : List UInt8 → List UInt8 → List UInt8
  hmacSha256 : List UInt8 → List UInt8 → List UInt8
  argon2 : ℕ → ℕ → ℕ → List UInt8 → List UInt8 → Option (List UInt8)
  argon2_length : ∀ memory passes parallelism passphrase salt,
    ∀ out ∈ argon2 memory passes parallelism passphrase salt, out.length = 80
  encrypt : List UInt8 → List UInt8 → List UInt8 → List UInt8
  decrypt : List UInt8 → List UInt8 → List UInt8 → List UInt8

/-- What the system gives when it is asked for random bytes, if it does. -/
structure Random where
  salt : Option (Fin 16 → UInt8)
  padding : (n : ℕ) → Option (Fin n → UInt8)

def putString (bytes : List UInt8) : List UInt8 := BigEndian.toBytes 4 bytes.length ++ bytes

/-- No leading zeros, and one zero byte in front if the top bit is set. -/
def putMpint (bigEndian : List UInt8) : List UInt8 :=
  let digits := bigEndian.dropWhile (· == 0)
  let sign : List UInt8 := if digits.head?.any (0x80 ≤ ·) then [0] else []
  BigEndian.toBytes 4 (digits.length + sign.length) ++ sign ++ digits

def hexDigit (n : ℕ) : UInt8 := if n < 10 then UInt8.ofNat (48 + n) else UInt8.ofNat (87 + n)

def hex (bytes : List UInt8) : List UInt8 :=
  bytes.flatMap fun byte => [hexDigit (byte.toNat / 16), hexDigit (byte.toNat % 16)]

def decimal (n : ℕ) : List UInt8 := (Nat.toDigits 10 n).map fun c => UInt8.ofNat c.toNat

/-- One line of the header. -/
def headerLine (label : String) (value : List UInt8) : List UInt8 := utf8 label ++ utf8 ": " ++ value ++ [10]

/-- The lines of a text, in at most so many turns. -/
def cutLines : ℕ → List UInt8 → List UInt8
  | 0, _ => []
  | turns + 1, rest =>
    if rest = [] then []
    else rest.take (min rest.length lineWidth) ++ [10] ++ cutLines turns (rest.drop (min rest.length lineWidth))

def pushBase64Lines (label : String) (bytes : List UInt8) : List UInt8 :=
  let text := SerdeBytesVec.serialize bytes
  headerLine label (decimal ((text.length + (lineWidth - 1)) / lineWidth)) ++ cutLines text.length text

/-- The private half, in PuTTY's layout for each algorithm. -/
def privateBlob : KeypairData → Except KeygenError (List UInt8)
  | .rsa d p q iqmp => .ok ([d, p, q, iqmp].flatMap fun field => putString field.bytes)
  | .ed25519 secret _ => .ok (putString secret)
  | .ecdsa _ scalar _ => .ok (putMpint scalar)
  | .other algorithm => .error (.unsupported (algorithm ++ " keys cannot be written for PuTTY"))

/-- Version 3 pads with random bytes, version 2 with the hash of the blob. -/
def pad (crypto : Crypto) (random : Random) (version : Version) (blob : List UInt8) :
    Except KeygenError (List UInt8) :=
  let missing := (aesBlock - blob.length % aesBlock) % aesBlock
  match version with
  | .v3 =>
    match random.padding missing with
    | none => .error .random
    | some padding => .ok (blob ++ List.ofFn padding)
  | .v2 => .ok (blob ++ (crypto.sha1 blob).take missing)

def v2MacKey (crypto : Crypto) (passphrase : List UInt8) : List UInt8 :=
  crypto.sha1 (utf8 "putty-private-key-file-mac-key" ++ passphrase)

def deriveV3 (crypto : Crypto) (memory passes parallelism : ℕ) (passphrase salt : List UInt8) : Option Secrets :=
  (crypto.argon2 memory passes parallelism passphrase salt).map fun out =>
    { cipherKey := out.take 32, iv := (out.drop 32).take 16, macKey := (out.drop 48).take 32 }

def deriveV2 (crypto : Crypto) (passphrase : List UInt8) : Secrets where
  cipherKey := crypto.sha1 ([0, 0, 0, 0] ++ passphrase) ++ (crypto.sha1 ([0, 0, 0, 1] ++ passphrase)).take 12
  iv := List.replicate 16 0
  macKey := v2MacKey crypto passphrase

/-- How the private part is protected: the name of the encryption, the lines about the key derivation, the keys. -/
structure Protection where
  encryption : List UInt8
  kdfLines : List UInt8
  secrets : Option Secrets

def protection (crypto : Crypto) (random : Random) (version : Version) (passphrase : Option (List UInt8)) :
    Except KeygenError Protection :=
  match passphrase, version with
  | none, _ => .ok { encryption := utf8 "none", kdfLines := [], secrets := none }
  | some passphrase, .v3 =>
    match random.salt with
    | none => .error .random
    | some salt =>
      match deriveV3 crypto argon2Memory argon2Passes argon2Parallelism passphrase (List.ofFn salt) with
      | none => .error .encode
      | some secrets =>
        .ok {
          encryption := utf8 "aes256-cbc"
          kdfLines := headerLine "Key-Derivation" (utf8 "Argon2id") ++ headerLine "Argon2-Memory" (decimal argon2Memory) ++
            headerLine "Argon2-Passes" (decimal argon2Passes) ++
            headerLine "Argon2-Parallelism" (decimal argon2Parallelism) ++ headerLine "Argon2-Salt" (hex (List.ofFn salt))
          secrets := some secrets }
  | some passphrase, .v2 =>
    .ok { encryption := utf8 "aes256-cbc", kdfLines := [], secrets := some (deriveV2 crypto passphrase) }

def macInput (algorithm encryption comment publicBlob privateBlob : List UInt8) : List UInt8 :=
  [algorithm, encryption, comment, publicBlob, privateBlob].flatMap putString

def mac (crypto : Crypto) (version : Version) (secrets : Option Secrets) (input : List UInt8) : List UInt8 :=
  let macKey := match secrets, version with
    | some secrets, _ => secrets.macKey
    | none, .v3 => []
    | none, .v2 => v2MacKey crypto []
  match version with
  | .v3 => crypto.hmacSha256 macKey input
  | .v2 => crypto.hmacSha1 macKey input

/-- What the private part is before it is encrypted, and the input of the MAC over it. -/
structure Sealed where
  protection : Protection
  blob : List UInt8
  macInput : List UInt8

def sealKey (crypto : Crypto) (random : Random) (key : PrivateKey) (version : Version)
    (passphrase : Option (List UInt8)) : Except KeygenError Sealed := do
  let blob ← privateBlob key.data
  let protection ← protection crypto random version passphrase
  let blob ← if protection.secrets.isSome then pad crypto random version blob else pure blob
  pure {
    protection, blob
    macInput := macInput (utf8 key.data.algorithm) protection.encryption (utf8 key.comment) key.publicBlob blob }

def Version.header : Version → String
  | .v3 => "PuTTY-User-Key-File-3"
  | .v2 => "PuTTY-User-Key-File-2"

def encrypted (crypto : Crypto) (blob : List UInt8) : Option Secrets → List UInt8
  | some secrets => crypto.encrypt secrets.cipherKey secrets.iv blob
  | none => blob

def encode (crypto : Crypto) (random : Random) (key : PrivateKey) (version : Version)
    (passphrase : Option (List UInt8)) : Except KeygenError (List UInt8) := do
  let s ← sealKey crypto random key version passphrase
  let written := encrypted crypto s.blob s.protection.secrets
  pure (headerLine version.header (utf8 key.data.algorithm) ++ headerLine "Encryption" s.protection.encryption ++
    headerLine "Comment" (utf8 key.comment) ++ pushBase64Lines "Public-Lines" key.publicBlob ++
    s.protection.kdfLines ++ pushBase64Lines "Private-Lines" written ++
    headerLine "Private-MAC" (hex (mac crypto version s.protection.secrets s.macInput)))

/-- An empty passphrase means none. -/
def KeyPair.encode (pair : KeyPair) (crypto : Crypto) (random : Random) (version : Version)
    (passphrase : Option (List UInt8)) : Except KeygenError (List UInt8) :=
  Ppk.encode crypto random pair.key version (passphrase.filter fun p => !p.isEmpty)

/-! ### Reading by the layout -/

open Reader

def stripStart (start text : List UInt8) : Option (List UInt8) :=
  if start.isPrefixOf text then some (text.drop start.length) else none

/-- The value of a header line. -/
def field (label : String) : Reader (List UInt8) := do
  let line ← upTo 10
  lift (stripStart (utf8 label ++ utf8 ": ") line)

def parseDecimal (text : List UInt8) : Option ℕ :=
  if text ≠ [] ∧ text.all (fun byte => 48 ≤ byte && byte ≤ 57) then
    some (text.foldl (fun n byte => 10 * n + (byte.toNat - 48)) 0)
  else none

def number (label : String) : Reader ℕ := do
  let text ← field label
  lift (parseDecimal text)

def unhexDigit (byte : UInt8) : Option ℕ := (List.range 16).find? fun n => hexDigit n == byte

def unhex : List UInt8 → Option (List UInt8)
  | [] => some []
  | a :: b :: rest => do
    let high ← unhexDigit a
    let low ← unhexDigit b
    let more ← unhex rest
    pure (UInt8.ofNat (high * 16 + low) :: more)
  | [_] => none

/-- As many lines of base64 as the count says. -/
def base64Section (label : String) : Reader (List UInt8) := do
  let count ← number label
  let text ← joined (upTo 10) count
  let bytes := SerdeBytesVec.deserialize text
  check (SerdeBytesVec.serialize bytes == text)
  pure bytes

def sshString : Reader (List UInt8) := do
  let length ← bytes 4
  bytes (BigEndian.ofBytes length)

def mpint : Reader ℕ := do
  let digits ← sshString
  check (isMpint digits)
  pure (BigEndian.ofBytes digits)

/-- The private numbers, in the order the file has them. -/
inductive Numbers
  | rsa (d p q iqmp : ℕ)
  | ed25519 (secret : List UInt8)
  | ecdsa (scalar : ℕ)
  deriving DecidableEq

def numbers (algorithm : List UInt8) : Reader Numbers :=
  if algorithm = utf8 "ssh-rsa" then do
    let d ← mpint
    let p ← mpint
    let q ← mpint
    let iqmp ← mpint
    pure (.rsa d p q iqmp)
  else if algorithm = utf8 "ssh-ed25519" then do
    let secret ← sshString
    pure (.ed25519 secret)
  else if algorithm ∈ [utf8 "ecdsa-sha2-nistp256", utf8 "ecdsa-sha2-nistp384", utf8 "ecdsa-sha2-nistp521"] then do
    let scalar ← mpint
    pure (.ecdsa scalar)
  else lift none

/-- The numbers of a blob, with less than a block of padding behind them. -/
def readNumbers (algorithm blob : List UInt8) : Option Numbers :=
  match (numbers algorithm).run blob with
  | some (result, rest) => if rest.length < aesBlock then some result else none
  | none => none

def heading : Reader (Version × List UInt8) := do
  let line ← upTo 10
  match stripStart (utf8 Version.v3.header ++ utf8 ": ") line, stripStart (utf8 Version.v2.header ++ utf8 ": ") line with
  | some algorithm, _ => pure (.v3, algorithm)
  | none, some algorithm => pure (.v2, algorithm)
  | none, none => lift none

/-- The keys that the passphrase gives, with the parameters the file names. -/
def keyDerivation (crypto : Crypto) (version : Version) (encryption passphrase : List UInt8) :
    Reader (Option Secrets) :=
  if encryption = utf8 "none" then pure none
  else if encryption = utf8 "aes256-cbc" then
    match version with
    | .v2 => pure (some (deriveV2 crypto passphrase))
    | .v3 => do
      let kind ← field "Key-Derivation"
      check (kind == utf8 "Argon2id")
      let memory ← number "Argon2-Memory"
      let passes ← number "Argon2-Passes"
      let parallelism ← number "Argon2-Parallelism"
      let salt ← field "Argon2-Salt"
      let salt ← lift (unhex salt)
      let secrets ← lift (deriveV3 crypto memory passes parallelism passphrase salt)
      pure (some secrets)
  else lift none

def decrypted (crypto : Crypto) (blob : List UInt8) : Option Secrets → List UInt8
  | some secrets => crypto.decrypt secrets.cipherKey secrets.iv blob
  | none => blob

structure File where
  algorithm : List UInt8
  comment : List UInt8
  publicBlob : List UInt8
  numbers : Numbers
  deriving DecidableEq

def file (crypto : Crypto) (passphrase : List UInt8) : Reader File := do
  let (version, algorithm) ← heading
  let encryption ← field "Encryption"
  let comment ← field "Comment"
  let publicBlob ← base64Section "Public-Lines"
  let secrets ← keyDerivation crypto version encryption passphrase
  let written ← base64Section "Private-Lines"
  let code ← field "Private-MAC"
  let blob := decrypted crypto written secrets
  check (hex (mac crypto version secrets (macInput algorithm encryption comment publicBlob blob)) == code)
  let numbers ← lift (readNumbers algorithm blob)
  pure { algorithm, comment, publicBlob, numbers }

/-- The whole text is the file. -/
def read (crypto : Crypto) (passphrase text : List UInt8) : Option File :=
  match (file crypto passphrase).run text with
  | some (result, []) => some result
  | _ => none

end UwuSsh.Ppk

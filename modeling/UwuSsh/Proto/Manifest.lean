import UwuSsh.Lib.BigEndian
import UwuSsh.Proto.Clock
import UwuSsh.Proto.Entities

/-!
What one device holds, as a record of its own: the id and version of every
record the server has confirmed to it. The payload is binary. `decode` accepts
exactly the byte strings `encode` writes for manifests within the entry limit,
and an entry keeps its kind as the raw discriminant, so a kind a newer build
added survives.
-/
namespace UwuSsh

open BigEndian

/-- The most entries one manifest lists. -/
def maxManifestEntries : ℕ := 7000

def manifestMagic : List UInt8 := [85, 87, 77]

def manifestVersion : UInt8 := 1

def headerBytes : ℕ := 29

def entryBytes : ℕ := 34

/-- One record as the publishing device holds it. -/
structure ManifestEntry where
  kind : UInt8
  id : Uuid
  updatedAt : Hlc
  deleted : Bool
deriving DecidableEq, Repr

def ManifestEntry.new (kind : EntityKind) (id : Uuid) (updatedAt : Hlc) (deleted : Bool) :
    ManifestEntry :=
  { kind := UInt8.ofNat kind.discriminant, id, updatedAt, deleted }

/-- The kind, if this build knows it. -/
def ManifestEntry.entityKind (entry : ManifestEntry) : Option EntityKind :=
  EntityKind.fromDiscriminant entry.kind.toNat

/-- Everything one device holds, at one moment. -/
structure Manifest where
  device : UInt32
  createdAt : Hlc
  partialList : Bool
  entries : List ManifestEntry
deriving DecidableEq, Repr

def pushClock (clock : Hlc) : List UInt8 :=
  toBytes 8 clock.wallMs.toNat ++ toBytes 4 clock.counter.toNat ++ toBytes 4 clock.device.toNat

def readClock (bytes : List UInt8) : Hlc :=
  { wallMs := UInt64.ofNat (ofBytes (bytes.take 8))
    counter := UInt32.ofNat (ofBytes ((bytes.drop 8).take 4))
    device := UInt32.ofNat (ofBytes ((bytes.drop 12).take 4)) }

def pushFlag (flag : Bool) : UInt8 := if flag then 1 else 0

def readFlag : UInt8 → Option Bool
  | 0 => some false
  | 1 => some true
  | _ => none

def pushEntry (entry : ManifestEntry) : List UInt8 :=
  entry.kind :: pushFlag entry.deleted ::
    (toBytes 16 entry.id.toNat ++ pushClock entry.updatedAt)

def readEntry : List UInt8 → Option ManifestEntry
  | kind :: flag :: rest => do
      let deleted ← readFlag flag
      some
        { kind
          id := BitVec.ofNat 128 (ofBytes (rest.take 16))
          updatedAt := readClock (rest.drop 16)
          deleted }
  | _ => none

def readEntries : ℕ → List UInt8 → Option (List ManifestEntry)
  | 0, _ => some []
  | count + 1, body => do
      let entry ← readEntry (body.take entryBytes)
      let entries ← readEntries count (body.drop entryBytes)
      some (entry :: entries)

namespace Manifest

def encode (manifest : Manifest) : List UInt8 :=
  manifestMagic ++ manifestVersion :: (toBytes 4 manifest.device.toNat ++
    (pushClock manifest.createdAt ++ pushFlag manifest.partialList ::
      (toBytes 4 manifest.entries.length ++ manifest.entries.flatMap pushEntry)))

/-- `none` for anything that is not exactly a manifest this build can read. -/
def decode (bytes : List UInt8) : Option Manifest :=
  if bytes.length < headerBytes ∨ bytes.take 3 ≠ manifestMagic ∨
      bytes[3]? ≠ some manifestVersion then none
  else do
    let flag ← bytes[24]?
    let isPartial ← readFlag flag
    let count := ofBytes ((bytes.drop 25).take 4)
    let body := bytes.drop headerBytes
    if count > maxManifestEntries ∨ body.length ≠ count * entryBytes then none
    else
      let entries ← readEntries count body
      some
        { device := UInt32.ofNat (ofBytes ((bytes.drop 4).take 4))
          createdAt := readClock ((bytes.drop 8).take 16)
          partialList := isPartial
          entries }

end Manifest

@[simp] theorem length_pushClock (clock : Hlc) : (pushClock clock).length = 16 := by
  simp [pushClock]

@[simp] theorem length_pushEntry (entry : ManifestEntry) :
    (pushEntry entry).length = entryBytes := by
  simp [pushEntry, entryBytes]

@[simp] theorem readFlag_pushFlag (flag : Bool) : readFlag (pushFlag flag) = some flag := by
  cases flag <;> rfl

theorem readClock_pushClock (clock : Hlc) (rest : List UInt8) :
    readClock (pushClock clock ++ rest) = clock := by
  have hwall := ofBytes_toBytes 8 clock.wallMs.toNat_lt
  have hcounter := ofBytes_toBytes 4 clock.counter.toNat_lt
  have hdevice := ofBytes_toBytes 4 clock.device.toNat_lt
  simp [readClock, pushClock, List.drop_append, List.drop_of_length_le, hwall, hcounter, hdevice]

theorem readEntry_pushEntry (entry : ManifestEntry) : readEntry (pushEntry entry) = some entry := by
  have hid : ofBytes (toBytes 16 entry.id.toNat) = entry.id.toNat :=
    ofBytes_toBytes 16 entry.id.isLt
  have hclock := readClock_pushClock entry.updatedAt []
  rw [List.append_nil] at hclock
  simp [readEntry, pushEntry, hid, hclock]

theorem readEntries_pushEntries (entries : List ManifestEntry) :
    readEntries entries.length (entries.flatMap pushEntry) = some entries := by
  induction entries with
  | nil => rfl
  | cons entry entries ih =>
    rw [List.length_cons, readEntries, List.flatMap_cons,
      List.take_left' (length_pushEntry entry), List.drop_left' (length_pushEntry entry),
      readEntry_pushEntry, ih]
    rfl

theorem length_pushEntries (entries : List ManifestEntry) :
    (entries.flatMap pushEntry).length = entries.length * entryBytes := by
  induction entries with
  | nil => rfl
  | cons entry entries ih =>
    rw [List.flatMap_cons, List.length_append, ih, length_pushEntry, List.length_cons]
    ring

theorem Manifest.length_encode (manifest : Manifest) :
    manifest.encode.length = headerBytes + manifest.entries.length * entryBytes := by
  simp only [Manifest.encode, manifestMagic, headerBytes, List.length_append, List.length_cons,
    List.length_nil, length_toBytes, length_pushClock, length_pushEntries]
  omega

/-- A manifest within the entry limit reads back as it was written. -/
theorem Manifest.decode_encode (manifest : Manifest)
    (h : manifest.entries.length ≤ maxManifestEntries) :
    Manifest.decode manifest.encode = some manifest := by
  have hcount : ofBytes (toBytes 4 manifest.entries.length) = manifest.entries.length :=
    ofBytes_toBytes 4 (by unfold maxManifestEntries at h; omega)
  have hdevice := ofBytes_toBytes 4 manifest.device.toNat_lt
  have hclock := readClock_pushClock manifest.createdAt []
  rw [List.append_nil] at hclock
  have hbody : manifest.encode.drop headerBytes = manifest.entries.flatMap pushEntry := by
    simp [encode, manifestMagic, headerBytes, List.drop_append, List.drop_of_length_le]
  have hlen := manifest.length_encode
  have htake : (manifest.encode.drop 25).take 4 = toBytes 4 manifest.entries.length := by
    simp [encode, manifestMagic, List.drop_append, List.drop_of_length_le]
  have hflag : manifest.encode[24]? = some (pushFlag manifest.partialList) := by
    simp [encode, manifestMagic, List.getElem?_append]
  have hheader : ¬ (manifest.encode.length < headerBytes ∨
      manifest.encode.take 3 ≠ manifestMagic ∨ manifest.encode[3]? ≠ some manifestVersion) := by
    simp [encode, manifestMagic, headerBytes]
    omega
  have hread : (manifest.encode.drop 4).take 4 = toBytes 4 manifest.device.toNat := by
    simp [encode, manifestMagic]
  have hmade : (manifest.encode.drop 8).take 16 = pushClock manifest.createdAt := by
    simp [encode, manifestMagic]
  unfold decode
  rw [if_neg hheader, hbody, htake, hcount, hread, hmade, hdevice, hclock, hflag]
  simp [readEntries_pushEntries, h.not_gt]

theorem pushFlag_of_readFlag {byte : UInt8} {flag : Bool} (h : readFlag byte = some flag) :
    pushFlag flag = byte := by
  unfold readFlag at h
  split at h
  · cases h
    rfl
  · cases h
    rfl
  · cases h

/-- A big-endian field reads as the number its bytes write. -/
theorem toBytes_field8 {bytes : List UInt8} (h : bytes.length = 8) :
    toBytes 8 (UInt64.ofNat (ofBytes bytes)).toNat = bytes := by
  have hlt : ofBytes bytes < 2 ^ 64 := by
    have hlt := ofBytes_lt bytes
    rw [h] at hlt
    exact hlt
  rw [UInt64.toNat_ofNat_of_lt' hlt, toBytes_ofBytes_of_length h]

theorem toBytes_field4 {bytes : List UInt8} (h : bytes.length = 4) :
    toBytes 4 (UInt32.ofNat (ofBytes bytes)).toNat = bytes := by
  have hlt : ofBytes bytes < 2 ^ 32 := by
    have hlt := ofBytes_lt bytes
    rw [h] at hlt
    exact hlt
  rw [UInt32.toNat_ofNat_of_lt' hlt, toBytes_ofBytes_of_length h]

theorem toBytes_field16 {bytes : List UInt8} (h : bytes.length = 16) :
    toBytes 16 (BitVec.ofNat 128 (ofBytes bytes)).toNat = bytes := by
  have hlt : ofBytes bytes < 2 ^ 128 := by
    have hlt := ofBytes_lt bytes
    rw [h] at hlt
    exact hlt
  rw [BitVec.toNat_ofNat, Nat.mod_eq_of_lt hlt, toBytes_ofBytes_of_length h]

theorem pushClock_readClock {bytes : List UInt8} (h : bytes.length = 16) :
    pushClock (readClock bytes) = bytes := by
  have hwall : (bytes.take 8).length = 8 := by simp [h]
  have hcounter : ((bytes.drop 8).take 4).length = 4 := by simp [h]
  have hdevice : ((bytes.drop 12).take 4).length = 4 := by simp [h]
  have hlast : (bytes.drop 12).take 4 = bytes.drop 12 := List.take_of_length_le (by simp [h])
  have hmiddle : (bytes.drop 8).take 4 ++ bytes.drop 12 = bytes.drop 8 := by
    have hsplit := List.take_append_drop 4 (bytes.drop 8)
    rwa [List.drop_drop] at hsplit
  unfold pushClock readClock
  rw [toBytes_field8 hwall, toBytes_field4 hcounter, toBytes_field4 hdevice, hlast,
    List.append_assoc, hmiddle, List.take_append_drop]

theorem pushEntry_readEntry {bytes : List UInt8} {entry : ManifestEntry}
    (hlen : bytes.length = entryBytes) (h : readEntry bytes = some entry) :
    pushEntry entry = bytes := by
  unfold readEntry at h
  split at h
  next kind flag rest =>
    have hrest : rest.length = 32 := by simpa [entryBytes] using hlen
    obtain ⟨deleted, hflag, hentry⟩ := Option.bind_eq_some_iff.mp h
    obtain rfl := Option.some.inj hentry
    have hid : (rest.take 16).length = 16 := by simp [hrest]
    have hclock : (rest.drop 16).length = 16 := by simp [hrest]
    unfold pushEntry
    dsimp only
    rw [pushFlag_of_readFlag hflag, toBytes_field16 hid, pushClock_readClock hclock,
      List.take_append_drop]
  next => cases h

theorem pushEntries_readEntries {count : ℕ} {body : List UInt8} {entries : List ManifestEntry}
    (hlen : body.length = count * entryBytes) (h : readEntries count body = some entries) :
    entries.length = count ∧ entries.flatMap pushEntry = body := by
  induction count generalizing body entries with
  | zero =>
    obtain rfl : body = [] := List.length_eq_zero_iff.mp (by omega)
    cases h
    exact ⟨rfl, rfl⟩
  | succ count ih =>
    obtain ⟨entry, hentry, rest, hrest, rfl⟩ : ∃ entry,
        readEntry (body.take entryBytes) = some entry ∧ ∃ rest,
          readEntries count (body.drop entryBytes) = some rest ∧ entry :: rest = entries := by
      simpa [readEntries, Option.bind_eq_some_iff] using h
    have hone : (body.take entryBytes).length = entryBytes := by
      rw [List.length_take, hlen, Nat.succ_mul]
      omega
    have hothers : (body.drop entryBytes).length = count * entryBytes := by
      rw [List.length_drop, hlen, Nat.succ_mul]
      omega
    obtain ⟨hcount, hbody⟩ := ih hothers hrest
    constructor
    · rw [List.length_cons, hcount]
    · rw [List.flatMap_cons, pushEntry_readEntry hone hentry, hbody, List.take_append_drop]

/-- What `decode` has checked of a byte string it accepts. -/
theorem Manifest.decode_eq_some {bytes : List UInt8} {manifest : Manifest}
    (h : Manifest.decode bytes = some manifest) :
    bytes.take 3 = manifestMagic ∧ bytes[3]? = some manifestVersion ∧
      manifest.device = UInt32.ofNat (ofBytes ((bytes.drop 4).take 4)) ∧
      manifest.createdAt = readClock ((bytes.drop 8).take 16) ∧
      bytes[24]? = some (pushFlag manifest.partialList) ∧
      ofBytes ((bytes.drop 25).take 4) = manifest.entries.length ∧
      manifest.entries.length ≤ maxManifestEntries ∧
      bytes.length = headerBytes + manifest.entries.length * entryBytes ∧
      manifest.entries.flatMap pushEntry = bytes.drop headerBytes := by
  unfold decode at h
  split at h
  · cases h
  next header =>
    obtain ⟨hheader, hmagic, hversion⟩ : headerBytes ≤ bytes.length ∧
        bytes.take 3 = manifestMagic ∧ bytes[3]? = some manifestVersion := by
      simpa only [not_or, not_lt, not_not] using header
    obtain ⟨flag, hflag, isPartial, hpartial, h⟩ : ∃ flag, bytes[24]? = some flag ∧
        ∃ isPartial, readFlag flag = some isPartial ∧ _ := by
      simpa only [Option.bind_eq_bind, Option.bind_eq_some_iff] using h
    split at h
    · cases h
    next bounds =>
      obtain ⟨hlimit, hbody⟩ := not_or.mp bounds
      rw [not_not] at hbody
      obtain ⟨entries, hentries, rfl⟩ : ∃ entries, readEntries _ _ = some entries ∧ _ = manifest := by
        simpa only [Option.bind_eq_bind, Option.bind_eq_some_iff, Option.some.injEq] using h
      obtain ⟨hcount, hread⟩ := pushEntries_readEntries hbody hentries
      rw [List.length_drop] at hbody
      refine ⟨hmagic, hversion, rfl, rfl, ?_, hcount.symm, ?_, ?_, hread⟩
      · rw [hflag, pushFlag_of_readFlag hpartial]
      · dsimp only
        rw [hcount]
        exact not_lt.mp hlimit
      · dsimp only
        rw [hcount]
        omega

/-- The accepted byte strings are cut at the ends of their fields. -/
theorem Manifest.encode_decode {bytes : List UInt8} {manifest : Manifest}
    (h : Manifest.decode bytes = some manifest) : manifest.encode = bytes := by
  obtain ⟨hmagic, hversion, hdevice, hclock, hflag, hcount, -, hlen, hbody⟩ := decode_eq_some h
  have hroom : headerBytes ≤ bytes.length := by omega
  unfold headerBytes at hroom
  have hfour : ((bytes.drop 4).take 4).length = 4 := by simp; omega
  have hsixteen : ((bytes.drop 8).take 16).length = 16 := by simp; omega
  have hcounted : ((bytes.drop 25).take 4).length = 4 := by simp; omega
  have hmade : toBytes 4 manifest.device.toNat = (bytes.drop 4).take 4 := by
    rw [hdevice, toBytes_field4 hfour]
  have hnumber : toBytes 4 manifest.entries.length = (bytes.drop 25).take 4 := by
    rw [← hcount, toBytes_ofBytes_of_length hcounted]
  have hsplit : ∀ start width, (bytes.drop start).take width ++ bytes.drop (start + width) =
      bytes.drop start := by
    intro start width
    rw [← List.drop_drop, List.take_append_drop]
  have hbyte : ∀ {start : ℕ} {byte : UInt8}, bytes[start]? = some byte →
      byte :: bytes.drop (start + 1) = bytes.drop start := by
    intro start byte hat
    obtain ⟨hlt, rfl⟩ := List.getElem?_eq_some_iff.mp hat
    exact (List.drop_eq_getElem_cons hlt).symm
  unfold encode
  calc manifestMagic ++ manifestVersion :: (toBytes 4 manifest.device.toNat ++
        (pushClock manifest.createdAt ++ pushFlag manifest.partialList ::
          (toBytes 4 manifest.entries.length ++ manifest.entries.flatMap pushEntry)))
      = bytes.take 3 ++ manifestVersion :: ((bytes.drop 4).take 4 ++
        ((bytes.drop 8).take 16 ++ pushFlag manifest.partialList ::
          ((bytes.drop 25).take 4 ++ bytes.drop 29))) := by
        rw [hmagic, hmade, hclock, pushClock_readClock hsixteen, hnumber, hbody]
        rfl
    _ = bytes.take 3 ++ bytes.drop 3 := by
        rw [hsplit 25 4, hbyte hflag, hsplit 8 16, hsplit 4 4, hbyte hversion]
    _ = bytes := List.take_append_drop 3 bytes

/-- Whether a byte string is a manifest can be seen from its header and its length. -/
theorem Manifest.decode_append {bytes extra : List UInt8} {manifest other : Manifest}
    (h : Manifest.decode bytes = some manifest)
    (hextra : Manifest.decode (bytes ++ extra) = some other) : extra = [] := by
  obtain ⟨-, -, -, -, -, hcount, -, hlen, -⟩ := decode_eq_some h
  obtain ⟨-, -, -, -, -, hcount', -, hlen', -⟩ := decode_eq_some hextra
  have hheader : 29 ≤ bytes.length := by
    unfold headerBytes at hlen
    omega
  have hfield : ((bytes ++ extra).drop 25).take 4 = (bytes.drop 25).take 4 := by
    rw [List.drop_append_of_le_length (by omega), List.take_append_of_le_length (by simp; omega)]
  rw [hfield, hcount] at hcount'
  rw [← hcount', ← hlen, List.length_append] at hlen'
  exact List.length_eq_zero_iff.mp (by omega)

/-- The codec is canonical: what is written within the limit reads back, and only
what would be written is read. -/
theorem Manifest.codec_canonical :
    (∀ manifest : Manifest, manifest.entries.length ≤ maxManifestEntries →
      Manifest.decode manifest.encode = some manifest) ∧
    (∀ bytes manifest, Manifest.decode bytes = some manifest → manifest.encode = bytes) ∧
    (∀ bytes bytes' manifest, Manifest.decode bytes = some manifest →
      Manifest.decode bytes' = some manifest → bytes = bytes') ∧
    (∀ bytes extra manifest other, Manifest.decode bytes = some manifest →
      Manifest.decode (bytes ++ extra) = some other → extra = []) ∧
    ∀ bytes manifest, Manifest.decode bytes = some manifest →
      ofBytes ((bytes.drop 25).take 4) = manifest.entries.length ∧
        manifest.entries.length ≤ maxManifestEntries ∧
        bytes.length = headerBytes + manifest.entries.length * entryBytes := by
  refine ⟨decode_encode, fun _ _ => encode_decode, ?_, fun _ _ _ _ => decode_append, ?_⟩
  · intro bytes bytes' manifest h h'
    rw [← encode_decode h, ← encode_decode h']
  · intro bytes manifest h
    obtain ⟨-, -, -, -, -, hcount, hlimit, hlen, -⟩ := decode_eq_some h
    exact ⟨hcount, hlimit, hlen⟩

/-- A manifest with two records, and a tombstone of a kind no build knows yet. -/
def Manifest.sample : Manifest :=
  { device := 7
    createdAt := { wallMs := 1700000000000, counter := 3, device := 7 }
    partialList := false
    entries :=
      [{ kind := 0, id := 5, updatedAt := { wallMs := 9, counter := 1, device := 2 }, deleted := false },
        { kind := 1, id := 6, updatedAt := { wallMs := 12, counter := 0, device := 7 }, deleted := false },
        { kind := 200, id := 5, updatedAt := { wallMs := 9, counter := 1, device := 2 }, deleted := true }] }

theorem Manifest.codec_canonical_sample :
    Manifest.decode Manifest.sample.encode = some Manifest.sample ∧
      (∀ bytes, Manifest.decode bytes = some Manifest.sample → bytes = Manifest.sample.encode) ∧
      ∀ extra other, Manifest.decode (Manifest.sample.encode ++ extra) = some other →
        extra = [] := by
  obtain ⟨round, back, -, free, -⟩ := Manifest.codec_canonical
  have hread := round Manifest.sample (by decide)
  exact ⟨hread, fun bytes h => (back bytes _ h).symm, fun extra other h => free _ extra _ other hread h⟩

end UwuSsh

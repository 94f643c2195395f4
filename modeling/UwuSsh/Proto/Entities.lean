import Mathlib.Data.BitVec
import Mathlib.Tactic.IntervalCases

/-!
What is stored and synced. A record's kind decides which payload its blob
holds; the payloads carry only what means something on another device. Fields
a build does not know are kept in `Extra`, name and raw value, so an older build can
edit a record without dropping them. Kinds come in the order their
discriminants have on the wire.
-/
namespace UwuSsh

abbrev Uuid := BitVec 128

instance : LawfulBEq Uuid := inferInstance

/-- Unknown fields of a payload, kept verbatim: name and JSON text. -/
abbrev Extra := List (String × String)

inductive EntityKind
  | host
  | group
  | identity
  | key
  | snippet
  | portForward
  | knownHost
  | terminalProfile
  | secret
  | manifest
  | assistConfig
  | assistCache
  | keymap
deriving DecidableEq, Repr

namespace EntityKind

/-- Every kind, in discriminant order. -/
def all : List EntityKind :=
  [.host, .group, .identity, .key, .snippet, .portForward, .knownHost, .terminalProfile,
    .secret, .manifest, .assistConfig, .assistCache, .keymap]

def discriminant : EntityKind → ℕ
  | .host => 0
  | .group => 1
  | .identity => 2
  | .key => 3
  | .snippet => 4
  | .portForward => 5
  | .knownHost => 6
  | .terminalProfile => 7
  | .secret => 8
  | .manifest => 9
  | .assistConfig => 10
  | .assistCache => 11
  | .keymap => 12

def fromDiscriminant (value : ℕ) : Option EntityKind := all[value]?

theorem fromDiscriminant_discriminant (kind : EntityKind) :
    fromDiscriminant kind.discriminant = some kind := by
  cases kind <;> rfl

theorem discriminant_of_fromDiscriminant {value : ℕ} {kind : EntityKind}
    (h : fromDiscriminant value = some kind) : kind.discriminant = value := by
  obtain ⟨hlt, rfl⟩ := List.getElem?_eq_some_iff.mp h
  have hlt : value < 13 := hlt
  interval_cases value <;> rfl

theorem discriminant_injective : Function.Injective discriminant := by
  intro a b h
  have ha := fromDiscriminant_discriminant a
  rw [h, fromDiscriminant_discriminant b] at ha
  exact (Option.some.inj ha).symm

/-- Kinds a record can point at, before the kinds that point at them. -/
def applyOrder : List EntityKind :=
  [.secret, .key, .identity, .group, .host, .portForward, .snippet, .knownHost,
    .assistConfig, .assistCache, .keymap]

/-- Kinds a build before 0.3 does not know; they travel in requests of their own. -/
def apart : List EntityKind := [.assistConfig, .assistCache, .keymap]

def travelsApart (kind : EntityKind) : Bool := apart.contains kind

/-- Where this kind sorts when a batch is applied. Kinds outside `applyOrder` go last. -/
def applyRank (kind : EntityKind) : ℕ := applyOrder.idxOf kind

end EntityKind

structure HostPayload where
  name : String
  address : String
  port : UInt16
  workspace : String
  position : Int64
  groupId : Option Uuid
  identityId : Option Uuid
  extra : Extra := []
deriving DecidableEq

structure GroupPayload where
  workspace : String
  name : String
  position : Int64
  extra : Extra := []
deriving DecidableEq

structure IdentityPayload where
  label : String
  username : String
  authType : String
  keyId : Option Uuid
  passwordSecretId : Option Uuid
  extra : Extra := []
deriving DecidableEq

structure KeyPayload where
  label : String
  keyType : String
  publicKey : String
  privateSecretId : Option Uuid
  passphraseSecretId : Option Uuid
  extra : Extra := []
deriving DecidableEq

structure PortForwardPayload where
  hostId : Uuid
  name : String
  kind : String
  bindAddress : String
  bindPort : UInt16
  targetHost : String
  targetPort : UInt16
  autostart : Bool := false
  extra : Extra := []
deriving DecidableEq

structure SnippetPayload where
  label : String
  body : String
  groupPath : Option String
  extra : Extra := []
deriving DecidableEq

structure KnownHostPayload where
  address : String
  port : UInt16
  algorithm : String
  fingerprintSha256 : String
  publicKey : String
  firstSeenMs : UInt64
  extra : Extra := []
deriving DecidableEq

structure AssistProviderPayload where
  model : String := ""
  baseUrl : Option String := none
  keySecretId : Option Uuid := none
  extra : Extra := []
deriving DecidableEq

/-- `providers` is the source's ordered map, as the list of its pairs. -/
structure AssistConfigPayload where
  provider : String := ""
  providers : List (String × AssistProviderPayload) := []
  extra : Extra := []
deriving DecidableEq

structure AssistCachePayload where
  platform : String := ""
  request : String := ""
  normalized : String := ""
  command : String := ""
  explanation : String := ""
  dangerous : Bool := false
  createdMs : UInt64 := 0
  extra : Extra := []
deriving DecidableEq

structure ChordPayload where
  ctrl : Bool := false
  shift : Bool := false
  alt : Bool := false
  metaKey : Bool := false
  code : String := ""
deriving DecidableEq

structure KeymapTextPayload where
  label : String := ""
  enter : Bool := false
  secretId : Option Uuid := none
  position : UInt32 := 0
  extra : Extra := []
deriving DecidableEq

structure KeymapPayload where
  bindings : List (String × List ChordPayload) := []
  texts : List (String × KeymapTextPayload) := []
  extra : Extra := []
deriving DecidableEq

/-- A chord in the text of a keymap: `ChordPayload` has no room for fields this build does not know. -/
structure ChordBody where
  chord : ChordPayload := {}
  extra : Extra := []
deriving DecidableEq

/-- The text of a keymap. -/
structure KeymapBody where
  bindings : List (String × List ChordBody) := []
  texts : List (String × KeymapTextPayload) := []
  extra : Extra := []
deriving DecidableEq

/-- What is read of the text: the unknown fields of its chords are left behind. -/
def KeymapBody.read (body : KeymapBody) : KeymapPayload :=
  { bindings := body.bindings.map fun b => (b.1, b.2.map ChordBody.chord)
    texts := body.texts, extra := body.extra }

/-- The text a keymap is written as. -/
def KeymapPayload.written (keymap : KeymapPayload) : KeymapBody :=
  { bindings := keymap.bindings.map fun b => (b.1, b.2.map fun chord => { chord })
    texts := keymap.texts, extra := keymap.extra }

@[simp] theorem KeymapPayload.read_written (keymap : KeymapPayload) : keymap.written.read = keymap := by
  have hchords : ∀ chords : List ChordPayload,
      (chords.map fun chord => ({ chord } : ChordBody)).map ChordBody.chord = chords := by
    intro chords
    rw [List.map_map]
    exact List.map_id chords
  simp only [KeymapBody.read, KeymapPayload.written, List.map_map, Function.comp_def, hchords, List.map_id']

/-- A record's fields, as the JSON in its blob reads. -/
inductive Payload
  | host (p : HostPayload)
  | group (p : GroupPayload)
  | identity (p : IdentityPayload)
  | key (p : KeyPayload)
  | snippet (p : SnippetPayload)
  | portForward (p : PortForwardPayload)
  | knownHost (p : KnownHostPayload)
  | assistConfig (p : AssistConfigPayload)
  | assistCache (p : AssistCachePayload)
  | keymap (p : KeymapBody)
deriving DecidableEq

end UwuSsh

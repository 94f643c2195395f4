import UwuSsh.Proto.Clock
import UwuSsh.Proto.Json
import UwuSsh.Proto.Manifest
import UwuSsh.Proto.Merge

/-!
What travels between client and server, and the seal around it. The server sees
a header and a blob; the header is bound to the blob as associated data, so a
blob opens only under the vault key it was sealed with and under exactly the
header it was sealed for. Sealing is modelled as an ideal box: the ciphertext carries
what went in, and only its length is visible without the key.
-/
namespace UwuSsh

/-- How many records go into one request. -/
def maxBatch : ℕ := 500

/-- The largest sealed payload the protocol carries. -/
def maxBlobBytes : ℕ := 256 * 1024

/-- The most sealed bytes one request carries, either way. -/
def maxBatchBytes : ℕ := 8 * 1024 * 1024

/-- What a blob holds once opened: bytes, or the JSON of a record's fields. -/
inductive Plain
  | bytes (b : List UInt8)
  | json (p : Payload)
deriving DecidableEq

def Plain.size : Plain → ℕ
  | .bytes b => b.length
  | .json p => p.toJson.size

abbrev VaultKey := BitVec 256

/-- What a blob is bound to: a record stored here, or one on its way to the server. -/
inductive AssociatedData
  | stored (id : Uuid) (kind : EntityKind) (vaultId : Uuid)
  | synced (id : Uuid) (kind : EntityKind) (vaultId : Uuid) (updatedAt : Hlc) (deleted : Bool)
deriving DecidableEq

/-- A ciphertext with its tag, or bytes that no key opens. -/
inductive Blob
  | sealedWith (key : VaultKey) (nonce : List UInt8) (aad : AssociatedData) (plain : Plain)
  | raw (bytes : List UInt8)
deriving DecidableEq

/-- Length of the blob; a seal adds a 16-byte tag. -/
def Blob.length : Blob → ℕ
  | .sealedWith _ _ _ plain => plain.size + 16
  | .raw bytes => bytes.length

structure Sealed where
  nonce : List UInt8
  blob : Blob
deriving DecidableEq

structure UnlockedVault where
  vaultId : Uuid
  key : VaultKey
deriving DecidableEq

namespace UnlockedVault

/-- The source draws 24 random bytes; nothing here depends on which. -/
def freshNonce : List UInt8 := List.replicate 24 0

def encrypt (vault : UnlockedVault) (aad : AssociatedData) (plain : Plain) : Sealed :=
  { nonce := freshNonce, blob := .sealedWith vault.key freshNonce aad plain }

def decrypt (vault : UnlockedVault) (aad : AssociatedData) (box : Sealed) : Option Plain :=
  match box.blob with
  | .sealedWith key nonce aad' plain =>
      if key = vault.key ∧ nonce = box.nonce ∧ aad' = aad then some plain else none
  | .raw _ => none

/-- Seal and open in the form the local store keeps. -/
def sealStored (vault : UnlockedVault) (id : Uuid) (kind : EntityKind) (plain : Plain) : Sealed :=
  vault.encrypt (.stored id kind vault.vaultId) plain

def openStored (vault : UnlockedVault) (id : Uuid) (kind : EntityKind) (box : Sealed) :
    Option Plain :=
  vault.decrypt (.stored id kind vault.vaultId) box

/-- Seal and open for the way to the server, with the whole header. -/
def sealSynced (vault : UnlockedVault) (id : Uuid) (kind : EntityKind) (updatedAt : Hlc)
    (deleted : Bool) (plain : Plain) : Sealed :=
  vault.encrypt (.synced id kind vault.vaultId updatedAt deleted) plain

def openSynced (vault : UnlockedVault) (id : Uuid) (kind : EntityKind) (updatedAt : Hlc)
    (deleted : Bool) (box : Sealed) : Option Plain :=
  vault.decrypt (.synced id kind vault.vaultId updatedAt deleted) box

@[simp] theorem openStored_sealStored (vault : UnlockedVault) (id : Uuid) (kind : EntityKind)
    (plain : Plain) :
    vault.openStored id kind (vault.sealStored id kind plain) = some plain := by
  simp [openStored, sealStored, decrypt, encrypt]

@[simp] theorem openSynced_sealSynced (vault : UnlockedVault) (id : Uuid) (kind : EntityKind)
    (updatedAt : Hlc) (deleted : Bool) (plain : Plain) :
    vault.openSynced id kind updatedAt deleted
      (vault.sealSynced id kind updatedAt deleted plain) = some plain := by
  simp [openSynced, sealSynced, decrypt, encrypt]

end UnlockedVault

/-- One sealed record in transit. -/
structure Envelope where
  id : Uuid
  vaultId : Uuid
  kind : EntityKind
  updatedAt : Hlc
  /-- The server version this edit was based on, 0 for a record it has never seen. -/
  baseSeq : ℕ
  deleted : Bool
  nonce : List UInt8
  blob : Blob
  /-- Assigned by the server on write. -/
  seq : Option ℕ
deriving DecidableEq

def Envelope.version (env : Envelope) : Version :=
  { updatedAt := env.updatedAt, deleted := env.deleted }

def Envelope.box (env : Envelope) : Sealed := { nonce := env.nonce, blob := env.blob }

/-- What opens the envelope, whatever it claims to be. -/
def UnlockedVault.openEnvelope (vault : UnlockedVault) (env : Envelope) : Option Plain :=
  vault.openSynced env.id env.kind env.updatedAt env.deleted env.box

structure PullResponse where
  envelopes : List Envelope
  cursor : ℕ
  hasMore : Bool
deriving DecidableEq

/-- A record the server stored, and the number it now has. -/
structure Accepted where
  id : Uuid
  seq : ℕ
deriving DecidableEq

structure PushResponse where
  accepted : List Accepted
  conflicts : List Envelope
  cursor : ℕ
deriving DecidableEq

end UwuSsh

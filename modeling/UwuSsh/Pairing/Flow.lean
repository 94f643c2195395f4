import UwuSsh.Lock.State

/-!
Turning sync on and joining an account. Each of the three flows talks to a server, writes
the vault's header and keeps the pairing with its two secrets, sealed by the operating system;
every step of it may fail, and what was written before stays.
-/
namespace UwuSsh

/-- Why the operating system does not open what it sealed. -/
inductive NotOpened
  | never
  | notNow

/-- The operating system's seal for this user on this device. -/
structure OsSeal where
  protect : List UInt8 → Option (List UInt8)
  unprotect : List UInt8 → Except NotOpened (List UInt8)
  unprotect_protect : ∀ plain box, protect plain = some box → unprotect box = .ok plain

abbrev DeviceKey := BitVec 256

structure EnrolmentKeys where
  deviceKey : DeviceKey
  accountKey : Option AccountKey

inductive FlowError
  | transport
  | tx (e : TxError)
  | vault (e : VaultError)
  | vaultLocked
  | device
  | noAccountKey
  | unexpectedAccountKey
deriving DecidableEq

def FlowError.ofHeader : HeaderError → FlowError
  | .tx e => .tx e
  | .vault e => .vault e
  | .vaultLocked => .vaultLocked

namespace KdfParams

def withinLimits (kdf : KdfParams) : Bool :=
  1 ≤ kdf.memoryKib && kdf.memoryKib ≤ 1024 * 1024 && 1 ≤ kdf.timeCost && kdf.timeCost ≤ 16 &&
    1 ≤ kdf.parallelism && kdf.parallelism ≤ 16

/-- The least a password that stands on its own may be derived with. -/
def strongEnough (kdf : KdfParams) : Bool := 19 * 1024 ≤ kdf.memoryKib && 2 ≤ kdf.timeCost

end KdfParams

/-- The salt and costs of an account's vault, as the server tells a device on its way in. -/
structure VaultParams where
  salt : List UInt8
  kdf : KdfParams
  needsAccountKey : Bool

structure Admitted where
  accountId : Uuid
  deviceId : Uuid

/-- What a device that is in hands to one that joins. -/
structure Handover where
  serverUrl : String
  tlsFingerprint : Option String
  accountId : Uuid
  accountKey : Option AccountKey
  /-- A one-time token for joining the account. -/
  enrolment : String
  /-- The manifest of the device that is in, as the server last confirmed it. -/
  manifest : Option (Uuid × Hlc)

structure Setup where
  serverUrl : String
  tlsFingerprint : Option String

abbrev LoginKey := List UInt8

/-- Everything a try meets: the server's answers, the keys and salts drawn, what the operating
system does and where the disk fails. -/
structure Site where
  os : OsSeal
  connect : Except FlowError Unit
  params : Except FlowError VaultParams
  /-- The key a device proves itself with, from the password, the salt and the costs. -/
  deriveLogin : Password → List UInt8 → KdfParams → Option AccountKey → Except VaultError LoginKey
  admission : LoginKey → Except FlowError Admitted
  vault : Except FlowError VaultHeader
  deviceKey : DeviceKey
  vaultKey : VaultKey
  salts : BitVec 128 × BitVec 128
  nowMs : UInt64
  createFault : ℕ → Option TxError
  adoptFault : ℕ → Option TxError
  saveFault : Option TxError
  floorFault : Option TxError
  keepFault : ℕ → Option TxError

def accountKeyBytes (key : AccountKey) : List UInt8 := BigEndian.toBytes 16 key.toNat

def deviceKeyBytes (key : DeviceKey) : List UInt8 := BigEndian.toBytes 32 key.toNat

def exactBytes (width : ℕ) (bytes : List UInt8) : Option (BitVec (8 * width)) :=
  if bytes.length = width then some (.ofNat (8 * width) (BigEndian.ofBytes bytes)) else none

namespace Pairing

/-- The account key as it is kept, opened; `none` inside is one that is not what was kept. -/
def openAccountKey (os : OsSeal) : Option (List UInt8) → Except NotOpened (Option (Option AccountKey))
  | .none => .ok (some .none)
  | some box =>
      match os.unprotect box with
      | .error e => .error e
      | .ok bytes => .ok ((exactBytes 16 bytes).map some)

/-- The two secrets, opened. -/
def openKeys (os : OsSeal) (device : List UInt8) (account : Option (List UInt8)) :
    Except NotOpened (Option EnrolmentKeys) :=
  match os.unprotect device with
  | .error e => .error e
  | .ok bytes =>
      match exactBytes 32 bytes with
      | .none => .ok .none
      | some deviceKey =>
          match openAccountKey os account with
          | .error e => .error e
          | .ok .none => .ok .none
          | .ok (some accountKey) => .ok (some { deviceKey, accountKey })

end Pairing

namespace Database

/-- Forget the server, the device's identity and both secrets; the records stay. -/
def forgetEnrolment (db : LockDb) : LockDb :=
  { db.onStore fun s => { s with cursor := 0, floor := none, violations := [] } with
    lastSyncMs := none
    other := { db.other with pairing := .none } }

/-- The keys a paired device signs and unlocks with; one whose secrets no longer open is not
paired any more. -/
def enrolmentKeys (os : OsSeal) (db : LockDb) : LockDb × Except FlowError (Option EnrolmentKeys) :=
  match db.other.pairing.protectedDeviceKey with
  | none => (db, .ok none)
  | some device =>
      match Pairing.openKeys os device db.other.pairing.protectedAccountKey with
      | .ok (some keys) => (db, .ok (some keys))
      | .error .notNow => (db, .error .device)
      | _ => (db.forgetEnrolment, .ok none)

/-- Both secrets sealed; `none` where the operating system refuses. -/
def sealSecrets (os : OsSeal) (deviceKey : DeviceKey) (accountKey : Option AccountKey) :
    Option (List UInt8 × Option (List UInt8)) :=
  match os.protect (deviceKeyBytes deviceKey), accountKey with
  | none, _ => none
  | some device, none => some (device, none)
  | some device, some key => (os.protect (accountKeyBytes key)).map fun account => (device, some account)

/-- Remember a pairing: the server, who this device is there, and the two secrets. -/
def saveEnrolment (e : Site) (setup : Setup) (admitted : Admitted) (accountKey : Option AccountKey)
    (db : LockDb) : LockDb × Except FlowError Unit :=
  match sealSecrets e.os e.deviceKey accountKey with
  | none => (db, .error .device)
  | some sealedKeys =>
      match e.saveFault with
      | some error => (db, .error (.tx error))
      | none =>
          ({ db with other := { db.other with
              pairing :=
                { serverUrl := some setup.serverUrl
                  accountId := some admitted.accountId
                  deviceId := some admitted.deviceId
                  tlsFingerprint := setup.tlsFingerprint
                  protectedDeviceKey := some sealedKeys.1
                  protectedAccountKey := sealedKeys.2
                  pairedMs := some e.nowMs } } }, .ok ())

end Database

section flows

variable (w : Wrapping) (e : Site) (password : Password)

/-- A vault's header off the wire, which asks for no more work than any device can do. -/
def fromWire (header : VaultHeader) : Except FlowError VaultHeader :=
  if header.kdf.withinLimits then .ok header else .error .transport

def loginKeyFrom (params : VaultParams) (accountKey : Option AccountKey) : Except FlowError LoginKey :=
  if ¬ params.kdf.withinLimits then .error .transport
  else if accountKey = none ∧ ¬ params.kdf.strongEnough then .error .transport
  else (e.deriveLogin password params.salt params.kdf accountKey).mapError .vault

/-- Get in with what a person typed and what opens the account: who this device is there, and
the account's vault. -/
def enrol (accountKey : Option AccountKey) :
    Except FlowError (Admitted × VaultHeader × UnlockedVault) := do
  e.connect
  let params ← e.params
  if params.needsAccountKey ∧ accountKey = none then .error .noAccountKey
  else do
    let loginKey ← loginKeyFrom e password params accountKey
    let admitted ← e.admission loginKey
    let wire ← e.vault
    let header ← fromWire wire
    let vault ← (header.unlockWith w password accountKey).mapError .vault
    return (admitted, header, vault)

/-- Remember the pairing, and then which manifest to wait for. -/
def rememberThen (setup : Setup) (admitted : Admitted) (accountKey : Option AccountKey)
    (floor : Store → Store) (db : LockDb) : LockDb × Except FlowError Unit :=
  match db.saveEnrolment e setup admitted accountKey with
  | (t, .error error) => (t, .error error)
  | (t, .ok ()) =>
      match e.floorFault with
      | some error => (t, .error (.tx error))
      | none => (t.onStore floor, .ok ())

/-- A device that is admitted takes over the account's vault and then remembers its pairing. -/
def takeAccount (setup : Setup) (accountKey : Option AccountKey) (floor : Store → Store)
    (db : LockDb) : LockDb × Except FlowError Unit :=
  match enrol w e password accountKey with
  | .error error => (db, .error error)
  | .ok (admitted, header, vault) =>
      match db.adoptVault e.adoptFault header vault.key with
      | (t, .error error) => (t, .error (.tx error))
      | (t, .ok ()) => rememberThen e setup admitted accountKey floor t

/-- Join an account from a code another device showed. -/
def join (handover : Except FlowError Handover) (db : LockDb) : LockDb × Except FlowError Unit :=
  match handover with
  | .error error => (db, .error error)
  | .ok handover =>
      takeAccount w e password
        { serverUrl := handover.serverUrl, tlsFingerprint := handover.tlsFingerprint }
        handover.accountKey (fun s => s.setManifestFloor handover.manifest) db

/-- Join an account with a ticket; a key the person typed is never dropped on the server's word. -/
def joinSso (setup : Setup) (accountKey : Option AccountKey) (db : LockDb) :
    LockDb × Except FlowError Unit :=
  match e.connect.bind fun _ => e.params with
  | .error error => (db, .error error)
  | .ok params =>
      if params.needsAccountKey = false ∧ accountKey.isSome then (db, .error .unexpectedAccountKey)
      else takeAccount w e password setup accountKey (fun s => s.waitForAnyManifest e.nowMs) db

/-- Turn a setup code into an account, with this device as its first. -/
def createAccount (setup : Setup) (accountKey : AccountKey) (db : LockDb) :
    LockDb × Except FlowError Unit :=
  let made : LockDb × Except HeaderError Unit :=
    if db.header = none then
      db.createVaultWith w e.salts.1 e.vaultKey e.createFault password .recommended
    else (db, .ok ())
  match made with
  | (t, .error error) => (t, .error (.ofHeader error))
  | (t, .ok ()) =>
      match t.wrapVaultKey w e.salts.2 password (some accountKey) with
      | .error error => (t, .error (.ofHeader error))
      | .ok header =>
          let admitted : Except FlowError Admitted := do
            let loginKey ← (e.deriveLogin password (BigEndian.toBytes 16 header.salt.toNat) header.kdf
              (some accountKey)).mapError .vault
            e.connect
            e.admission loginKey
          match admitted with
          | .error error => (t, .error error)
          | .ok admitted =>
              match t.saveEnrolment e setup admitted (some accountKey) with
              | (u, .error error) => (u, .error error)
              -- Last: this device keeps the account key by now.
              | (u, .ok ()) =>
                  match u.keepVaultHeader e.keepFault header with
                  | (v, .error error) => (v, .error (.ofHeader error))
                  | (v, .ok ()) => (v, .ok ())

end flows

end UwuSsh

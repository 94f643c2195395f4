import UwuSsh.Store.Header

/-!
What a device keeps beside its records: the pairing with a UwUSync server, where it stands
with UwULock, and what it learnt about each UwULock account. On UwULock the vault is a space
of the account, so joining a space takes over a vault; the same transaction notes the space
as the account's and the one before it as left.
-/
namespace UwuSsh

/-- The pairing with a UwUSync server, with its two secrets as the operating system sealed them. -/
structure Pairing where
  serverUrl : Option String
  accountId : Option Uuid
  deviceId : Option Uuid
  tlsFingerprint : Option String
  protectedDeviceKey : Option (List UInt8)
  protectedAccountKey : Option (List UInt8)
  pairedMs : Option UInt64
deriving DecidableEq

namespace Pairing

def none : Pairing :=
  { serverUrl := .none, accountId := .none, deviceId := .none, tlsFingerprint := .none
    protectedDeviceKey := .none, protectedAccountKey := .none, pairedMs := .none }

def paired (p : Pairing) : Bool := p.serverUrl.isSome && p.accountId.isSome && p.deviceId.isSome

end Pairing

/-- Where this device stands with UwULock. -/
structure LockState where
  active : Bool
  serverUrl : Option String
  email : Option String
  spaceId : Option Uuid
  protectedRefreshToken : Option (List UInt8)
  signedInMs : Option UInt64
  moveStartedMs : Option UInt64
deriving DecidableEq

/-- What this device learnt about one UwULock account at earlier sign-ins. -/
structure LockAccount where
  protectedRememberToken : Option (List UInt8) := none
  kdf : Option String := none
  spaceId : Option Uuid := none
  leftSpaces : List Uuid := []
deriving DecidableEq

/-- A server's address and an email, both as they are kept. -/
abbrev AccountName := String × String

structure Enrolments where
  pairing : Pairing
  lock : LockState
  accounts : AList fun _ : AccountName => LockAccount

abbrev LockDb := Database Enrolments

/-- A space this device takes as its vault. -/
structure Space where
  id : Uuid
  key : VaultKey
deriving DecidableEq

/-- A sign-in, on its way into the database. -/
structure LockEnrolment where
  serverUrl : String
  email : String
  kdf : String
  protectedRefreshToken : Option (List UInt8)
  protectedRememberToken : Option (List UInt8)

inductive Joining
  | signIn
  | moved
deriving DecidableEq

inductive LockError
  | transport
  | wrongPassword
  | crypto
  | spaceLeft (id : Uuid)
  | tx (e : TxError)
  | vault (e : VaultError)
  | vaultLocked
  | device
  | moveCheck
  | notThis
deriving DecidableEq

namespace Enrolments

def account (e : Enrolments) (name : AccountName) : LockAccount := (e.accounts.lookup name).getD {}

def setAccount (e : Enrolments) (name : AccountName) (account : LockAccount) : Enrolments :=
  { e with accounts := e.accounts.insert name account }

/-- `UPDATE`: an account that is not there stays so. -/
def updateAccount (e : Enrolments) (name : AccountName) (f : LockAccount → LockAccount) : Enrolments :=
  match e.accounts.lookup name with
  | none => e
  | some account => e.setAccount name (f account)

end Enrolments

/-- The spaces an account is known to have left once it is on this one. -/
def LockAccount.left (account : LockAccount) (space : Uuid) : List Uuid :=
  let left :=
    match account.spaceId with
    | none => account.leftSpaces
    | some old =>
        if old ≠ space ∧ old ∉ account.leftSpaces then account.leftSpaces ++ [old]
        else account.leftSpaces
  left.filter fun id => id ≠ space

/-- The account after a sign-in that took a space. -/
def LockAccount.joined (account : LockAccount) (space : Uuid) (enrolment : LockEnrolment) : LockAccount where
  protectedRememberToken := enrolment.protectedRememberToken.or account.protectedRememberToken
  kdf := some enrolment.kdf
  spaceId := some space
  leftSpaces := account.left space

section naming

variable (lowercase : String → String)

/-- An account's email as it is kept: trimmed and in lower case. -/
def accountEmail (email : String) : String := lowercase (Text.trim email)

def LockEnrolment.name (enrolment : LockEnrolment) : AccountName :=
  (enrolment.serverUrl, accountEmail lowercase enrolment.email)

namespace Enrolments

/-- UwULock becomes the backend; a move leaves the UwUSync pairing behind. -/
def remember (space : Uuid) (joining : Joining) (enrolment : LockEnrolment) (nowMs : UInt64)
    (e : Enrolments) : Enrolments :=
  let name := enrolment.name lowercase
  let account := (e.account name).joined space enrolment
  { e.setAccount name account with
    lock :=
      { active := true
        serverUrl := some enrolment.serverUrl
        email := some enrolment.email
        spaceId := some space
        protectedRefreshToken := enrolment.protectedRefreshToken
        signedInMs := some nowMs
        moveStartedMs := none }
    pairing := if joining = .moved then .none else e.pairing }

end Enrolments

namespace Database

/-- A key for the vault that is here already opens what that vault sealed; one secret tells. -/
def checkSpaceKey (db : LockDb) (vault : UnlockedVault) : Except LockError Unit :=
  match db.store.sealedSecrets with
  | [] => .ok ()
  | (id, box) :: _ =>
      match vault.openStored id .secret box with
      | none => .error (.tx (.store (.invalid "space" "the account's key does not open this vault")))
      | some _ => .ok ()

/-- Take a space as this device's vault and UwULock as its backend, in one transaction. -/
def joinSpace (w : Wrapping) (salt : BitVec 128) (nowMs : UInt64) (fault : ℕ → Option TxError)
    (space : Space) (password : Password) (kdf : KdfParams) (joining : Joining)
    (enrolment : LockEnrolment) (db : LockDb) : LockDb × Except LockError Unit :=
  let adopted : UnlockedVault := { vaultId := space.id, key := space.key }
  let remember := Enrolments.remember lowercase space.id joining enrolment nowMs
  match adopted.rewrap w salt password none kdf with
  | .error e => (db, .error (.vault e))
  | .ok header =>
      if db.store.vaultId = space.id then
        match db.checkSpaceKey adopted with
        | .error e => (db, .error e)
        | .ok () =>
            match Transaction.commit fault
              [fun db : LockDb => .ok { db with header := some header },
                fun db => .ok { db with deviceUnlock := none },
                fun db => .ok { db with other := remember db.other }] db with
            | (t, .ok ()) => (t.onStore fun s => { s with vault := some adopted }, .ok ())
            | (t, .error e) => (t, .error (.tx e))
      else
        match db.adopt fault header space.key (if joining = .moved then .moved else .push)
          (fun e => .ok (remember e)) with
        | (t, .ok ()) => (t, .ok ())
        | (t, .error e) => (t, .error (.tx e))

/-- A space joined is noted as the account's in the same transaction; one that is not
leaves everything as it was. -/
theorem joinSpace_other {w : Wrapping} {salt : BitVec 128} {nowMs : UInt64}
    {fault : ℕ → Option TxError} {space : Space} {password : Password} {kdf : KdfParams}
    {joining : Joining} {enrolment : LockEnrolment} {db t : LockDb} {result : Except LockError Unit}
    (h : db.joinSpace lowercase w salt nowMs fault space password kdf joining enrolment =
      (t, result)) :
    (t = db ∧ ∃ e, result = .error e) ∨ (result = .ok () ∧
      t.other = Enrolments.remember lowercase space.id joining enrolment nowMs db.other) := by
  unfold joinSpace at h
  dsimp only at h
  split at h
  · cases h
    exact .inl ⟨rfl, _, rfl⟩
  next header hheader =>
  split at h
  · split at h
    · cases h
      exact .inl ⟨rfl, _, rfl⟩
    split at h
    · next u hcommit =>
      cases h
      have hplay := Transaction.play_of_commit hcommit
      simp only [Transaction.play, Except.bind, Except.ok.injEq] at hplay
      refine .inr ⟨rfl, ?_⟩
      rw [← hplay]
      rfl
    · next u e hcommit =>
      cases h
      have hsame := Transaction.commit_error (congrArg Prod.snd hcommit)
      rw [hcommit] at hsame
      exact .inl ⟨hsame, _, rfl⟩
  · next hother =>
    split at h
    · next u hadopt =>
      cases h
      have hid : space.id = header.vaultId :=
        VaultHeader.vaultId_of_unlockWith (VaultHeader.unlockWith_of_rewrap hheader)
      have hne : db.store.vaultId ≠ header.vaultId := hid ▸ hother
      obtain ⟨other, halso, hfile⟩ := adopt_file hne hadopt
      cases halso
      exact .inr ⟨rfl, congrArg Database.other hfile⟩
    · next u e hadopt =>
      cases h
      have hsame := adopt_error (congrArg Prod.snd hadopt)
      rw [hadopt] at hsame
      exact .inl ⟨hsame, _, rfl⟩

end Database

end naming

end UwuSsh

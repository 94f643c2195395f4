import UwuSsh.Lib.Script
import UwuSsh.Lock.State

/-!
Signing in to a UwULock account, moving to it and signing out, as programs that ask the person,
the server and the operating system. Only the server says which space is the account's, so
a device that knows a space does not follow the server to another one on its own, and one it
moved on from it refuses outright.
-/
namespace UwuSsh

open Script

/-- A space other than the one this device used, agreed to. -/
inductive AcceptSpace
  | listed (id : Uuid)
  | new
deriving DecidableEq

/-- What the person typed. -/
structure SignIn where
  serverUrl : String
  email : String
  password : Password
  twoFactor : Option String
  acceptSpace : Option AcceptSpace

/-- One space as the server lists it. -/
structure SpaceObject where
  space : String
  id : Uuid
  key : String
deriving DecidableEq

/-- What the server's token and the account's keys came to. -/
structure Login where
  extrasKey : VaultKey
  refreshToken : Option String
  rememberToken : Option String
  kdf : String

inductive LoginAnswer
  | twoFactor
  | granted (login : Login)

inductive CreateSpace
  | done
  | exists
  | refused

/-- A token the operating system sealed, opened by it. -/
inductive Unprotected
  | opened (token : String)
  | neverOpens
  | notNow

inductive LockAsk
  | typed
  | password
  | unprotect (box : List UInt8)
  | seal (token : String)
  | login (server email : String) (remembered : Option String) (kdf : Option String)
  | spaces
  | newSpace
  | createSpace (id : Uuid) (key : String)
  | salt
  | now
  | fault
  | syncOnce
  | copyToLock (space : Uuid)
  | refreshed

abbrev LockAnswer : LockAsk → Type
  | .typed => SignIn
  | .password => Password
  | .unprotect _ => Unprotected
  | .seal _ => Except LockError (List UInt8)
  | .login .. => Except LockError LoginAnswer
  | .spaces => Except LockError (List SpaceObject)
  | .newSpace => Uuid × VaultKey
  | .createSpace .. => Except LockError CreateSpace
  | .salt => BitVec 128
  | .now => UInt64
  | .fault => ℕ → Option TxError
  | .syncOnce => (Store × Option UInt64) × Except LockError Unit
  | .copyToLock _ => Except LockError Unit
  | .refreshed => List UInt8

/-- What addresses, emails and wrapped keys look like is the business of the crates below. -/
structure LockCrates where
  lowercase : String → String
  normalizeServer : String → Option String
  normalizeEmail : String → String
  unwrapSpaceKey : VaultKey → String → Option VaultKey
  wrapSpaceKey : VaultKey → VaultKey → String
  wrapping : Wrapping
  accountEmail_normalizeEmail : ∀ email,
    accountEmail lowercase (normalizeEmail (Text.trim email)) = accountEmail lowercase email

abbrev LockScript := Script LockDb LockAsk LockAnswer LockError

/-- What [`space`] came to. -/
inductive Taken
  | space (space : Space) (made : Bool)
  | changed (was : Uuid) (now : Option Uuid)

/-- A device signed in, with the space it syncs. -/
structure SignedIn where
  space : Space
  madeSpace : Bool
  serverUrl : String
  email : String
  refreshToken : Option String
  rememberToken : Option String
  kdf : String

inductive SignInOutcome
  | signedIn (signed : SignedIn)
  | twoFactor
  | spaceChanged (was : Uuid) (now : Option Uuid) (rememberToken : Option String)

/-- The entry of this app in a server's list. -/
def listedSpace (listing : List SpaceObject) : Option SpaceObject :=
  listing.find? fun object => object.space = "ssh"

namespace Lock

def commit (f : LockDb → LockDb) : LockScript Unit := modify (.tx .sqlite) f

def ask (q : LockAsk) : LockScript (LockAnswer q) := query q

/-- An answer whose error is passed on. -/
def expect {α : Type} (answer : LockScript (Except LockError α)) : LockScript α :=
  answer >>= ofExcept

def setLock (f : LockState → LockState) : LockScript Unit :=
  commit fun db => { db with other := { db.other with lock := f db.other.lock } }

def updateAccount (name : AccountName) (f : LockAccount → LockAccount) : LockScript Unit :=
  commit fun db => { db with other := db.other.updateAccount name f }

section tokens

/-- A token kept, opened; one that never opens any more is forgotten. -/
def openToken (box : Option (List UInt8)) (forget : LockScript Unit) : LockScript (Option String) := do
  match box with
  | none => return none
  | some box =>
      match ← ask (.unprotect box) with
      | .opened token => return some token
      | .neverOpens => do
          forget
          return none
      | .notNow => fail .device

def sealToken (token : Option String) : LockScript (Option (List UInt8)) := do
  match token with
  | none => return none
  | some token => do
      let box ← expect (ask (.seal token))
      return some box

def lockRefreshToken : LockScript (Option String) := do
  let db ← get
  openToken db.other.lock.protectedRefreshToken
    (setLock fun lock => { lock with protectedRefreshToken := none })

/-- A new refresh token, kept before it is used. -/
def keepLockRefreshToken : LockScript Unit := do
  let box : List UInt8 ← ask .refreshed
  setLock fun lock => if lock.active then { lock with protectedRefreshToken := some box } else lock

def endLockSession : LockScript Unit := setLock fun lock => { lock with protectedRefreshToken := none }

end tokens

def forgetMove : LockScript Unit := setLock fun lock => { lock with moveStartedMs := none }

section account

variable (c : LockCrates)

/-- What this device learnt about the account of this server and email. -/
def known (serverUrl email : String) (e : Enrolments) : LockAccount :=
  match c.normalizeServer serverUrl with
  | none => {}
  | some server => e.account (server, accountEmail c.lowercase email)

def forgetRememberToken (name : AccountName) : LockScript Unit :=
  updateAccount name fun account => { account with protectedRememberToken := none }

/-- The token that skips the second step, for the account that issued it. -/
def rememberToken (serverUrl email : String) : LockScript (Option String) := do
  match c.normalizeServer serverUrl with
  | none => return none
  | some server => do
      let name : AccountName := (server, accountEmail c.lowercase email)
      let db ← get
      openToken (db.other.account name).protectedRememberToken (forgetRememberToken name)

/-- It is sent on every sign-in without a code. -/
def remembered (request : SignIn) : LockScript (Option String) :=
  match request.twoFactor with
  | none => rememberToken c request.serverUrl request.email
  | some _ => done none

/-- Kept for a sign-in that got a token but did not get as far as joining. -/
def keepLockRememberToken (server email : String) (box : List UInt8) : LockScript Unit :=
  let name : AccountName := (server, accountEmail c.lowercase email)
  commit fun db => { db with
    other := db.other.setAccount name
      { db.other.account name with protectedRememberToken := some box } }

/-- This app's space: the account's, or a new one, as long as it is the one this device used
on the account before or the person agreed to another. -/
def space (extrasKey : VaultKey) (known : LockAccount) (accept : Option AcceptSpace) :
    ℕ → LockScript Taken
  | 0 => fail .transport
  | rounds + 1 => do
      let listing : List SpaceObject ← expect (ask .spaces)
      match listedSpace listing with
      | some existing =>
          if existing.id ∈ known.leftSpaces then fail (.spaceLeft existing.id)
          else if known.spaceId.any (· ≠ existing.id) ∧ accept ≠ some (.listed existing.id) then
            return .changed (known.spaceId.getD 0) (some existing.id)
          else
            match c.unwrapSpaceKey extrasKey existing.key with
            | none => fail .crypto
            | some key => return .space { id := existing.id, key } false
      | none =>
          if known.spaceId.isSome ∧ accept ≠ some .new then
            return .changed (known.spaceId.getD 0) none
          else do
            let fresh : Uuid × VaultKey ← ask .newSpace
            match ← expect (ask (.createSpace fresh.1 (c.wrapSpaceKey extrasKey fresh.2))) with
            | .done => return .space { id := fresh.1, key := fresh.2 } true
            -- Another device made it first: take that one.
            | .exists => space extrasKey known accept rounds
            | .refused => fail .transport

/-- Sign in and open (or make) this app's space. -/
def signIn (request : SignIn) (remembered : Option String) (known : LockAccount) :
    LockScript SignInOutcome := do
  match c.normalizeServer request.serverUrl with
  | none => fail .transport
  | some server =>
      let email := Text.trim request.email
      if email.isEmpty ∨ request.password = [] then fail .wrongPassword
      else do
        match ← expect (ask (.login server email remembered known.kdf)) with
        | .twoFactor => return .twoFactor
        | .granted login => do
            match ← space c login.extrasKey known request.acceptSpace 2 with
            | .changed was now => return .spaceChanged was now login.rememberToken
            | .space space made =>
                return .signedIn {
                  space
                  madeSpace := made
                  serverUrl := server
                  email := c.normalizeEmail email
                  refreshToken := login.refreshToken
                  rememberToken := login.rememberToken
                  kdf := login.kdf }

/-- The sign-in both commands share; none where a code or an answer is asked for first. -/
def signInHere (request : SignIn) : LockScript (Option SignedIn) := do
  let token ← remembered c request
  let db ← get
  match ← signIn c request token (known c request.serverUrl request.email db.other) with
  | .signedIn signed => return some signed
  | .twoFactor => return none
  | .spaceChanged _ _ token =>
      match token, c.normalizeServer request.serverUrl with
      | some token, some server => do
          let box : List UInt8 ← expect (ask (.seal token))
          keepLockRememberToken c server request.email box
          return none
      | _, _ => return none

def joinSpace (signed : SignedIn) (password : Password) (joining : Joining) : LockScript Unit := do
  let refresh ← sealToken signed.refreshToken
  let remember ← sealToken signed.rememberToken
  let salt : BitVec 128 ← ask .salt
  let nowMs : UInt64 ← ask .now
  let fault : ℕ → Option TxError ← ask .fault
  let db ← get
  let enrolment : LockEnrolment :=
    { serverUrl := signed.serverUrl
      email := signed.email
      kdf := signed.kdf
      protectedRefreshToken := refresh
      protectedRememberToken := remember }
  let joined := db.joinSpace c.lowercase c.wrapping salt nowMs fault signed.space password
    .recommended joining enrolment
  commit fun _ => joined.1
  ofExcept joined.2

/-- A device that is new to the account signs in, or one of it does so again. -/
def lockSignIn : LockScript Unit := do
  let request : SignIn ← ask .typed
  let db ← get
  if db.other.pairing.paired then fail .notThis
  else if db.header.isSome ∧ db.store.vault = none ∧ db.other.lock.spaceId = none then
    fail .vaultLocked
  else do
    match ← signInHere c request with
    | none => return ()
    | some signed => joinSpace c signed request.password .signIn

def noteMoveStarted (serverUrl email : String) : LockScript Unit := do
  let nowMs : UInt64 ← ask .now
  setLock fun lock =>
    if lock.active then lock
    else { lock with
      moveStartedMs := lock.moveStartedMs.or (some nowMs)
      serverUrl := some serverUrl
      email := some email }

/-- One pass against the old server; what it does to the store is its own affair. -/
def syncOnce : LockScript Unit := do
  let pass : (Store × Option UInt64) × Except LockError Unit ← ask .syncOnce
  commit fun db => { db with store := pass.1.1, lastSyncMs := pass.1.2 }
  ofExcept pass.2

/-- From UwUSync to UwULock: everything is copied to the space, then the device switches. -/
def lockMove : LockScript Unit := do
  let request : SignIn ← ask .typed
  let db ← get
  if db.other.pairing.paired = false then fail .notThis
  else if db.header.isNone ∨ db.store.vault = none then fail .vaultLocked
  else do
    match ← signInHere c request with
    | none => return ()
    | some signed => do
        noteMoveStarted signed.serverUrl signed.email
        syncOnce
        expect (ask (.copyToLock signed.space.id))
        joinSpace c signed request.password .moved

/-- Neither the remembered device nor the key derivation outlives a sign-out. -/
def forgetSignIn (lock : LockState) : LockScript Unit :=
  match lock.serverUrl, lock.email with
  | some serverUrl, some email => do
      let name : AccountName := (serverUrl, accountEmail c.lowercase email)
      forgetRememberToken name
      updateAccount name fun account => { account with kdf := none }
  | _, _ => done ()

/-- Stop syncing through UwULock; which spaces were used stays known. -/
def leaveLock : LockScript Unit := do
  let db ← get
  forgetSignIn c db.other.lock
  setLock fun lock => { lock with
    active := false
    protectedRefreshToken := none
    signedInMs := none
    moveStartedMs := none }
  commit fun db => { db.onStore fun s => { s with cursor := 0 } with lastSyncMs := none }
  commit fun db => db.onStore fun s => { s with violations := [] }

def lockSignOut : LockScript Unit := do
  let password : Password ← ask .password
  let db ← get
  if db.other.lock.active = false then return ()
  else
    match db.header with
    | none => fail .notThis
    | some header =>
        match header.unlock c.wrapping password with
        | .error _ => fail .wrongPassword
        | .ok _ => leaveLock c

end account

end Lock

/-- Everything a device does with its UwULock account. -/
inductive LockCommand
  | signIn
  | move
  | signOut
  | forgetMove
  | endSession
  | keepRefreshToken
  | openRefreshToken

def LockCommand.program (c : LockCrates) : LockCommand → LockScript Unit
  | .signIn => Lock.lockSignIn c
  | .move => Lock.lockMove c
  | .signOut => Lock.lockSignOut c
  | .forgetMove => Lock.forgetMove
  | .endSession => Lock.endLockSession
  | .keepRefreshToken => Lock.keepLockRefreshToken
  | .openRefreshToken => do
      let _ ← Lock.lockRefreshToken
      return ()

end UwuSsh

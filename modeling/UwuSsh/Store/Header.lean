import UwuSsh.Store.Adopt

/-!
A vault's header. The vault's key lies wrapped under a master key, which comes from the
password, the header's salt and costs and, for a vault that asks for one, the account key.
How a master key is derived and how a key is wrapped is the business of the crates below;
nothing of them is used but that a wrapped key unwraps to what it was.
-/
namespace UwuSsh

abbrev Password := List UInt8

abbrev AccountKey := BitVec 128

inductive VaultError
  | needsAccountKey
  | decrypt
  | kdf
deriving DecidableEq, Repr

/-- What the crates below do with passwords and keys. -/
structure Wrapping where
  masterKey : Password → BitVec 128 → KdfParams → Option AccountKey → Except VaultError VaultKey
  wrap : VaultKey → Uuid → VaultKey → Sealed
  unwrap : VaultKey → Uuid → Sealed → Option VaultKey
  unwrap_wrap : ∀ master vaultId key, unwrap master vaultId (wrap master vaultId key) = some key

/-- Keys wrapped in ideal boxes, which only their own master key opens. -/
def Wrapping.ideal
    (masterKey : Password → BitVec 128 → KdfParams → Option AccountKey → Except VaultError VaultKey) :
    Wrapping where
  masterKey := masterKey
  wrap := fun master vaultId key =>
    { nonce := []
      blob := .sealedWith master [] (.stored vaultId .secret vaultId)
        (.bytes (BigEndian.toBytes 32 key.toNat)) }
  unwrap := fun master vaultId box =>
    match box.blob with
    | .sealedWith key _ aad (.bytes bytes) =>
        if key = master ∧ aad = .stored vaultId .secret vaultId then
          some (.ofNat 256 (BigEndian.ofBytes bytes))
        else none
    | _ => none
  unwrap_wrap := fun master vaultId key => by
    have hlt : key.toNat < 256 ^ 32 := key.isLt
    simp [BigEndian.ofBytes_toBytes 32 hlt]

/-- 64 MiB, three passes, one lane. -/
def KdfParams.recommended : KdfParams := { memoryKib := 64 * 1024, timeCost := 3, parallelism := 1 }

/-- Wrap a vault's key under a password and, for a synced vault, an account key. -/
def UnlockedVault.rewrap (w : Wrapping) (salt : BitVec 128) (vault : UnlockedVault)
    (password : Password) (accountKey : Option AccountKey) (kdf : KdfParams) :
    Except VaultError VaultHeader := do
  let master ← w.masterKey password salt kdf accountKey
  return {
    vaultId := vault.vaultId
    kdf
    salt
    wrappedKey := w.wrap master vault.vaultId vault.key
    needsAccountKey := accountKey.isSome }

namespace VaultHeader

def unlockWith (w : Wrapping) (header : VaultHeader) (password : Password)
    (accountKey : Option AccountKey) : Except VaultError UnlockedVault :=
  if header.needsAccountKey ∧ accountKey = none then .error .needsAccountKey
  else
    match w.masterKey password header.salt header.kdf accountKey with
    | .error e => .error e
    | .ok master =>
        match w.unwrap master header.vaultId header.wrappedKey with
        | none => .error .decrypt
        | some key => .ok { vaultId := header.vaultId, key }

/-- A password, with an account key or without one, gets into a vault. -/
def Opens (w : Wrapping) (header : VaultHeader) (password : Password)
    (accountKey : Option AccountKey) : Prop :=
  ∃ vault, header.unlockWith w password accountKey = .ok vault

/-- With the password alone; a missing account key is no wrong password. -/
def unlock (w : Wrapping) (header : VaultHeader) (password : Password) :
    Except VaultError UnlockedVault :=
  if header.needsAccountKey then .error .needsAccountKey else header.unlockWith w password none

theorem vaultId_of_unlockWith {w : Wrapping} {header : VaultHeader} {password : Password}
    {accountKey : Option AccountKey} {vault : UnlockedVault}
    (h : header.unlockWith w password accountKey = .ok vault) : vault.vaultId = header.vaultId := by
  unfold unlockWith at h
  split at h
  · cases h
  split at h
  · cases h
  split at h
  · cases h
  · cases h
    rfl

/-- A header opens with what its key was wrapped under. -/
theorem unlockWith_of_rewrap {w : Wrapping} {salt : BitVec 128} {vault : UnlockedVault}
    {password : Password} {accountKey : Option AccountKey} {kdf : KdfParams} {header : VaultHeader}
    (h : vault.rewrap w salt password accountKey kdf = .ok header) :
    header.unlockWith w password accountKey = .ok vault := by
  unfold UnlockedVault.rewrap at h
  cases hmaster : w.masterKey password salt kdf accountKey with
  | error e =>
    rw [hmaster] at h
    cases h
  | ok master =>
    rw [hmaster] at h
    cases h
    unfold unlockWith
    have hneeds : ¬ (accountKey.isSome = true ∧ accountKey = none) := by
      rintro ⟨hsome, rfl⟩
      cases hsome
    rw [if_neg hneeds, hmaster]
    dsimp only
    rw [w.unwrap_wrap]

theorem needsAccountKey_of_rewrap {w : Wrapping} {salt : BitVec 128} {vault : UnlockedVault}
    {password : Password} {accountKey : Option AccountKey} {kdf : KdfParams} {header : VaultHeader}
    (h : vault.rewrap w salt password accountKey kdf = .ok header) :
    header.needsAccountKey = accountKey.isSome := by
  unfold UnlockedVault.rewrap at h
  cases hmaster : w.masterKey password salt kdf accountKey with
  | error e =>
    rw [hmaster] at h
    cases h
  | ok master =>
    rw [hmaster] at h
    cases h
    rfl

end VaultHeader

/-- What can go wrong with a header. -/
inductive HeaderError
  | tx (e : TxError)
  | vault (e : VaultError)
  | vaultLocked
deriving DecidableEq

namespace Database

variable {α : Type}

/-- The one place that writes a header. -/
def storeHeader (fault : ℕ → Option TxError) (header : VaultHeader) (db : Database α) :
    Database α × Except TxError Unit :=
  Transaction.commit fault
    [fun db => .ok { db with header := none }, fun db => .ok { db with header := some header }] db

/-- A vault under the password alone, where there is none. -/
def createVaultWith (w : Wrapping) (salt : BitVec 128) (key : VaultKey)
    (fault : ℕ → Option TxError) (password : Password) (kdf : KdfParams) (db : Database α) :
    Database α × Except HeaderError Unit :=
  match db.header with
  | some _ => (db, .error (.tx .vaultExists))
  | none =>
      let unlocked : UnlockedVault := { vaultId := db.store.vaultId, key }
      match unlocked.rewrap w salt password none kdf with
      | .error e => (db, .error (.vault e))
      | .ok header =>
          match db.storeHeader fault header with
          | (t, .ok ()) => (t.onStore fun s => { s with vault := some unlocked }, .ok ())
          | (t, .error e) => (t, .error (.tx e))

/-- The header that wraps the open vault's key anew, without keeping it. -/
def wrapVaultKey (w : Wrapping) (salt : BitVec 128) (password : Password)
    (accountKey : Option AccountKey) (db : Database α) : Except HeaderError VaultHeader :=
  match db.store.vault with
  | none => .error .vaultLocked
  | some vault =>
      (vault.rewrap w salt password accountKey ((db.header.map VaultHeader.kdf).getD .recommended)).mapError
        .vault

/-- Keep a header made by [`wrapVaultKey`]; it has to be one of the open vault. -/
def keepVaultHeader (fault : ℕ → Option TxError) (header : VaultHeader) (db : Database α) :
    Database α × Except HeaderError Unit :=
  match db.store.vault with
  | none => (db, .error .vaultLocked)
  | some vault =>
      if vault.vaultId ≠ header.vaultId then (db, .error (.tx .noVault))
      else
        match db.storeHeader fault header with
        | (t, .ok ()) => (t, .ok ())
        | (t, .error e) => (t, .error (.tx e))

section spec

variable {w : Wrapping} {salt : BitVec 128} {key : VaultKey} {fault : ℕ → Option TxError}
  {password : Password} {accountKey : Option AccountKey} {kdf : KdfParams} {header : VaultHeader}
  {db t : Database α}

theorem storeHeader_ok (h : db.storeHeader fault header = (t, .ok ())) :
    t = { db with header := some header } := by
  have hplay := Transaction.play_of_commit h
  simp only [Transaction.play, Except.bind, Except.ok.injEq] at hplay
  exact hplay.symm

theorem storeHeader_error {e : TxError} (h : db.storeHeader fault header = (t, .error e)) : t = db := by
  have hsame : (db.storeHeader fault header).1 = db :=
    Transaction.commit_error (congrArg Prod.snd h)
  rw [h] at hsame
  exact hsame

/-- A vault that was made opens with its password alone. -/
theorem createVaultWith_spec {result : Except HeaderError Unit}
    (h : db.createVaultWith w salt key fault password kdf = (t, result)) :
    t.other = db.other ∧ (t.header = db.header ∨ ∃ header, t.header = some header ∧
      header.needsAccountKey = false ∧ header.Opens w password none) := by
  unfold createVaultWith at h
  dsimp only at h
  split at h
  · cases h
    exact ⟨rfl, .inl rfl⟩
  split at h
  · cases h
    exact ⟨rfl, .inl rfl⟩
  next header hheader =>
  split at h
  · next u hstored =>
    cases h
    cases storeHeader_ok hstored
    exact ⟨rfl, .inr ⟨header, rfl, VaultHeader.needsAccountKey_of_rewrap hheader,
      _, VaultHeader.unlockWith_of_rewrap hheader⟩⟩
  · next u e hstored =>
    cases h
    cases storeHeader_error hstored
    exact ⟨rfl, .inl rfl⟩

theorem opens_of_wrapVaultKey (h : db.wrapVaultKey w salt password accountKey = .ok header) :
    header.Opens w password accountKey := by
  unfold wrapVaultKey at h
  split at h
  · cases h
  · next vault _ =>
    cases hwrap : vault.rewrap w salt password accountKey
        ((db.header.map VaultHeader.kdf).getD .recommended) with
    | error e =>
      rw [hwrap] at h
      cases h
    | ok wrapped =>
      rw [hwrap] at h
      cases h
      exact ⟨vault, VaultHeader.unlockWith_of_rewrap hwrap⟩

theorem keepVaultHeader_spec {result : Except HeaderError Unit}
    (h : db.keepVaultHeader fault header = (t, result)) :
    t = db ∧ (∃ e, result = .error e) ∨ t = { db with header := some header } ∧ result = .ok () := by
  unfold keepVaultHeader at h
  split at h
  · cases h
    exact .inl ⟨rfl, _, rfl⟩
  split at h
  · cases h
    exact .inl ⟨rfl, _, rfl⟩
  split at h
  · next u hstored =>
    cases h
    exact .inr ⟨storeHeader_ok hstored, rfl⟩
  · next u e hstored =>
    cases h
    exact .inl ⟨storeHeader_error hstored, _, rfl⟩

end spec

end Database

end UwuSsh

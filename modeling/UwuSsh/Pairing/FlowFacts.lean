import UwuSsh.Pairing.Flow

/-!
When a device gets into its own vault after it turned sync on or joined an account. The
account key is kept before the vault is wrapped under it when an account is made, and after it
when one is joined; and a device whose vault is the account's already keeps the header it has.
-/
namespace UwuSsh

section secrets

variable {os : OsSeal} {deviceKey : DeviceKey} {accountKey : Option AccountKey}

theorem exactBytes_toBytes {width : ℕ} (value : BitVec (8 * width)) :
    exactBytes width (BigEndian.toBytes width value.toNat) = some value := by
  have hlt : value.toNat < 256 ^ width := by
    have hpow : (256 : ℕ) ^ width = 2 ^ (8 * width) := by rw [show 256 = 2 ^ 8 by rfl, ← pow_mul]
    rw [hpow]
    exact value.isLt
  unfold exactBytes
  rw [if_pos (BigEndian.length_toBytes _ _), BigEndian.ofBytes_toBytes width hlt,
    BitVec.ofNat_toNat, BitVec.setWidth_eq]

/-- What was sealed is what opens. -/
theorem openKeys_of_sealSecrets {sealedKeys : List UInt8 × Option (List UInt8)}
    (h : Database.sealSecrets os deviceKey accountKey = some sealedKeys) :
    Pairing.openKeys os sealedKeys.1 sealedKeys.2 = .ok (some { deviceKey, accountKey }) := by
  have hdevice : ∀ box, os.protect (deviceKeyBytes deviceKey) = some box →
      os.unprotect box = .ok (deviceKeyBytes deviceKey) := fun box hbox =>
    os.unprotect_protect _ _ hbox
  have hexact : exactBytes 32 (deviceKeyBytes deviceKey) = some deviceKey :=
    @exactBytes_toBytes 32 deviceKey
  unfold Database.sealSecrets at h
  split at h
  · cases h
  · next device hbox =>
    cases h
    unfold Pairing.openKeys Pairing.openAccountKey
    rw [hdevice device hbox]
    dsimp only
    rw [hexact]
  · next device key hbox =>
    obtain ⟨account, hkey, rfl⟩ := Option.map_eq_some_iff.mp h
    have hopens : Pairing.openAccountKey os (some account) = .ok (some (some key)) := by
      unfold Pairing.openAccountKey
      dsimp only
      rw [os.unprotect_protect _ _ hkey]
      have hbytes : exactBytes 16 (accountKeyBytes key) = some key := @exactBytes_toBytes 16 key
      dsimp only
      rw [hbytes]
      rfl
    unfold Pairing.openKeys
    rw [hdevice device hbox]
    dsimp only
    rw [hexact]
    dsimp only
    rw [hopens]

end secrets

section access

variable (w : Wrapping) (os : OsSeal) (password : Password)

/-- A header that lets a person in on this device: with the account key it keeps, or with the
password alone if the header asks for no more. -/
def LetsIn (db : LockDb) (header : VaultHeader) : Prop :=
  (∃ keys, (db.enrolmentKeys os).2 = .ok (some keys) ∧ header.Opens w password keys.accountKey) ∨
    (header.needsAccountKey = false ∧ header.Opens w password none)

/-- The stored header opens with just these two. -/
def OpensWith (accountKey : Option AccountKey) (db : LockDb) : Prop :=
  ∃ header, db.header = some header ∧ header.Opens w password accountKey

/-- A device is not locked out by a flow, and one that went through made good on the password
and the account key it used. -/
structure KeepsAccess (accountKey : Option AccountKey) (before after : LockDb)
    (result : Except FlowError Unit) : Prop where
  letsIn : after.header = before.header ∨
    ∃ header, after.header = some header ∧ LetsIn w os password after header
  used : result = .ok () → OpensWith w password accountKey after

variable {w os password}

theorem KeepsAccess.same {accountKey : Option AccountKey} {before after : LockDb} {error : FlowError}
    (h : after.header = before.header) :
    KeepsAccess w os password accountKey before after (.error error) :=
  ⟨.inl h, nofun⟩

/-- The keys a device keeps are all that counts of its file. -/
theorem LetsIn.congr {before after : LockDb} {header : VaultHeader}
    (h : after.other = before.other) :
    LetsIn w os password after header ↔ LetsIn w os password before header := by
  have hkeys : (after.enrolmentKeys os).2 = (before.enrolmentKeys os).2 := by
    unfold Database.enrolmentKeys
    rw [h]
    split
    · rfl
    split <;> rfl
  unfold LetsIn
  rw [hkeys]

theorem LetsIn.onStore {db : LockDb} {header : VaultHeader} {f : Store → Store}
    (h : LetsIn w os password db header) : LetsIn w os password (db.onStore f) header := by
  have hsame : (db.onStore f).other = db.other := rfl
  exact (LetsIn.congr hsame).mpr h

end access

/-- A try the server lets in with this vault, which then opens. -/
structure Admits (w : Wrapping) (e : Site) (password : Password) (accountKey : Option AccountKey)
    (header : VaultHeader) (vault : UnlockedVault) : Prop where
  connected : e.connect = .ok ()
  admitted : ∃ params loginKey admitted, e.params = .ok params ∧
    ¬ (params.needsAccountKey = true ∧ accountKey = none) ∧
    loginKeyFrom e password params accountKey = .ok loginKey ∧ e.admission loginKey = .ok admitted
  served : e.vault = .ok header
  limits : header.kdf.withinLimits = true
  opens : header.unlockWith w password accountKey = .ok vault

section enrol

variable {w : Wrapping} {e : Site} {password : Password} {accountKey : Option AccountKey}
  {header : VaultHeader} {vault : UnlockedVault}

theorem admits_of_enrol {admitted : Admitted}
    (h : enrol w e password accountKey = .ok (admitted, header, vault)) :
    Admits w e password accountKey header vault := by
  unfold enrol at h
  cases hconnect : e.connect with
  | error error => simp [hconnect, bind, Except.bind] at h
  | ok u =>
  cases hparams : e.params with
  | error error => simp [hconnect, hparams, bind, Except.bind] at h
  | ok params =>
  rw [hconnect, hparams] at h
  change (if params.needsAccountKey = true ∧ accountKey = none then _ else _) = _ at h
  split at h
  · cases h
  next hneeds =>
  cases hlogin : loginKeyFrom e password params accountKey with
  | error error => simp [hlogin, bind, Except.bind] at h
  | ok loginKey =>
  cases hadmit : e.admission loginKey with
  | error error => simp [hlogin, hadmit, bind, Except.bind] at h
  | ok admitted' =>
  cases hvault : e.vault with
  | error error => simp [hlogin, hadmit, hvault, bind, Except.bind] at h
  | ok wire =>
  cases hwire : fromWire wire with
  | error error => simp [hlogin, hadmit, hvault, hwire, bind, Except.bind] at h
  | ok header' =>
  cases hopens : header'.unlockWith w password accountKey with
  | error error =>
    simp [hlogin, hadmit, hvault, hwire, hopens, bind, Except.bind, Except.mapError] at h
  | ok vault' =>
  simp only [hlogin, hadmit, hvault, hwire, hopens, bind, Except.bind, Except.mapError, pure,
    Except.pure, Except.ok.injEq, Prod.mk.injEq] at h
  obtain ⟨-, rfl, rfl⟩ := h
  unfold fromWire at hwire
  split at hwire
  · next hlimits =>
    cases hwire
    exact ⟨hconnect, ⟨params, loginKey, admitted', hparams, hneeds, hlogin, hadmit⟩, hvault, hlimits,
      hopens⟩
  · cases hwire

theorem enrol_of_admits (h : Admits w e password accountKey header vault) :
    ∃ admitted, enrol w e password accountKey = .ok (admitted, header, vault) := by
  obtain ⟨hconnect, ⟨params, loginKey, admitted, hparams, hneeds, hlogin, hadmit⟩, hvault, hlimits,
    hopens⟩ := h
  refine ⟨admitted, ?_⟩
  have hwire : fromWire header = .ok header := if_pos hlimits
  unfold enrol
  rw [hconnect, hparams]
  change (if params.needsAccountKey = true ∧ accountKey = none then _ else _) = _
  rw [if_neg hneeds]
  simp only [hlogin, hadmit, hvault, hwire, hopens, bind, Except.bind, Except.mapError, pure, Except.pure]

end enrol

section joining

variable (w : Wrapping) (e : Site) (password : Password) (accountKey : Option AccountKey) (db : LockDb)

/-- Nothing keeps the pairing from being written down. -/
def PairingSaved : Prop :=
  Database.sealSecrets e.os e.deviceKey accountKey ≠ none ∧ e.saveFault = none

/-- When joining keeps the promise: where the account's vault is taken over but the account key
is not kept, the header has to open without it; and where the vault is the account's already,
the header here has to open with what was used. -/
structure SafeJoin (header : VaultHeader) (vault : UnlockedVault) : Prop where
  kept : db.store.vaultId ≠ header.vaultId → db.CanReseal →
    (∀ i ≤ (db.adoptSteps header vault.key .push .ok).length, e.adoptFault i = none) →
    ¬ PairingSaved e accountKey → db.header = some header ∨ LetsIn w e.os password db header
  current : db.store.vaultId = header.vaultId → PairingSaved e accountKey → e.floorFault = none →
    OpensWith w password accountKey db

end joining

/-- One of the three ways in. -/
inductive Enrolling
  | create (setup : Setup) (accountKey : AccountKey)
  | join (handover : Except FlowError Handover)
  | joinSso (setup : Setup) (accountKey : Option AccountKey)

namespace Enrolling

variable (w : Wrapping) (e : Site) (password : Password)

def run (db : LockDb) : Enrolling → LockDb × Except FlowError Unit
  | create setup accountKey => createAccount w e password setup accountKey db
  | join handover => UwuSsh.join w e password handover db
  | joinSso setup accountKey => UwuSsh.joinSso w e password setup accountKey db

/-- The account key a flow uses. -/
def accountKey : Enrolling → Option AccountKey
  | create _ accountKey => some accountKey
  | join (.error _) => none
  | join (.ok handover) => handover.accountKey
  | joinSso _ accountKey => accountKey

/-- A flow that joins with what the person has: a ticket alone wants the server to know of
the account key. -/
def Joins : Enrolling → Prop
  | create .. => False
  | join (.error _) => False
  | join (.ok _) => True
  | joinSso _ accountKey => ∀ params, e.params = .ok params →
      ¬ (params.needsAccountKey = false ∧ accountKey.isSome)

/-- When a flow keeps the promise. -/
def Safe (db : LockDb) (how : Enrolling) : Prop :=
  how.Joins e → ∀ header vault, Admits w e password how.accountKey header vault →
    SafeJoin w e password how.accountKey db header vault

end Enrolling

section keeps

variable {w : Wrapping} {e : Site} {password : Password} {accountKey : Option AccountKey} {db t : LockDb}
  {setup : Setup} {admitted : Admitted}

theorem saveEnrolment_spec {result : Except FlowError Unit}
    (h : db.saveEnrolment e setup admitted accountKey = (t, result)) :
    t.header = db.header ∧ t.store = db.store ∧
    (¬ PairingSaved e accountKey ∧ t = db ∧ (∃ error, result = .error error) ∨
      PairingSaved e accountKey ∧ result = .ok () ∧
        ∃ keys, (t.enrolmentKeys e.os).2 = .ok (some keys) ∧ keys.accountKey = accountKey) := by
  unfold Database.saveEnrolment at h
  split at h
  · next hseal =>
    cases h
    exact ⟨rfl, rfl, .inl ⟨fun hsaved => hsaved.1 hseal, rfl, _, rfl⟩⟩
  next sealedKeys hseal =>
  split at h
  · next error hfault =>
    cases h
    refine ⟨rfl, rfl, .inl ⟨fun hsaved => ?_, rfl, _, rfl⟩⟩
    have hnone := hsaved.2
    rw [hfault] at hnone
    cases hnone
  · next hfault =>
    cases h
    refine ⟨rfl, rfl, .inr ⟨⟨by simp [hseal], hfault⟩, rfl,
      { deviceKey := e.deviceKey, accountKey }, ?_, rfl⟩⟩
    unfold Database.enrolmentKeys
    dsimp only
    rw [openKeys_of_sealSecrets hseal]

/-- A device whose vault is the account's already goes on with the header it has. -/
theorem sameVault_keepsAccess_iff {header : VaultHeader} {vault : UnlockedVault} (floor : Store → Store)
    (hsame : db.store.vaultId = header.vaultId) :
    KeepsAccess w e.os password accountKey db (rememberThen e setup admitted accountKey floor db).1
        (rememberThen e setup admitted accountKey floor db).2 ↔
      SafeJoin w e password accountKey db header vault := by
  unfold rememberThen
  cases hsave : db.saveEnrolment e setup admitted accountKey with
  | mk u result =>
    obtain ⟨hheader, -, ⟨hnot, rfl, error, rfl⟩ | ⟨hsaved, rfl, -⟩⟩ := saveEnrolment_spec hsave
    · exact iff_of_true (.same rfl) ⟨fun hother => absurd hsame hother, fun _ hsaved => absurd hsaved hnot⟩
    · dsimp only
      cases hfloor : e.floorFault with
      | some error =>
        refine iff_of_true (.same hheader) ⟨fun hother => absurd hsame hother, fun _ _ hnone => ?_⟩
        rw [hfloor] at hnone
        cases hnone
      | none =>
        have hopens : OpensWith w password accountKey (u.onStore floor) ↔
            OpensWith w password accountKey db := by
          unfold OpensWith
          rw [← hheader]
          rfl
        constructor
        · intro h
          exact ⟨fun hother => absurd hsame hother, fun _ _ _ => hopens.mp (h.used rfl)⟩
        · intro h
          exact ⟨.inl hheader, fun _ => hopens.mpr (h.current hsame hsaved hfloor)⟩

/-- A device that took over another vault has its header, and the account key only if the
pairing was kept. -/
theorem otherVault_keepsAccess_iff {header : VaultHeader} {vault : UnlockedVault}
    (floor : Store → Store) (hother : db.store.vaultId ≠ header.vaultId)
    (hadopt : db.adoptVault e.adoptFault header vault.key = (t, .ok ()))
    (hopens : header.Opens w password accountKey) :
    KeepsAccess w e.os password accountKey db (rememberThen e setup admitted accountKey floor t).1
        (rememberThen e setup admitted accountKey floor t).2 ↔
      SafeJoin w e password accountKey db header vault := by
  obtain ⟨hcan, hfaults⟩ := (Database.adoptVault_ok_iff hother).mp ⟨t, hadopt⟩
  obtain ⟨other, halso, hfile⟩ := Database.adopt_file hother hadopt
  cases halso
  have hheader : t.header = some header := congrArg Database.header hfile
  have hpairing : t.other = db.other := by rw [hfile]
  unfold rememberThen
  cases hsave : t.saveEnrolment e setup admitted accountKey with
  | mk u result =>
    obtain ⟨hkept, -, ⟨hnot, rfl, error, rfl⟩ | ⟨hsaved, rfl, keys, hkeys, hkey⟩⟩ :=
      saveEnrolment_spec hsave
    · dsimp only
      constructor
      · intro h
        refine ⟨fun _ _ _ _ => ?_, fun hsame => absurd hsame hother⟩
        rcases h.letsIn with hbefore | ⟨header', hsome, hin⟩
        · exact .inl (hbefore.symm.trans hheader)
        · cases hheader.symm.trans hsome
          exact .inr ((LetsIn.congr hpairing).mp hin)
      · intro h
        refine ⟨?_, nofun⟩
        rcases h.kept hother hcan hfaults hnot with hbefore | hin
        · exact .inl (hheader.trans hbefore.symm)
        · exact .inr ⟨header, hheader, (LetsIn.congr hpairing).mpr hin⟩
    · have hnow : u.header = some header := hkept.trans hheader
      have hin : LetsIn w e.os password u header := .inl ⟨keys, hkeys, hkey ▸ hopens⟩
      dsimp only
      refine iff_of_true ?_ ⟨fun _ _ _ hnot => absurd hsaved hnot, fun hsame => absurd hsame hother⟩
      cases e.floorFault with
      | some error => exact ⟨.inr ⟨header, hnow, hin⟩, nofun⟩
      | none =>
        exact ⟨.inr ⟨header, hnow, LetsIn.onStore hin⟩,
          fun _ => ⟨header, hnow, hopens⟩⟩

/-- Taking over an account keeps the promise just when the join is a safe one. -/
theorem takeAccount_keepsAccess_iff (floor : Store → Store) :
    KeepsAccess w e.os password accountKey db (takeAccount w e password setup accountKey floor db).1
        (takeAccount w e password setup accountKey floor db).2 ↔
      ∀ header vault, Admits w e password accountKey header vault →
        SafeJoin w e password accountKey db header vault := by
  cases henrol : enrol w e password accountKey with
  | error error =>
    have hnot : ∀ header vault, ¬ Admits w e password accountKey header vault := by
      intro header vault hadmits
      obtain ⟨admitted, hok⟩ := enrol_of_admits hadmits
      rw [henrol] at hok
      cases hok
    unfold takeAccount
    rw [henrol]
    exact ⟨fun _ header vault h => absurd h (hnot header vault), fun _ => .same rfl⟩
  | ok found =>
    obtain ⟨admitted, header, vault⟩ := found
    have hadmits := admits_of_enrol henrol
    have honly : (∀ header vault, Admits w e password accountKey header vault →
        SafeJoin w e password accountKey db header vault) ↔
          SafeJoin w e password accountKey db header vault := by
      refine ⟨fun h => h header vault hadmits, fun h header' vault' hadmits' => ?_⟩
      obtain ⟨admitted', hok⟩ := enrol_of_admits hadmits'
      rw [henrol] at hok
      cases hok
      exact h
    rw [honly]
    unfold takeAccount
    rw [henrol]
    dsimp only
    by_cases hsame : db.store.vaultId = header.vaultId
    · have hadopt : db.adoptVault e.adoptFault header vault.key = (db, .ok ()) := by
        unfold Database.adoptVault Database.adopt
        exact if_pos hsame
      rw [hadopt]
      dsimp only
      exact sameVault_keepsAccess_iff floor hsame
    · cases hadopt : db.adoptVault e.adoptFault header vault.key with
      | mk t result =>
        cases result with
        | error error =>
          have hback : t = db := by
            have hfailed : (db.adoptVault e.adoptFault header vault.key).1 = db :=
              Database.adopt_error (congrArg Prod.snd hadopt)
            rw [hadopt] at hfailed
            exact hfailed
          refine iff_of_true (.same (by rw [hback])) ⟨fun _ hcan hfaults _ => ?_, fun h => absurd h hsame⟩
          obtain ⟨u, hu⟩ := (Database.adoptVault_ok_iff hsame).mpr ⟨hcan, hfaults⟩
          rw [hadopt] at hu
          cases hu
        | ok _ =>
          dsimp only
          exact otherVault_keepsAccess_iff floor hsame hadopt ⟨_, hadmits.opens⟩

/-- A header from before, or one under the password alone, locks nobody out. -/
theorem KeepsAccess.alone {os : OsSeal} {error : FlowError}
    (h : t.header = db.header ∨ ∃ header, t.header = some header ∧
      header.needsAccountKey = false ∧ header.Opens w password none) :
    KeepsAccess w os password accountKey db t (.error error) := by
  refine ⟨h.imp_right fun halone => ?_, nofun⟩
  obtain ⟨header, hsome, hneeds, hopens⟩ := halone
  exact ⟨header, hsome, .inr ⟨hneeds, hopens⟩⟩

/-- Making an account never wraps the vault under a key the device does not keep. -/
theorem createAccount_keepsAccess (accountKey : AccountKey) :
    KeepsAccess w e.os password (some accountKey) db (createAccount w e password setup accountKey db).1
      (createAccount w e password setup accountKey db).2 := by
  unfold createAccount
  cases hmade : (if db.header = none then
      db.createVaultWith w e.salts.1 e.vaultKey e.createFault password .recommended
    else (db, .ok ()) : LockDb × Except HeaderError Unit) with
  | mk t result =>
  have halone : t.header = db.header ∨ ∃ header, t.header = some header ∧
      header.needsAccountKey = false ∧ header.Opens w password none := by
    split at hmade
    · exact (Database.createVaultWith_spec hmade).2
    · cases hmade
      exact .inl rfl
  dsimp only
  cases result with
  | error error => exact .alone halone
  | ok _ =>
  dsimp only
  cases hwrap : t.wrapVaultKey w e.salts.2 password (some accountKey) with
  | error error => exact .alone halone
  | ok header =>
  dsimp only
  split
  · exact .alone halone
  next admitted _ =>
  cases hsave : t.saveEnrolment e setup admitted (some accountKey) with
  | mk u result =>
  obtain ⟨hheader, -, ⟨-, rfl, error, rfl⟩ | ⟨-, rfl, keys, hkeys, hkey⟩⟩ := saveEnrolment_spec hsave
  · exact .alone halone
  dsimp only
  cases hkeep : u.keepVaultHeader e.keepFault header with
  | mk v result =>
  have hopens := Database.opens_of_wrapVaultKey hwrap
  rcases Database.keepVaultHeader_spec hkeep with ⟨rfl, error, rfl⟩ | ⟨rfl, rfl⟩
  · refine .alone ?_
    rw [hheader]
    exact halone
  · refine ⟨.inr ⟨header, rfl, .inl ⟨keys, ?_, hkey ▸ hopens⟩⟩, fun _ => ⟨header, rfl, hopens⟩⟩
    have hsame : (Database.enrolmentKeys e.os { u with header := some header }).2 =
        (u.enrolmentKeys e.os).2 := by
      unfold Database.enrolmentKeys
      dsimp only
      split
      · rfl
      split <;> rfl
    exact hsame.trans hkeys

end keeps

/-- Turning sync on never locks a device out; joining keeps the promise just when the pairing is
kept after another vault was taken over, or the header does without it, and when a header that
stays opens with what was used. -/
theorem enrolling_keepsAccess_iff (w : Wrapping) (e : Site) (password : Password) (how : Enrolling)
    (db : LockDb) :
    KeepsAccess w e.os password how.accountKey db (how.run w e password db).1
      (how.run w e password db).2 ↔ how.Safe w e password db := by
  cases how with
  | create setup accountKey =>
    exact iff_of_true (createAccount_keepsAccess accountKey) fun hjoins => hjoins.elim
  | join handover =>
    cases handover with
    | error error => exact iff_of_true (.same rfl) fun hjoins => hjoins.elim
    | ok handover =>
      refine (takeAccount_keepsAccess_iff _).trans ?_
      exact ⟨fun h _ => h, fun h => h trivial⟩
  | joinSso setup accountKey =>
    unfold Enrolling.Safe Enrolling.run joinSso
    dsimp only
    cases hfirst : e.connect.bind fun _ => e.params with
    | error error =>
      refine iff_of_true (.same rfl) fun _ header vault hadmits => ?_
      obtain ⟨params, -, -, hparams, -⟩ := hadmits.admitted
      rw [hadmits.connected] at hfirst
      cases hparams.symm.trans hfirst
    | ok params =>
      have hparams : e.params = .ok params := by
        cases hconnect : e.connect with
        | error error =>
          rw [hconnect] at hfirst
          cases hfirst
        | ok _ =>
          rw [hconnect] at hfirst
          exact hfirst
      have hjoins : (Enrolling.joinSso setup accountKey).Joins e ↔
          ¬ (params.needsAccountKey = false ∧ accountKey.isSome) := by
        refine ⟨fun h => h params hparams, fun h params' hparams' => ?_⟩
        cases hparams.symm.trans hparams'
        exact h
      dsimp only
      split
      · next hunexpected => exact iff_of_true (.same rfl) fun h => absurd hunexpected (hjoins.mp h)
      · next hexpected =>
        refine (takeAccount_keepsAccess_iff _).trans ?_
        exact ⟨fun h _ => h, fun h => h (hjoins.mpr hexpected)⟩

section examples

/-- Boxes that only the operating system opens; it refuses to seal an account key. -/
def refusingOs : OsSeal where
  protect := fun plain => if plain.length = 16 then none else some plain
  unprotect := .ok
  unprotect_protect := fun plain box h => by
    split at h
    · cases h
    · cases h
      rfl

/-- Each password and account key lead to a master key of their own. -/
def plainWrapping : Wrapping := .ideal fun password _ _ accountKey =>
  .ok (.ofNat 256 (BigEndian.ofBytes password * 2 ^ 130 + (accountKey.map fun key => key.toNat + 1).getD 0))

def accountHeader : VaultHeader where
  vaultId := 9
  kdf := .recommended
  salt := 0
  wrappedKey := plainWrapping.wrap (.ofNat 256 (2 ^ 130 + 6)) 9 42
  needsAccountKey := true

/-- A device with its own vault joins while the operating system refuses. -/
def refusingSite : Site where
  os := refusingOs
  connect := .ok ()
  params := .ok { salt := [], kdf := .recommended, needsAccountKey := true }
  deriveLogin := fun _ _ _ _ => .ok []
  admission := fun _ => .ok { accountId := 1, deviceId := 2 }
  vault := .ok accountHeader
  deviceKey := 1
  vaultKey := 1
  salts := (0, 0)
  nowMs := 0
  createFault := fun _ => none
  adoptFault := fun _ => none
  saveFault := none
  floorFault := none
  keepFault := fun _ => none

def emptyDevice : LockDb where
  store := Store.empty 1 7 none
  header := none
  deviceUnlock := none
  lastSyncMs := none
  other :=
    { pairing := .none
      lock :=
        { active := false, serverUrl := none, email := none, spaceId := none
          protectedRefreshToken := none, signedInMs := none, moveStartedMs := none }
      accounts := ∅ }

/-- The vault is wrapped under an account key that nobody kept. -/
theorem join_locks_out : ¬ ∀ (w : Wrapping) (e : Site) (password : Password) (how : Enrolling)
    (db : LockDb), KeepsAccess w e.os password how.accountKey db (how.run w e password db).1
      (how.run w e password db).2 := by
  intro hall
  have hkeeps := hall plainWrapping refusingSite [1]
    (.joinSso { serverUrl := "https://sync.example", tlsFingerprint := none } (some 5)) emptyDevice
  have hheader : ((Enrolling.joinSso { serverUrl := "https://sync.example", tlsFingerprint := none }
      (some 5)).run plainWrapping refusingSite [1] emptyDevice).1.header = some accountHeader := by
    decide +kernel
  have hkeys : (((Enrolling.joinSso { serverUrl := "https://sync.example", tlsFingerprint := none }
      (some 5)).run plainWrapping refusingSite [1] emptyDevice).1.enrolmentKeys refusingOs).2 =
        .ok none := by rfl
  rcases hkeeps.letsIn with hbefore | ⟨header, hsome, hin⟩
  · rw [hheader] at hbefore
    cases hbefore
  · cases hheader.symm.trans hsome
    rcases hin with ⟨keys, hsome, -⟩ | ⟨hneeds, -⟩
    · cases hkeys.symm.trans hsome
    · cases hneeds

end examples

end UwuSsh

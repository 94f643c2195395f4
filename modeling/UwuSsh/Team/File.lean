import UwuSsh.Store.Reseal
import UwuSsh.Team.Keys

/-!
The file of a team. It is a store like any other, with the team's id as its vault id
and the team key as its vault key, and one row more: the number of the key (the epoch) with
a value sealed under it that tells the key from a wrong one, a rotation this device began,
and whether this device owes the team a key. A change of key is one transaction.
-/
namespace UwuSsh

/-- A rotation this device began: the new key, sealed under the key before it. -/
structure PendingRotation where
  epoch : ℕ
  box : Sealed
  /-- History, not in the row: whom the new key was wrapped for. -/
  wrappedFor : List Uuid
deriving DecidableEq

structure TeamRow where
  teamId : Uuid
  epoch : ℕ
  check : Sealed
  /-- Once everything was pulled, what the server does not hold goes back to it. -/
  requeue : Bool
  pending : Option PendingRotation
  rotationOwed : Bool
deriving DecidableEq

abbrev TeamFile := Database (Option TeamRow)

/-- What becomes of the records when the key changes. -/
inductive Rekey
  | lead
  | follow
  | readOnly
deriving DecidableEq

/-- The record id the check value is sealed under. -/
def checkId (team : Uuid) : Uuid := team ^^^ 0x7577757373682d7465616d2d6b657921

/-- The record id a pending rotation key is sealed under. -/
def pendingId (team : Uuid) (epoch : ℕ) : Uuid :=
  team ^^^ 0x7577757373682d726f74617465000000 ^^^ .ofNat 128 epoch

def checkPlain : Plain := .bytes (utf8Bytes "uwussh/team-key/v1")

def keyPlain (key : VaultKey) : Plain := .bytes (BigEndian.toBytes 32 key.toNat)

def keyOfPlain : Plain → Option VaultKey
  | .bytes bytes => if bytes.length = 32 then some (.ofNat 256 (BigEndian.ofBytes bytes)) else none
  | .json _ => none

@[simp] theorem keyOfPlain_keyPlain (key : VaultKey) : keyOfPlain (keyPlain key) = some key := by
  have hlt : key.toNat < 256 ^ 32 := by
    have hbits := key.isLt
    norm_num at hbits ⊢
    exact hbits
  simp [keyOfPlain, keyPlain, BigEndian.ofBytes_toBytes 32 hlt]

/-- The database's integers are signed; an epoch above that is none a server gets to by counting. -/
def epochColumn (epoch : ℕ) : Except TxError ℕ :=
  if epoch < 2 ^ 63 then .ok epoch else .error (.store (.invalid "epoch" "out of range"))

def derivedId (label : String) (team account : Uuid) : Uuid :=
  .ofNat 128 (BigEndian.ofBytes ((Sha256.digest (utf8Bytes label ++
    BigEndian.toBytes 16 team.toNat ++ BigEndian.toBytes 16 account.toNat)).take 16))

/-- The record id a confirmed key was kept under in the team's own store by an earlier build. -/
def mailboxPinId (team account : Uuid) : Uuid := derivedId "uwussh/team/member-pin/v1" team account

/-- The header a team's store carries; nothing opens what it wraps. -/
def headerFor (vault : UnlockedVault) : VaultHeader where
  vaultId := vault.vaultId
  kdf := { memoryKib := 8, timeCost := 1, parallelism := 1 }
  salt := 0
  wrappedKey := { nonce := UnlockedVault.freshNonce, blob := .raw [] }
  needsAccountKey := false

/-- What a change of key does to a row; a leader sends deletions too, the server forgot those. -/
def Row.rekeyed {β : Type} (how : Rekey) (row : Row β) : Row β :=
  { row with
    serverSeq := 0
    dirty := row.dirty || (how == .lead && Store.realClock row.updatedAt) }

/-- A row the server did not send back goes to it again. -/
def Row.requeued {β : Type} (row : Row β) : Row β :=
  if !row.dirty ∧ row.serverSeq = 0 ∧ Store.realClock row.updatedAt then { row with dirty := true }
  else row

namespace Store

/-- Tombstone a secret and drop its ciphertext with it. -/
def forgetSecret (s : Store) (nowMs : UInt64) (id : Uuid) : Store :=
  let (s', clock) := s.tick nowMs
  s'.updateRow .secret id fun row =>
    if row.deleted then row
    else
      { row with
        cols := ({ nonce := [], blob := .raw [] } : Sealed)
        deleted := true, rev := row.rev + 1, dirty := true, updatedAt := clock }

end Store

namespace TeamFile

/-- The key of a team's file from here on, with its epoch. -/
def writeKey (vault : UnlockedVault) (epoch : ℕ) (requeue : Bool) :
    Transaction.Statement TeamFile TxError := fun file =>
  (epochColumn epoch).map fun epoch =>
    let check := vault.sealStored (checkId vault.vaultId) .secret checkPlain
    let row : TeamRow := match file.other with
      | none =>
          { teamId := vault.vaultId, epoch, check, requeue, pending := none, rotationOwed := false }
      | some row => { row with teamId := vault.vaultId, epoch, check, requeue, pending := none }
    { file with header := some (headerFor vault), deviceUnlock := none, other := some row }

/-- Make a new, empty store the vault of a team, open under a key. -/
def teamBegin (team : Uuid) (epoch : ℕ) (key : VaultKey) (file : TeamFile) :
    Except TxError TeamFile :=
  let vault : UnlockedVault := { vaultId := team, key }
  if file.header.isSome then .error .vaultExists
  else
    (writeKey vault epoch false (file.onStore fun s => { s with vaultId := team })).map
      (Database.onStore fun s => { s with vault := some vault })

/-- Open a team's store with the key the server handed out for an epoch. Nothing when that
is not the key this store is sealed under. -/
def teamUnlock (epoch : ℕ) (key : VaultKey) (file : TeamFile) : Option TeamFile :=
  file.other.bind fun row =>
    let vault : UnlockedVault := { vaultId := row.teamId, key }
    if row.epoch = epoch ∧ vault.openStored (checkId row.teamId) .secret row.check = some checkPlain then
      some (file.onStore fun s => { s with vault := some vault })
    else none

def rekeySteps (old new : UnlockedVault) (epoch : ℕ) (how : Rekey) (file : TeamFile) :
    List (Transaction.Statement TeamFile TxError) :=
  Database.resealAll (some old) new file.store ++
    (syncedKinds.map fun kind file =>
      .ok (Database.onStore (fun s => s.mapTable kind (Row.rekeyed how)) file)) ++
    [fun file => .ok (file.onStore Store.forgetManifests),
      fun file => .ok { file.onStore fun s => { s with cursor := 0 } with lastSyncMs := none },
      writeKey new epoch (how == .follow)]

/-- Change the key: the store is sealed under another key of another epoch from here on. -/
def teamRekey (epoch : ℕ) (key : VaultKey) (how : Rekey) (file : TeamFile) :
    Except TxError TeamFile :=
  match file.store.vault, file.other with
  | none, _ => .error (.store .vaultLocked)
  | some _, none => .error .noVault
  | some old, some _ =>
      let new : UnlockedVault := { vaultId := old.vaultId, key }
      (Transaction.play (rekeySteps old new epoch how file) file).map
        (Database.onStore fun s => { s with vault := some new })

/-- After a change of key by somebody else and a pull to the end: every record the server
did not send back waits again. Returns how many. -/
def teamRequeue (file : TeamFile) : TeamFile × ℕ :=
  match file.other with
  | some row =>
      if row.requeue then
        let queued := (syncedKinds.map fun kind =>
          (file.store.tables kind).entries.countP fun e =>
            !e.2.dirty && e.2.serverSeq = 0 && Store.realClock e.2.updatedAt).sum
        ({ file.onStore fun s => s.mapTables syncedKinds fun _ => Row.requeued with
            other := some { row with requeue := false } }, queued)
      else (file, 0)
  | none => (file, 0)

/-- Note, before asking the server to rotate, the key the team is about to get. -/
def teamNoteRotation (epoch : ℕ) (key : VaultKey) (wrappedFor : List Uuid) (file : TeamFile) :
    Except TxError TeamFile :=
  match epochColumn epoch, file.store.vault, file.other with
  | .error e, _, _ => .error e
  | .ok _, none, _ => .error (.store .vaultLocked)
  | .ok _, some _, none => .error .noVault
  | .ok epoch, some vault, some row =>
      let box := vault.sealStored (pendingId vault.vaultId epoch) .secret (keyPlain key)
      .ok { file with other := some { row with pending := some { epoch, box, wrappedFor } } }

/-- The key of a rotation this device began and has not seen the end of. One that does
not open was noted under a key that is gone. -/
def teamPendingRotation (file : TeamFile) : Except TxError (Option (ℕ × VaultKey)) :=
  match file.other.bind TeamRow.pending, file.store.vault with
  | none, _ => .ok none
  | some _, none => .error (.store .vaultLocked)
  | some pending, some vault =>
      .ok (((vault.openStored (pendingId vault.vaultId pending.epoch) .secret pending.box).bind
        keyOfPlain).map fun key => (pending.epoch, key))

def teamForgetRotation (file : TeamFile) : TeamFile :=
  { file with other := file.other.map fun row => { row with pending := none } }

/-- Note that this device took a member out and owes the team a new key, or that it has given it. -/
def teamOweRotation (owed : Bool) (file : TeamFile) : Except TxError TeamFile :=
  match file.other with
  | none => .error .noVault
  | some row => .ok { file with other := some { row with rotationOwed := owed } }

/-- A confirmed key an earlier build left in the team's store goes; nothing reads these. -/
def teamDropMailboxPin (account : Uuid) (nowMs : UInt64) (file : TeamFile) :
    Except TxError TeamFile :=
  match file.other with
  | none => .error .noVault
  | some row =>
      let id := mailboxPinId row.teamId account
      if (file.store.row? .secret id).any fun row => !row.deleted then
        .ok (file.onStore fun s => s.forgetSecret nowMs id)
      else .ok file

/-- The file is sealed under a key of an epoch, and open under no other. -/
structure HoldsKey (file : TeamFile) (team : Uuid) (epoch : ℕ) (key : VaultKey) (row : TeamRow) :
    Prop where
  here : file.other = some row
  ofTeam : row.teamId = team
  ofEpoch : row.epoch = epoch
  sealedUnder : row.check =
    UnlockedVault.sealStored { vaultId := team, key } (checkId team) .secret checkPlain
  opensWith : ∀ v, file.store.vault = some v → v = { vaultId := team, key }

section spec

variable {file t : TeamFile} {team : Uuid} {epoch epoch' : ℕ} {key key' : VaultKey} {row row' : TeamRow}

/-- A step that keeps the key and the open vault keeps the file's key. -/
theorem HoldsKey.keep (h : HoldsKey file team epoch key row) (hrow : t.other = some row')
    (hteam : row'.teamId = row.teamId) (hepoch : row'.epoch = row.epoch)
    (hcheck : row'.check = row.check) (hvault : t.store.vault = file.store.vault) :
    HoldsKey t team epoch key row' where
  here := hrow
  ofTeam := hteam.trans h.ofTeam
  ofEpoch := hepoch.trans h.ofEpoch
  sealedUnder := hcheck.trans h.sealedUnder
  opensWith := fun v hv => h.opensWith v (hvault ▸ hv)

theorem epochColumn_ok (h : epochColumn epoch = .ok epoch') : epoch' = epoch := by
  unfold epochColumn at h
  split at h
  · exact (Except.ok.inj h).symm
  · cases h

theorem writeKey_ok {vault : UnlockedVault} {requeue : Bool}
    (h : writeKey vault epoch requeue file = .ok t) :
    t.store = file.store ∧ ∃ row, t.other = some row ∧ row.teamId = vault.vaultId ∧
      row.epoch = epoch ∧
      row.check = vault.sealStored (checkId vault.vaultId) .secret checkPlain ∧
      row.pending = none ∧ row.requeue = requeue ∧
      row.rotationOwed = file.other.any TeamRow.rotationOwed := by
  unfold writeKey at h
  cases hcolumn : epochColumn epoch with
  | error e =>
    rw [hcolumn] at h
    cases h
  | ok e =>
    obtain rfl := epochColumn_ok hcolumn
    rw [hcolumn] at h
    have h := Except.ok.inj h
    subst h
    cases file.other with
    | none => exact ⟨rfl, _, rfl, rfl, rfl, rfl, rfl, rfl, rfl⟩
    | some row => exact ⟨rfl, _, rfl, rfl, rfl, rfl, rfl, rfl, rfl⟩

/-- A team's store that was just made. -/
theorem teamBegin_ok (h : teamBegin team epoch key file = .ok t) :
    ∃ row, HoldsKey t team epoch key row ∧ row.pending = none ∧
      t.store.vault = some { vaultId := team, key } ∧
      row.rotationOwed = file.other.any TeamRow.rotationOwed := by
  unfold teamBegin at h
  dsimp only at h
  split at h
  · cases h
  · cases hwrite : writeKey { vaultId := team, key } epoch false
        (file.onStore fun s => { s with vaultId := team }) with
    | error e =>
      rw [hwrite] at h
      cases h
    | ok u =>
      rw [hwrite] at h
      cases h
      obtain ⟨hstore, row, hrow, hteam, hepoch, hcheck, hpending, -, howed⟩ := writeKey_ok hwrite
      refine ⟨row, ⟨hrow, hteam, hepoch, hcheck, ?_⟩, hpending, rfl, howed⟩
      intro v hv
      exact (Option.some.inj hv).symm

/-- Only the key a file is sealed under opens it. -/
theorem teamUnlock_some (h : HoldsKey file team epoch key row)
    (hunlock : teamUnlock epoch' key' file = some t) : epoch' = epoch ∧ key' = key ∧
      HoldsKey t team epoch key row ∧ t.store.vault = some { vaultId := team, key } := by
  unfold teamUnlock at hunlock
  rw [h.here, Option.bind_some] at hunlock
  dsimp only at hunlock
  split at hunlock
  · next hfits =>
    obtain ⟨hepoch, hopen⟩ := hfits
    rw [h.sealedUnder, h.ofTeam] at hopen
    have hkey : key' = key := by
      by_contra hne
      simp [UnlockedVault.openStored, UnlockedVault.decrypt, UnlockedVault.sealStored,
        UnlockedVault.encrypt, Ne.symm hne] at hopen
    cases hunlock
    subst hkey
    refine ⟨by rw [← hepoch, h.ofEpoch], rfl, ⟨h.here, h.ofTeam, h.ofEpoch, h.sealedUnder, ?_⟩, ?_⟩
    · intro v hv
      rw [h.ofTeam] at hv
      exact (Option.some.inj hv).symm
    · change some _ = some _
      rw [h.ofTeam]
  · cases hunlock

theorem play_mapTables_other {how : Rekey} (h : Transaction.play (syncedKinds.map fun kind file =>
      .ok (Database.onStore (fun s => s.mapTable kind (Row.rekeyed how)) file) :
        List (Transaction.Statement TeamFile TxError)) file = .ok t) :
    t = file.onStore fun s => s.mapTables syncedKinds fun _ => Row.rekeyed how := by
  have hfold := Transaction.play_pure
    (fun kind file => Database.onStore (fun s => s.mapTable kind (Row.rekeyed how)) file) h
  rw [hfold, Database.foldl_onStore]
  rfl

/-- What a change of key comes to. -/
theorem teamRekey_ok {how : Rekey} (h : HoldsKey file team epoch key row)
    (hrekey : teamRekey epoch' key' how file = .ok t) : ∃ row', HoldsKey t team epoch' key' row' ∧
      row'.pending = none ∧ row'.rotationOwed = row.rotationOwed ∧
      row'.requeue = (how == .follow) ∧ t.store.vault = some { vaultId := team, key := key' } := by
  unfold teamRekey at hrekey
  rw [h.here] at hrekey
  split at hrekey
  · cases hrekey
  · cases hrekey
  next old _ hvault hsome =>
  dsimp only at hrekey
  have hold := h.opensWith old hvault
  subst hold
  cases hplay : Transaction.play (rekeySteps { vaultId := team, key } { vaultId := team, key := key' }
      epoch' how file) file with
  | error e =>
    rw [hplay] at hrekey
    cases hrekey
  | ok u =>
    rw [hplay] at hrekey
    cases hrekey
    obtain ⟨w, hw, hlast⟩ := Transaction.play_append.mp hplay
    obtain ⟨v, hreseal, htables⟩ := Transaction.play_append.mp hw
    obtain ⟨hframe, -, -⟩ := @Database.resealAll_spec _ (some { vaultId := team, key }) _ _ _ hreseal
    have hw := play_mapTables_other htables
    obtain ⟨x, hx, hcursor⟩ := Transaction.play_cons.mp hlast
    obtain ⟨y, hy, hwrite⟩ := Transaction.play_cons.mp hcursor
    obtain ⟨z, hz, hend⟩ := Transaction.play_cons.mp hwrite
    obtain rfl := Except.ok.inj hx
    obtain rfl := Except.ok.inj hy
    obtain rfl := Except.ok.inj hend
    obtain ⟨-, row', hrow', hteam, hepoch, hcheck, hpending, hrequeue, howed⟩ := writeKey_ok hz
    have hother : v.other = some row := by rw [hframe.file, h.here]
    refine ⟨row', ⟨hrow', hteam, hepoch, hcheck, ?_⟩, hpending, ?_, hrequeue, rfl⟩
    · intro v' hv'
      exact (Option.some.inj hv').symm
    · rw [howed, hw]
      simp [Database.onStore, hother]

theorem teamNoteRotation_ok {wrappedFor : List Uuid} (h : HoldsKey file team epoch key row)
    (hnote : teamNoteRotation epoch' key' wrappedFor file = .ok t) :
    ∃ row', HoldsKey t team epoch key row' ∧ row'.rotationOwed = row.rotationOwed ∧
      t.store.vault = file.store.vault ∧ row'.pending = some
        { epoch := epoch', wrappedFor, box := UnlockedVault.sealStored { vaultId := team, key }
            (pendingId team epoch') .secret (keyPlain key') } := by
  unfold teamNoteRotation at hnote
  split at hnote
  · cases hnote
  · cases hnote
  · cases hnote
  next e vault row₀ hcolumn hvault hother =>
  obtain rfl := epochColumn_ok hcolumn
  have hrow : row₀ = row := Option.some.inj (hother.symm.trans h.here)
  subst hrow
  have hv := h.opensWith vault hvault
  subst hv
  cases hnote
  exact ⟨_, h.keep rfl rfl rfl rfl rfl, rfl, rfl, rfl⟩

theorem teamForgetRotation_holds (h : HoldsKey file team epoch key row) :
    HoldsKey (teamForgetRotation file) team epoch key { row with pending := none } :=
  h.keep (by simp [teamForgetRotation, h.here]) rfl rfl rfl rfl

theorem teamOweRotation_ok {owed : Bool} (h : HoldsKey file team epoch key row)
    (howe : teamOweRotation owed file = .ok t) :
    HoldsKey t team epoch key { row with rotationOwed := owed } ∧
      t.store.vault = file.store.vault := by
  unfold teamOweRotation at howe
  rw [h.here] at howe
  cases howe
  exact ⟨h.keep rfl rfl rfl rfl rfl, rfl⟩

theorem teamDropMailboxPin_ok {account : Uuid} {nowMs : UInt64} (h : HoldsKey file team epoch key row)
    (hdrop : teamDropMailboxPin account nowMs file = .ok t) :
    HoldsKey t team epoch key row ∧ t.store.vault = file.store.vault := by
  unfold teamDropMailboxPin at hdrop
  rw [h.here] at hdrop
  dsimp only at hdrop
  split at hdrop
  · cases hdrop
    have hvault : (file.store.forgetSecret nowMs (mailboxPinId row.teamId account)).vault =
        file.store.vault := by
      unfold Store.forgetSecret
      dsimp only
      rw [Store.updateRow_frame]
      rfl
    exact ⟨h.keep h.here rfl rfl rfl hvault, hvault⟩
  · cases hdrop
    exact ⟨h, rfl⟩

theorem teamRequeue_holds (h : HoldsKey file team epoch key row) :
    ∃ row', HoldsKey (teamRequeue file).1 team epoch key row' ∧ row'.pending = row.pending ∧
      row'.rotationOwed = row.rotationOwed ∧
      (teamRequeue file).1.store.vault = file.store.vault := by
  unfold teamRequeue
  rw [h.here]
  dsimp only
  split
  · refine ⟨{ row with requeue := false }, h.keep rfl rfl rfl rfl ?_, rfl, rfl, ?_⟩
    all_goals
      dsimp only [Database.onStore]
      rw [Store.mapTables_frame]
  · exact ⟨row, h, rfl, rfl, rfl⟩

/-- The noted key of a rotation opens as long as the key it was noted under is held. -/
theorem teamPendingRotation_ok {found : Option (ℕ × VaultKey)}
    (h : HoldsKey file team epoch key row) (hfound : teamPendingRotation file = .ok found) :
    (found.isSome → ∃ pending, row.pending = some pending ∧
      found = ((UnlockedVault.openStored { vaultId := team, key } (pendingId team pending.epoch)
        .secret pending.box).bind keyOfPlain).map fun key => (pending.epoch, key)) := by
  intro hsome
  unfold teamPendingRotation at hfound
  rw [h.here, Option.bind_some] at hfound
  split at hfound
  · cases hfound
    cases hsome
  · cases hfound
  next pending vault hpending hvault =>
  have hv := h.opensWith vault hvault
  subst hv
  cases hfound
  exact ⟨pending, hpending, rfl⟩

end spec

end TeamFile

end UwuSsh

import UwuSsh.Store.Reseal

/-!
Taking over an account's vault, in one transaction: every secret moves to the vault's
key, every row to its id, and the cursor and the versions a server was last seen to have
are forgotten. Joining an account sends every record up; the move between servers leaves
the outbox as it is. Nothing is done on a device whose vault it is already.
-/
namespace UwuSsh

/-- What becomes of this device's records when it adopts another vault. -/
inductive Carry
  | push
  | moved
deriving DecidableEq

/-- What adopting a vault does to a row: a placeholder and a tombstone stay out of the outbox. -/
def Row.adopted {β : Type} (vaultId : Uuid) (carry : Carry) (row : Row β) : Row β :=
  { row with
    vaultId
    serverSeq := 0
    dirty := row.dirty || (carry == .push && !row.deleted && Store.realClock row.updatedAt) }

namespace Database

variable {α : Type}

/-- The statements of the transaction, with one more step in it. -/
def adoptSteps (header : VaultHeader) (key : VaultKey) (carry : Carry)
    (also : α → Except TxError α) (db : Database α) :
    List (Transaction.Statement (Database α) TxError) :=
  resealAll db.store.vault { vaultId := header.vaultId, key } db.store ++
    [fun db => .ok { db with header := some header },
      fun db => .ok (db.onStore fun s => { s with vaultId := header.vaultId })] ++
    (syncedKinds.map fun kind db =>
      .ok (db.onStore fun s => s.mapTable kind (Row.adopted header.vaultId carry))) ++
    [fun db => .ok (db.onStore Store.forgetManifests),
      fun db => .ok { db with deviceUnlock := none },
      fun db => .ok { db.onStore fun s => { s with cursor := 0 } with lastSyncMs := none },
      fun db => (also db.other).map fun other => { db with other }]

/-- Take over a vault; its key comes into memory once everything is written. -/
def adopt (fault : ℕ → Option TxError) (header : VaultHeader) (key : VaultKey) (carry : Carry)
    (also : α → Except TxError α) (db : Database α) : Database α × Except TxError Unit :=
  if db.store.vaultId = header.vaultId then (db, .ok ())
  else
    match Transaction.commit fault (db.adoptSteps header key carry also) db with
    | (t, .ok ()) =>
        (t.onStore fun s => { s with vault := some { vaultId := header.vaultId, key } }, .ok ())
    | (t, .error e) => (t, .error e)

/-- Joining an account: every record goes up. -/
def adoptVault (fault : ℕ → Option TxError) (header : VaultHeader) (key : VaultKey)
    (db : Database α) : Database α × Except TxError Unit :=
  db.adopt fault header key .push .ok

/-- A store after it took over a vault, beside what it was. -/
structure Adopted (vault : UnlockedVault) (carry : Carry) (s t : Store) : Prop where
  unlocked : t.vault = some vault
  vaultId : t.vaultId = vault.vaultId
  cursor : t.cursor = 0
  rows : ∀ kind id row', t.row? kind id = some row' → row'.vaultId = vault.vaultId ∧ row'.serverSeq = 0
  kept : ∀ kind id row, kind ≠ .manifest → s.row? kind id = some row →
    ∃ row', t.row? kind id = some row' ∧ row'.version = row.version ∧ row'.rev = row.rev ∧
      (kind ≠ .secret → row'.cols = row.cols)
  secrets : ∀ id row, s.row? .secret id = some row → row.deleted = false →
    ∃ row', t.row? .secret id = some row' ∧ row'.deleted = false ∧
      vault.openStored id .secret row'.cols =
        s.vault.bind (fun old => old.openStored id .secret row.cols) ∧
      (0 < (Sealed.blob row.cols).length → (vault.openStored id .secret row'.cols).isSome)
  pushed : carry = .push → ∀ kind id row', t.row? kind id = some row' → row'.deleted = false →
    Store.realClock row'.updatedAt = true → row'.dirty = true
  moved : carry = .moved → ∀ kind id row', t.row? kind id = some row' →
    ∃ row, s.row? kind id = some row ∧ row'.dirty = row.dirty

section spec

variable {fault : ℕ → Option TxError} {header : VaultHeader} {key : VaultKey} {carry : Carry}
  {also : α → Except TxError α} {db t : Database α}

/-- What a device that adopted a vault holds, after its secrets were sealed again. -/
theorem adopt_ok (hother : db.store.vaultId ≠ header.vaultId)
    (h : db.adopt fault header key carry also = (t, .ok ())) :
    ∃ u, Transaction.play (resealAll db.store.vault { vaultId := header.vaultId, key } db.store) db =
        .ok u ∧
      t.store = { (Store.mapTables { u.store with vaultId := header.vaultId } syncedKinds
          fun _ => Row.adopted header.vaultId carry).forgetManifests with
        cursor := 0, vault := some { vaultId := header.vaultId, key } } := by
  unfold adopt at h
  rw [if_neg hother] at h
  split at h
  · next v hcommit =>
    cases h
    have hplay := Transaction.play_of_commit hcommit
    obtain ⟨w, hw, hlast⟩ := Transaction.play_append.mp hplay
    obtain ⟨w', hw', htables⟩ := Transaction.play_append.mp hw
    obtain ⟨u, hu, hheader⟩ := Transaction.play_append.mp hw'
    refine ⟨u, hu, ?_⟩
    cases hheader
    have hmapped := Transaction.play_pure
      (fun kind db => onStore (fun s => s.mapTable kind (Row.adopted header.vaultId carry)) db) htables
    cases halso : also w.other with
    | error e => simp [Transaction.play, Except.bind, onStore, halso, Except.map] at hlast
    | ok other =>
      simp only [Transaction.play, Except.bind, onStore, halso, Except.map, Except.ok.injEq] at hlast
      rw [← hlast, hmapped, foldl_onStore]
      rfl
  · cases h

/-- The rest of the file after a vault was taken over. -/
theorem adopt_file (hother : db.store.vaultId ≠ header.vaultId)
    (h : db.adopt fault header key carry also = (t, .ok ())) :
    ∃ other, also db.other = .ok other ∧
      t = { store := t.store, header := some header, deviceUnlock := none, lastSyncMs := none, other } := by
  unfold adopt at h
  rw [if_neg hother] at h
  split at h
  · next v hcommit =>
    cases h
    obtain ⟨w, hw, hlast⟩ := Transaction.play_append.mp (Transaction.play_of_commit hcommit)
    obtain ⟨w', hw', htables⟩ := Transaction.play_append.mp hw
    obtain ⟨u, hu, hheader⟩ := Transaction.play_append.mp hw'
    have hfile := (resealAll_spec hu).1.file
    cases hheader
    have hmapped := Transaction.play_pure
      (fun kind db => onStore (fun s => s.mapTable kind (Row.adopted header.vaultId carry)) db) htables
    rw [foldl_onStore] at hmapped
    have hothers : w.other = db.other := by
      rw [hmapped, hfile]
      rfl
    cases halso : also w.other with
    | error e => simp [Transaction.play, Except.bind, onStore, halso, Except.map] at hlast
    | ok other =>
      simp only [Transaction.play, Except.bind, onStore, halso, Except.map, Except.ok.injEq] at hlast
      refine ⟨other, hothers ▸ halso, ?_⟩
      rw [← hlast, hmapped]
      rfl
  · cases h

/-- Where each row of the adopted vault comes from. -/
theorem row?_adopt (hother : db.store.vaultId ≠ header.vaultId)
    (h : db.adopt fault header key carry also = (t, .ok ())) (kind : EntityKind) (id : Uuid) :
    (kind = .manifest → t.store.row? kind id = none) ∧
    (kind ≠ .manifest → kind ≠ .secret → t.store.row? kind id =
      (db.store.row? kind id).map (Row.adopted header.vaultId carry)) ∧
    (kind = .secret → ∃ row?, Option.Rel
      (Resealed db.store.vault { vaultId := header.vaultId, key } id) (db.store.row? .secret id) row? ∧
      t.store.row? .secret id = row?.map (Row.adopted header.vaultId carry)) := by
  obtain ⟨u, hplay, hstore⟩ := adopt_ok hother h
  obtain ⟨-, hothers, hsecrets⟩ := resealAll_spec hplay
  have hrow : ∀ kind id, kind ≠ .manifest → t.store.row? kind id =
      (Store.mapTables { u.store with vaultId := header.vaultId } syncedKinds
          fun _ => Row.adopted header.vaultId carry).row? kind id := by
    intro kind id hkind
    rw [hstore]
    simp [Store.row?, Store.forgetManifests, Store.setTable, hkind]
  have hmapped : ∀ kind ∈ syncedKinds, kind ≠ .manifest → t.store.row? kind id =
      (u.store.row? kind id).map (Row.adopted header.vaultId carry) := by
    intro kind hin hkind
    rw [hrow kind id hkind, Store.row?_mapTables _ _ (by decide), if_pos hin]
    rfl
  refine ⟨?_, fun hkind hne => ?_, ?_⟩
  · rintro rfl
    rw [hstore]
    simp [Store.row?, Store.forgetManifests, Store.setTable]
  · by_cases hin : kind ∈ syncedKinds
    · rw [hmapped kind hin hkind, hothers kind id hne]
    · -- The one kind without rows.
      have hnone : ∀ s : Store, s.row? kind id = none := by
        intro s
        cases hsome : s.row? kind id with
        | none => rfl
        | some row =>
          cases kind <;> first | exact absurd (by decide) hin | exact absurd rfl hkind | exact row.cols.elim
      rw [hnone, hnone]
      rfl
  · rintro rfl
    exact ⟨_, hsecrets id, hmapped .secret (by decide) (by decide)⟩

/-- Adopting a vault that is not this device's already carries everything over. -/
theorem adopt_adopted (hother : db.store.vaultId ≠ header.vaultId)
    (h : db.adopt fault header key carry also = (t, .ok ())) :
    Adopted { vaultId := header.vaultId, key } carry db.store t.store := by
  have hof : ∀ kind id row', t.store.row? kind id = some row' → ∃ row : Row (Cols kind),
      db.store.row? kind id = some row ∧ row'.vaultId = header.vaultId ∧ row'.serverSeq = 0 ∧
        row'.version = row.version ∧ row'.dirty =
          (row.dirty || (carry == .push && !row.deleted && Store.realClock row.updatedAt)) := by
    intro kind id row' hrow'
    obtain ⟨hmanifest, hplain, hsecret⟩ := row?_adopt hother h kind id
    by_cases hkind : kind = .manifest
    · rw [hmanifest hkind] at hrow'
      cases hrow'
    by_cases hne : kind = .secret
    · subst hne
      obtain ⟨row?, hrel, hsome⟩ := hsecret rfl
      rw [hsome] at hrow'
      obtain ⟨mid, hmid, rfl⟩ := Option.map_eq_some_iff.mp hrow'
      rw [hmid] at hrel
      cases hrow : db.store.row? .secret id with
      | none =>
        rw [hrow] at hrel
        cases hrel
      | some row =>
        rw [hrow] at hrel
        cases hrel with
        | some hresealed =>
          have hversion := hresealed.version
          refine ⟨row, rfl, rfl, rfl, hversion, ?_⟩
          have hclock : mid.updatedAt = row.updatedAt := congrArg Version.updatedAt hversion
          have hdeleted : mid.deleted = row.deleted := congrArg Version.deleted hversion
          rw [← hresealed.dirty, ← hclock, ← hdeleted]
          rfl
    · rw [hplain hkind hne] at hrow'
      obtain ⟨row, hrow, rfl⟩ := Option.map_eq_some_iff.mp hrow'
      exact ⟨row, hrow, rfl, rfl, rfl, rfl⟩
  have hsecret : ∀ id row, db.store.row? .secret id = some row → ∃ mid,
      Resealed db.store.vault { vaultId := header.vaultId, key } id row mid ∧
        t.store.row? .secret id = some (mid.adopted header.vaultId carry) := by
    intro id row hrow
    obtain ⟨row?, hrel, hsome⟩ := (row?_adopt hother h .secret id).2.2 rfl
    rw [hrow] at hrel
    cases hrel with
    | some hresealed => exact ⟨_, hresealed, hsome⟩
  refine ⟨?_, ?_, ?_, ?_, ?_, ?_, ?_, ?_⟩
  · obtain ⟨u, -, hstore⟩ := adopt_ok hother h
    rw [hstore]
  · obtain ⟨u, -, hstore⟩ := adopt_ok hother h
    rw [hstore, Store.mapTables_frame]
    rfl
  · obtain ⟨u, -, hstore⟩ := adopt_ok hother h
    rw [hstore]
  · intro kind id row' hrow'
    obtain ⟨row, -, hvault, hseq, -, -⟩ := hof kind id row' hrow'
    exact ⟨hvault, hseq⟩
  · intro kind id row hkind hrow
    by_cases hne : kind = .secret
    · subst hne
      obtain ⟨mid, hresealed, hsome⟩ := hsecret id row hrow
      exact ⟨_, hsome, hresealed.version, hresealed.rev, by simp⟩
    · refine ⟨row.adopted header.vaultId carry, ?_, rfl, rfl, fun _ => rfl⟩
      rw [(row?_adopt hother h kind id).2.1 hkind hne, hrow]
      rfl
  · intro id row hrow hlive
    obtain ⟨mid, hresealed, hsome⟩ := hsecret id row hrow
    have hdeleted : mid.deleted = row.deleted := congrArg Version.deleted hresealed.version
    refine ⟨_, hsome, hdeleted.trans hlive, hresealed.opens hlive, fun hlong => ?_⟩
    exact hresealed.readable (by simp [Store.holdsSecret, hlive, hlong])
  · rintro rfl kind id row' hrow' hlive hreal
    obtain ⟨row, -, -, -, hversion, hdirty⟩ := hof kind id row' hrow'
    have hclock : row'.updatedAt = row.updatedAt := congrArg Version.updatedAt hversion
    have hdeleted : row'.deleted = row.deleted := congrArg Version.deleted hversion
    rw [hdirty, ← hdeleted, ← hclock, hlive, hreal]
    simp
  · rintro rfl kind id row' hrow'
    obtain ⟨row, hrow, -, -, -, hdirty⟩ := hof kind id row' hrow'
    refine ⟨row, hrow, ?_⟩
    rw [hdirty]
    simp

/-- Every secret kept opens with the key in memory. -/
def CanReseal (db : Database α) : Prop :=
  ∀ secret ∈ db.store.sealedSecrets, ∃ vault, db.store.vault = some vault ∧
    (vault.openStored secret.1 .secret secret.2).isSome

theorem play_resealOne {old new : UnlockedVault} {secrets : List (Uuid × Sealed)} (db : Database α) :
    (∃ t, Transaction.play (secrets.map (resealOne old new)) db = .ok t) ↔
      ∀ secret ∈ secrets, (old.openStored secret.1 .secret secret.2).isSome := by
  induction secrets generalizing db with
  | nil => exact ⟨fun _ => by simp, fun _ => ⟨db, rfl⟩⟩
  | cons secret rest ih =>
    rw [List.map_cons, List.forall_mem_cons]
    cases hopen : old.openStored secret.1 .secret secret.2 with
    | none => simp [Transaction.play, resealOne, hopen, Except.bind]
    | some plain =>
      simp only [Transaction.play, resealOne, hopen, Except.bind, Option.isSome_some, true_and]
      exact ih _

theorem play_resealAll {new : UnlockedVault} (db : Database α) :
    (∃ t, Transaction.play (resealAll db.store.vault new db.store) db = .ok t) ↔ db.CanReseal := by
  unfold resealAll CanReseal
  cases hsecrets : db.store.sealedSecrets with
  | nil => simp [Transaction.play]
  | cons secret rest =>
    cases hvault : db.store.vault with
    | none =>
      refine iff_of_false ?_ fun h => ?_
      · simp [Transaction.play, Except.bind]
      · obtain ⟨vault, hsome, -⟩ := h secret List.mem_cons_self
        cases hsome
    | some old =>
      dsimp only
      rw [play_resealOne]
      simp

/-- An adoption goes through if every secret opens and no statement of it fails. -/
theorem adoptVault_ok_iff (hother : db.store.vaultId ≠ header.vaultId) :
    (∃ t, db.adoptVault fault header key = (t, .ok ())) ↔
      db.CanReseal ∧ ∀ i ≤ (db.adoptSteps header key .push .ok).length, fault i = none := by
  have hrest : ∀ u : Database α, ∃ t, Transaction.play
      ([fun db => .ok { db with header := some header },
        fun db => .ok (db.onStore fun s => { s with vaultId := header.vaultId })] ++
      (syncedKinds.map fun kind db =>
        .ok (db.onStore fun s => s.mapTable kind (Row.adopted header.vaultId .push))) ++
      [fun db => .ok (db.onStore Store.forgetManifests),
        fun db => .ok { db with deviceUnlock := none },
        fun db => .ok { db.onStore fun s => { s with cursor := 0 } with lastSyncMs := none },
        fun db => (Except.ok db.other).map fun other => { db with other }] :
          List (Transaction.Statement (Database α) TxError)) u = .ok t := by
    intro u
    exact ⟨_, rfl⟩
  unfold adoptVault adopt
  rw [if_neg hother]
  constructor
  · rintro ⟨t, h⟩
    split at h
    · next v hcommit =>
      obtain ⟨hfault, hplay⟩ := Transaction.commit_ok_iff.mp hcommit
      refine ⟨?_, hfault⟩
      obtain ⟨w, hw, -⟩ := Transaction.play_append.mp hplay
      obtain ⟨w', hw', -⟩ := Transaction.play_append.mp hw
      obtain ⟨u, hu, -⟩ := Transaction.play_append.mp hw'
      exact (play_resealAll db).mp ⟨u, hu⟩
    · cases h
  · rintro ⟨hcan, hfault⟩
    obtain ⟨u, hu⟩ := (@play_resealAll _ { vaultId := header.vaultId, key } db).mpr hcan
    obtain ⟨t, ht⟩ := hrest u
    have hplay : Transaction.play (db.adoptSteps header key .push .ok) db = .ok t := by
      unfold adoptSteps
      rw [List.append_assoc, List.append_assoc, ← List.append_assoc _ (syncedKinds.map _)]
      exact Transaction.play_append.mpr ⟨u, hu, ht⟩
    rw [Transaction.commit_ok_iff.mpr ⟨hfault, hplay⟩]
    exact ⟨_, rfl⟩

/-- A failed adoption leaves the file and the key in memory as they were. -/
theorem adopt_error {e : TxError} (h : (db.adopt fault header key carry also).2 = .error e) :
    (db.adopt fault header key carry also).1 = db := by
  unfold adopt at h ⊢
  split
  · rfl
  · next hother =>
    rw [if_neg hother] at h
    split
    · next u hcommit =>
      rw [hcommit] at h
      cases h
    · next u e' hcommit =>
      have hsame := @Transaction.commit_error _ _ fault _ _ e' (congrArg Prod.snd hcommit)
      rw [hcommit] at hsame
      exact hsame

/-- A device whose vault it is already keeps everything as it is; any other one takes
the vault over with all it has, or fails and is as before. -/
theorem adopt_atomic (fault : ℕ → Option TxError) (header : VaultHeader) (key : VaultKey)
    (carry : Carry) (also : α → Except TxError α) (db : Database α) :
    (db.store.vaultId = header.vaultId →
      db.adopt fault header key carry also = (db, .ok ())) ∧
    (db.store.vaultId ≠ header.vaultId → ∀ t,
      db.adopt fault header key carry also = (t, .ok ()) →
        Adopted { vaultId := header.vaultId, key } carry db.store t.store) ∧
    ∀ t e, db.adopt fault header key carry also = (t, .error e) → t = db := by
  refine ⟨fun hsame => ?_, fun hother t h => adopt_adopted hother h, fun t e h => ?_⟩
  · unfold adopt
    rw [if_pos hsame]
  · have hfailed := adopt_error (congrArg Prod.snd h)
    rw [h] at hfailed
    exact hfailed

end spec

section examples

def sharedHeader : VaultHeader where
  vaultId := 7
  kdf := { memoryKib := 65536, timeCost := 3, parallelism := 1 }
  salt := 0
  wrappedKey := { nonce := [], blob := .raw [] }
  needsAccountKey := false

/-- A device with one secret under the key 42 of the vault 7. -/
def oneSecret : Database Unit where
  store := (Store.empty 1 7 (some { vaultId := 7, key := 42 })).putRow .secret 1
    { vaultId := 7, updatedAt := ⟨5, 0, 1⟩, rev := 1, deleted := false, dirty := false, serverSeq := 9
      cols := UnlockedVault.sealStored { vaultId := 7, key := 42 } 1 .secret (.bytes [1]) }
  header := some sharedHeader
  deviceUnlock := none
  lastSyncMs := none
  other := ()

/-- The device takes over the vault 8. -/
theorem adopt_oneSecret : ∃ t : Database Unit,
    oneSecret.adoptVault (fun _ => none) { sharedHeader with vaultId := 8 } 43 = (t, .ok ()) ∧
      Adopted { vaultId := 8, key := 43 } .push oneSecret.store t.store := by
  have hok : (oneSecret.adoptVault (fun _ => none) { sharedHeader with vaultId := 8 } 43).2 =
      .ok () := by decide +kernel
  have hdone : oneSecret.adoptVault (fun _ => none) { sharedHeader with vaultId := 8 } 43 =
      ((oneSecret.adoptVault (fun _ => none) { sharedHeader with vaultId := 8 } 43).1, .ok ()) :=
    Prod.ext rfl hok
  exact ⟨_, hdone, (adopt_atomic _ _ _ _ _ _).2.1 (by decide) _ hdone⟩

/-- A device with a snippet of a wall clock the database reads as below 0. -/
def farSnippet : Database Unit where
  store := (Store.empty 1 7 (some { vaultId := 7, key := 42 })).putRow .snippet 1
    { vaultId := 7, updatedAt := ⟨9223372036854775808, 0, 0⟩, rev := 1, deleted := false, dirty := false
      serverSeq := 9, cols := { label := "", body := "ls", groupPath := none, syncExtra := [] } }
  header := some sharedHeader
  deviceUnlock := none
  lastSyncMs := none
  other := ()

/-- Adopting the vault a device has already, under another key, succeeds and does nothing; and a record of a
clock that the database takes for a placeholder's stays out of the outbox. -/
theorem adopt_same_vault_keeps_key : (¬ ∀ (fault : ℕ → Option TxError) (header : VaultHeader)
    (key : VaultKey) (db t : Database Unit), db.adoptVault fault header key = (t, .ok ()) →
      Adopted { vaultId := header.vaultId, key } .push db.store t.store) ∧
    ∃ (t : Database Unit) (row : Row SnippetCols),
      farSnippet.adoptVault (fun _ => none) { sharedHeader with vaultId := 8 } 43 = (t, .ok ()) ∧
        t.store.row? .snippet 1 = some row ∧ row.deleted = false ∧ row.updatedAt ≠ Hlc.zero ∧ row.dirty = false := by
  constructor
  · intro hall
    have hdone : oneSecret.adoptVault (fun _ => none) sharedHeader 43 = (oneSecret, .ok ()) := by
      unfold adoptVault adopt
      exact if_pos rfl
    have hadopted := hall _ _ _ _ _ hdone
    have hunlocked := hadopted.unlocked
    rw [show oneSecret.store.vault = some { vaultId := 7, key := 42 } by rfl] at hunlocked
    have hkey := congrArg UnlockedVault.key (Option.some.inj hunlocked)
    exact absurd hkey (by decide)
  · have hok : (farSnippet.adoptVault (fun _ => none) { sharedHeader with vaultId := 8 } 43).2 = .ok () := by
      decide +kernel
    have hkept : ((farSnippet.adoptVault (fun _ => none) { sharedHeader with vaultId := 8 } 43).1.store.row?
        .snippet 1).any (fun row => !row.deleted && row.updatedAt != Hlc.zero && !row.dirty) = true := by
      decide +kernel
    obtain ⟨row, hrow, hall⟩ := (Option.any_eq_true _ _).mp hkept
    simp only [Bool.and_eq_true, Bool.not_eq_true', bne_iff_ne] at hall
    obtain ⟨⟨hlive, hreal⟩, hclean⟩ := hall
    exact ⟨_, row, Prod.ext rfl hok, hrow, hlive, hreal, hclean⟩

end examples

end Database

end UwuSsh

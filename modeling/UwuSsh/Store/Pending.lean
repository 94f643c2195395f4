import UwuSsh.Store.Apply

/-!
Records on their way out. The outbox is the set of dirty rows: each is opened,
sealed for the server with its whole header and put into a batch bounded in
records and bytes. Rows that cannot be sealed or are too large are left where
they are and counted. After the server's answer a row's flag is cleared only if
its clock is still the one that went up.
-/
namespace UwuSsh

/-- Every kind whose rows travel, in the order records must be applied. -/
def syncedKinds : List EntityKind := EntityKind.applyOrder

/-- A row waiting to be pushed, with its payload built. -/
structure Pending where
  id : Uuid
  kind : EntityKind
  updatedAt : Hlc
  deleted : Bool
  baseSeq : ℕ
  payload : Plain

/-- What the server took, so the right row is cleared. -/
structure Pushed where
  id : Uuid
  kind : EntityKind
  updatedAt : Hlc
  seq : ℕ

/-- The plaintext that goes into an envelope; a secret is opened from its stored form. -/
def payloadOf (vault : UnlockedVault) (id : Uuid) : (kind : EntityKind) → Cols kind → Option Plain
  | .host, (c : HostCols) => some (.json (.host
      { name := c.name, address := c.address, port := c.port, workspace := c.workspace
        position := c.position, groupId := c.groupId, identityId := c.identityId
        extra := c.syncExtra }))
  | .group, (c : GroupCols) => some (.json (.group
      { workspace := c.workspace, name := c.name, position := c.position, extra := c.syncExtra }))
  | .identity, (c : IdentityCols) => some (.json (.identity
      { label := c.label, username := c.username, authType := c.authType, keyId := c.keyId
        passwordSecretId := c.passwordSecretId, extra := c.syncExtra }))
  | .key, (c : KeyCols) => some (.json (.key
      { label := c.label, keyType := c.keyType, publicKey := c.publicKey
        privateSecretId := c.privateSecretId, passphraseSecretId := c.passphraseSecretId
        extra := c.syncExtra }))
  | .snippet, (c : SnippetCols) => some (.json (.snippet
      { label := c.label, body := c.body, groupPath := c.groupPath, extra := c.syncExtra }))
  | .portForward, (c : PortForwardCols) => some (.json (.portForward
      { hostId := c.hostId, name := c.name, kind := c.kind, bindAddress := c.bindAddress
        bindPort := c.bindPort, targetHost := c.targetHost, targetPort := c.targetPort
        autostart := c.autostart, extra := c.syncExtra }))
  | .knownHost, (c : KnownHostCols) => some (.json (.knownHost
      { address := c.address, port := c.port, algorithm := c.algorithm
        fingerprintSha256 := c.fingerprintSha256, publicKey := c.publicKey
        firstSeenMs := c.firstSeenMs, extra := c.syncExtra }))
  | .terminalProfile, _ => none
  | .secret, (c : Sealed) => vault.openStored id .secret c
  | .manifest, (entries : List UInt8) => some (.bytes entries)
  | .assistConfig, (body : AssistConfigPayload) => some (.json (.assistConfig body))
  | .assistCache, (c : AssistCacheCols) => some (.json (.assistCache
      { platform := c.platform, request := c.request, normalized := c.normalized
        command := c.command, explanation := c.explanation, dangerous := c.dangerous
        createdMs := c.createdMs, extra := c.syncExtra }))
  | .keymap, (body : KeymapBody) => some (.json (.keymap body))

/-- A batch under construction; `full` once a record did not fit any more. -/
structure Packing where
  envelopes : List Envelope := []
  bytes : ℕ := 0
  leftOut : ℕ := 0
  full : Bool := false

namespace Store

/-- `ORDER BY hlc_wall_ms, hlc_counter`. -/
def clockBefore {α : Type} (a b : Uuid × Row α) : Prop :=
  a.2.updatedAt.signedWall < b.2.updatedAt.signedWall ∨
    (a.2.updatedAt.signedWall = b.2.updatedAt.signedWall ∧
      a.2.updatedAt.counter ≤ b.2.updatedAt.counter)

instance {α : Type} : DecidableRel (clockBefore : Uuid × Row α → Uuid × Row α → Prop) :=
  fun _ _ => inferInstanceAs (Decidable (_ ∨ _))

/-- The dirty rows of one kind, oldest first. -/
def dirtyRows (s : Store) (kind : EntityKind) : List (Uuid × Row (Cols kind)) :=
  (((s.tables kind).entries.map fun e => ((e.1, e.2) : Uuid × Row (Cols kind))).filter
    (·.2.dirty)).insertionSort clockBefore

/-- A tombstone has no fields worth sealing, only its header. -/
def pendingOfRow (vault : UnlockedVault) (kind : EntityKind) (id : Uuid)
    (row : Row (Cols kind)) : Option Pending :=
  (if row.deleted then some (Plain.bytes []) else payloadOf vault id kind row.cols).map fun payload =>
    { id, kind, updatedAt := row.updatedAt, deleted := row.deleted, baseSeq := row.serverSeq
      payload }

/-- Rows of one kind waiting to be pushed, and how many could not be built. -/
def pendingRows (s : Store) (vault : UnlockedVault) (kind : EntityKind) (limit : ℕ) :
    List Pending × ℕ :=
  let built := ((s.dirtyRows kind).take limit).map fun e => pendingOfRow vault kind e.1 e.2
  (built.filterMap id, built.countP (·.isNone))

/-- The envelope a waiting row goes up in. -/
def sealPending (vault : UnlockedVault) (row : Pending) : Envelope :=
  let box := vault.sealSynced row.id row.kind row.updatedAt row.deleted row.payload
  { id := row.id, vaultId := vault.vaultId, kind := row.kind, updatedAt := row.updatedAt
    baseSeq := row.baseSeq, deleted := row.deleted, nonce := box.nonce, blob := box.blob
    seq := none }

def packRow (vault : UnlockedVault) (p : Packing) (row : Pending) : Packing :=
  let env := sealPending vault row
  if p.full then p
  else if env.blob.length > maxBlobBytes then { p with leftOut := p.leftOut + 1 }
  else if p.envelopes ≠ [] ∧ p.bytes + env.blob.length > maxBatchBytes then { p with full := true }
  else { p with bytes := p.bytes + env.blob.length, envelopes := p.envelopes ++ [env] }

def packKind (s : Store) (vault : UnlockedVault) (limit : ℕ) (p : Packing) (kind : EntityKind) :
    Packing :=
  if p.full ∨ limit ≤ p.envelopes.length then p
  else
    let rows := s.pendingRows vault kind (limit - p.envelopes.length)
    rows.1.foldl (packRow vault) { p with leftOut := p.leftOut + rows.2 }

def pendingOf (s : Store) (kinds : List EntityKind) (limit : ℕ) :
    Except StoreError (List Envelope × ℕ) :=
  match s.vault with
  | none => .error .vaultLocked
  | some vault =>
      let p := kinds.foldl (s.packKind vault limit) {}
      .ok (p.envelopes, p.leftOut)

/-- Records changed here and not yet accepted by the server, and how many were left out. -/
def pendingEnvelopes (s : Store) (limit : ℕ) : Except StoreError (List Envelope × ℕ) :=
  s.pendingOf (syncedKinds.filter fun kind => !kind.travelsApart) limit

/-- The kinds that travel in requests of their own. -/
def pendingApartEnvelopes (s : Store) (limit : ℕ) : Except StoreError (List Envelope × ℕ) :=
  s.pendingOf EntityKind.apart limit

/-- This device's manifest, sealed, when a newer one waits to be pushed. -/
def pendingManifest (s : Store) : Except StoreError (Option Envelope) :=
  match s.vault with
  | none => .error .vaultLocked
  | some vault =>
      match (s.pendingRows vault .manifest 1).1 with
      | [] => .ok none
      | row :: _ =>
          let env := sealPending vault row
          .ok (if env.blob.length > maxBlobBytes then none else some env)

/-- Clear one row's flag if it still has the clock that was pushed. -/
def markOne (s : Store) (p : Pushed) : Store × ℕ :=
  match s.row? p.kind p.id with
  | some row =>
      if row.updatedAt = p.updatedAt then
        (s.putRow p.kind p.id { row with dirty := false, serverSeq := p.seq }, 1)
      else (s, 0)
  | none => (s, 0)

/-- Clear the flags of what the server took, and count the rows that were cleared. -/
def markPushed (s : Store) (pushed : List Pushed) : Store × ℕ :=
  pushed.foldl (fun acc p => ((acc.1.markOne p).1, acc.2 + (acc.1.markOne p).2)) (s, 0)

end Store

end UwuSsh

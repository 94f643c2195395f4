import UwuSsh.Store.Groups

/-!
Hosts and the identity each one logs in with. Every host made here gets an identity row of
its own; one that several hosts share is copied before it is edited, and a password goes
once no live identity points at it any more.
-/
namespace UwuSsh

open Fallible InTx

def AuthMethod.asStr : AuthMethod → String
  | password => "password"
  | key => "key"

/-- The identity columns a host form decides. -/
structure IdentityFields where
  label : String
  username : String
  auth : AuthMethod
  keyPath : Option String
  keyId : Option Uuid
  passwordSecretId : Option Uuid

def PasswordChange.keeps : PasswordChange → Bool
  | keep => true
  | set _ => false
  | forget => false

namespace Store

variable (s : Store)

/-- Whether another live host logs in with an identity. -/
def sharesIdentity (host identity : Uuid) : Bool :=
  let hosts : List (Uuid × Row HostCols) := s.liveRows .host
  hosts.any fun e => e.2.cols.identityId == some identity && e.1 != host

/-- Whether a live identity has a secret for its password. -/
def usesSecret (secret : Uuid) : Bool :=
  let identities : List (Uuid × Row IdentityCols) := s.liveRows .identity
  identities.any fun e => e.2.cols.passwordSecretId == some secret

/-- The secret of an identity, live or not. -/
def passwordSecretOf (identity : Option Uuid) : Option Uuid :=
  identity.bind fun identity => (s.row? .identity identity).bind fun (row : Row IdentityCols) =>
    row.cols.passwordSecretId

/-- A deleted host's tunnels go with it, under the host's clock. -/
def deleteHostTunnels (host : Uuid) (clock : Hlc) : Store :=
  s.mapTable .portForward fun (row : Row PortForwardCols) =>
    if row.cols.hostId = host ∧ row.deleted = false then row.tombed clock else row

end Store

section operations

variable (draws : Draws)

/-- The identity a host logs in with, as its own: one that others share is copied first, so
that what happens next changes this host only. -/
def ownIdentity (host identity : Uuid) (clock : Hlc) : InTx Uuid := do
  if ← read (·.sharesIdentity host identity) then
    let copy ← newId draws
    match ← read (·.row? .identity identity) with
    | none => throw .sqlite
    | some (row : Row IdentityCols) =>
      let new ← read fun s => s.newRow clock ({ row.cols with syncExtra := [] } : IdentityCols)
      insertRow .identity copy { new with vaultId := row.vaultId }
      update .host host fun (row : Row HostCols) =>
        row.edited clock { row.cols with identityId := some copy }
      pure copy
  else pure identity

/-- Forget a password secret once no identity uses it any more. -/
def releaseSecret (secret : Uuid) : InTx Unit := do
  if ← read (·.usesSecret secret) then pure () else forgetSecret draws secret

/-- The old password goes, unless it was kept. -/
def releaseOld (change : PasswordChange) (old : Option Uuid) : InTx Unit :=
  match old with
  | none => pure ()
  | some old => if change.keeps then pure () else releaseSecret draws old

def insertIdentity (fields : IdentityFields) (clock : Hlc) : InTx Uuid := do
  let id ← newId draws
  insert .identity id
    ({ label := fields.label, username := fields.username, authType := fields.auth.asStr
       keyPath := fields.keyPath, keyId := fields.keyId
       passwordSecretId := fields.passwordSecretId, syncExtra := [] } : IdentityCols) clock
  pure id

def updateIdentity (id : Uuid) (fields : IdentityFields) (clock : Hlc) : InTx Unit :=
  update .identity id fun (row : Row IdentityCols) => row.edited clock
    { row.cols with
      label := fields.label, username := fields.username, authType := fields.auth.asStr
      keyPath := fields.keyPath, keyId := fields.keyId
      passwordSecretId := fields.passwordSecretId }

/-- Setting a password needs the vault unlocked, which is checked before anything is written. -/
def needsVault (change : PasswordChange) : InTx Unit := do
  match change, ← read (·.vault) with
  | .set _, none => throw .vaultLocked
  | _, _ => pure ()

/-- The secret a login has after a change. -/
def changedPassword (change : PasswordChange) (old : Option Uuid) : InTx (Option Uuid) := do
  match change with
  | .keep => pure old
  | .forget => pure none
  | .set value =>
    match ← read (·.vault) with
    | none => throw .vaultLocked
    | some vault =>
      let id ← InTx.sealSecret draws vault (.bytes (utf8Bytes value))
      pure (some id)

def knownKey (key : Option Uuid) : InTx Unit := do
  match key with
  | none => pure ()
  | some key =>
    if (← read (·.live? .key key)).isSome then pure () else throw (.invalid "keyId" "unknown")

/-- The host a draft edits, if it is not a new one. -/
def existingHost (id : Option Uuid) : InTx (Option (Uuid × HostCols)) := do
  match id with
  | none => pure none
  | some id =>
    match ← read (·.live? .host id) with
    | none => throw (.unknownHost id)
    | some row => pure (some (id, row.cols))

/-- An edit that keeps workspace and group keeps the position too. -/
def draftPosition (existing : Option (Uuid × HostCols)) (workspace : Workspace)
    (group : Option Uuid) : InTx Int64 := do
  let next ← read (·.nextPosition workspace group)
  match existing with
  | none => lift next
  | some (_, cols) =>
    if Workspace.parse cols.workspace = workspace ∧ cols.groupId = group then pure cols.position
    else lift next

/-- The identity of the host that is edited, as its own. -/
def draftIdentity (existing : Option (Uuid × HostCols)) (clock : Hlc) : InTx (Option Uuid) := do
  match existing.bind fun (id, cols) => cols.identityId.map fun identity => (id, identity) with
  | none => pure none
  | some (id, identity) =>
    let own ← ownIdentity draws id identity clock
    pure (some own)

/-- Write a login's fields, into its identity or a new one. -/
def writeIdentity (identity : Option Uuid) (fields : IdentityFields) (clock : Hlc) : InTx Uuid := do
  match identity with
  | none => insertIdentity draws fields clock
  | some identity =>
    updateIdentity identity fields clock
    pure identity

/-- Write a host's fields, into its row or a new one. -/
def writeHost (existing : Option (Uuid × HostCols)) (draft : HostDraft) (identity : Uuid)
    (group : Option Uuid) (workspace : Workspace) (position : Int64) (clock : Hlc) :
    InTx Uuid := do
  match existing with
  | some (id, _) =>
    update .host id fun (row : Row HostCols) => row.edited clock
      { row.cols with
        name := draft.name, address := draft.address, port := draft.port
        identityId := some identity, groupId := group, workspace := workspace.asStr, position }
    pure id
  | none =>
    let id ← newId draws
    insert .host id
      ({ name := draft.name, address := draft.address, port := draft.port
         identityId := some identity, groupId := group, workspace := workspace.asStr, position
         syncExtra := [], lastConnectedMs := none, osId := none } : HostCols) clock
    pure id

def readHost (id : Uuid) : InTx HostRecord := do
  match ← read (·.getHost id) with
  | none => throw (.unknownHost id)
  | some record => pure record

/-- Insert a new host, or update an existing one when the draft has an id. -/
def saveHost (draft : HostDraft) : InTx HostRecord := do
  let draft ← lift draft.validated
  needsVault draft.password
  let clock ← InTx.tick draws
  knownKey draft.keyId
  let existing ← existingHost draft.id
  let workspace := (draft.workspace.or (existing.map fun e => .parse e.2.workspace)).getD .private_
  let group ← draft.groupPath.mapM (ensureGroup draws workspace)
  let position ← draftPosition existing workspace group
  let own ← draftIdentity draws existing clock
  let old ← read (·.passwordSecretOf own)
  let password ← changedPassword draws draft.password old
  let identity ← writeIdentity draws own
    { label := draft.username ++ "@" ++ draft.address, username := draft.username
      auth := draft.auth, keyPath := draft.keyPath, keyId := draft.keyId
      passwordSecretId := password } clock
  let id ← writeHost draws existing draft identity group workspace position clock
  releaseOld draws draft.password old
  readHost id

/-- A deleted host's identity goes with it, and its password, unless another host still logs
in with them. -/
def dropLogin (host : Uuid) (identity : Option Uuid) (clock : Hlc) : InTx Unit := do
  match identity with
  | none => pure ()
  | some identity =>
    if ← read (·.sharesIdentity host identity) then pure ()
    else
      let secret ← read (·.passwordSecretOf (some identity))
      update .identity identity (·.tombed clock)
      match secret with
      | none => pure ()
      | some secret => releaseSecret draws secret

/-- A tombstone, so that a device that was away learns of it. The host's tunnels go too. -/
def deleteHost (id : Uuid) : InTx Unit := do
  let clock ← InTx.tick draws
  match ← read (·.live? .host id) with
  | none => throw (.unknownHost id)
  | some (row : Row HostCols) =>
    update .host id (·.tombed clock)
    write (·.deleteHostTunnels id clock)
    dropLogin draws id row.cols.identityId clock

/-- A host without a login gets one, to keep a password. -/
def loginFor (id : Uuid) (identity : Option Uuid) (clock : Hlc) : InTx Uuid := do
  match identity with
  | some identity => ownIdentity draws id identity clock
  | none =>
    let created ← insertIdentity draws
      { label := "", username := "", auth := .password, keyPath := none, keyId := none
        passwordSecretId := none } clock
    update .host id fun (row : Row HostCols) =>
      row.edited clock { row.cols with identityId := some created }
    pure created

/-- Store a new password for a host, or forget the stored one, without the whole form. -/
def setHostPassword (id : Uuid) (change : PasswordChange) : InTx HostRecord := do
  if change = .set "" then throw (.invalid "password" "required")
  else
    needsVault change
    match ← read (·.live? .host id) with
    | none => throw (.unknownHost id)
    | some (row : Row HostCols) =>
      let old ← read (·.passwordSecretOf row.cols.identityId)
      let clock ← InTx.tick draws
      let identity ← loginFor draws id row.cols.identityId clock
      let secret ← changedPassword draws change old
      update .identity identity fun (row : Row IdentityCols) =>
        row.edited clock { row.cols with passwordSecretId := secret }
      releaseOld draws change old
      readHost id

end operations

namespace Store

/-- Local bookkeeping: it neither bumps the revision nor ticks the clock. -/
def markConnected (s : Store) (id : Uuid) (nowMs : UInt64) : Store :=
  s.updateRow .host id fun (row : Row HostCols) =>
    { row with cols := { row.cols with lastConnectedMs := some nowMs } }

/-- Local, like the connection time: another device finds out for itself. -/
def setHostOs (s : Store) (id : Uuid) (os : Option String) : Store :=
  s.updateRow .host id fun (row : Row HostCols) => { row with cols := { row.cols with osId := os } }

end Store

end UwuSsh

import UwuSsh.Store.KnownHosts
import UwuSsh.Store.Local

/-!
What a store says of its records: hosts with the login behind each one flattened in, groups,
keys with how many hosts use them, tunnels. A host or a key that goes to another store is
read out with everything it takes along, its secrets opened.
-/
namespace UwuSsh

open Text

inductive Workspace
  | private_
  | business
deriving DecidableEq

namespace Workspace

def asStr : Workspace → String
  | private_ => "private"
  | business => "business"

def parse (value : String) : Workspace := if value = "business" then business else private_

end Workspace

inductive AuthMethod
  | password
  | key
deriving DecidableEq

/-- Methods this build does not have fall back to the one every server offers. -/
def AuthMethod.parse (value : String) : AuthMethod := if value = "key" then key else password

/-- A host with its login, as the list shows it. -/
structure HostRecord where
  id : Uuid
  name : String
  address : String
  port : UInt16
  username : String
  auth : AuthMethod
  keyPath : Option String
  groupPath : Option String
  lastConnectedMs : Option UInt64
  workspace : Workspace
  position : Int64
  os : Option String
  hasPassword : Bool
  keyId : Option Uuid
  keyLabel : Option String
deriving DecidableEq

structure GroupRecord where
  workspace : Workspace
  name : String
  position : Int64
deriving DecidableEq

structure KeyRecord where
  id : Uuid
  label : String
  keyType : String
  publicKey : String
  hasPassphrase : Bool
  /-- How many hosts log in with this key. -/
  hosts : ℕ
deriving DecidableEq

structure TunnelRecord where
  id : Uuid
  hostId : Uuid
  name : String
  kind : String
  bindAddress : String
  bindPort : UInt16
  targetHost : String
  targetPort : UInt16
  autostart : Bool
deriving DecidableEq

inductive PasswordChange
  | keep
  | set (value : String)
  | forget
deriving DecidableEq

/-- What the host form submits; without an id it is a new host. -/
structure HostDraft where
  id : Option Uuid
  name : String
  address : String
  port : UInt16
  username : String
  auth : AuthMethod
  keyPath : Option String
  groupPath : Option String
  workspace : Option Workspace
  keyId : Option Uuid
  password : PasswordChange
deriving DecidableEq

/-- A key to put into the vault. -/
structure KeyDraft where
  label : String
  keyType : String
  publicKey : String
  privateKey : String
  passphrase : Option String
deriving DecidableEq

/-- What the tunnel form submits; without an id it is a new tunnel. -/
structure TunnelDraft where
  id : Option Uuid
  hostId : Uuid
  name : String
  kind : String
  bindAddress : Option String
  bindPort : UInt16
  targetHost : String
  targetPort : UInt16
  autostart : Bool
deriving DecidableEq

def blankToNone (value : Option String) : Option String :=
  (value.map trim).filter fun v => !v.isEmpty

/-- A group name as typed: trimmed, not empty, one line, not a novel. -/
def groupName (value : Option String) : Except LocalError (Option String) :=
  match blankToNone value with
  | none => .ok none
  | some name =>
      if name.toList.any isControl then .error (.invalid "groupPath" "control")
      else if name.length > 80 then .error (.invalid "groupPath" "too-long")
      else .ok (some name)

@[irreducible] def HostDraft.validated (draft : HostDraft) : Except LocalError HostDraft := do
  let address := trim draft.address
  if address.isEmpty then .error (.invalid "address" "required")
  else if address.toList.any isWhite then .error (.invalid "address" "whitespace")
  else if draft.port = 0 then .error (.invalid "port" "out-of-range")
  else
  let username := trim draft.username
  if username.isEmpty then .error (.invalid "username" "required")
  else if username.toList.any isWhite then .error (.invalid "username" "whitespace")
  else
  -- A password login must not leave a stale key behind.
  let (keyPath, keyId) ← match draft.auth, draft.keyId with
    | .key, some id => .ok (none, some id)
    | .key, none =>
        match blankToNone draft.keyPath with
        | none => .error (.invalid "keyPath" "required")
        | some path => .ok (some path, none)
    | .password, _ => .ok (none, none)
  if draft.password = .set "" then .error (.invalid "password" "required")
  else
  let groupPath ← groupName draft.groupPath
  return { draft with
    name := if (trim draft.name).isEmpty then address else trim draft.name
    address, username, keyPath, keyId, groupPath }

/-- A draft that is checked keeps its id. -/
theorem HostDraft.id_validated {draft valid : HostDraft} (h : draft.validated = .ok valid) :
    valid.id = draft.id := by
  unfold HostDraft.validated at h
  dsimp only at h
  split at h
  · cases h
  split at h
  · cases h
  split at h
  · cases h
  split at h
  · cases h
  split at h
  · cases h
  simp only [bind, Except.bind, pure, Except.pure] at h
  cases hgroup : groupName draft.groupPath with
  | error e =>
    simp only [hgroup] at h
    repeat' split at h
    all_goals cases h
  | ok group =>
    simp only [hgroup] at h
    repeat' split at h
    all_goals cases h
    all_goals rfl
/-- What a new build wrote into a row and this one only carries, beside the secrets of a key. -/
structure MovedKey where
  id : Uuid
  label : String
  keyType : String
  publicKey : String
  privateKey : Plain
  passphrase : Option Plain
  extra : Extra
deriving DecidableEq

/-- A host with everything it takes along. -/
structure MovedHost where
  host : HostRecord
  password : Option Plain
  key : Option MovedKey
  tunnels : List TunnelRecord
  known : Option KnownHostRecord
  extra : Extra
  loginExtra : Extra
  tunnelExtra : List (Uuid × Extra)
deriving DecidableEq

namespace Store

variable (s : Store)

/-- A row that is not a tombstone. -/
def live? (kind : EntityKind) (id : Uuid) : Option (Row (Cols kind)) :=
  (s.row? kind id).filter fun row => !row.deleted

def liveRows (kind : EntityKind) : List (Uuid × Row (Cols kind)) :=
  (s.rows kind).filter fun e => !e.2.deleted

/-- Whether a row with this id exists here, and whether it is a tombstone. -/
def hostRow (id : Uuid) : Option Bool := (s.row? .host id).map (·.deleted)

def loginOf (host : HostCols) : Option IdentityCols :=
  host.identityId.bind fun id => (s.live? .identity id).map (·.cols)

def hostFromRow (e : Uuid × Row HostCols) : HostRecord :=
  let login := s.loginOf e.2.cols
  let key : Option (Uuid × KeyCols) := (login.bind (·.keyId)).bind fun id =>
    (s.live? .key id).map fun row => (id, row.cols)
  let group : Option GroupCols := e.2.cols.groupId.bind fun id => (s.live? .group id).map (·.cols)
  { id := e.1
    name := e.2.cols.name
    address := e.2.cols.address
    port := e.2.cols.port
    username := (login.map (·.username)).getD ""
    auth := .parse ((login.map (·.authType)).getD "password")
    keyPath := login.bind (·.keyPath)
    groupPath := (group.map (·.name)).filter fun name => name != ""
    lastConnectedMs := e.2.cols.lastConnectedMs
    workspace := .parse e.2.cols.workspace
    position := e.2.cols.position
    os := e.2.cols.osId
    hasPassword := (login.bind (·.passwordSecretId)).isSome
    keyId := key.map (·.1)
    keyLabel := key.map (·.2.label) }

/-- `ORDER BY workspace, lower(group), position, lower(name)`. -/
def hostsInOrder (a b : HostRecord) : Ordering :=
  ((compare a.workspace.asStr b.workspace.asStr).then
    (compare (asciiLower (a.groupPath.getD "")) (asciiLower (b.groupPath.getD "")))).then
    ((compare a.position.toInt b.position.toInt).then (compare (asciiLower a.name) (asciiLower b.name)))

def listHosts : List HostRecord :=
  ((s.liveRows .host).map s.hostFromRow).insertionSort fun a b => (hostsInOrder a b).isLE = true

def getHost (id : Uuid) : Option HostRecord := (s.live? .host id).map fun row => s.hostFromRow (id, row)

/-- A placeholder for a group that has not arrived yet carries no name and is left out. -/
def listGroups : List GroupRecord :=
  let groups := ((s.liveRows .group).filter fun e => e.2.cols.name != "").map fun e =>
    ({ workspace := .parse e.2.cols.workspace, name := e.2.cols.name, position := e.2.cols.position } :
      GroupRecord)
  groups.insertionSort fun a b =>
    ((compare a.workspace.asStr b.workspace.asStr).then ((compare a.position.toInt b.position.toInt).then
      (compare (asciiLower a.name) (asciiLower b.name)))).isLE = true

def hostsOfKey (id : Uuid) : ℕ :=
  ((s.liveRows .host).filter fun e => (s.loginOf e.2.cols).any fun login => login.keyId == some id).length

def keyFromRow (e : Uuid × Row KeyCols) : KeyRecord where
  id := e.1
  label := e.2.cols.label
  keyType := e.2.cols.keyType
  publicKey := e.2.cols.publicKey
  hasPassphrase := e.2.cols.passphraseSecretId.isSome
  hosts := s.hostsOfKey e.1

def listKeys : List KeyRecord :=
  ((s.liveRows .key).map s.keyFromRow).insertionSort fun a b =>
    ((compare (asciiLower a.label) (asciiLower b.label)).then (compare a.id.toNat b.id.toNat)).isLE = true

def getKey (id : Uuid) : Option KeyRecord := (s.live? .key id).map fun row => s.keyFromRow (id, row)

def tunnelFromRow (e : Uuid × Row PortForwardCols) : TunnelRecord where
  id := e.1
  hostId := e.2.cols.hostId
  name := e.2.cols.name
  kind := e.2.cols.kind
  bindAddress := e.2.cols.bindAddress
  bindPort := e.2.cols.bindPort
  targetHost := e.2.cols.targetHost
  targetPort := e.2.cols.targetPort
  autostart := e.2.cols.autostart

/-- A tunnel is there for as long as its host is. -/
def getTunnel (id : Uuid) : Option TunnelRecord :=
  ((s.live? .portForward id).filter fun (row : Row PortForwardCols) =>
    (s.live? .host row.cols.hostId).isSome).map fun row => tunnelFromRow (id, row)

/-- A secret of an open vault. -/
def revealSecret (id : Uuid) : Except LocalError Plain :=
  match s.vault, s.live? .secret id with
  | none, _ => .error .vaultLocked
  | some _, none => .error (.tx .noVault)
  | some vault, some row =>
      match vault.openStored id .secret row.cols with
      | none => .error (.tx .decrypt)
      | some plain => .ok plain

def exportMovedKey (id : Uuid) : Except LocalError MovedKey :=
  match s.live? .key id with
  | none => .error (.unknownKey id)
  | some (row : Row KeyCols) => do
      let some secret := row.cols.privateSecretId | .error (.unknownKey id)
      let privateKey ← s.revealSecret secret
      let passphrase ← row.cols.passphraseSecretId.mapM s.revealSecret
      return { id, label := row.cols.label, keyType := row.cols.keyType, publicKey := row.cols.publicKey
               privateKey, passphrase, extra := row.cols.syncExtra }

/-- The host key trusted for an address, whoever decided on it. -/
def movedKnownHost (address : String) (port : UInt16) : Option KnownHostRecord :=
  ((s.slotRow (normalise address) port).filter fun e => !e.2.deleted).map fun e => .ofCols e.2.cols

/-- The tunnels of a host, by name. -/
def tunnelsOf (host : Uuid) : List (Uuid × Row PortForwardCols) :=
  let tunnels : List (Uuid × Row PortForwardCols) :=
    (s.liveRows .portForward).filter fun e => e.2.cols.hostId == host
  tunnels.insertionSort fun a b =>
    ((compare (asciiLower a.2.cols.name) (asciiLower b.2.cols.name)).then
      (compare a.1.toNat b.1.toNat)).isLE = true

/-- Everything a host takes along when it moves. -/
def exportMovedHost (id : Uuid) : Except LocalError MovedHost :=
  match s.live? .host id with
  | none => .error (.unknownHost id)
  | some (row : Row HostCols) => do
      let host := s.hostFromRow (id, row)
      let login := s.loginOf row.cols
      let password ← (login.bind (·.passwordSecretId)).mapM s.revealSecret
      let key ← host.keyId.mapM s.exportMovedKey
      let loginExtra := (row.cols.identityId.bind fun id => s.row? .identity id).elim []
        fun row => IdentityCols.syncExtra row.cols
      return { host, password, key, loginExtra
               tunnels := (s.tunnelsOf id).map tunnelFromRow
               known := s.movedKnownHost host.address host.port
               extra := row.cols.syncExtra
               tunnelExtra := (s.tunnelsOf id).map fun e => (e.1, e.2.cols.syncExtra) }

end Store

end UwuSsh

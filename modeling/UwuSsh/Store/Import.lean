import UwuSsh.Store.Groups
import UwuSsh.Store.Keys

/-!
An import, written into one store in one transaction. A host takes along the login it needs, and
that its key; a host that is there already, by address, port and user, is left out and takes
nothing along. A trusted host key is only written for a host that was added just now.
-/
namespace UwuSsh

open Text Fallible InTx

/-- A private key with its passphrase, named from identities by its index. -/
structure KeyInput where
  label : String
  keyType : String
  publicKey : Option String
  privateKey : String
  passphrase : Option String
deriving DecidableEq

structure IdentityInput where
  label : Option String
  username : Option String
  password : Option String
  /-- Index into the keys of the set. -/
  key : Option ℕ
  keyPath : Option String
deriving DecidableEq

structure HostInput where
  name : String
  address : String
  port : UInt16
  groupPath : Option String
  /-- Index into the identities of the set. -/
  identity : Option ℕ
  workspace : Workspace
  position : Option Int64
deriving DecidableEq

structure GroupInput where
  workspace : Workspace
  name : String
deriving DecidableEq

structure KnownHostInput where
  address : String
  port : UInt16
  algorithm : String
  publicKey : String
  fingerprint : String
deriving DecidableEq

structure SnippetInput where
  label : String
  body : String
  groupPath : Option String
deriving DecidableEq

structure ImportSet where
  groups : List GroupInput := []
  hosts : List HostInput := []
  identities : List IdentityInput := []
  keys : List KeyInput := []
  knownHosts : List KnownHostInput := []
  snippets : List SnippetInput := []
deriving DecidableEq

structure ImportOutcome where
  hostsAdded : ℕ := 0
  hostsSkipped : ℕ := 0
  identitiesAdded : ℕ := 0
  keysAdded : ℕ := 0
  knownHostsAdded : ℕ := 0
  snippetsAdded : ℕ := 0
  tunnelsAdded : ℕ := 0
deriving DecidableEq

/-- The most entries of one kind a single import takes. -/
def maxItems : ℕ := 50000

def ImportSet.tooLarge (set : ImportSet) : Bool :=
  maxItems < set.hosts.length || maxItems < set.identities.length || maxItems < set.keys.length ||
    maxItems < set.knownHosts.length || maxItems < set.snippets.length ||
    maxItems < set.groups.length

/-- The login a host names, with its index. -/
def ImportSet.loginOf (set : ImportSet) (host : HostInput) : Option (ℕ × IdentityInput) :=
  host.identity.bind fun i => set.identities[i]?.map fun identity => (i, identity)

/-- The key a login names, with its index. -/
def ImportSet.keyOf (set : ImportSet) (identity : IdentityInput) : Option (ℕ × KeyInput) :=
  identity.key.bind fun k => set.keys[k]?.map fun key => (k, key)

def ImportSet.usernameOf (set : ImportSet) (host : HostInput) : String :=
  ((set.loginOf host).bind (·.2.username)).getD ""

/-- Whether an imported host is one the host form would have let through. -/
def isPlausible (host : HostInput) (username : String) : Bool :=
  let address := trim host.address
  !address.isEmpty && decide (address.utf8ByteSize ≤ 253) &&
    !address.toList.any (fun c => isWhite c || isControl c) &&
    !username.toList.any (fun c => isWhite c || isControl c) &&
    decide (username.utf8ByteSize ≤ 256) && !host.name.toList.any isControl &&
    decide (host.name.utf8ByteSize ≤ 256) && decide (0 < host.port)

namespace Store

variable (s : Store)

def loginName (host : HostCols) : String := ((s.loginOf host).map (·.username)).getD ""

def hostExists (address : String) (port : UInt16) (username : String) : Bool :=
  let hosts : List (Uuid × Row HostCols) := s.liveRows .host
  hosts.any fun e => asciiLower e.2.cols.address == asciiLower (trim address) &&
    (e.2.cols.port == port && s.loginName e.2.cols == trim username)

def keyExists (key : KeyInput) : Bool :=
  let keys : List (Uuid × Row KeyCols) := s.liveRows .key
  keys.any fun e => e.2.cols.label == key.label && e.2.cols.keyType == key.keyType

def snippetExists (snippet : SnippetInput) : Bool :=
  let snippets : List (Uuid × Row SnippetCols) := s.liveRows .snippet
  snippets.any fun e => e.2.cols.label == snippet.label && e.2.cols.body == snippet.body

/-- Whether an address has a host key, or had one that was forgotten. -/
def keyKnown (address : String) (port : UInt16) : Bool :=
  let known : List (Uuid × Row KnownHostCols) := s.rows .knownHost
  known.any fun e => e.2.cols.address == address && e.2.cols.port == port

end Store

/-- Keys and identities written so far, by their index in the set, and what was counted. -/
structure Writer where
  keyIds : List (ℕ × Uuid) := []
  identityIds : List (ℕ × Uuid) := []
  outcome : ImportOutcome := {}

namespace Writer

variable (draws : Draws)

def writeSecret (text : String) : InTx Uuid := do
  let vault ← openVault
  sealText draws vault text

def writeKey (key : KeyInput) : InTx Uuid := do
  let privateSecret ← writeSecret draws key.privateKey
  let passphrase ← key.passphrase.mapM (writeSecret draws)
  let id ← newId draws
  let clock ← InTx.tick draws
  insert .key id
    ({ label := key.label, keyType := key.keyType, publicKey := key.publicKey.getD ""
       privateSecretId := some privateSecret, passphraseSecretId := passphrase
       syncExtra := [] } : KeyCols) clock
  pure id

/-- The columns of a login. A file key is only used when there is no vault key, and a login that
names a user alone asks for a password when connecting. -/
def identityCols (identity : IdentityInput) (keyId password : Option Uuid) : IdentityCols :=
  let keyPath := if keyId.isNone then identity.keyPath else none
  let username := identity.username.getD ""
  { label := (identity.label.filter fun l => !(trim l).isEmpty).getD username
    username
    authType := if keyId.isSome || keyPath.isSome then "key" else "password"
    keyId
    passwordSecretId := password
    syncExtra := []
    keyPath }

def writeIdentity (identity : IdentityInput) (keyId : Option Uuid) : InTx Uuid := do
  let password ← identity.password.mapM (writeSecret draws)
  let id ← newId draws
  let clock ← InTx.tick draws
  insert .identity id (identityCols identity keyId password) clock
  pure id

/-- The key under an index, written when it is first needed. -/
def key (index : ℕ) (key : KeyInput) (w : Writer) : InTx (Uuid × Writer) :=
  match w.keyIds.lookup index with
  | some id => pure (id, w)
  | none => do
    let id ← writeKey draws key
    pure (id, { w with keyIds := (index, id) :: w.keyIds
                       outcome.keysAdded := w.outcome.keysAdded + 1 })

def identityKey (set : ImportSet) (identity : IdentityInput) (w : Writer) :
    InTx (Option Uuid × Writer) :=
  match set.keyOf identity with
  | none => pure (none, w)
  | some (index, input) => do
    let written ← key draws index input w
    pure (some written.1, written.2)

/-- The identity under an index, written when it is first needed. -/
def identity (set : ImportSet) (index : ℕ) (identity : IdentityInput) (w : Writer) :
    InTx (Uuid × Writer) :=
  match w.identityIds.lookup index with
  | some id => pure (id, w)
  | none => do
    let key ← identityKey draws set identity w
    let id ← writeIdentity draws identity key.1
    pure (id, { key.2 with identityIds := (index, id) :: key.2.identityIds
                           outcome.identitiesAdded := key.2.outcome.identitiesAdded + 1 })

def login (set : ImportSet) (host : HostInput) (w : Writer) : InTx (Option Uuid × Writer) :=
  match set.loginOf host with
  | none => pure (none, w)
  | some (index, input) => do
    let written ← identity draws set index input w
    pure (some written.1, written.2)

/-- The place the source of a host has for it, or the end of its group. -/
def positionOf (host : HostInput) (group : Option Uuid) : InTx Int64 :=
  match host.position with
  | some position => pure position
  | none => do lift (← read (·.nextPosition host.workspace group))

def writeHost (host : HostInput) (identityId : Option Uuid) : InTx Unit := do
  let name ← lift (groupName host.groupPath)
  let group ← name.mapM (ensureGroup draws host.workspace)
  let position ← positionOf host group
  let clock ← InTx.tick draws
  let id ← newId draws
  insert .host id
    ({ name := host.name, address := host.address, port := host.port
       workspace := host.workspace.asStr, position, groupId := group, identityId
       syncExtra := [], lastConnectedMs := none, osId := none } : HostCols) clock

def writeGroup (group : GroupInput) : InTx Unit := do
  match ← lift (groupName (some group.name)) with
  | none => pure ()
  | some name => do let _ ← ensureGroup draws group.workspace name

/-- Hosts that were added, by what a host key is kept under. -/
abbrev Added := List (String × UInt16)

def skip (w : Writer) : Writer := { w with outcome.hostsSkipped := w.outcome.hostsSkipped + 1 }

def host (set : ImportSet) (state : Writer × Added) (host : HostInput) : InTx (Writer × Added) := do
  let username := set.usernameOf host
  if (!isPlausible host username || (← read (·.hostExists host.address host.port username))) = true then
    pure (state.1.skip, state.2)
  else
    let login ← login draws set host state.1
    writeHost draws host login.1
    pure ({ login.2 with outcome.hostsAdded := login.2.outcome.hostsAdded + 1 },
      (asciiLower (trim host.address), host.port) :: state.2)

/-- A key no login of the set names, once for each label and type. -/
def spareKey (used : List ℕ) (w : Writer) (e : KeyInput × ℕ) : InTx Writer := do
  if (used.contains e.2 || (← read (·.keyExists e.1))) = true then pure w
  else
    let written ← key draws e.2 e.1 w
    pure written.2

/-- Trust an imported host key, unless that address has one, or had one that was removed. -/
def writeKnownHost (known : KnownHostInput) : InTx Bool := do
  let address := asciiLower (trim known.address)
  if (← read (·.keyKnown address known.port)) = true then pure false
  else
    let clock ← InTx.tick draws
    let id ← newId draws
    let firstSeenMs ← InTx.now draws
    insert .knownHost id
      ({ address, port := known.port, algorithm := known.algorithm
         fingerprintSha256 := known.fingerprint, publicKey := known.publicKey, firstSeenMs
         syncExtra := [] } : KnownHostCols) clock
    pure true

def knownHost (added : Added) (w : Writer) (known : KnownHostInput) : InTx Writer := do
  if !added.contains (asciiLower (trim known.address), known.port) then pure w
  else
    let written ← writeKnownHost draws known
    pure (if written then { w with outcome.knownHostsAdded := w.outcome.knownHostsAdded + 1 } else w)

def writeSnippet (snippet : SnippetInput) : InTx Bool := do
  if (← read (·.snippetExists snippet)) = true then pure false
  else
    let clock ← InTx.tick draws
    let id ← newId draws
    insert .snippet id
      ({ label := snippet.label, body := snippet.body, groupPath := snippet.groupPath
         syncExtra := [] } : SnippetCols) clock
    pure true

def snippet (w : Writer) (snippet : SnippetInput) : InTx Writer := do
  let written ← writeSnippet draws snippet
  pure (if written then { w with outcome.snippetsAdded := w.outcome.snippetsAdded + 1 } else w)

def write (set : ImportSet) : InTx ImportOutcome := do
  set.groups.foldlM (fun _ group => writeGroup draws group) ()
  let (w, added) ← set.hosts.foldlM (host draws set) ({}, [])
  let used := set.identities.filterMap (·.key)
  let w ← set.keys.zipIdx.foldlM (spareKey draws used) w
  let w ← set.knownHosts.foldlM (knownHost draws added) w
  let w ← set.snippets.foldlM (snippet draws) w
  pure w.outcome

end Writer

/-- Write an import into the store. A secret it actually writes needs the vault unlocked. -/
def importInto (draws : Draws) (set : ImportSet) : InTx ImportOutcome :=
  if set.tooLarge then
    throw (.exportFile "more than 50000 entries of one kind is not something to import")
  else Writer.write draws set

end UwuSsh

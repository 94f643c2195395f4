import UwuSsh.Lib.Script
import UwuSsh.Team.File

/-!
What a server offers for teams, and what a device keeps of them. The server's answers are
whatever it says: nothing here constrains them. A device keeps each team as a space
of its own, and what its account knows about a team (the key it last took, the members it
confirmed, a key it owes) in the account's own store, sealed under the account's vault.
-/
namespace UwuSsh

inductive TeamRole
  | owner
  | admin
  | editor
  | reader
deriving DecidableEq

/-- Whether this role pushes records. -/
def TeamRole.writes (role : TeamRole) : Bool := role != .reader

/-- Whether this role invites, confirms, renames and rotates. -/
def TeamRole.manages (role : TeamRole) : Bool := role == .owner || role == .admin

inductive MemberState
  | pending
  | active
deriving DecidableEq

inductive TeamError
  | unsupported
  | vaultLocked
  | offline
  /-- The server said no; `code` is its word for why. -/
  | refused (code : String)
  /-- What the server sent does not hold up against what this device knows. -/
  | untrusted (why : String)
  | memberChanged (account : Uuid) (name : String) (returned : Bool)
  | memberUnconfirmed (account : Uuid) (name : String)
  | store (e : TxError)
  | sync
deriving DecidableEq

namespace TeamError

def code : TeamError → Option String
  | .refused code => some code
  | .memberChanged .. => some "identity-changed"
  | .memberUnconfirmed .. => some "member-unconfirmed"
  | _ => none

def is (e : TeamError) (wanted : String) : Bool := e.code == some wanted

def ofStore : TxError → TeamError
  | .store .vaultLocked => .vaultLocked
  | .decrypt => .untrusted "a key did not open"
  | other => .store other

/-- Whether it may have happened all the same. -/
def isOffline (e : TeamError) : Bool := e == .offline

end TeamError

structure Policy where
  enabled : Bool
  mayCreate : Bool
deriving DecidableEq

/-- An account's member key. What does not decode is none, here and below. -/
structure WireIdentity where
  publicKey : Option PublicKey
  sealedPrivate : Option SealedMember
deriving DecidableEq

structure WireTeam where
  id : Uuid
  name : String
  role : TeamRole
  state : MemberState
  epoch : ℕ
  wrappedKey : Option Wrapped
  needsRotation : Bool
  members : ℕ
deriving DecidableEq

structure WireJoined where
  teamId : Uuid
  name : String
  role : TeamRole
deriving DecidableEq

structure WireMember where
  accountId : Uuid
  displayName : String
  role : TeamRole
  state : MemberState
  publicKey : Option PublicKey
deriving DecidableEq

/-- One member's new key in a rotation. -/
structure RotateKey where
  accountId : Uuid
  wrappedKey : Wrapped
deriving DecidableEq

/-- What one exchange of a team's records came to: what it made of the records here, and
what the mailbox noticed on the way. -/
structure Exchanged where
  records : Store
  /-- Whether records came in or went out, and whether everything did. -/
  report : Except TeamError (Bool × Bool)
  moved : Bool
  needsRotation : Option Bool

/-- What a device asks: the server, the clock, the random numbers, and the engine that
exchanges a team's records. -/
inductive TeamAsk
  | now
  | newTeamKey
  | newMember
  | newSpace
  | policy
  | identity
  | putIdentity (publicKey : PublicKey) (sealedPrivate : SealedMember)
  | teams
  | create (name displayName : String) (wrapped : Wrapped)
  | rename (team : Uuid) (name : String)
  | delete (team : Uuid)
  | join (code displayName : String)
  | members (team : Uuid)
  | confirm (team account : Uuid) (epoch : ℕ) (publicKey : PublicKey) (wrapped : Wrapped)
  | removeMember (team account : Uuid)
  | rotate (team : Uuid) (epoch : ℕ) (keys : List RotateKey) (cursor : ℕ)
  | pull (team : Uuid) (cursor limit : ℕ)
  | exchange (team : Uuid) (epoch : ℕ) (writes : Bool)

abbrev TeamAnswer : TeamAsk → Type
  | .now => UInt64
  | .newTeamKey => VaultKey
  | .newMember => MemberKey
  | .newSpace => Uuid
  | .policy => Except TeamError Policy
  | .identity => Except TeamError (Option WireIdentity)
  | .putIdentity .. => Except TeamError WireIdentity
  | .teams => Except TeamError (List WireTeam)
  | .create .. => Except TeamError WireTeam
  | .rename .. => Except TeamError WireTeam
  | .delete _ => Except TeamError Unit
  | .join .. => Except TeamError WireJoined
  | .members _ => Except TeamError (List WireMember)
  | .confirm .. => Except TeamError Unit
  | .removeMember .. => Except TeamError Unit
  | .rotate .. => Except TeamError WireTeam
  | .pull .. => Except TeamError Unit
  | .exchange .. => Exchanged

/-- What an account takes a member of a team to be. -/
inductive MemberPin
  | confirmed (publicKey : PublicKey)
  | removed
deriving DecidableEq

/-- What an account last knew of a team's key: its epoch and its mark. -/
structure TeamKeyRecord where
  epoch : ℕ
  mark : Mark
deriving DecidableEq

/-- A team's space on this device. -/
structure TeamSpace where
  id : Uuid
  team : Uuid
  label : String
  role : TeamRole
  file : TeamFile

/-- What a device has of the teams of one server. -/
structure TeamDevice where
  /-- The account this device signs in to. -/
  account : Option Uuid
  /-- The vault of the account's own store, when it is open. -/
  ownVault : Option UnlockedVault
  keyRecords : Uuid → Option TeamKeyRecord
  pins : Uuid → Uuid → Option MemberPin
  owes : Uuid → Bool
  spaces : List TeamSpace
  /-- How many spaces of teams on other servers there are. -/
  elsewhere : ℕ

/-- As many teams as one device opens. -/
def maxTeamSpaces : ℕ := 64

def maxTeamName : ℕ := 80

def maxDisplayName : ℕ := 60

def maxTeams : ℕ := 256

def maxMembers : ℕ := 1000

def maxWrapped : ℕ := 512

def maxSealedPrivate : ℕ := 1024

def sealedMemberLen : ℕ := 1 + 24 + 32 + 16

def SealedMember.length : SealedMember → ℕ
  | .box .. => sealedMemberLen
  | .raw bytes => bytes.length

def rotateTries : ℕ := 3

def notAfter : String := "a team key that does not come after the one held"

def notOpening : String := "a team's space that the key handed out does not open"

/-- A server's text, cut down to what may be shown. -/
@[irreducible] def cleanText (text : String) (most : ℕ) : String :=
  String.ofList (((Text.trim (String.ofList (text.toList.filter fun c => !Text.isControl c))).toList).take
    most)

/-- A team's name as a space keeps it. -/
@[irreducible] def cleanLabel (label : String) : String :=
  Text.trim (String.ofList ((label.toList.filter fun c => !Text.isControl c).take maxTeamName))

theorem cleanLabel_cleanLabel (label : String) : cleanLabel (cleanLabel label) = cleanLabel label := by
  unfold cleanLabel
  generalize hcut : (label.toList.filter fun c => !Text.isControl c).take maxTeamName = cut
  have hsub : (Text.trim (String.ofList cut)).toList.Sublist cut := by
    simpa only [String.toList_ofList] using Text.trim_sublist (String.ofList cut)
  have hplain : (Text.trim (String.ofList cut)).toList.filter (fun c => !Text.isControl c) =
      (Text.trim (String.ofList cut)).toList := by
    refine List.filter_eq_self.mpr fun c hc => ?_
    have hmem : c ∈ (label.toList.filter fun c => !Text.isControl c).take maxTeamName :=
      hcut ▸ hsub.subset hc
    exact (List.mem_filter.mp (List.mem_of_mem_take hmem)).2
  have hshort : (Text.trim (String.ofList cut)).toList.length ≤ maxTeamName := by
    have hle : cut.length ≤ maxTeamName := by
      rw [← hcut]
      exact List.length_take_le ..
    exact hsub.length_le.trans hle
  rw [hplain, List.take_of_length_le hshort, String.ofList_toList, Text.trim_trim]

namespace TeamDevice

/-- The space of a team. -/
def teamSpace (d : TeamDevice) (team : Uuid) : Option TeamSpace :=
  d.spaces.find? fun space => space.team = team

def setFile (d : TeamDevice) (team : Uuid) (file : TeamFile) : TeamDevice :=
  { d with spaces := d.spaces.map fun space => if space.team = team then { space with file } else space }

def updateTeam (d : TeamDevice) (team : Uuid) (label : String) (role : TeamRole) : TeamDevice :=
  { d with spaces := d.spaces.map fun space =>
      if space.team = team then { space with label, role } else space }

def addSpace (d : TeamDevice) (space : TeamSpace) : TeamDevice :=
  { d with spaces := d.spaces ++ [space] }

def removeTeam (d : TeamDevice) (team : Uuid) : TeamDevice :=
  { d with spaces := d.spaces.filter fun space => space.team ≠ team }

def noteKey (d : TeamDevice) (team : Uuid) (record : Option TeamKeyRecord) : TeamDevice :=
  { d with keyRecords := Function.update d.keyRecords team record }

def notePin (d : TeamDevice) (team account : Uuid) (pin : Option MemberPin) : TeamDevice :=
  { d with pins := Function.update d.pins team (Function.update (d.pins team) account pin) }

def noteOwed (d : TeamDevice) (team : Uuid) (owed : Bool) : TeamDevice :=
  { d with owes := Function.update d.owes team owed }

end TeamDevice

end UwuSsh

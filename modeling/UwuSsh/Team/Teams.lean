import UwuSsh.Team.Api

/-!
What a device does with the teams of a server, as programs that may be cut off anywhere. A
pass brings each team's space to the key the server hands out, exchanges its records and gives
it a new key when one is needed; the rest is what a person asks for. A key that does not come
after the one this account wrote down, or after the one this device holds, is refused.
-/
namespace UwuSsh

open Script

abbrev TeamScript := Script TeamDevice TeamAsk TeamAnswer TeamError

namespace Teams

/-- The error of a write the disk refused. -/
def disk : TeamError := .store .sqlite

def commit (f : TeamDevice → TeamDevice) : TeamScript Unit := modify disk f

def ask (q : TeamAsk) : TeamScript (TeamAnswer q) := query q

/-- An answer whose error is passed on. -/
def expect {α : Type} (answer : TeamScript (Except TeamError α)) : TeamScript α :=
  answer >>= ofExcept

def account : TeamScript Uuid := do
  match (← get).account with
  | none => fail (.refused "error")
  | some account => done account

section own

/-- The account's own vault, which what it knows about teams is sealed under. -/
def ownVault : TeamScript UnlockedVault := do
  match (← get).ownVault with
  | none => fail .vaultLocked
  | some vault => done vault

def teamKeyRecord (team : Uuid) : TeamScript (Option TeamKeyRecord) := do
  let _ ← ownVault
  return (← get).keyRecords team

def teamNoteKey (team : Uuid) (record : TeamKeyRecord) : TeamScript Unit := do
  let _ ← ofExcept ((epochColumn record.epoch).mapError TeamError.ofStore)
  let _ ← ownVault
  commit (·.noteKey team (some record))

def teamForgetKey (team : Uuid) : TeamScript Unit := commit (·.noteKey team none)

def teamPin (team account : Uuid) : TeamScript (Option MemberPin) := do
  let _ ← ownVault
  return (← get).pins team account

def teamNotePin (team account : Uuid) (pin : MemberPin) : TeamScript Unit := do
  let _ ← ownVault
  commit (·.notePin team account (some pin))

def teamUnpinMember (team account : Uuid) : TeamScript Unit := commit (·.notePin team account none)

def teamOwesKey (team : Uuid) : TeamScript Bool := do
  let _ ← ownVault
  return (← get).owes team

def teamOweKey (team : Uuid) (owed : Bool) : TeamScript Unit := do
  let _ ← ownVault
  commit (·.noteOwed team owed)

end own

section file

/-- The file of a team's space. -/
def fileOf (team : Uuid) : TeamScript TeamFile := do
  match (← get).teamSpace team with
  | none => fail (.store .noVault)
  | some space => done space.file

/-- One transaction on the file of a team's space. -/
def onFile (team : Uuid) (f : TeamFile → Except TxError TeamFile) : TeamScript Unit := do
  let file ← fileOf team
  let file' ← ofExcept ((f file).mapError TeamError.ofStore)
  commit (·.setFile team file')

end file

section server

/-- What the server has of this account's member key. With `make`, one is made when there
is none. -/
def identity (make : Bool) (account : Uuid) : TeamScript (Option WireIdentity) := do
  match ← expect (ask .identity), make with
  | some identity, _ => return some identity
  | none, false => return none
  | none, true => do
      let fresh ← ask .newMember
      let vault ← ownVault
      match ← ask (.putIdentity fresh.publicKey (fresh.sealFor vault account)) with
      | .ok identity => return some identity
      | .error e =>
          if e.is "identity-exists" then do
            match ← expect (ask .identity) with
            | some identity => return some identity
            | none => fail (.untrusted "a member key that is and is not")
          else fail e

/-- This account's member key. -/
def member (make : Bool) : TeamScript (Option MemberKey) := do
  let account ← account
  match ← identity make account with
  | none => return none
  | some identity =>
      match identity.sealedPrivate.filter fun box => box.length ≤ maxSealedPrivate with
      | none => fail (.untrusted "a member key that is not one")
      | some box => do
          let vault ← ownVault
          match MemberKey.openSealed vault account box, identity.publicKey with
          | none, _ => fail (.untrusted "the member key does not open with this vault")
          | some _, none => fail (.untrusted "a public key that is not one")
          | some member, some publicKey =>
              if publicKey ≠ member.publicKey then
                fail (.untrusted "another public key than this account's")
              else return some member

/-- A list with the first of each team kept. -/
def firstOfEach (teams : List WireTeam) : List WireTeam :=
  teams.foldl (fun seen team => if seen.any (·.id = team.id) then seen else seen ++ [team]) []

def listed : TeamScript (List WireTeam) := do
  let teams ← expect (ask .teams)
  if maxTeams < teams.length then fail (.untrusted "more teams than there can be")
  else return firstOfEach teams

def one (team : Uuid) : TeamScript WireTeam := do
  match (← listed).find? (·.id = team) with
  | none => fail (.refused "not-found")
  | some wire => done wire

/-- The keys the server holds for this account in a team, opened. -/
def keysOf (member : MemberKey) (team : WireTeam) : TeamScript TeamKeys := do
  match team.wrappedKey.filter fun wrapped => wrapped.length ≤ maxWrapped with
  | none => fail (.untrusted "a team without its key")
  | some wrapped => do
      let account ← account
      match unwrapTeamKey member { team := team.id, epoch := team.epoch, account } wrapped with
      | none => fail (.untrusted "a key did not open")
      | some keys => done keys

end server

section settle

/-- Make the space of a team, open under a key. -/
def addTeam (team : Uuid) (name : String) (role : TeamRole) (epoch : ℕ) (key : VaultKey) :
    TeamScript Unit := do
  let d ← get
  if (d.teamSpace team).isSome then fail (.store (.store (.invalid "space" "exists")))
  else if maxTeamSpaces ≤ d.spaces.length + d.elsewhere then
    fail (.store (.store (.invalid "space" "limit")))
  else do
    let id ← ask .newSpace
    let made : TeamFile :=
      { store := Store.empty 0 id none, header := none, deviceUnlock := none, lastSyncMs := none
        other := none }
    let file ← ofExcept ((made.teamBegin team epoch key).mapError TeamError.ofStore)
    commit (·.addSpace { id, team, label := cleanLabel name, role, file })

/-- A space that is locked is opened with the key the server hands out. -/
def unlockSpace (keys : TeamKeys) (team : WireTeam) (space : TeamSpace) : TeamScript Unit :=
  if space.file.store.vault.isNone then
    match space.file.teamUnlock team.epoch keys.key with
    | none => fail (.untrusted notOpening)
    | some file => commit (·.setFile team.id file)
  else return ()

/-- Neither this device nor the account owes the team a key any more. -/
def owesNothing (team : Uuid) : TeamScript Unit := do
  onFile team (·.teamOweRotation false)
  teamOweKey team false

/-- The space's key is changed for a newer one. -/
def takeKey (keys : TeamKeys) (team : WireTeam) (row : TeamRow) (pending : Option (ℕ × VaultKey)) :
    TeamScript Unit :=
  if row.epoch < team.epoch then do
    let mine := decide (pending = some (team.epoch, keys.key))
    let how := if mine then Rekey.lead else if team.role.writes then .follow else .readOnly
    onFile team.id (·.teamRekey team.epoch keys.key how)
    -- The rotation this device began did happen.
    if mine then owesNothing team.id else return ()
  else if pending.isSome then
    -- A rotation that was noted and never happened.
    onFile team.id fun file => .ok file.teamForgetRotation
  else return ()

/-- The space gets the team's name and this account's role. Whether either changed. -/
def relabel (team : WireTeam) (space : TeamSpace) : TeamScript Bool := do
  let label := cleanLabel (cleanText team.name maxTeamName)
  if space.label = label ∧ space.role = team.role then return false
  else do
    commit (·.updateTeam team.id label team.role)
    return true

/-- A team's space is brought to the key the server hands out. Whether the space changed
its name or role. -/
def settleSpace (keys : TeamKeys) (team : WireTeam) (space : TeamSpace) : TeamScript Bool := do
  unlockSpace keys team space
  let file ← fileOf team.id
  match file.other, file.store.vault with
  | none, _ => fail (.untrusted "a space that is not a team's")
  | some _, none => fail .vaultLocked
  | some row, some held =>
      if !keys.follows team.epoch row.epoch held.key then fail (.untrusted notAfter)
      else do
        let pending ← ofExcept (file.teamPendingRotation.mapError TeamError.ofStore)
        takeKey keys team row pending
        relabel team space

/-- The space of a team, made when there is none. Whether it is new or changed. -/
def settleTeam (keys : TeamKeys) (team : WireTeam) : TeamScript Bool := do
  match (← get).teamSpace team.id with
  | some space => settleSpace keys team space
  | none => do
      -- With nothing written down either, the first key is taken as it is.
      addTeam team.id (cleanText team.name maxTeamName) team.role team.epoch keys.key
      return true

/-- Bring the team's space on this device to the key the server hands out, making the space
when there is none. -/
def settle (member : MemberKey) (team : WireTeam) : TeamScript (TeamKeys × Bool) := do
  let keys ← keysOf member team
  let record ← teamKeyRecord team.id
  if record.any fun r => !keys.followsMark team.epoch r.epoch r.mark then
    fail (.untrusted notAfter)
  else do
    let changed ← settleTeam keys team
    (if record.all fun r => r.epoch < team.epoch then
      teamNoteKey team.id { epoch := team.epoch, mark := keyMark keys.key }
    else pure ())
    return (keys, changed)

end settle

section sync

/-- The records of a space, as an exchange left them. -/
def putRecords (records : Store) (file : TeamFile) : TeamFile :=
  file.onStore fun s =>
    { records with device := s.device, vaultId := s.vaultId, vault := s.vault }

/-- Push and pull to the end, twice at most: what a change of key by somebody else left to
send is only known after the first pull. -/
def syncRounds (team : WireTeam) (space : Uuid) : ℕ → Bool → Option Bool →
    TeamScript (Option (Bool × Bool))
  | 0, changed, needs => return some (changed, needs.getD team.needsRotation)
  | n + 1, changed, needs => do
      let out ← ask (.exchange team.id team.epoch team.role.writes)
      onFile space fun file => .ok (putRecords out.records file)
      match out.report with
      | .error e => if out.moved then return none else fail e
      | .ok (more, complete) =>
          let changed := changed || more
          let needs := out.needsRotation.or needs
          if !complete then return none
          else if !team.role.writes then return some (changed, needs.getD team.needsRotation)
          else do
            let queued := (← fileOf space).teamRequeue.2
            onFile space fun file => .ok file.teamRequeue.1
            if queued = 0 then return some (changed, needs.getD team.needsRotation)
            else syncRounds team space n changed needs

/-- Nothing when the team turned out to have moved on; else whether records changed, and
whether the team needs a new key. -/
def sync (team : WireTeam) (space : Uuid) : TeamScript (Option (Bool × Bool)) :=
  syncRounds team space 2 false none

end sync

section rotate

/-- An active member, as the server lists them. -/
structure Listed where
  account : Uuid
  name : String
  publicKey : PublicKey

def listedOf (member : WireMember) : Except TeamError Listed :=
  match member.publicKey with
  | none => .error (.untrusted "a public key that is not one")
  | some publicKey =>
      .ok { account := member.accountId, name := cleanText member.displayName maxDisplayName, publicKey }

/-- The active members of a list. -/
def activeOf (members : List WireMember) : Except TeamError (List Listed) :=
  if maxMembers < members.length then .error (.untrusted "more members than there can be")
  else (members.filter (·.state = .active)).mapM listedOf

def activeMembers (team : Uuid) : TeamScript (List Listed) := do
  let members ← expect (ask (.members team))
  ofExcept (activeOf members)

/-- Look at everybody before anything is wrapped or written: the first member this account
never confirmed, and an error for one who is not who it took them to be. -/
def checkMembers (member : MemberKey) (account team : Uuid) : List Listed → Option Listed →
    TeamScript (Option Listed)
  | [], unconfirmed => return unconfirmed
  | listed :: rest, unconfirmed =>
      if listed.account = account then
        if listed.publicKey ≠ member.publicKey then
          fail (.untrusted "another public key than this account's")
        else checkMembers member account team rest unconfirmed
      else do
        match ← teamPin team listed.account with
        | some (.confirmed publicKey) =>
            if publicKey = listed.publicKey then checkMembers member account team rest unconfirmed
            else fail (.memberChanged listed.account listed.name false)
        | some .removed => fail (.memberChanged listed.account listed.name true)
        | none => checkMembers member account team rest (unconfirmed.or (some listed))

/-- What an earlier build kept of a member in the team's own store goes. -/
def dropMailboxPin (team account : Uuid) : TeamScript Unit := do
  let nowMs ← ask .now
  onFile team (·.teamDropMailboxPin account nowMs)

/-- A wrap of the new key for everybody who is listed. -/
def wrapMembers (team : Uuid) (epoch : ℕ) (key : VaultKey) (earlier : List Mark) :
    List Listed → TeamScript (List RotateKey)
  | [] => return []
  | listed :: rest => do
      dropMailboxPin team listed.account
      match wrapTeamKey key earlier { team, epoch, account := listed.account } listed.publicKey with
      | none => fail (.untrusted "a key did not open")
      | some wrapped => do
          let wraps ← wrapMembers team epoch key earlier rest
          return { accountId := listed.account, wrappedKey := wrapped } :: wraps

/-- The server took the new key: the space is sealed under it, and nothing is owed any more. -/
def rotated (wire : WireTeam) (epoch : ℕ) (key : VaultKey) : TeamScript Unit := do
  onFile wire.id (·.teamRekey epoch key .lead)
  owesNothing wire.id
  teamNoteKey wire.id { epoch, mark := keyMark key }
  let _ ← sync { wire with epoch, needsRotation := false } wire.id

/-- The server answered a rotation. An error to try again after, if somebody got in the way. -/
def sent (wire : WireTeam) (key : VaultKey) : Except TeamError WireTeam →
    TeamScript (Option TeamError)
  | .ok _ => do
      rotated wire (wire.epoch + 1) key
      return none
  | .error e =>
      if e.is "stale-cursor" || e.is "members-mismatch" || e.is "stale-epoch" then do
        onFile wire.id fun file => .ok file.teamForgetRotation
        return some e
      else if e.isOffline then
        -- It may have happened all the same: the note stays.
        fail e
      else do
        onFile wire.id fun file => .ok file.teamForgetRotation
        fail e

/-- Wrap a fresh key for the members that are listed, and have the server switch. An error
to try again after, if somebody got in the way. -/
def rotateOnce (member : MemberKey) (account : Uuid) (wire : WireTeam) (keys : TeamKeys) :
    TeamScript (Option TeamError) := do
  let members ← activeMembers wire.id
  if 2 ^ 64 ≤ wire.epoch + 1 then fail (.untrusted "an epoch nothing comes after")
  else do
    match ← checkMembers member account wire.id members none with
    | some listed => fail (.memberUnconfirmed listed.account listed.name)
    | none => do
        let fresh ← ask .newTeamKey
        let wraps ← wrapMembers wire.id (wire.epoch + 1) fresh keys.handedOn members
        onFile wire.id (·.teamNoteRotation (wire.epoch + 1) fresh (wraps.map (·.accountId)))
        let cursor := (← fileOf wire.id).store.cursor
        sent wire fresh (← ask (.rotate wire.id (wire.epoch + 1) wraps cursor))

def rotateLoop (member : MemberKey) (account team : Uuid) : ℕ → TeamError → TeamScript Unit
  | 0, last => fail last
  | n + 1, last => do
      let wire ← one team
      if wire.state ≠ .active ∨ !wire.role.manages then fail (.refused "forbidden")
      else do
        let (keys, _) ← settle member wire
        match ← sync wire wire.id with
        | none => rotateLoop member account team n last
        | some _ => do
            match ← rotateOnce member account wire keys with
            | none => return ()
            | some e => rotateLoop member account team n e

/-- Give a team a new key. -/
def rotate (member : MemberKey) (team : Uuid) : TeamScript Unit := do
  let account ← account
  rotateLoop member account team rotateTries (.refused "stale-cursor")

end rotate

section pass

/-- One team's part of a pass. -/
def passOne (member : MemberKey) (team : WireTeam) : TeamScript Unit := do
  let _ ← settle member team
  match ← sync team team.id with
  | none => return ()
  | some (_, needs) => do
      let owedHere := (← fileOf team.id).other.any TeamRow.rotationOwed
      let owed ← (if owedHere then pure true else teamOwesKey team.id)
      if (needs || (owed && team.role.manages)) && team.role.manages then do
        match ← (rotate member team.id).attempt with
        | .ok () => return ()
        | .error e => if e = .vaultLocked ∨ e = .offline then fail e else return ()

def passTeams (member : Option MemberKey) : List WireTeam → TeamScript Unit
  | [] => return ()
  | team :: rest => do
      match member, team.state with
      | some member, .active => do
          match ← (passOne member team).attempt with
          | .ok () => passTeams (some member) rest
          | .error e =>
              if e = .vaultLocked ∨ e = .offline then fail e else passTeams (some member) rest
      | member, _ => passTeams member rest

/-- Spaces whose team is not listed: only the server's "no such team for you", asked about the
team itself, takes one away. -/
def passLeft : List TeamSpace → TeamScript Unit
  | [] => return ()
  | space :: rest => do
      let file ← fileOf space.team
      match ← ask (.pull space.team file.store.cursor 1) with
      | .ok () => passLeft rest
      | .error e =>
          if e.is "not-found" then do
            commit (·.removeTeam space.team)
            passLeft rest
          else if e.isOffline then fail e
          else passLeft rest

/-- What runs with every sync of the server. -/
def pass : TeamScript Unit := do
  match ← ask .policy with
  | .error .unsupported => return ()
  | .error e => fail e
  | .ok policy =>
      if !policy.enabled then return ()
      else do
        let member ← member false
        let teams ← listed
        passTeams member teams
        passLeft ((← get).spaces.filter fun space => !teams.any (·.id = space.team))

end pass

section asked

/-- Make a team. This account is its owner and only member. -/
def createRest (account : Uuid) (member : MemberKey) (key : VaultKey) (name : String)
    (made : WireTeam) : TeamScript Unit := do
  let epoch := made.epoch + 1
  if 2 ^ 64 ≤ epoch then fail (.untrusted "an epoch nothing comes after")
  else
    match wrapTeamKey key [] { team := made.id, epoch, account } member.publicKey with
    | none => fail (.untrusted "a key did not open")
    | some wrapped => do
        let team ← expect (ask (.rotate made.id epoch [{ accountId := account, wrappedKey := wrapped }] 0))
        addTeam made.id name .owner epoch key
        teamNoteKey made.id { epoch, mark := keyMark key }
        let _ ← sync { team with epoch } made.id

def create (name displayName : String) : TeamScript Unit := do
  let account ← account
  match ← member true with
  | none => fail (.untrusted "no member key")
  | some member => do
      let key ← ask .newTeamKey
      let name := cleanText name maxTeamName
      let made ← expect (ask (.create name (cleanText displayName maxDisplayName) (.raw [0])))
      match ← (createRest account member key name made).attempt with
      | .ok () => return ()
      | .error e => do
          -- Half a team is no team.
          let _ ← ask (.delete made.id)
          fail e

def rename (team : Uuid) (name : String) : TeamScript Unit := do
  let name := cleanText name maxTeamName
  let renamed ← expect (ask (.rename team name))
  if ((← get).teamSpace team).isSome then commit (·.updateTeam team (cleanLabel name) renamed.role)

def unpinAll (team : Uuid) : List Uuid → TeamScript Unit
  | [] => return ()
  | account :: rest => do
      teamUnpinMember team account
      unpinAll team rest

/-- This account is out of the team because it said so: what the device has of the team goes,
and so does what the account wrote down about it. -/
def forget (team : Uuid) (members : List Uuid) : TeamScript Unit := do
  let there := ((← get).teamSpace team).isSome
  (if there then commit (·.removeTeam team) else pure ())
  teamForgetKey team
  teamOweKey team false
  unpinAll team members

def accounts (team : Uuid) : TeamScript (List Uuid) := do
  match ← ask (.members team) with
  | .error _ => return []
  | .ok members => return (members.take maxMembers).map (·.accountId)

def delete (team : Uuid) : TeamScript Unit := do
  let members ← accounts team
  expect (ask (.delete team))
  forget team members

def leave (team : Uuid) : TeamScript Unit := do
  let account ← account
  let members ← accounts team
  expect (ask (.removeMember team account))
  forget team members

/-- Redeem an invite. Coming in by an invite is starting over. -/
def join (code displayName : String) : TeamScript Unit := do
  let _ ← member true
  let joined ← expect (ask (.join (cleanText code 64) (cleanText displayName maxDisplayName)))
  teamForgetKey joined.teamId

def memberKey : TeamScript MemberKey := do
  match ← member false with
  | none => fail (.untrusted "no member key")
  | some member => done member

/-- Let a member in, or take their key as compared. -/
def confirmLoop (member : MemberKey) (team account : Uuid) (seen : String) :
    ℕ → TeamError → TeamScript Unit
  | 0, last => fail last
  | n + 1, _ => do
      let wire ← one team
      let (keys, _) ← settle member wire
      let listed ← expect (ask (.members team))
      match listed.find? (·.accountId = account) with
      | none => fail (.refused "not-found")
      | some newcomer =>
          match newcomer.publicKey with
          | none => fail (.untrusted "a public key that is not one")
          | some publicKey =>
              if !sameFingerprint (fingerprint publicKey) seen then fail (.refused "identity-changed")
              else do
                (if wire.role.writes then dropMailboxPin team account else pure ())
                if newcomer.state = .active then teamNotePin team account (.confirmed publicKey)
                else
                  match wrapTeamKey keys.key keys.earlier { team, epoch := wire.epoch, account }
                      publicKey with
                  | none => fail (.untrusted "a key did not open")
                  | some wrapped => do
                      teamNotePin team account (.confirmed publicKey)
                      match ← ask (.confirm team account wire.epoch publicKey wrapped) with
                      | .ok () => do
                          let _ ← sync wire team
                      | .error e =>
                          if e.is "stale-epoch" then confirmLoop member team account seen n e
                          else fail e

def confirm (team account : Uuid) (seen : String) : TeamScript Unit := do
  let member ← memberKey
  confirmLoop member team account seen rotateTries (.refused "stale-epoch")

/-- Note a key as owed or not, with the team's space where this device has one, else in the
account's own store. Whether it was owed before. -/
def owe (team : Uuid) (owed : Bool) : TeamScript Bool := do
  match (← get).teamSpace team with
  | some { file := { other := some row, .. }, .. } => do
      onFile team (·.teamOweRotation owed)
      return row.rotationOwed
  | _ => do
      let before ← teamOwesKey team
      teamOweKey team owed
      return before

/-- The removal was refused: the member is still in, as they were. -/
def putBack (team account : Uuid) (pin : Option MemberPin) : TeamScript Unit :=
  match pin with
  | some (.confirmed publicKey) => teamNotePin team account (.confirmed publicKey)
  | some .removed => return ()
  | none => teamUnpinMember team account

/-- What the server says about the need of a new key, if it says anything. -/
def needsKey : Except TeamError WireTeam → Bool
  | .ok wire => wire.needsRotation
  | .error _ => false

/-- After a member is out: the team gets a new key now, or it is owed. -/
def payAfter (team : Uuid) (hadKey : Bool) : TeamScript Unit := do
  let asked ← (one team).attempt
  if !hadKey && !needsKey asked then return ()
  else do
    let _ ← owe team true
    match ← (memberKey >>= fun member => rotate member team).attempt with
    | .ok () => return ()
    | .error _ => do
        let _ ← owe team true

/-- Whether somebody who is to be taken out had the key. Who is not listed may have had it. -/
def hadKey (team account : Uuid) : TeamScript Bool := do
  match ← ask (.members team) with
  | .ok members =>
      match members.find? (·.accountId = account) with
      | none => return true
      | some member => return member.state = .active
  | .error e => if e.isOffline then fail e else return true

/-- Take a member out and, when they had the key, give the team a new one. -/
def remove (team account : Uuid) : TeamScript Unit := do
  let hadKey ← hadKey team account
  let pin ← teamPin team account
  teamNotePin team account .removed
  let owedBefore ← (if hadKey then owe team true else pure false)
  match ← ask (.removeMember team account) with
  | .ok () => payAfter team hadKey
  | .error e =>
      -- It may have happened all the same.
      if e.isOffline then fail e
      else do
        putBack team account pin
        (if hadKey && !owedBefore then owe team false >>= fun _ => pure () else pure ())
        fail e

end asked

end Teams

end UwuSsh

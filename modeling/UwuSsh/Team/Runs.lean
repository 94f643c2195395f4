import UwuSsh.Team.Keeping

/-!
Runs of a device. A person and the clock start the programs in any order, each can be cut off
anywhere, and in between spaces are locked and opened, go away, and what the account wrote down
changes on its other devices. The ledger is true of the device all along.
-/
namespace UwuSsh

open Script

/-- What is asked of a device. -/
inductive TeamOp
  | pass
  | create (name displayName : String)
  | rename (team : Uuid) (name : String)
  | delete (team : Uuid)
  | leave (team : Uuid)
  | join (code displayName : String)
  | confirm (team account : Uuid) (seen : String)
  | remove (team account : Uuid)

def TeamOp.program : TeamOp → TeamScript Unit
  | .pass => Teams.pass
  | .create name displayName => Teams.create name displayName
  | .rename team name => Teams.rename team name
  | .delete team => Teams.delete team
  | .leave team => Teams.leave team
  | .join code displayName => Teams.join code displayName
  | .confirm team account seen => Teams.confirm team account seen
  | .remove team account => Teams.remove team account

theorem TeamOp.keeps {handed : WrapContext → TeamKeys → Prop} {made : VaultKey → Prop}
    {start : Uuid → ℕ × VaultKey → Prop} (op : TeamOp) :
    Keeps (teamContract handed made start) op.program :=
  match op with
  | .pass => Teams.keeps_pass
  | .create .. => Teams.keeps_create
  | .rename .. => Teams.keeps_rename
  | .delete _ => Teams.keeps_delete
  | .leave _ => Teams.keeps_leave
  | .join .. => Teams.keeps_join
  | .confirm .. => Teams.keeps_confirm
  | .remove .. => Teams.keeps_remove

/-- What changes on a device without one of these programs: records, what is locked and open, the
account's notes; a space stays under its key or goes. -/
structure Elsewhere (s t : TeamDevice) : Prop where
  account : t.account = s.account
  files : ∀ team space, t.teamSpace team = some space → ∃ before, s.teamSpace team = some before ∧
    space.file.other = before.file.other ∧ ∀ vault, space.file.store.vault = some vault →
      ∃ row, before.file.other = some row ∧ vault.vaultId = row.teamId ∧
        vault.openStored (checkId row.teamId) .secret row.check = some checkPlain

/-- A key that another device of the account noted as given is owed no more. -/
def Ledger.elsewhere (g : Ledger) (s t : TeamDevice) : Ledger := fun team =>
  (if s.owes team && !t.owes team then { g team with debts := [] } else g team).wrote s.account team
    (s.view team) (t.view team)

/-- The ledger of a device whose run begins. -/
def Ledger.start (d : TeamDevice) : Ledger := fun team =>
  { held := (d.keyOf team).map fun key => { before := d.keyRecords team, keys := [key] }
    debts := []
    clean := (d.view team).pending.isNone }

section runs

variable (handed : WrapContext → TeamKeys → Prop) (made : VaultKey → Prop)

/-- A run of a device, from a state of it on. -/
abbrev TeamRun (d : TeamDevice) (log : List (Entry TeamDevice TeamAsk TeamAnswer Ledger))
    (g : Ledger) (t : TeamDevice) : Prop :=
  Session (teamContract handed made fun team key => d.keyOf team = some key) TeamOp.program
    (fun g s g' t => Elsewhere s t ∧ g' = g.elsewhere s t) (Ledger.start d) d log g t

variable {handed made} {d s t : TeamDevice} {g : Ledger}
  {log : List (Entry TeamDevice TeamAsk TeamAnswer Ledger)}

theorem LedgerInv.start (hsound : SpacesSound d) :
    LedgerInv handed made (fun team key => d.keyOf team = some key) (Ledger.start d) d where
  sound := hsound
  teams := by
    intro team
    have hheld : (Ledger.start d team).held = (d.keyOf team).map fun key =>
        { before := d.keyRecords team, keys := [key] } := rfl
    refine ⟨fun hnone => ?_, fun key hkey => ?_, fun _ hx => ?_, fun _ hdebts => ?_,
      fun hclean pending hpending => ?_⟩
    · have hnone : d.keyOf team = none := hnone
      rw [hheld, hnone, Option.map_none]
    · have hkey : d.keyOf team = some key := hkey
      exact ⟨{ before := d.keyRecords team, keys := [key] }, by rw [hheld, hkey, Option.map_some], rfl,
        Or.inl hkey⟩
    · exact absurd hx List.not_mem_nil
    · exact absurd rfl hdebts
    · have hclean : (d.view team).pending.isNone = true := hclean
      rw [hpending] at hclean
      cases hclean

/-- A file that is open with a key that fits is open with the key it is sealed under. -/
theorem TeamFile.HoldsKey.reopened {file file' : TeamFile} {team : Uuid} {epoch : ℕ}
    {key : VaultKey} {row : TeamRow} (h : file.HoldsKey team epoch key row)
    (hother : file'.other = file.other) (hopen : ∀ vault, file'.store.vault = some vault →
      ∃ row, file.other = some row ∧ vault.vaultId = row.teamId ∧
        vault.openStored (checkId row.teamId) .secret row.check = some checkPlain) :
    file'.HoldsKey team epoch key row where
  here := hother.trans h.here
  ofTeam := h.ofTeam
  ofEpoch := h.ofEpoch
  sealedUnder := h.sealedUnder
  opensWith := by
    intro vault hvault
    obtain ⟨row', hrow, hteam, hfits⟩ := hopen vault hvault
    obtain rfl := Option.some.inj (hrow.symm.trans h.here)
    rw [h.sealedUnder, h.ofTeam] at hfits
    have hkey : key = vault.key := by
      by_contra hne
      simp [UnlockedVault.openStored, UnlockedVault.decrypt, UnlockedVault.sealStored,
        UnlockedVault.encrypt, hne] at hfits
    rw [hkey, ← h.ofTeam, ← hteam]

theorem LedgerInv.reopened {start : Uuid → ℕ × VaultKey → Prop} {team : Uuid} {space : TeamSpace}
    (h : LedgerInv handed made start g s) (hstep : Elsewhere s t)
    (hspace : t.teamSpace team = some space) : ∃ epoch key row before,
      s.Holds team epoch key row before ∧ t.Holds team epoch key row space := by
  obtain ⟨before, hbefore, hother, hopen⟩ := hstep.files team space hspace
  obtain ⟨epoch, key, row, hhere⟩ := h.holds hbefore
  exact ⟨epoch, key, row, before, hhere, hspace, hhere.file.reopened hother hopen⟩

theorem LedgerInv.elsewhere {start : Uuid → ℕ × VaultKey → Prop}
    (h : LedgerInv handed made start g s) (hstep : Elsewhere s t) :
    LedgerInv handed made start (g.elsewhere s t) t := by
  refine ⟨fun team space hfound => ?_, fun team => ?_⟩
  · obtain ⟨epoch, key, row, -, -, hthere⟩ := h.reopened hstep hfound
    exact ⟨epoch, key, row, hthere.file⟩
  · rw [hstep.account]
    have hbase : TeamInv handed made (FirstKey handed made start s.account team) s.account team
        (if s.owes team && !t.owes team then { g team with debts := [] } else g team)
        (s.view team) := by
      split
      · exact (h.teams team).forgiven
      · exact h.teams team
    have hnote : (if s.owes team && !t.owes team then { g team with debts := [] } else g team).debts ≠ [] →
        s.owes team = true → t.owes team = true := by
      intro hdebts hwas
      by_contra hnot
      rw [if_pos (by simp [hwas, hnot])] at hdebts
      exact hdebts rfl
    have hdebts_of : ∀ l : TeamLedger, (l.wrote s.account team (s.view team) (t.view team)).debts ≠ [] →
        l.debts ≠ [] := by
      intro l hdebts
      obtain ⟨x, hx⟩ := List.exists_mem_of_ne_nil _ hdebts
      exact List.ne_nil_of_mem (TeamLedger.wrote_debts hx).1
    refine hbase.wrote ?_ ?_ ?_
    all_goals cases hspace : t.teamSpace team
    · rw [TeamDevice.view_of_gone hspace]
      exact fun _ hkey => by cases hkey
    · next space =>
      obtain ⟨epoch, key, row, before, hhere, hthere⟩ := h.reopened hstep hspace
      rw [hhere.view, hthere.view]
      exact fun _ hkey => .inl hkey
    · rw [TeamDevice.view_of_gone hspace]
      exact fun _ hpending => by cases hpending
    · next space =>
      obtain ⟨epoch, key, row, before, hhere, hthere⟩ := h.reopened hstep hspace
      rw [hhere.view, hthere.view]
      exact fun _ hpending => .inl hpending
    · intro hclean hdebts
      have hbefore := hbase.owed_before hclean hdebts
      have hstill := hnote (hdebts_of _ hdebts)
      rw [TeamDevice.view_of_gone hspace]
      cases hwas : s.teamSpace team with
      | none =>
        rw [TeamDevice.view_of_gone hwas] at hbefore
        exact .inr (hstill hbefore)
      | some space =>
        obtain ⟨epoch, key, row, hhere⟩ := h.holds hwas
        exact .inl ⟨rfl, by rw [hhere.view]; simp⟩
    · next space =>
      obtain ⟨epoch, key, row, before, hhere, hthere⟩ := h.reopened hstep hspace
      intro hclean hdebts
      have hbefore := hbase.owed_before hclean hdebts
      have hstill := hnote (hdebts_of _ hdebts)
      rw [hhere.view] at hbefore
      rw [hthere.view]
      refine .inr (Bool.or_eq_true_iff.mpr ?_)
      exact (Bool.or_eq_true_iff.mp hbefore).imp id hstill

/-- The ledger is true of the device in every state of every run. -/
theorem TeamRun.inv (hsound : SpacesSound d) (hrun : TeamRun handed made d log g t) :
    LedgerInv handed made (fun team key => d.keyOf team = some key) g t :=
  (hrun.sound (fun op g s hinv => wp_mono (op.keeps g s hinv) fun _ _ _ _ => trivial) (fun g s g' t hinv hstep => by
    obtain ⟨hstep, rfl⟩ := hstep
    exact hinv.elsewhere hstep) (LedgerInv.start hsound)).2

/-- A program that is answered in full is one more step of a run. -/
theorem TeamRun.played {answer : (q : TeamAsk) → TeamAnswer q}
    (hanswer : ∀ q, Named handed made q (answer q)) (hrun : TeamRun handed made d log g t)
    (op : TeamOp) : ∃ log', TeamRun handed made d log'
      (op.program.play (teamContract handed made fun team key => d.keyOf team = some key)
        answer g t).history
      (op.program.play (teamContract handed made fun team key => d.keyOf team = some key)
        answer g t).state :=
  ⟨_, .run op hrun (play_exec (fun _ _ => hanswer) (fun _ _ _ => trivial) op.program g t)⟩

end runs

section samples

/-- The file of a team's space that is open under a key. -/
def TeamFile.sample (team : Uuid) (epoch : ℕ) (key : VaultKey) : TeamFile :=
  let vault : UnlockedVault := { vaultId := team, key }
  { store := { Store.empty 0 team (some vault) with vaultId := team }
    header := some (headerFor vault)
    deviceUnlock := none
    lastSyncMs := none
    other := some
      { teamId := team, epoch, check := vault.sealStored (checkId team) .secret checkPlain
        requeue := false, pending := none, rotationOwed := false } }

/-- A device of account 1 with one team, which has been told who is in it. -/
def TeamDevice.sample (team : Uuid) (epoch : ℕ) (key : VaultKey) (member : Uuid)
    (publicKey : PublicKey) : TeamDevice where
  account := some 1
  ownVault := some { vaultId := 7, key := 3 }
  keyRecords := fun team' => if team' = team then some { epoch, mark := keyMark key } else none
  pins := fun _ account => if account = member then some (.confirmed publicKey) else none
  owes := fun _ => false
  spaces := [{ id := 20, team, label := "Ops", role := .owner, file := .sample team epoch key }]
  elsewhere := 0

/-- A team at an epoch, with a wrap of a key for account 1. -/
def WireTeam.sample (team : Uuid) (epoch : ℕ) (keys : TeamKeys) : WireTeam where
  id := team
  name := "Ops"
  role := .owner
  state := .active
  epoch := epoch
  wrappedKey := some (.box { team, epoch, account := 1 } 9 keys)
  needsRotation := false
  members := 1

/-- Account 1 and a member whose key it confirmed. -/
def bothMembers : List WireMember :=
  [{ accountId := 1, displayName := "Me", role := .owner, state := .active, publicKey := some 9 },
    { accountId := 8, displayName := "X", role := .editor, state := .active, publicKey := some 80 }]

/-- A server that answers every question the same way each time. -/
def steadyServer (teams : List WireTeam) (members : List WireMember) (fresh : VaultKey)
    (joined : Uuid) : (q : TeamAsk) → TeamAnswer q
  | .now => 0
  | .newTeamKey => fresh
  | .newMember => { publicKey := 9 }
  | .newSpace => 21
  | .policy => .ok { enabled := true, mayCreate := false }
  | .identity => .ok (some
      { publicKey := some 9
        sealedPrivate := some (MemberKey.sealFor { publicKey := 9 } { vaultId := 7, key := 3 } 1) })
  | .putIdentity .. => .error .offline
  | .teams => .ok teams
  | .create .. => .error .offline
  | .rename .. => .error .offline
  | .delete _ => .error .offline
  | .join .. => .ok { teamId := joined, name := "Ops", role := .editor }
  | .members _ => .ok members
  | .confirm .. => .error .offline
  | .removeMember .. => .error .offline
  | .rotate .. => .error .offline
  | .pull .. => .error (.refused "not-found")
  | .exchange .. =>
      { records := Store.empty 0 0 none, report := .ok (false, true), moved := false
        needsRotation := none }

theorem TeamDevice.sample_sound (team : Uuid) (epoch : ℕ) (key : VaultKey) (member : Uuid)
    (publicKey : PublicKey) : SpacesSound (TeamDevice.sample team epoch key member publicKey) := by
  intro team' space hfound
  have hmem : space ∈ (TeamDevice.sample team epoch key member publicKey).spaces :=
    List.mem_of_find?_eq_some hfound
  obtain rfl := List.mem_singleton.mp hmem
  have hteam : team = team' := by simpa using List.find?_some hfound
  subst hteam
  exact ⟨epoch, key, _, rfl, rfl, rfl, rfl, fun v hv => (Option.some.inj hv).symm⟩

theorem steadyServer_named {handed : WrapContext → TeamKeys → Prop} {made : VaultKey → Prop}
    {teams : List WireTeam} {members : List WireMember} {fresh : VaultKey} {joined : Uuid}
    (hteams : ∀ wire ∈ teams, Teams.HandedTo handed wire) (hfresh : made fresh) (q : TeamAsk) :
    Named handed made q (steadyServer teams members fresh joined q) := by
  cases q with
  | teams =>
    intro listed hlisted
    obtain rfl := Except.ok.inj hlisted
    exact hteams
  | newTeamKey => exact hfresh
  | _ => trivial

end samples

end UwuSsh

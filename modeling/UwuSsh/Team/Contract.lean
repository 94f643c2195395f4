import UwuSsh.Team.Ledger

/-!
What the programs keep to. Nothing is asked of the server: its answers only give names to the
wraps it handed out and to the keys this device made. Each kind of write a program does is shown to
keep the ledger true of the device.
-/
namespace UwuSsh

open Script

section contract

variable (handed : WrapContext → TeamKeys → Prop) (made : VaultKey → Prop)
  (start : Uuid → ℕ × VaultKey → Prop)

/-- What is known of the first key of a space: it was there to begin with, or it came as a first
key may come. -/
def FirstKey (account : Option Uuid) (team : Uuid) (before : Option TeamKeyRecord)
    (key : ℕ × VaultKey) : Prop :=
  start team key ∨ Begins handed made account team before key

/-- What a device and the ledger of its run keep to, wherever the run stops. -/
structure LedgerInv (g : Ledger) (d : TeamDevice) : Prop where
  sound : SpacesSound d
  teams : ∀ team, TeamInv handed made (FirstKey handed made start d.account team) d.account team
    (g team) (d.view team)

/-- The names given to what comes from outside: the wraps the server handed out, and the keys
this device made. -/
def Named : (q : TeamAsk) → TeamAnswer q → Prop
  | .teams, answer => ∀ teams, answer = .ok teams → ∀ wire ∈ teams, ∀ context recipient keys,
      wire.wrappedKey = some (.box context recipient keys) → handed context keys
  | .newTeamKey, key => made key
  | _, _ => True

def teamContract : Contract TeamDevice TeamAsk TeamAnswer Ledger where
  wrote := Ledger.wrote
  asked := Ledger.asked
  rely := fun _ _ q a => Named handed made q a
  allowed := fun _ _ _ => True
  guarantee := fun _ _ _ => True
  may := fun _ _ _ => True
  inv := LedgerInv handed made start

end contract

/-- Whoever was taken out of the team has not got the key it has now. -/
def Ledger.Paid (g : Ledger) (team : Uuid) : Prop := (g team).clean = true → (g team).debts = []

theorem Ledger.Paid.wrote {g : Ledger} {team : Uuid} (h : g.Paid team) (s t : TeamDevice) :
    (g.wrote s t).Paid team := by
  intro hclean
  refine List.eq_nil_iff_forall_not_mem.mpr fun x hx => ?_
  have hmem := (TeamLedger.wrote_debts hx).1
  rw [h (TeamLedger.wrote_clean hclean).1] at hmem
  exact absurd hmem List.not_mem_nil

section writes

variable {handed : WrapContext → TeamKeys → Prop} {made : VaultKey → Prop}
  {start : Uuid → ℕ × VaultKey → Prop} {g : Ledger} {s t : TeamDevice} {team : Uuid}
  {epoch epoch' : ℕ} {key key' : VaultKey} {row row' : TeamRow} {space : TeamSpace} {file : TeamFile}

/-- What the server refused did not happen. -/
theorem Ledger.Paid.refused {g : Ledger} {team team' x : Uuid} {s : TeamDevice} (h : g.Paid team)
    {answer : Except TeamError Unit} (hnot : mayHaveHappened answer = false) :
    (g.asked s (.removeMember team' x) answer).Paid team := by
  unfold Ledger.asked Ledger.Paid TeamLedger.asked
  dsimp only
  cases answer with
  | ok _ => cases hnot
  | error e =>
    split
    · split
      · exact h
      · rw [if_neg (by simp [hnot])]
        exact h
    · exact h

/-- Nothing is owed to a team that is gone, or that this account is out of. -/
theorem Ledger.paid_deleted {g : Ledger} {team : Uuid} {s : TeamDevice} :
    (g.asked s (.delete team) (.ok ())).Paid team := by
  intro _
  unfold Ledger.asked TeamLedger.asked
  dsimp only
  rw [if_pos rfl]

theorem Ledger.paid_left {g : Ledger} {team account : Uuid} {s : TeamDevice}
    (haccount : s.account = some account) :
    (g.asked s (.removeMember team account) (.ok ())).Paid team := by
  intro _
  unfold Ledger.asked TeamLedger.asked
  dsimp only
  rw [if_pos rfl, if_pos haccount.symm]

namespace LedgerInv

/-- A key that is not owed is owed to nobody. -/
theorem paid_of_not_owed (h : LedgerInv handed made start g s) (hnot : (s.view team).owed = false) :
    g.Paid team := by
  intro hclean
  by_contra hdebts
  rw [(h.teams team).owed hclean hdebts] at hnot
  cases hnot

theorem asked (h : LedgerInv handed made start g s) (q : TeamAsk) (a : TeamAnswer q) :
    LedgerInv handed made start (g.asked s q a) s :=
  ⟨h.sound, fun team => (h.teams team).asked q a⟩

/-- A write that concerns one team. -/
theorem wrote (h : LedgerInv handed made start g s) (haccount : t.account = s.account)
    (hsound : SpacesSound t) (hothers : ∀ team', team' ≠ team → t.view team' = s.view team')
    (hteam : TeamInv handed made (FirstKey handed made start s.account team) s.account team
      ((g team).wrote s.account team (s.view team) (t.view team)) (t.view team)) :
    LedgerInv handed made start (g.wrote s t) t := by
  refine ⟨hsound, fun team' => ?_⟩
  rw [haccount]
  by_cases heq : team' = team
  · subst heq
    exact hteam
  · have hsame : g.wrote s t team' = g team' := by
      unfold Ledger.wrote
      rw [hothers team' heq]
      exact (h.teams team').wrote_same
    rw [hsame, hothers team' heq]
    exact h.teams team'

theorem holds (h : LedgerInv handed made start g s) (hfound : s.teamSpace team = some space) :
    ∃ epoch key row, s.Holds team epoch key row space := by
  obtain ⟨epoch, key, row, hfile⟩ := h.sound team space hfound
  exact ⟨epoch, key, row, hfound, hfile⟩

theorem holds_of_keyOf (h : LedgerInv handed made start g s)
    (hkey : s.keyOf team = some (epoch, key)) : ∃ row space, s.Holds team epoch key row space := by
  obtain ⟨space, hfound, -⟩ := Option.bind_eq_some_iff.mp hkey
  obtain ⟨epoch', key', row, hhere⟩ := h.holds hfound
  obtain ⟨rfl, rfl⟩ := Prod.mk.inj (Option.some.inj (hhere.underKey.symm.trans hkey))
  exact ⟨row, space, hhere⟩

end LedgerInv

theorem TeamDevice.Holds.setFile (h : s.Holds team epoch key row space)
    (hfile : file.HoldsKey team epoch' key' row') :
    (s.setFile team file).Holds team epoch' key' row' { space with file } :=
  ⟨by rw [TeamDevice.teamSpace_setFile, if_pos rfl, h.found]; rfl, hfile⟩

namespace LedgerInv

/-- One transaction on the file of a team's space. -/
theorem setFile (h : LedgerInv handed made start g s) (hold : s.Holds team epoch key row space)
    (hfile : file.HoldsKey team epoch' key' row')
    (hkey : (epoch', key') = (epoch, key) ∨
      After handed made s.account team (epoch', key') (epoch, key))
    (hpending : ∀ pending, row'.pending = some pending → row.pending = some pending ∨
      ∀ x ∈ pending.wrappedFor, some x ≠ s.account → s.pins team x ≠ some .removed)
    (howed : row.rotationOwed = true → row'.rotationOwed = true ∨ s.owes team = true ∨ g.Paid team) :
    LedgerInv handed made start (g.wrote s (s.setFile team file)) (s.setFile team file) := by
  have hview := hold.view
  have hview' := (hold.setFile hfile).view
  have hteam := h.teams team
  refine @wrote _ _ _ _ _ _ team h rfl ?_ (fun team' hne => ?_) (hteam.wrote ?_ ?_ ?_)
  · intro team' space' hfound
    rw [TeamDevice.teamSpace_setFile] at hfound
    split at hfound
    · next heq =>
      subst heq
      rw [hold.found] at hfound
      obtain rfl := Option.some.inj hfound
      exact ⟨epoch', key', row', hfile⟩
    · exact h.sound team' space' hfound
  · refine TeamDevice.view_congr ?_ rfl rfl rfl
    rw [TeamDevice.teamSpace_setFile, if_neg hne]
  · intro key₀ hkey₀
    rw [hview'] at hkey₀
    obtain rfl := Option.some.inj hkey₀
    rw [hview]
    rcases hkey with hsame | hafter
    · exact .inl (by rw [hsame])
    · exact .inr (.inr ⟨_, rfl, hafter⟩)
  · rw [hview, hview']
    exact hpending
  · intro hclean hdebts
    refine .inr ?_
    have hbefore := hteam.owed_before hclean hdebts
    rw [hview] at hbefore
    rw [hview']
    rcases Bool.or_eq_true_iff.mp hbefore with hhere | hnote
    · rcases howed hhere with hstill | hnote | hpaid
      · exact Bool.or_eq_true_iff.mpr (.inl hstill)
      · exact Bool.or_eq_true_iff.mpr (.inr hnote)
      · obtain ⟨x, hx⟩ := List.exists_mem_of_ne_nil _ hdebts
        have hmem := (TeamLedger.wrote_debts hx).1
        rw [hpaid hclean] at hmem
        exact absurd hmem List.not_mem_nil
    · exact Bool.or_eq_true_iff.mpr (.inr hnote)

/-- A space's name and role say nothing about its key. -/
theorem updateTeam (h : LedgerInv handed made start g s) (team : Uuid) (label : String) (role : TeamRole) :
    LedgerInv handed made start (g.wrote s (s.updateTeam team label role))
      (s.updateTeam team label role) := by
  have hfiles : ∀ team', ((s.updateTeam team label role).teamSpace team').map TeamSpace.file =
      (s.teamSpace team').map TeamSpace.file := by
    intro team'
    rw [TeamDevice.teamSpace_updateTeam, Option.map_map]
    congr 1
    funext space
    dsimp only [Function.comp_apply]
    split <;> rfl
  have hview : ∀ team', (s.updateTeam team label role).view team' = s.view team' := fun team' =>
    TeamDevice.view_congr (hfiles team') rfl rfl rfl
  refine @wrote _ _ _ _ _ _ team h rfl ?_ (fun team' _ => hview team') ?_
  · intro team' space' hfound
    have hfile := hfiles team'
    rw [hfound, Option.map_some] at hfile
    obtain ⟨space, hspace, hsame⟩ := Option.map_eq_some_iff.mp hfile.symm
    rw [← hsame]
    exact h.sound team' space hspace
  · rw [hview, (h.teams team).wrote_same]
    exact h.teams team

/-- A team's space is made where there is none. -/
theorem addSpace (h : LedgerInv handed made start g s) (hnone : s.teamSpace team = none)
    (hteam : space.team = team) (hfile : space.file.HoldsKey team epoch key row)
    (hpending : row.pending = none)
    (hfirst : Begins handed made s.account team (s.keyRecords team) (epoch, key)) :
    LedgerInv handed made start (g.wrote s (s.addSpace space)) (s.addSpace space) ∧
      (s.addSpace space).Holds team epoch key row space := by
  have hhere : (s.addSpace space).Holds team epoch key row space :=
    ⟨by rw [TeamDevice.teamSpace_addSpace, hnone, if_pos hteam]; rfl, hfile⟩
  have hothers : ∀ team', team' ≠ team → (s.addSpace space).teamSpace team' = s.teamSpace team' := by
    intro team' hne
    rw [TeamDevice.teamSpace_addSpace, if_neg (hteam ▸ Ne.symm hne), Option.or_none]
  have hview := TeamDevice.view_of_gone hnone
  have hview' := hhere.view
  refine ⟨h.wrote rfl ?_ (fun team' hne => ?_) ((h.teams team).wrote ?_ ?_ ?_), hhere⟩
  · intro team' space' hfound
    by_cases heq : team' = team
    · subst heq
      rw [hhere.found] at hfound
      obtain rfl := Option.some.inj hfound
      exact ⟨epoch, key, row, hfile⟩
    · rw [hothers team' heq] at hfound
      exact h.sound team' space' hfound
  · exact TeamDevice.view_congr (by rw [hothers team' hne]) rfl rfl rfl
  · intro key₀ hkey₀
    rw [hview'] at hkey₀
    obtain rfl := Option.some.inj hkey₀
    rw [hview]
    exact .inr (.inl ⟨rfl, .inr hfirst⟩)
  · rw [hview', hpending]
    exact fun _ hnone => absurd hnone (by simp)
  · intro hclean hdebts
    refine .inr ?_
    have hbefore := (h.teams team).owed_before hclean hdebts
    rw [hview] at hbefore
    rw [hview']
    exact Bool.or_eq_true_iff.mpr (.inr hbefore)

/-- A team's space goes. -/
theorem removeTeam (h : LedgerInv handed made start g s) (team : Uuid) :
    LedgerInv handed made start (g.wrote s (s.removeTeam team)) (s.removeTeam team) := by
  have hgone : (s.removeTeam team).teamSpace team = none := by
    rw [TeamDevice.teamSpace_removeTeam, if_pos rfl]
  have hview' := TeamDevice.view_of_gone hgone
  refine @wrote _ _ _ _ _ _ team h rfl ?_ (fun team' hne => ?_) ((h.teams team).wrote ?_ ?_ ?_)
  · intro team' space' hfound
    rw [TeamDevice.teamSpace_removeTeam] at hfound
    split at hfound
    · cases hfound
    · exact h.sound team' space' hfound
  · refine TeamDevice.view_congr ?_ rfl rfl rfl
    rw [TeamDevice.teamSpace_removeTeam, if_neg hne]
  · rw [hview']
    exact fun _ hkey => absurd hkey (by simp)
  · rw [hview']
    exact fun _ hpending => absurd hpending (by simp)
  · intro hclean hdebts
    have hbefore := (h.teams team).owed_before hclean hdebts
    rw [hview']
    cases hspace : s.teamSpace team with
    | none =>
      rw [TeamDevice.view_of_gone hspace] at hbefore
      exact .inr (Bool.or_eq_true_iff.mpr (.inr hbefore))
    | some space =>
      obtain ⟨epoch, key, row, hhere⟩ := h.holds hspace
      exact .inl ⟨rfl, by rw [hhere.view]; simp⟩

/-- The account writes something down about a team. -/
theorem note (h : LedgerInv handed made start g s) (haccount : t.account = s.account)
    (hspaces : t.spaces = s.spaces) (hothers : ∀ team', team' ≠ team →
      t.keyRecords team' = s.keyRecords team' ∧ t.pins team' = s.pins team' ∧
        t.owes team' = s.owes team')
    (howed : s.owes team = true → t.owes team = true ∨ (s.view team).owedHere = true ∨ g.Paid team) :
    LedgerInv handed made start (g.wrote s t) t := by
  have hspace : ∀ team', t.teamSpace team' = s.teamSpace team' := fun team' => by
    unfold TeamDevice.teamSpace
    rw [hspaces]
  have hkey : (t.view team).key = (s.view team).key := by
    change t.keyOf team = s.keyOf team
    unfold TeamDevice.keyOf
    rw [hspace]
  have hrow : t.rowOf team = s.rowOf team := by
    unfold TeamDevice.rowOf
    rw [hspace]
  refine @wrote _ _ _ _ _ _ team h haccount ?_ (fun team' hne => ?_) ((h.teams team).wrote ?_ ?_ ?_)
  · intro team' space' hfound
    rw [hspace] at hfound
    exact h.sound team' space' hfound
  · obtain ⟨hrecord, hpins, howes⟩ := hothers team' hne
    exact TeamDevice.view_congr (by rw [hspace]) hrecord hpins howes
  · intro key hkey'
    rw [hkey] at hkey'
    exact .inl hkey'
  · intro pending hpending
    refine .inl ?_
    change (s.rowOf team).bind TeamRow.pending = _
    rw [← hrow]
    exact hpending
  · intro hclean hdebts
    refine .inr ?_
    have hbefore := (h.teams team).owed_before hclean hdebts
    have hkept : (s.view team).owedHere = true → (t.view team).owed = true := by
      intro hhere
      refine Bool.or_eq_true_iff.mpr (.inl ?_)
      change (t.rowOf team).any TeamRow.rotationOwed = true
      rw [hrow]
      exact hhere
    rcases Bool.or_eq_true_iff.mp hbefore with hhere | hnote
    · exact hkept hhere
    · rcases howed hnote with hstill | hhere | hpaid
      · exact Bool.or_eq_true_iff.mpr (.inr hstill)
      · exact hkept hhere
      · obtain ⟨x, hx⟩ := List.exists_mem_of_ne_nil _ hdebts
        have hmem := (TeamLedger.wrote_debts hx).1
        rw [hpaid hclean] at hmem
        exact absurd hmem List.not_mem_nil

theorem noteKey (h : LedgerInv handed made start g s) (team : Uuid) (record : Option TeamKeyRecord) :
    LedgerInv handed made start (g.wrote s (s.noteKey team record)) (s.noteKey team record) :=
  @note _ _ _ _ _ _ team h rfl rfl (fun _ hne => ⟨Function.update_of_ne hne .., rfl, rfl⟩) .inl

theorem notePin (h : LedgerInv handed made start g s) (team : Uuid) (account : Uuid) (pin : Option MemberPin) :
    LedgerInv handed made start (g.wrote s (s.notePin team account pin))
      (s.notePin team account pin) :=
  @note _ _ _ _ _ _ team h rfl rfl (fun _ hne => ⟨rfl, Function.update_of_ne hne .., rfl⟩) .inl

theorem noteOwed (h : LedgerInv handed made start g s) (team : Uuid) (owed : Bool)
    (howed : owed = false → s.owes team = true → (s.view team).owedHere = true ∨ g.Paid team) :
    LedgerInv handed made start (g.wrote s (s.noteOwed team owed)) (s.noteOwed team owed) := by
  refine @note _ _ _ _ _ _ team h rfl rfl (fun _ hne => ⟨rfl, rfl, Function.update_of_ne hne ..⟩)
    fun hwas => ?_
  cases owed with
  | false => exact .inr (howed rfl hwas)
  | true => exact .inl (Function.update_self ..)

end LedgerInv

end writes

end UwuSsh

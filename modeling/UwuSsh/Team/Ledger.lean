import UwuSsh.Team.Teams

/-!
What is kept in mind of a device's run, team by team: the keys the team's space has held, with
what the account had written down when the space was made, and who was taken out of the team
without its key having been changed since. The ledger is no part of the device. It is
worked out from the writes and the answers of a run, and the invariant says what it has to
do with what the device holds.
-/
namespace UwuSsh

open Script

/-- What a device holds about one team, as far as its key goes. -/
structure TeamView where
  /-- The epoch and the key the space is sealed under. -/
  key : Option (ℕ × VaultKey)
  pending : Option PendingRotation
  owedHere : Bool
  record : Option TeamKeyRecord
  pins : Uuid → Option MemberPin
  owes : Bool

/-- A key is owed, by the space or by the account's note. -/
def TeamView.owed (v : TeamView) : Bool := v.owedHere || v.owes

/-- The key the check value is sealed under. -/
def TeamFile.underKey (file : TeamFile) : Option (ℕ × VaultKey) :=
  file.other.bind fun row => match row.check.blob with
    | .sealedWith key _ _ _ => some (row.epoch, key)
    | .raw _ => none

namespace TeamDevice

variable (d : TeamDevice) (team : Uuid)

def keyOf : Option (ℕ × VaultKey) := (d.teamSpace team).bind fun space => space.file.underKey

def rowOf : Option TeamRow := (d.teamSpace team).bind fun space => space.file.other

def view : TeamView where
  key := d.keyOf team
  pending := (d.rowOf team).bind TeamRow.pending
  owedHere := (d.rowOf team).any TeamRow.rotationOwed
  record := d.keyRecords team
  pins := d.pins team
  owes := d.owes team

end TeamDevice

/-- The keys a space has held, newest first, and the account's record when it was made. -/
structure Held where
  before : Option TeamKeyRecord
  keys : List (ℕ × VaultKey)

structure TeamLedger where
  held : Option Held
  /-- Who was taken out, and no rotation that left them out has taken effect since. -/
  debts : List Uuid
  /-- Whether the team's space stayed while a key was owed, and nobody was taken out
  while a rotation of this device that wraps for them was under way. -/
  clean : Bool

abbrev Ledger := Uuid → TeamLedger

/-- Whom a rotation that was under way wrapped for, when a write makes its key the team's. -/
def effective (team : Uuid) (v w : TeamView) : Option (List Uuid) :=
  match v.key, w.key, v.pending with
  | some held, some key, some pending =>
      if key ≠ held ∧ pending.epoch = key.1 ∧
          (UnlockedVault.openStored { vaultId := team, key := held.2 }
            (pendingId team pending.epoch) .secret pending.box).bind keyOfPlain = some key.2 then
        some pending.wrappedFor
      else none
  | _, _, _ => none

/-- Whether the server did what it was asked, or may have. -/
def mayHaveHappened : Except TeamError Unit → Bool
  | .ok () => true
  | .error e => e.isOffline

theorem effective_of_pending {team : Uuid} {v w : TeamView} {held key : ℕ × VaultKey}
    {pending : PendingRotation} (hheld : v.key = some held) (hkey : w.key = some key)
    (hpending : v.pending = some pending) (hne : key ≠ held) (hepoch : pending.epoch = key.1)
    (hopen : (UnlockedVault.openStored { vaultId := team, key := held.2 }
      (pendingId team pending.epoch) .secret pending.box).bind keyOfPlain = some key.2) :
    effective team v w = some pending.wrappedFor := by
  unfold effective
  rw [hheld, hkey, hpending]
  exact if_pos ⟨hne, hepoch, hopen⟩

namespace TeamLedger

/-- What a write adds. Somebody who is not noted as taken out any more owes nothing. -/
def wrote (account : Option Uuid) (team : Uuid) (l : TeamLedger) (v w : TeamView) : TeamLedger where
  held := w.key.map fun key => match l.held with
    | none => { before := v.record, keys := [key] }
    | some h => if h.keys.head? = some key then h else { h with keys := key :: h.keys }
  debts := ((effective team v w).elim l.debts fun wrappedFor =>
    l.debts.filter fun x => x ∈ wrappedFor).filter fun x => w.pins x = some .removed
  clean := l.clean &&
    (w.pending.all fun pending => pending.wrappedFor.all fun x =>
      some x = account || w.pins x ≠ some .removed || v.pins x = some .removed) &&
    (w.key.isSome || v.key.isNone || l.debts.isEmpty)

/-- What an answer adds: who was taken out by this account, and that this account is out. -/
def asked (account : Option Uuid) (team : Uuid) (l : TeamLedger) (v : TeamView) :
    (q : TeamAsk) → TeamAnswer q → TeamLedger
  | .removeMember team' x, answer =>
      if team' = team then
        if some x = account then
          match answer with
          | .ok () => { l with debts := [] }
          | .error _ => l
        else if mayHaveHappened answer ∧ v.owed ∧ v.pins x = some .removed then
          { l with debts := x :: l.debts }
        else l
      else l
  | .delete team', answer =>
      match answer with
      | .ok () => if team' = team then { l with debts := [] } else l
      | .error _ => l
  | _, _ => l

end TeamLedger

namespace Ledger

def wrote (g : Ledger) (s t : TeamDevice) : Ledger := fun team =>
  (g team).wrote s.account team (s.view team) (t.view team)

def asked (g : Ledger) (s : TeamDevice) (q : TeamAsk) (a : TeamAnswer q) : Ledger := fun team =>
  (g team).asked s.account team (s.view team) q a

end Ledger

section invariant

variable (handed : WrapContext → TeamKeys → Prop) (made : VaultKey → Prop)

/-- Keys that reached this device in a wrap for its account, or that it made. -/
def Known (account : Option Uuid) (team : Uuid) (epoch : ℕ) (keys : TeamKeys) : Prop :=
  made keys.key ∨ ∃ a, account = some a ∧ handed { team, epoch, account := a } keys

/-- One key of a team comes after another. -/
def After (account : Option Uuid) (team : Uuid) (key held : ℕ × VaultKey) : Prop :=
  held.1 < key.1 ∧ ∃ keys : TeamKeys, keys.key = key.2 ∧ keys.follows key.1 held.1 held.2 = true ∧
    Known handed made account team key.1 keys

/-- The first key of a space comes after the one the account had written down, if any,
unless this device made it. -/
def Begins (account : Option Uuid) (team : Uuid) (before : Option TeamKeyRecord)
    (key : ℕ × VaultKey) : Prop :=
  made key.2 ∨ ∃ keys : TeamKeys, keys.key = key.2 ∧
    Known handed made account team key.1 keys ∧
      ∀ record, before = some record → keys.followsMark key.1 record.epoch record.mark = true

/-- Each key comes after the one before it; the oldest one is how the space began. -/
def Linked (account : Option Uuid) (team : Uuid) (first : ℕ × VaultKey → Prop) :
    List (ℕ × VaultKey) → Prop
  | [] => False
  | [key] => first key
  | key :: held :: rest => After handed made account team key held ∧
      Linked account team first (held :: rest)

/-- What the ledger of a team has to do with what the device holds of it. `first` is what is
known of the first key of a space. -/
structure TeamInv (first : Option TeamKeyRecord → ℕ × VaultKey → Prop) (account : Option Uuid)
    (team : Uuid) (l : TeamLedger) (v : TeamView) : Prop where
  gone : v.key = none → l.held = none
  held : ∀ key, v.key = some key → ∃ h, l.held = some h ∧ h.keys.head? = some key ∧
    Linked handed made account team (first h.before) h.keys
  barred : ∀ x ∈ l.debts, v.pins x = some .removed ∧ some x ≠ account
  owed : l.clean = true → l.debts ≠ [] → v.owed = true
  left : l.clean = true → ∀ pending, v.pending = some pending → ∀ x ∈ pending.wrappedFor,
    some x ≠ account → v.pins x ≠ some .removed

/-- Every space is a team's and sealed under one key. -/
def SpacesSound (d : TeamDevice) : Prop :=
  ∀ team space, d.teamSpace team = some space →
    ∃ epoch key row, space.file.HoldsKey team epoch key row

end invariant

namespace TeamDevice

variable {d : TeamDevice} {team team' : Uuid} {epoch : ℕ} {key : VaultKey} {row : TeamRow}

theorem teamSpace_setFile (file : TeamFile) : (d.setFile team file).teamSpace team' =
    if team' = team then (d.teamSpace team').map fun space => { space with file }
    else d.teamSpace team' := by
  unfold teamSpace setFile
  dsimp only
  rw [List.find?_map]
  have hsame : ((fun space : TeamSpace => decide (space.team = team')) ∘ fun space : TeamSpace =>
      if space.team = team then { space with file } else space) =
      fun space => decide (space.team = team') := by
    funext space
    dsimp only [Function.comp_apply]
    split <;> rfl
  rw [hsame]
  cases hfound : d.spaces.find? fun space => space.team = team' with
  | none => simp
  | some space =>
    have hteam : space.team = team' := by simpa using List.find?_some hfound
    by_cases heq : team' = team
    · simp [hteam, heq]
    · simp [hteam, heq]

theorem teamSpace_updateTeam (label : String) (role : TeamRole) :
    (d.updateTeam team label role).teamSpace team' = (d.teamSpace team').map fun space =>
      if team' = team then { space with label, role } else space := by
  unfold teamSpace updateTeam
  dsimp only
  rw [List.find?_map]
  have hsame : ((fun space : TeamSpace => decide (space.team = team')) ∘ fun space : TeamSpace =>
      if space.team = team then { space with label, role } else space) =
      fun space => decide (space.team = team') := by
    funext space
    dsimp only [Function.comp_apply]
    split <;> rfl
  rw [hsame]
  cases hfound : d.spaces.find? fun space => space.team = team' with
  | none => rfl
  | some space =>
    have hteam : space.team = team' := by simpa using List.find?_some hfound
    simp [hteam]

theorem teamSpace_addSpace (space : TeamSpace) : (d.addSpace space).teamSpace team' =
    (d.teamSpace team').or (if space.team = team' then some space else none) := by
  unfold teamSpace addSpace
  rw [List.find?_append]
  by_cases hteam : space.team = team'
  · simp [hteam]
  · simp [hteam]

theorem teamSpace_removeTeam : (d.removeTeam team).teamSpace team' =
    if team' = team then none else d.teamSpace team' := by
  unfold teamSpace removeTeam
  dsimp only
  rw [List.find?_filter]
  split
  · next heq =>
    rw [List.find?_eq_none]
    intro space _
    simp [heq]
  · next hne =>
    congr 1
    funext space
    by_cases hteam : space.team = team'
    · simp [hteam, hne]
    · simp [hteam]

/-- The team's space, and the key it is sealed under. -/
structure Holds (d : TeamDevice) (team : Uuid) (epoch : ℕ) (key : VaultKey) (row : TeamRow)
    (space : TeamSpace) : Prop where
  found : d.teamSpace team = some space
  file : space.file.HoldsKey team epoch key row

/-- The check value names the key. -/
theorem Holds.underKey {space : TeamSpace} (h : d.Holds team epoch key row space) :
    d.keyOf team = some (epoch, key) := by
  have hfile : space.file.underKey = some (row.epoch, key) := by
    unfold TeamFile.underKey
    rw [h.file.here, Option.bind_some, h.file.sealedUnder]
    rfl
  unfold keyOf
  rw [h.found, Option.bind_some, hfile, h.file.ofEpoch]

theorem Holds.view {space : TeamSpace} (h : d.Holds team epoch key row space) : d.view team =
    { key := some (epoch, key), pending := row.pending, owedHere := row.rotationOwed
      record := d.keyRecords team, pins := d.pins team, owes := d.owes team } := by
  have hrow : d.rowOf team = some row := by
    unfold rowOf
    rw [h.found, Option.bind_some, h.file.here]
  unfold TeamDevice.view
  rw [h.underKey, hrow]
  rfl

theorem view_of_gone (h : d.teamSpace team = none) : d.view team =
    { key := none, pending := none, owedHere := false, record := d.keyRecords team
      pins := d.pins team, owes := d.owes team } := by
  unfold TeamDevice.view keyOf rowOf
  rw [h]
  rfl

/-- A view says what the space, the record, the pins and the note say. -/
theorem view_congr {t : TeamDevice} (hspace : (t.teamSpace team).map TeamSpace.file =
    (d.teamSpace team).map TeamSpace.file) (hrecord : t.keyRecords team = d.keyRecords team)
    (hpins : t.pins team = d.pins team) (howes : t.owes team = d.owes team) :
    t.view team = d.view team := by
  have hkey : t.keyOf team = d.keyOf team := by
    have hcongr := congrArg (fun o : Option TeamFile => o.bind TeamFile.underKey) hspace
    simp only [Option.bind_map] at hcongr
    exact hcongr
  have hrow : t.rowOf team = d.rowOf team := by
    have hcongr := congrArg (fun o : Option TeamFile => o.bind fun file => file.other) hspace
    simp only [Option.bind_map] at hcongr
    exact hcongr
  unfold TeamDevice.view
  rw [hkey, hrow, hrecord, hpins, howes]

end TeamDevice

section steps

variable {handed : WrapContext → TeamKeys → Prop} {made : VaultKey → Prop}
  {first : Option TeamKeyRecord → ℕ × VaultKey → Prop} {account : Option Uuid} {team : Uuid}
  {l : TeamLedger} {v w : TeamView}

theorem TeamLedger.wrote_debts {x : Uuid} (h : x ∈ (l.wrote account team v w).debts) :
    x ∈ l.debts ∧ w.pins x = some .removed ∧
      ∀ wrappedFor, effective team v w = some wrappedFor → x ∈ wrappedFor := by
  obtain ⟨hmem, hpin⟩ := List.mem_filter.mp h
  refine ⟨?_, of_decide_eq_true hpin, fun wrappedFor heffective => ?_⟩
  · cases heffective : effective team v w with
    | none => simpa [heffective] using hmem
    | some wrappedFor =>
      rw [heffective] at hmem
      exact (List.mem_filter.mp hmem).1
  · rw [heffective] at hmem
    exact of_decide_eq_true (List.mem_filter.mp hmem).2

theorem TeamLedger.wrote_clean (h : (l.wrote account team v w).clean = true) : l.clean = true ∧
    (∀ pending, w.pending = some pending → ∀ x ∈ pending.wrappedFor, some x ≠ account →
      w.pins x = some .removed → v.pins x = some .removed) ∧
    (w.key = none → v.key ≠ none → l.debts = []) := by
  obtain ⟨hboth, hstays⟩ := Bool.and_eq_true_iff.mp h
  obtain ⟨hclean, hwraps⟩ := Bool.and_eq_true_iff.mp hboth
  refine ⟨hclean, fun pending hpending x hx hother hout => ?_, fun hgone hwas => ?_⟩
  · rw [hpending] at hwraps
    have hone := List.all_eq_true.mp hwraps x hx
    simpa [hother, hout] using hone
  · have hkey : v.key.isNone = false := by
      cases hv : v.key with
      | none => exact absurd hv hwas
      | some key => rfl
    simpa [hgone, hkey] using hstays

/-- What one write has to show to keep the ledger true. -/
theorem TeamInv.wrote (h : TeamInv handed made first account team l v)
    (hkey : ∀ key, w.key = some key → v.key = some key ∨ (v.key = none ∧ first v.record key) ∨
      ∃ held, v.key = some held ∧ After handed made account team key held)
    (hpending : ∀ pending, w.pending = some pending → v.pending = some pending ∨
      ∀ x ∈ pending.wrappedFor, some x ≠ account → v.pins x ≠ some .removed)
    (howed : l.clean = true → (l.wrote account team v w).debts ≠ [] → w.key = none ∧ v.key ≠ none ∨
      w.owed = true) :
    TeamInv handed made first account team (l.wrote account team v w) w where
  gone := fun hgone => by simp [TeamLedger.wrote, hgone]
  held := by
    intro key hw
    rcases hkey key hw with hsame | ⟨hnew, hfirst⟩ | ⟨held, hheld, hafter⟩
    · obtain ⟨before, hbefore, hhead, hlinked⟩ := h.held key hsame
      exact ⟨before, by simp [TeamLedger.wrote, hw, hbefore, hhead], hhead, hlinked⟩
    · exact ⟨{ before := v.record, keys := [key] },
        by simp [TeamLedger.wrote, hw, h.gone hnew], rfl, hfirst⟩
    · obtain ⟨before, hbefore, hhead, hlinked⟩ := h.held held hheld
      have hne : held ≠ key := by
        rintro rfl
        exact absurd hafter.1 (by omega)
      refine ⟨{ before with keys := key :: before.keys }, ?_, rfl, ?_⟩
      · simp [TeamLedger.wrote, hw, hbefore, hhead, hne]
      · cases hkeys : before.keys with
        | nil => simp [hkeys] at hhead
        | cons top rest =>
          rw [hkeys, List.head?_cons, Option.some.injEq] at hhead
          rw [hkeys] at hlinked
          subst hhead
          exact ⟨hafter, hlinked⟩
  barred := fun x hx => ⟨(TeamLedger.wrote_debts hx).2.1, (h.barred x (TeamLedger.wrote_debts hx).1).2⟩
  owed := by
    intro hclean hdebts
    obtain ⟨hbefore, -, hstays⟩ := TeamLedger.wrote_clean hclean
    rcases howed hbefore hdebts with ⟨hgone, hwas⟩ | howed
    · refine absurd (List.eq_nil_iff_forall_not_mem.mpr fun x hx => ?_) hdebts
      have hmem := (TeamLedger.wrote_debts hx).1
      rw [hstays hgone hwas] at hmem
      exact absurd hmem List.not_mem_nil
    · exact howed
  left := by
    intro hclean pending hw x hx hother hout
    obtain ⟨hbefore, hwraps, -⟩ := TeamLedger.wrote_clean hclean
    have hwas := hwraps pending hw x hx hother hout
    rcases hpending pending hw with hsame | hnew
    · exact h.left hbefore pending hsame x hx hother hwas
    · exact hnew x hx hother hwas

/-- A write that changes nothing about a team adds nothing. -/
theorem TeamInv.wrote_same (h : TeamInv handed made first account team l v) :
    l.wrote account team v v = l := by
  have heffective : effective team v v = none := by
    unfold effective
    split
    · next held key _ hv hv' _ =>
      have hsame : key = held := Option.some.inj (hv'.symm.trans hv)
      simp [hsame]
    · rfl
  have hheld : (l.wrote account team v v).held = l.held := by
    cases hv : v.key with
    | none => simp [TeamLedger.wrote, hv, h.gone hv]
    | some key =>
      obtain ⟨before, hbefore, hhead, -⟩ := h.held key hv
      simp [TeamLedger.wrote, hv, hbefore, hhead]
  have hdebts : (l.wrote account team v v).debts = l.debts := by
    unfold TeamLedger.wrote
    rw [heffective]
    exact List.filter_eq_self.mpr fun x hx => by simp [(h.barred x hx).1]
  have hclean : (l.wrote account team v v).clean = l.clean := by
    have hwraps : (v.pending.all fun pending => pending.wrappedFor.all fun x =>
        some x = account || v.pins x ≠ some .removed || v.pins x = some .removed) = true := by
      cases v.pending with
      | none => rfl
      | some pending =>
        refine List.all_eq_true.mpr fun x _ => ?_
        by_cases hx : v.pins x = some .removed
        · simp [hx]
        · simp [hx]
    have hstays : (v.key.isSome || v.key.isNone || l.debts.isEmpty) = true := by
      cases v.key <;> simp
    unfold TeamLedger.wrote
    simp only [hwraps, hstays, Bool.and_true]
  calc
    l.wrote account team v v = ⟨(l.wrote account team v v).held, (l.wrote account team v v).debts,
        (l.wrote account team v v).clean⟩ := rfl
    _ = l := by rw [hheld, hdebts, hclean]

/-- A key that is still owed after a write was owed before it. -/
theorem TeamInv.owed_before (h : TeamInv handed made first account team l v) (hclean : l.clean = true)
    (hdebts : (l.wrote account team v w).debts ≠ []) : v.owed = true := by
  obtain ⟨x, hx⟩ := List.exists_mem_of_ne_nil _ hdebts
  exact h.owed hclean (List.ne_nil_of_mem (TeamLedger.wrote_debts hx).1)

/-- When a rotation of this device takes effect, nobody who was taken out has the new key. -/
theorem TeamInv.paid (h : TeamInv handed made first account team l v) {wrappedFor : List Uuid}
    (heffective : effective team v w = some wrappedFor)
    (hclean : l.clean = true) : (l.wrote account team v w).debts = [] := by
  obtain ⟨pending, hpending, hwraps⟩ : ∃ pending, v.pending = some pending ∧
      pending.wrappedFor = wrappedFor := by
    unfold effective at heffective
    split at heffective
    · next _ _ pending _ _ hv =>
      split at heffective
      · exact ⟨pending, hv, Option.some.inj heffective⟩
      · cases heffective
    · cases heffective
  refine List.eq_nil_iff_forall_not_mem.mpr fun x hx => ?_
  obtain ⟨hmem, -, hin⟩ := TeamLedger.wrote_debts hx
  obtain ⟨hout, hother⟩ := h.barred x hmem
  exact h.left hclean pending hpending x (hwraps ▸ hin wrappedFor heffective) hother hout

theorem TeamInv.forgiven (h : TeamInv handed made first account team l v) :
    TeamInv handed made first account team { l with debts := [] } v :=
  { h with
    barred := fun _ hx => absurd hx List.not_mem_nil
    owed := fun _ hdebts => absurd rfl hdebts }

theorem TeamInv.barring (h : TeamInv handed made first account team l v) {x : Uuid}
    (howed : v.owed = true) (hout : v.pins x = some .removed) (hother : some x ≠ account) :
    TeamInv handed made first account team { l with debts := x :: l.debts } v :=
  { h with
    barred := List.forall_mem_cons.mpr ⟨⟨hout, hother⟩, h.barred⟩
    owed := fun _ _ => howed }

/-- What an answer adds keeps the ledger true. -/
theorem TeamInv.asked (h : TeamInv handed made first account team l v) (q : TeamAsk)
    (a : TeamAnswer q) : TeamInv handed made first account team (l.asked account team v q a) v := by
  cases q with
  | removeMember team' x =>
    unfold TeamLedger.asked
    dsimp only
    by_cases hteam : team' = team
    · by_cases hself : some x = account
      · rw [if_pos hteam, if_pos hself]
        cases a with
        | ok _ => exact h.forgiven
        | error e => exact h
      · rw [if_pos hteam, if_neg hself]
        split
        · next hnow => exact h.barring hnow.2.1 hnow.2.2 hself
        · exact h
    · rw [if_neg hteam]
      exact h
  | delete team' =>
    unfold TeamLedger.asked
    cases a with
    | ok _ =>
      dsimp only
      split
      · exact h.forgiven
      · exact h
    | error e => exact h
  | _ => exact h

end steps

end UwuSsh

import UwuSsh.Team.Runs

/-!
What is owed to a team. Whoever was taken out of a team still has its key until a rotation that
left them out takes effect, so as long as there is somebody like that, a key is owed.
-/
namespace UwuSsh

open Script

variable {handed : WrapContext → TeamKeys → Prop} {made : VaultKey → Prop} {d t : TeamDevice}
  {g : Ledger} {log : List (Entry TeamDevice TeamAsk TeamAnswer Ledger)}

/-- A key stays owed, as long as nobody is taken out while a rotation that wraps for them is
under way, and the team's space does not go while a key is owed. -/
theorem TeamRun.stays_owed (hsound : SpacesSound d) (hrun : TeamRun handed made d log g t)
    {team x : Uuid} (hclean : (g team).clean = true) (hx : x ∈ (g team).debts) :
    (t.view team).owed = true :=
  ((hrun.inv hsound).teams team).owed hclean (List.ne_nil_of_mem hx)

section samples

/-- A run of the sample device with a server that says anything. -/
def sampleContract : Contract TeamDevice TeamAsk TeamAnswer Ledger :=
  teamContract (fun _ _ => True) (fun _ => True) fun team key =>
    (TeamDevice.sample 5 1 11 8 80).keyOf team = some key

/-- The team as the server lists it when it wants a new key for it. -/
def wantsKey : WireTeam :=
  { WireTeam.sample 5 1 { key := 11, earlier := [] } with needsRotation := true }

def answer (op : TeamOp) (wire : WireTeam) (before : Ledger × TeamDevice) : Ledger × TeamDevice :=
  let run := op.program.play sampleContract (steadyServer [wire] bothMembers 12 5) before.1 before.2
  (run.history, run.state)

def begun : Ledger × TeamDevice :=
  (Ledger.start (.sample 5 1 11 8 80), .sample 5 1 11 8 80)

/-- The member is taken out, and the server is not heard of any more. -/
def takenOut : Ledger × TeamDevice := answer (.remove 5 8) wantsKey begun

/-- A rotation reaches the server and its answer is lost; the member is taken out; the next pass
finds the key of that rotation. -/
def overtaken : Ledger × TeamDevice :=
  answer .pass (.sample 5 2 { key := 12, earlier := [keyMark 11] })
    (answer (.remove 5 8) wantsKey (answer .pass wantsKey begun))

theorem answered (op : TeamOp) (wire : WireTeam) {before : Ledger × TeamDevice}
    (h : ∃ log, TeamRun (fun _ _ => True) (fun _ => True) (.sample 5 1 11 8 80) log before.1 before.2) :
    ∃ log, TeamRun (fun _ _ => True) (fun _ => True) (.sample 5 1 11 8 80) log
      (answer op wire before).1 (answer op wire before).2 := by
  obtain ⟨log, hrun⟩ := h
  exact hrun.played (steadyServer_named (fun _ _ _ _ _ _ => trivial) trivial) op

theorem started : ∃ log, TeamRun (fun _ _ => True) (fun _ => True) (.sample 5 1 11 8 80) log
    begun.1 begun.2 := ⟨[], .start⟩

theorem TeamRun.stays_owed_sample : (takenOut.2.view 5).owed = true := by
  obtain ⟨log, hrun⟩ := answered (.remove 5 8) wantsKey started
  have hclean : (takenOut.1 5).clean = true := by decide +kernel
  have hout : 8 ∈ (takenOut.1 5).debts := by decide +kernel
  exact TeamRun.stays_owed (TeamDevice.sample_sound 5 1 11 8 80) hrun hclean hout

/-- A rotation that wraps for a member can pay for taking them out. -/
theorem TeamRun.debt_forgotten : ∃ log g t,
    TeamRun (fun _ _ => True) (fun _ => True) (.sample 5 1 11 8 80) log g t ∧
      8 ∈ (g 5).debts ∧ (t.view 5).owed = false := by
  obtain ⟨log, hrun⟩ := answered .pass (.sample 5 2 { key := 12, earlier := [keyMark 11] })
    (answered (.remove 5 8) wantsKey (answered .pass wantsKey started))
  have hout : 8 ∈ (overtaken.1 5).debts := by decide +kernel
  have howed : (overtaken.2.view 5).owed = false := by decide +kernel
  exact ⟨log, overtaken.1, overtaken.2, hrun, hout, howed⟩

end samples

end UwuSsh

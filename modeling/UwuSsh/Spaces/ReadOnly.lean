import UwuSsh.Lib.Run
import UwuSsh.Spaces.MainFacts
import UwuSsh.Spaces.RecordsFacts
import UwuSsh.Store.HostsFacts

/-!
Runs of calls on records over any number of spaces. Between the calls anything may happen that
leaves the spaces sound, and a call may be cut off anywhere. In a run whose calls keep clear of
the two ways past the check, no call touches the file of a team that is only read. Trusting a
host key for a host of such a team does.
-/
namespace UwuSsh

open Script Run

namespace Spaces

/-- What happens in a run: a call on records, or something else. -/
inductive RecordEvent
  | call (op : RecordOp)
  | other

/-- A call may go from one state to another, to its end or to where it is cut off. -/
def Calls (calls : StoreCalls) (op : RecordOp) (s t : Spaces) : Prop :=
  ∃ log o, Exec (anyhow fun _ => True) (op.run calls) () s log () t o

/-- One step of a run in which every call keeps clear of teams that are only read. -/
def RecordStep (calls : StoreCalls) (s : Spaces) : RecordEvent → Spaces → Prop
  | .call op, t => Permits s op ∧ Calls calls op s t
  | .other, t => t.inner.Sound t.paths

variable {calls : StoreCalls} {s t u : Spaces} {log : List RecordEvent} {op : RecordOp}

/-- A call that keeps clear leaves everything beside the spaces it may write as it was. -/
theorem Calls.beside (h : Calls calls op s t) (hsound : s.inner.Sound s.paths)
    (hpermits : Permits s op) : Beside s t := by
  obtain ⟨log, o, hrun⟩ := h
  have hrun' : Exec (anyhow (Beside s)) (op.run calls) () s log () t o :=
    Exec.of_weaker (c := anyhow fun _ => True) rfl rfl (fun _ _ _ _ h => h) (fun _ _ _ h => h) hrun
  exact (hrun'.sound (wp_run hsound calls op hpermits) (.refl hsound)).2.1

theorem RecordStep.sound {e : RecordEvent} (h : RecordStep calls s e t)
    (hsound : s.inner.Sound s.paths) : t.inner.Sound t.paths := by
  cases e with
  | call op => exact (h.2.beside hsound h.1).sound hsound
  | other => exact h

theorem sound_of_trace (h : Trace (RecordStep calls) s log t) (hsound : s.inner.Sound s.paths) :
    t.inner.Sound t.paths :=
  h.invariant (fun _ t => t.inner.Sound t.paths) (fun _ _ _ _ h hstep => hstep.sound h) hsound

/-- In such a run no call changes the file of a team that is only read, nor that it is one. -/
theorem onlyRead_untouched (hsound : s.inner.Sound s.paths)
    (hrun : Trace (RecordStep calls) s log t) (hcall : RecordStep calls t (.call op) u)
    {entry : RegistryEntry} (hentry : entry ∈ t.inner.entries) (hread : entry.onlyRead = true) :
    entry ∈ u.inner.entries ∧ u.files (u.path entry) = t.files (t.path entry) := by
  have hbeside := hcall.2.beside (sound_of_trace hrun hsound) hcall.1
  refine ⟨?_, ?_⟩
  · rw [hbeside.entries]
    exact hentry
  · rw [hbeside.path]
    exact hbeside.files entry hentry hread

section examples

/-- A team this account only reads. -/
def readTeam : RegistryEntry :=
  { id := "team", file := "spaces/00000000-0000-0000-0000-000000000001.db", kind := .team
    readOnly := true, parent := some "first", team := some 6, label := some "ops"
    role := some .reader }

def readRegistryFile : RegistryFile where
  version := 1
  main := "first"
  spaces := [firstServer, readTeam]
  defaults := { private_ := "first", business := "first" }
  journal := none
  handover := none
  leaving := none

/-- A server with a team on it that is only read and has two hosts. -/
def serverWithTeam : Spaces where
  paths := { baseName := "uwussh.db" }
  registry := .file readRegistryFile
  aside := false
  inner := .ofDisk { baseName := "uwussh.db" } (.file readRegistryFile)
  files
    | .base =>
        { store := Store.empty 1 7 (some { vaultId := 7, key := 1 }), kept := none, staged := none }
    | .space _ => { store := sharedLogin, kept := none, staged := none }

/-- New ids, a time, and everything goes through. -/
def freshAnswers : (q : SpacesAsk) → Option (SpacesAnswer q)
  | .draws => some countingDraws
  | .protect_ _ => some (some [])
  | .reads => some true
  | .folderSynced => some true
  | .never => none

/-- Calls of a store that refuse everything. -/
def refusingCalls : StoreCalls where
  saveHost _ := .fail .device
  placeHost _ _ _ := .fail .device
  deleteHost _ := .fail .device
  setHostPassword _ _ := .fail .device
  markConnected _ := .fail .device
  setHostOs _ _ := .fail .device
  importMovedHost _ _ := .fail .device
  dropMovedHost _ := .fail .device
  createGroup _ _ := .fail .device
  renameGroup _ _ _ := .fail .device
  deleteGroup _ _ := .fail .device
  moveGroup _ _ _ _ := .fail .device
  addKey _ := .fail .device
  renameKey _ _ := .fail .device
  deleteKey _ := .fail .device
  importMovedKey _ := .fail .device
  saveTunnel _ := .fail .device
  deleteTunnel _ := .fail .device
  importSet _ := .fail .device
  importBackup _ := .fail .device

/-- The user trusts the key a host presents. -/
def trusting (address : String) : RecordOp :=
  .trustHostKey (some { algorithm := "ssh-ed25519", fingerprint := "SHA256:aa", publicKey := "AAAA" })
    address 22 "SHA256:aa" false

/-- Where a call ends up. -/
def afterCall (calls : StoreCalls) (op : RecordOp) (s : Spaces) : Spaces :=
  ((op.run calls).follow (anyhow fun _ => True) (fun _ => freshAnswers) 20 () s).2.1

theorem calls_afterCall (calls : StoreCalls) (op : RecordOp) (s : Spaces) :
    Calls calls op s (afterCall calls op s) := by
  have hfollow : ∃ log, Exec (anyhow fun _ => True) (op.run calls) () s log ()
      (afterCall calls op s) _ :=
    follow_exec _ (fun _ _ _ _ _ => trivial) (fun _ _ _ => trivial) (op.run calls) 20 () s
  obtain ⟨log, hlog⟩ := hfollow
  exact ⟨log, _, hlog⟩

/-- Trusting a host key for a host of a team that is only read puts a row to be sent into its
store. -/
theorem trusting_writes_onlyRead :
    ∃ t : Spaces, Calls refusingCalls (trusting "web.example") serverWithTeam t ∧
      readTeam ∈ serverWithTeam.inner.entries ∧ readTeam.onlyRead = true ∧
      (serverWithTeam.store readTeam).knownHostRows = [] ∧
      (t.store readTeam).knownHostRows.any (fun e => e.2.dirty) = true :=
  ⟨_, calls_afterCall refusingCalls (trusting "web.example") serverWithTeam, by decide +kernel,
    by decide +kernel, by decide +kernel, by decide +kernel⟩

/-- The team trusts another key for its hosts already. -/
def keyedTeam : Spaces :=
  { serverWithTeam with
    files := fun place => match place with
      | .base => serverWithTeam.files .base
      | .space _ =>
          { store := sharedLogin.trustHostKey 9 30 "web.example" 22 "ssh-ed25519" "SHA256:bb" "BBBB"
            kept := none, staged := none } }

/-- Trusting the key of a host that no team has leaves the team's file as it was, and so does trusting another key
for a host of the team without the user's word. -/
theorem trusting_elsewhere_untouched :
    (∃ u : Spaces, RecordStep refusingCalls serverWithTeam (.call (trusting "other.example")) u ∧
      readTeam ∈ u.inner.entries ∧
      u.files (u.path readTeam) = serverWithTeam.files (serverWithTeam.path readTeam)) ∧
    ∃ u : Spaces, RecordStep refusingCalls keyedTeam (.call (trusting "web.example")) u ∧
      readTeam ∈ u.inner.entries ∧ u.files (u.path readTeam) = keyedTeam.files (keyedTeam.path readTeam) := by
  constructor
  · have hpermits : Permits serverWithTeam (trusting "other.example") := by
      refine ⟨False.elim, ?_⟩
      rintro ⟨-, -, entry, hentry, hread, hmem⟩
      have hnone : spacesOfAddress "other.example" 22 serverWithTeam.hosts = [] := by decide +kernel
      rw [hnone] at hmem
      cases hmem
    have hstep : RecordStep refusingCalls serverWithTeam (.call (trusting "other.example")) _ :=
      ⟨hpermits, calls_afterCall refusingCalls (trusting "other.example") serverWithTeam⟩
    have hsound : serverWithTeam.inner.Sound serverWithTeam.paths :=
      Inner.ofDisk_sound { baseName := "uwussh.db" } (.file readRegistryFile)
    exact ⟨_, hstep, onlyRead_untouched hsound .start hstep (by decide +kernel) (by decide +kernel)⟩
  · have hpermits : Permits keyedTeam (trusting "web.example") := by
      refine ⟨False.elim, ?_⟩
      rintro ⟨-, hword, -⟩
      have hother : ((spacesOfAddress "web.example" 22 keyedTeam.hosts).any fun id =>
          (keyedTeam.inner.get id).any fun space =>
            ((keyedTeam.store space.toRegistryEntry).knownHost "web.example" 22).any fun known =>
              known.fingerprint != "SHA256:aa") = true := by decide +kernel
      obtain ⟨id, hid, hany⟩ := List.any_eq_true.mp hother
      obtain ⟨space, hget, hknown⟩ := (Option.any_eq_true _ _).mp hany
      exact absurd (hword ⟨id, hid, space, hget, hknown⟩) (by decide)
    have hstep : RecordStep refusingCalls keyedTeam (.call (trusting "web.example")) _ :=
      ⟨hpermits, calls_afterCall refusingCalls (trusting "web.example") keyedTeam⟩
    have hsound : keyedTeam.inner.Sound keyedTeam.paths :=
      Inner.ofDisk_sound { baseName := "uwussh.db" } (.file readRegistryFile)
    exact ⟨_, hstep, onlyRead_untouched hsound .start hstep (by decide +kernel) (by decide +kernel)⟩

end examples

end Spaces

end UwuSsh

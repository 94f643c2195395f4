import UwuSsh.Sync.Invariant
import UwuSsh.Sync.MemoryFacts

/-!
Bad records among good ones. Records that name another vault or fail their seal are passed
over one by one, wherever they stand, and what a record was applied for stays true through
everything a pass does. A pull stops only in front of a page on which nothing is what it
claims to be; short of such a page, passes against a log that stands still reach its end.
-/
namespace UwuSsh

/-- A payload that can be taken apart as what its kind holds, or that need not be. -/
def Plain.Parses (plain : Plain) (kind : EntityKind) : Prop :=
  match kind with
  | .terminalProfile | .secret | .manifest => True
  | kind => (Cols.ofPlain kind plain).isSome = true

namespace UnlockedVault

variable (vault : UnlockedVault) (env : Envelope)

/-- A record that names another vault or fails its seal. -/
def Forged : Prop :=
  env.vaultId ≠ vault.vaultId ∨ (env.kind.hasTable = true ∧ vault.openEnvelope env = none)

/-- A manifest filed under another device's id. -/
def Misfiled : Prop :=
  env.kind = .manifest ∧ ∃ payload manifest, vault.openEnvelope env = some (.bytes payload) ∧
    Manifest.decode payload = some manifest ∧ env.id ≠ manifestId env.vaultId manifest.device

/-- A record whose seal holds and whose payload this build cannot take apart. -/
def Unparsed : Prop :=
  env.vaultId = vault.vaultId ∧ env.deleted = false ∧
    ∃ plain, vault.openEnvelope env = some plain ∧ ¬ plain.Parses env.kind

end UnlockedVault

namespace Store

section applied

variable {s t : Store} {vault : UnlockedVault} {env : Envelope}

/-- A live payload that parses is written, passed over or, as a misfiled manifest, rejected. -/
theorem insertRecord_of_parses (s : Store) {plain : Plain} (thisDevice : UInt32)
    (hopen : vault.openEnvelope env = some plain) (h : plain.Parses env.kind) :
    ∃ t outcome, s.insertRecord vault env plain thisDevice = .ok (t, outcome) ∧
      outcome.rejected ≤ 1 ∧ (¬ vault.Misfiled env → outcome.rejected = 0) := by
  unfold Plain.Parses at h
  unfold insertRecord
  split
  · exact ⟨_, _, rfl, Nat.zero_le 1, fun _ => rfl⟩
  · exact ⟨_, _, rfl, Nat.zero_le 1, fun _ => rfl⟩
  · next hkind =>
    split
    · exact ⟨_, _, rfl, Nat.zero_le 1, fun _ => rfl⟩
    · next payload =>
      split
      · exact ⟨_, _, rfl, Nat.zero_le 1, fun _ => rfl⟩
      · next manifest hdecode =>
        by_cases hid : env.id = manifestId env.vaultId manifest.device
        · rw [if_neg (not_not.mpr hid)]
          exact ⟨_, _, rfl, Nat.zero_le 1, fun _ => rfl⟩
        · rw [if_pos hid]
          exact ⟨_, _, rfl, le_rfl, fun hfiled =>
            absurd ⟨hkind, payload, manifest, hopen, hdecode, hid⟩ hfiled⟩
  · next hkind =>
    simp only [hkind] at h
    obtain ⟨cols, hcols⟩ := Option.isSome_iff_exists.mp h
    simp only [hcols]
    have hzero := s.applyKnownHost_rejected env cols thisDevice
    exact ⟨_, _, rfl, hzero.le.trans (Nat.zero_le 1), fun _ => hzero⟩
  · next h₁ h₂ h₃ h₄ =>
    have hcols : (Cols.ofPlain env.kind plain).isSome = true := by
      cases hkind : env.kind <;> simp_all
    obtain ⟨cols, hcols⟩ := Option.isSome_iff_exists.mp hcols
    simp only [hcols]
    exact ⟨_, _, rfl, Nat.zero_le 1, fun _ => rfl⟩

/-- A record that is not an unreadable one never fails a batch. -/
theorem applyOne_of_parsed (s : Store) (thisDevice : UInt32) (h : ¬ vault.Unparsed env) :
    ∃ t outcome, s.applyOne vault env thisDevice = .ok (t, outcome) ∧ outcome.rejected ≤ 1 ∧
      (¬ vault.Forged env → ¬ vault.Misfiled env → outcome.rejected = 0) := by
  unfold applyOne
  by_cases hvault : env.vaultId = vault.vaultId
  · rw [if_neg (not_not.mpr hvault)]
    cases htable : env.kind.hasTable with
    | false => exact ⟨_, _, rfl, Nat.zero_le 1, fun _ _ => rfl⟩
    | true =>
      rw [if_neg (by simp)]
      cases hopen : vault.openEnvelope env with
      | none => exact ⟨_, _, rfl, le_rfl, fun hforged _ => absurd (Or.inr ⟨htable, hopen⟩) hforged⟩
      | some plain =>
        have hinsert : env.deleted = false →
            ∃ t outcome, s.insertRecord vault env plain thisDevice = .ok (t, outcome) ∧
              outcome.rejected ≤ 1 ∧
              (¬ vault.Forged env → ¬ vault.Misfiled env → outcome.rejected = 0) := by
          intro hlive
          have hparses : plain.Parses env.kind := by
            by_contra hparses
            exact h ⟨hvault, hlive, plain, hopen, hparses⟩
          obtain ⟨t, outcome, hok, hle, hzero⟩ :=
            s.insertRecord_of_parses thisDevice hopen hparses
          exact ⟨t, outcome, hok, hle, fun _ => hzero⟩
        dsimp only
        split
        · by_cases hdeleted : env.deleted = true
          · rw [if_pos hdeleted]
            exact ⟨_, _, rfl, Nat.zero_le 1, fun _ _ => rfl⟩
          · rw [if_neg hdeleted]
            exact hinsert (by simpa using hdeleted)
        · split
          · exact ⟨_, _, rfl, Nat.zero_le 1, fun _ _ => rfl⟩
          · exact ⟨_, _, rfl, Nat.zero_le 1, fun _ _ => rfl⟩
          · by_cases hdeleted : env.deleted = true
            · rw [if_pos hdeleted]
              exact ⟨_, _, rfl, Nat.zero_le 1, fun _ _ => rfl⟩
            · rw [if_neg hdeleted]
              exact hinsert (by simpa using hdeleted)
  · rw [if_pos hvault]
    exact ⟨_, _, rfl, le_rfl, fun hforged _ => absurd (Or.inl hvault) hforged⟩

/-- A forged record is rejected and changes nothing. -/
theorem applyOne_of_forged (s : Store) (thisDevice : UInt32) (h : vault.Forged env) :
    s.applyOne vault env thisDevice = .ok (s, .reject) := by
  unfold applyOne
  rcases h with hvault | ⟨htable, hopen⟩
  · rw [if_pos hvault]
  · by_cases hvault : env.vaultId ≠ vault.vaultId
    · rw [if_pos hvault]
    · rw [if_neg hvault, if_neg (by simp [htable]), hopen]

theorem rejected_countOutcome (report outcome : ApplyReport) :
    (countOutcome env report outcome).rejected = report.rejected + outcome.rejected := by
  unfold countOutcome
  split
  · next h =>
    show report.rejected = report.rejected + outcome.rejected
    omega
  · rfl

/-- A batch without unreadable records goes through, and rejects no more records than are
forged or misfiled. -/
theorem applyAll_of_parsed (thisDevice : UInt32) {envelopes : List Envelope}
    (h : ∀ env ∈ envelopes, ¬ vault.Unparsed env) (s : Store) (report : ApplyReport)
    (newest : Option Hlc) :
    ∃ t report' newest',
      applyAll vault thisDevice envelopes s report newest = .ok (t, report', newest') ∧
        report'.rejected ≤ report.rejected + envelopes.length ∧
        ((∃ env ∈ envelopes, ¬ vault.Forged env ∧ ¬ vault.Misfiled env) →
          report'.rejected < report.rejected + envelopes.length) := by
  induction envelopes generalizing s report newest with
  | nil => exact ⟨_, _, _, rfl, le_rfl, fun ⟨env, henv, _⟩ => absurd henv List.not_mem_nil⟩
  | cons env rest ih =>
    obtain ⟨t, outcome, hone, hle, hzero⟩ :=
      s.applyOne_of_parsed thisDevice (h env (List.mem_cons_self ..))
    obtain ⟨u, report', newest', hrest, hle', hlt'⟩ :=
      ih (fun e he => h e (List.mem_cons_of_mem _ he)) t (countOutcome env report outcome)
        (if outcome.rejected = 0 then some (newest.elim env.updatedAt (max · env.updatedAt))
          else newest)
    rw [rejected_countOutcome] at hle' hlt'
    refine ⟨u, report', newest', ?_, ?_, ?_⟩
    · unfold applyAll
      rw [hone]
      exact hrest
    · rw [List.length_cons]
      omega
    · rintro ⟨e, he, hforged, hfiled⟩
      rw [List.length_cons]
      rcases List.mem_cons.mp he with rfl | he
      · have hnone := hzero hforged hfiled
        omega
      · have hlt := hlt' ⟨e, he, hforged, hfiled⟩
        omega

theorem applyAll_of_forged (thisDevice : UInt32) {envelopes : List Envelope}
    (h : ∀ env ∈ envelopes, vault.Forged env) (s : Store) (report : ApplyReport)
    (newest : Option Hlc) :
    ∃ report', applyAll vault thisDevice envelopes s report newest = .ok (s, report', newest) ∧
      report'.rejected = report.rejected + envelopes.length := by
  induction envelopes generalizing report with
  | nil => exact ⟨report, rfl, rfl⟩
  | cons env rest ih =>
    obtain ⟨report', hrest, hcount⟩ := ih (fun e he => h e (List.mem_cons_of_mem _ he))
      (countOutcome env report .reject)
    refine ⟨report', ?_, ?_⟩
    · unfold applyAll
      rw [s.applyOne_of_forged thisDevice (h env (List.mem_cons_self ..))]
      exact hrest
    · rw [hcount, rejected_countOutcome, List.length_cons]
      show report.rejected + 1 + rest.length = report.rejected + (rest.length + 1)
      omega

theorem applyEnvelopes_of_parsed (hvault : s.vault = some vault) {envelopes : List Envelope}
    (h : ∀ env ∈ envelopes, ¬ vault.Unparsed env) (nowMs : UInt64) :
    ∃ t report, s.applyEnvelopes envelopes nowMs = .ok (t, report) ∧
      ((∃ env ∈ envelopes, ¬ vault.Forged env ∧ ¬ vault.Misfiled env) →
        report.rejected ≠ envelopes.length) := by
  unfold applyEnvelopes
  by_cases hempty : envelopes.isEmpty = true
  · rw [if_pos hempty]
    refine ⟨_, _, rfl, fun ⟨env, henv, _⟩ => ?_⟩
    rw [List.isEmpty_iff.mp hempty] at henv
    cases henv
  · rw [if_neg hempty, hvault]
    have hperm := envelopes.perm_insertionSort applyBefore
    obtain ⟨t, report, newest, hall, -, hlt⟩ := applyAll_of_parsed s.device
      (fun env henv => h env (hperm.mem_iff.mp henv)) s {} none
    dsimp only
    rw [hall]
    refine ⟨_, _, rfl, fun ⟨env, henv, hgood⟩ => ?_⟩
    have hlt' := hlt ⟨env, hperm.mem_iff.mpr henv, hgood⟩
    rw [hperm.length_eq] at hlt'
    have hzero : ({} : ApplyReport).rejected = 0 := rfl
    omega

/-- A page of nothing but forged records changes nothing and is rejected as a whole. -/
theorem applyEnvelopes_of_forged (hvault : s.vault = some vault) {envelopes : List Envelope}
    (h : ∀ env ∈ envelopes, vault.Forged env) (nowMs : UInt64) :
    ∃ report, s.applyEnvelopes envelopes nowMs = .ok (s, report) ∧
      report.rejected = envelopes.length := by
  unfold applyEnvelopes
  by_cases hempty : envelopes.isEmpty = true
  · rw [if_pos hempty, List.isEmpty_iff.mp hempty]
    exact ⟨_, rfl, rfl⟩
  · rw [if_neg hempty, hvault]
    have hperm := envelopes.perm_insertionSort applyBefore
    obtain ⟨report, hall, hcount⟩ := applyAll_of_forged s.device
      (fun env henv => h env (hperm.mem_iff.mp henv)) s {} none
    dsimp only
    rw [hall]
    refine ⟨report, rfl, ?_⟩
    rw [hcount, hperm.length_eq]
    exact Nat.zero_add _

end applied

/-- What a record was applied for: the row here is at least as new, or the record is the
tombstone of something that is not here, or it is a host key and one under its id lost its
slot. A device's own manifest is left out: the device writes that row itself. -/
def Met (s : Store) (env : Envelope) : Prop :=
  env.version ≤ (s.cell env.kind env.id).version ∨
    (env.deleted = true ∧ (s.cell env.kind env.id).version = ⊥) ∨
    (env.kind = .knownHost ∧ s.Superseded env.id) ∨
    (env.kind = .manifest ∧ env.id = s.ownManifestId)

section met

variable {s t : Store} {vault : UnlockedVault} {env : Envelope}

theorem Met.congr (h : s.Met env)
    (hversion : env.kind = .manifest → env.id = s.ownManifestId ∨
      (t.cell env.kind env.id).version = (s.cell env.kind env.id).version)
    (hother : env.kind ≠ .manifest →
      (t.cell env.kind env.id).version = (s.cell env.kind env.id).version)
    (hsuper : ∀ id, s.Superseded id → t.Superseded id)
    (hown : t.ownManifestId = s.ownManifestId) : t.Met env := by
  have hcell : (env.kind = .manifest ∧ env.id = s.ownManifestId) ∨
      (t.cell env.kind env.id).version = (s.cell env.kind env.id).version := by
    by_cases hkind : env.kind = .manifest
    · exact (hversion hkind).imp_left fun hid => ⟨hkind, hid⟩
    · exact Or.inr (hother hkind)
  unfold Met
  rw [hown]
  rcases hcell with hself | hcell
  · exact Or.inr (Or.inr (Or.inr hself))
  rw [hcell]
  rcases h with h | h | ⟨hkind, h⟩ | h
  · exact Or.inl h
  · exact Or.inr (Or.inl h)
  · exact Or.inr (Or.inr (Or.inl ⟨hkind, hsuper _ h⟩))
  · exact Or.inr (Or.inr (Or.inr h))

theorem ownManifestId_of_frame (h : Frame s t) : t.ownManifestId = s.ownManifestId := by
  unfold ownManifestId
  rw [h.vaultId, h.device]

/-- Another record that is applied leaves what was met. -/
theorem Met.touched {other : Envelope} (h : s.Met env) (htouched : Touched s t other)
    (hne : env.id ≠ other.id) : t.Met env := by
  rcases htouched.others env.kind env.id (fun heq => hne heq.2) with hsame | hgave
  · have hcell := congrArg Register.Cell.version hsame.cell_eq
    exact h.congr (fun _ => Or.inr hcell) (fun _ => hcell) htouched.superseded
      (ownManifestId_of_frame htouched.frame)
  · exact Or.inr (Or.inr (Or.inl ⟨hgave.1, hgave.superseded⟩))

/-- A sound record is met once it is applied. -/
theorem met_of_applyOne {thisDevice : UInt32} {outcome : ApplyReport} (hsound : vault.Sound env)
    (h : s.applyOne vault env thisDevice = .ok (t, outcome)) : t.Met env := by
  obtain ⟨-, hcell | hyield | ⟨-, hbad⟩⟩ := applyOne_spec h
  · have hmet : env.version ≤ (t.cell env.kind env.id).version ∨
        (env.deleted = true ∧ (t.cell env.kind env.id).version = ⊥) ∨
        env.version ≤ (t.cell env.kind env.id).mark := by
      have htomb : env.version.IsTomb → env.deleted = true := id
      have hnumbered : env.numbered = (env.version, env.seq.getD 0) := rfl
      rw [hnumbered] at hcell
      generalize s.cell env.kind env.id = c at hcell
      generalize t.cell env.kind env.id = d at hcell
      generalize env.version = v at hcell htomb
      cases hcell with
      | same => exact Or.inl le_rfl
      | keep _ hlt => exact Or.inl hlt.le
      | take _ _ => exact Or.inl le_rfl
      | pass _ hbot _ hgone => exact Or.inr (Or.inl ⟨htomb hgone, hbot⟩)
      | yield => exact Or.inr (Or.inr le_sup_right)
    rcases hmet with hmet | hmet | hmark
    · exact Or.inl hmet
    · exact Or.inr (Or.inl hmet)
    · -- A mark above the least version is a host key's.
      by_cases hsuper : env.kind = .knownHost → ¬ t.Superseded env.id
      · rw [mark_cell, mark_of_not_superseded hsuper] at hmark
        exact Or.inl (hmark.trans bot_le)
      · rw [Classical.not_imp, not_not] at hsuper
        exact Or.inr (Or.inr (Or.inl hsuper))
  · exact Or.inr (Or.inr (Or.inl ⟨hyield.1, hyield.superseded⟩))
  · exact absurd hsound hbad

/-- Records under different ids, applied one after the other: each sound one is met, and
what was met stays so. -/
theorem met_of_applyAll {fed : Envelope → Prop} {thisDevice : UInt32}
    (hfiled : ∀ e e', fed e → fed e' → e.id = e'.id → e = e') {envelopes : List Envelope}
    (hfed : ∀ e ∈ envelopes, fed e) {report report' : ApplyReport} {newest newest' : Option Hlc}
    (h : applyAll vault thisDevice envelopes s report newest = .ok (t, report', newest'))
    (henv : fed env) (hsound : vault.Sound env) (hmet : s.Met env ∨ env ∈ envelopes) :
    t.Met env := by
  induction envelopes generalizing s report newest with
  | nil =>
    cases h
    exact hmet.resolve_right List.not_mem_nil
  | cons e rest ih =>
    unfold applyAll at h
    split at h
    · cases h
    next u outcome hone =>
    refine ih (fun e' he' => hfed e' (List.mem_cons_of_mem _ he')) h ?_
    by_cases heq : env = e
    · exact Or.inl (met_of_applyOne hsound (heq ▸ hone))
    · rcases hmet with hmet | hmem
      · have hne : env.id ≠ e.id := fun hid =>
          heq (hfiled env e henv (hfed e (List.mem_cons_self ..)) hid)
        exact Or.inl (hmet.touched (applyOne_spec hone).1 hne)
      · exact Or.inr ((List.mem_cons.mp hmem).resolve_left heq)

theorem met_of_applyEnvelopes {fed : Envelope → Prop}
    (hfiled : ∀ e e', fed e → fed e' → e.id = e'.id → e = e') {envelopes : List Envelope}
    (hfed : ∀ e ∈ envelopes, fed e) {nowMs : UInt64} {report : ApplyReport}
    (hvault : s.vault = some vault) (h : s.applyEnvelopes envelopes nowMs = .ok (t, report))
    (henv : fed env) (hsound : vault.Sound env) (hmet : s.Met env ∨ env ∈ envelopes) :
    t.Met env := by
  rcases applyEnvelopes_eq h with ⟨rfl, rfl⟩ | ⟨vault', u, newest, hvault', hall, rfl⟩
  · exact hmet.resolve_right List.not_mem_nil
  · rw [hvault] at hvault'
    cases hvault'
    have hperm := envelopes.perm_insertionSort applyBefore
    have hu := met_of_applyAll hfiled (fun e he => hfed e (hperm.mem_iff.mp he)) hall henv hsound
      (hmet.imp_right hperm.mem_iff.mpr)
    exact hu.congr (fun _ => Or.inr rfl) (fun _ => rfl) (fun _ h => h) rfl

theorem Met.markPushed (h : s.Met env) (pushed : List Pushed) : (s.markPushed pushed).1.Met env := by
  obtain ⟨hframe, hsuper, -, hmarked⟩ := s.markPushed_spec pushed
  have hcell : ((s.markPushed pushed).1.cell env.kind env.id).version =
      (s.cell env.kind env.id).version := by
    rcases (hmarked env.kind env.id).cell hsuper with hsame | ⟨p, -, -, -, -, hnew⟩
    · rw [hsame]
    · rw [hnew]
  refine h.congr (fun _ => Or.inr hcell) (fun _ => hcell) (fun id hid => ?_)
    (ownManifestId_of_frame hframe)
  unfold Superseded
  rwa [hsuper]

/-- A device's own manifest is the one row a refresh writes. -/
theorem Met.refreshManifest (h : s.Met env) (nowMs : UInt64) :
    (s.refreshManifest nowMs).1.Met env := by
  unfold Store.refreshManifest
  dsimp only
  split
  · exact h
  · have hcell : ¬ (env.kind = .manifest ∧ env.id = s.ownManifestId) → ∀ row,
        ((s.tick nowMs).1.putRow .manifest s.ownManifestId row).cell env.kind env.id =
          s.cell env.kind env.id := by
      intro hne row
      have hrow := (s.tick nowMs).1.row?_putRow_of_pair_ne .manifest s.ownManifestId row hne
      unfold cell
      rw [hrow]
      rfl
    refine h.congr (fun hkind => ?_) (fun hkind => ?_) (fun _ h => h) rfl
    · by_cases hid : env.id = s.ownManifestId
      · exact Or.inl hid
      · exact Or.inr (congrArg _ (hcell (fun hboth => hid hboth.2) _))
    · exact congrArg _ (hcell (fun hboth => hkind hboth.1) _)

/-- What a pass keeps against a log with one record for each id: the vault, and every sound
record that was met. -/
theorem passKeeps_met {fed done : Envelope → Prop}
    (hfiled : ∀ e e', fed e → fed e' → e.id = e'.id → e = e')
    (hdone : ∀ e, done e → fed e ∧ vault.Sound e) :
    PassKeeps fed fun s => s.vault = some vault ∧ ∀ e, done e → s.Met e where
  applied := by
    rintro s t envelopes nowMs report ⟨hvault, hmet⟩ hfed h
    refine ⟨(applyEnvelopes_touched h).1.vault.trans hvault, fun e he => ?_⟩
    exact met_of_applyEnvelopes hfiled hfed hvault h (hdone e he).1 (hdone e he).2
      (Or.inl (hmet e he))
  marked := by
    rintro s pushed ⟨hvault, hmet⟩
    exact ⟨(s.markPushed_spec pushed).1.vault.trans hvault,
      fun e he => (hmet e he).markPushed pushed⟩
  moved := fun _ h => ⟨h.1, fun e he =>
    (h.2 e he).congr (fun _ => Or.inr rfl) (fun _ => rfl) (fun _ h => h) rfl⟩
  refreshed := by
    rintro s nowMs ⟨hvault, hmet⟩
    refine ⟨?_, fun e he => (hmet e he).refreshManifest nowMs⟩
    unfold Store.refreshManifest
    dsimp only
    split <;> exact hvault
  checked := fun h => ⟨h.1, fun e he =>
    (h.2 e he).congr (fun _ => Or.inr rfl) (fun _ => rfl) (fun _ h => h) rfl⟩
  noted := by
    rintro s ⟨hvault, hmet⟩
    exact ⟨hvault, fun e he =>
      (hmet e he).congr (fun _ => Or.inr rfl) (fun _ => rfl) (fun _ h => h) rfl⟩

end met

end Store

end UwuSsh

import UwuSsh.Sync.Convergence

/-!
Nothing goes back. Every record is a register along every stretch of a run, and a register only rises:
a device never trades a version for an older one, and what was deleted stays deleted wherever it is known.
-/
namespace UwuSsh

open Register

namespace World

variable {ι : Type} [DecidableEq ι] {kindOf : Uuid → EntityKind} {vault : UnlockedVault} {id : Uuid}

/-- Between two states of a run a record's register takes a run of its own. -/
theorem register_between {u v : World ι} (hbase : Base vault u) (hproper : Proper kindOf vault u)
    (hrun : Run.Steps (Step (Rises kindOf vault)) u v)
    (hkept : kindOf id = .knownHost → ∀ i, ¬ (v.devices i).store.Superseded id) :
    Run.Steps (Register.Step Version.IsTomb) (register kindOf id u) (register kindOf id v) := by
  have hinv : ∀ s t : World ι, Base vault s ∧ Proper kindOf vault s → Step (Rises kindOf vault) s t →
      Base vault t ∧ Proper kindOf vault t :=
    fun s t h hstep => ⟨h.1.step hstep, h.2.step (fun _ _ _ _ _ h => h) h.1 hstep⟩
  have hback : ∀ s t : World ι, Step (Rises kindOf vault) s t →
      (kindOf id = .knownHost → ∀ i, ¬ (t.devices i).store.Superseded id) →
      kindOf id = .knownHost → ∀ i, ¬ (s.devices i).store.Superseded id :=
    fun s t hstep hgood hkind i hsuper => hgood hkind i (superseded_of_step hstep hsuper)
  refine Run.simulate (register kindOf id) hinv hback ?_ hrun ⟨hbase, hproper⟩ hkept
  rintro s t ⟨hbase, hproper⟩ ⟨i, hdev, hans⟩ hgood
  next e d server =>
  refine simulates (fun _ _ _ _ _ h => h) hbase hproper hdev hans ?_
  rintro envelopes rfl
  refine digests_of_kept (hproper.device i) (hbase.device i).unlocked hdev ?_
  intro hkind hsuper
  exact hgood hkind i (by rwa [after_devices_self])

/-- In every stretch of a run, every device keeps every record it has in a version no older than before, and
so does the server, so a deletion is final wherever it is known. -/
theorem records_only_rise {deviceId : ι → UInt32} {u v : World ι}
    (hreach : Run.Steps (Step (Rises kindOf vault)) (initial vault deviceId) u)
    (hrun : Run.Steps (Step (Rises kindOf vault)) u v) (id : Uuid)
    (hslot : kindOf id = .knownHost → ∀ i, ¬ (v.devices i).store.Superseded id) :
    (∀ i row, (u.devices i).store.row? (kindOf id) id = some row → row.version ≠ Version.blank →
      ∃ row', (v.devices i).store.row? (kindOf id) id = some row' ∧ row.version ≤ row'.version ∧
        (row.deleted = true → row'.deleted = true)) ∧
    (∀ env, u.server.records.lookup id = some env →
      ∃ env', v.server.records.lookup id = some env' ∧ env.version ≤ env'.version ∧
        env.seq.getD 0 ≤ env'.seq.getD 0 ∧ (env.deleted = true → env'.deleted = true)) := by
  have hkeptBefore : kindOf id = .knownHost → ∀ i, ¬ (u.devices i).store.Superseded id := by
    intro hkind i hsuper
    have hstep : ∀ s t : World ι, (s.devices i).store.Superseded id → Step (Rises kindOf vault) s t →
        (t.devices i).store.Superseded id := fun _ _ h hstep => superseded_of_step hstep h
    exact hslot hkind i (Run.invariant hstep hrun hsuper)
  obtain ⟨hbase, hproper⟩ := proper_run (fun _ _ _ _ _ h => h) hreach (base_initial vault deviceId)
    (proper_initial kindOf vault deviceId)
  have hinv := inv_of_run (register_run hreach hkeptBefore)
  have hrises := hinv.rises_run (register_between hbase hproper hrun hslot)
  have hfinal : ∀ {a b : Version}, a ≤ b → a.deleted = true → b.deleted = true := by
    intro a b hle ha
    by_contra hb
    have hlt : b < a := Version.lt_iff.mpr (.inl (by rw [ha, (Bool.not_eq_true _).mp hb]; decide))
    exact not_lt.mpr hle hlt
  have hmet : ∀ w : World ι, (kindOf id = .knownHost → ∀ i, ¬ (w.devices i).store.Superseded id) → ∀ i,
      ((register kindOf id w).peers i).cell.met = ((w.devices i).store.cell (kindOf id) id).version := by
    intro w hnot i
    have hmark : ((w.devices i).store.cell (kindOf id) id).mark = ⊥ := by
      rw [Store.mark_cell]
      exact Store.mark_of_not_superseded fun hkind => hnot hkind i
    show ((w.devices i).store.cell (kindOf id) id).version ⊔ ((w.devices i).store.cell (kindOf id) id).mark = _
    rw [hmark, sup_bot_eq]
  constructor
  · intro i row hrow hblank
    have hle := hrises.peer i
    rw [hmet u hkeptBefore, hmet v hslot, Store.cell_of_some hrow] at hle
    have hle : row.version ≤ ((v.devices i).store.cell (kindOf id) id).version := hle
    have hpositive : ⊥ < row.version := bot_lt_iff_ne_bot.mpr hblank
    obtain ⟨row', hrow', hversion⟩ := Store.has_of_cell (hpositive.trans_le hle) rfl
    rw [← hversion] at hle
    exact ⟨row', hrow', hle, hfinal hle⟩
  · intro env hlookup
    have hcurrent : env.numbered ∈ (register kindOf id u).current := by
      show Option.map _ _ = _
      rw [hlookup]
      rfl
    obtain ⟨cur, hcur, hle, hnum⟩ := hrises.current _ hcurrent
    obtain ⟨env', hlookup', rfl⟩ := Option.map_eq_some_iff.mp hcur
    exact ⟨env', hlookup', hle, hnum, hfinal hle⟩

section examples

/-- A group is written and pushed, and pulled by the other device. -/
def sharedMoves : List (Bool × Move) :=
  (true, .write .group 1 ⟨10, 0, 1⟩ false exampleGroup) :: pushMoves true 12 ++ pullMoves false 13

/-- The other device deletes it and pushes that. -/
def droppedMoves : List (Bool × Move) :=
  (false, .write .group 1 ⟨14, 0, 2⟩ true exampleGroup) :: pushMoves false 15

theorem records_only_rise_dropped :
    ∃ u v : World Bool, u.held false .group 1 = some ⟨⟨10, 0, 1⟩, false⟩ ∧
      (v.server.records.lookup 1).map Envelope.version = some ⟨⟨14, 0, 2⟩, true⟩ ∧
      (∀ i row, (u.devices i).store.row? .group 1 = some row → row.version ≠ Version.blank →
        ∃ row', (v.devices i).store.row? .group 1 = some row' ∧ row.version ≤ row'.version ∧
          (row.deleted = true → row'.deleted = true)) ∧
      (∀ env, u.server.records.lookup 1 = some env →
        ∃ env', v.server.records.lookup 1 = some env' ∧ env.version ≤ env'.version ∧
          env.seq.getD 0 ≤ env'.seq.getD 0 ∧ (env.deleted = true → env'.deleted = true)) := by
  obtain ⟨u, hreach, hshared, hplay⟩ := reaches_of_play (rises_of_check (fun _ => .group) exampleVault) sharedMoves
    (initial exampleVault exampleDevice) (fun u => u.held false .group 1 = some ⟨⟨10, 0, 1⟩, false⟩ ∧
      (play (risesCheck fun _ => .group) droppedMoves u).any (fun v =>
        (v.server.records.lookup 1).map Envelope.version = some ⟨⟨14, 0, 2⟩, true⟩) = true) (by decide +kernel)
  obtain ⟨v, hrun, hdropped⟩ := reaches_of_play (rises_of_check (fun _ => .group) exampleVault) droppedMoves u _ hplay
  exact ⟨u, v, hshared, hdropped, records_only_rise hreach hrun 1 fun h => nomatch h⟩

end examples

end World

end UwuSsh

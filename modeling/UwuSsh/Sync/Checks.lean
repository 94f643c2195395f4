import UwuSsh.Store.KnownHosts
import UwuSsh.Store.ManifestFacts
import UwuSsh.Sync.Engine

/-!
What a pass says about a server that keeps records back. A pass that calls itself
complete ends with a check of the store it leaves, so a listed version that is not in
that store is reported by it, whatever the server answered. While something that touches host
keys is written down, only this device's own keys are answered with.
-/
namespace UwuSsh

section pass

variable {σ : Type} {T : Transport σ}

/-- A check after which the pass still counts as complete was a check of what is there. -/
theorem checked_of_check {complete : Bool} {p q : Pass σ} {found : Withheld}
    (h : check T complete p = (.ok found, q)) (hreport : p.report.complete = complete)
    (hcomplete : q.report.complete = true) : ∃ t : Store, q.store = t.checkManifests.1 := by
  unfold check at h
  cases complete with
  | false =>
    simp only [Bool.not_false, ↓reduceIte, Prod.mk.injEq] at h
    obtain ⟨-, rfl⟩ := h
    rw [hreport] at hcomplete
    cases hcomplete
  | true =>
    simp only [Bool.not_true, Bool.false_eq_true, ↓reduceIte] at h
    split at h
    · cases h
      exact ⟨p.store, rfl⟩
    · split at h
      · cases h
      · next q' _ =>
        cases h
        exact ⟨q'.store, rfl⟩
      · cases h
        cases hcomplete

theorem checked_of_finish (hmanifests : ∀ net, T.manifests net = true) {complete : Bool}
    {p q : Pass σ} {report : SyncReport} (h : finish T complete p = (.ok report, q))
    (hcomplete : report.complete = true) : ∃ t : Store, q.store = t.checkManifests.1 := by
  unfold finish at h
  rw [hmanifests] at h
  simp only [Bool.not_true, Bool.false_eq_true, ↓reduceIte] at h
  split at h
  · cases h
  next published p' _ =>
  split at h
  · cases h
  next withheld q' hcheck =>
  cases h
  obtain ⟨t, ht⟩ := checked_of_check hcheck rfl hcomplete
  exact ⟨t, ht⟩

/-- A complete pass leaves a store that was checked. -/
theorem checked_of_syncRounds (hmanifests : ∀ net, T.manifests net = true) {left round : ℕ}
    {p q : Pass σ} {report : SyncReport} (h : syncRounds T left round p = (.ok report, q))
    (hcomplete : report.complete = true) : ∃ t : Store, q.store = t.checkManifests.1 := by
  induction left generalizing round p with
  | zero => cases h
  | succ left ih =>
    unfold syncRounds at h
    split at h
    · cases h
    next conflicts p' _ =>
    split at h
    · cases h
    next complete p'' _ =>
    by_cases hconflicts : conflicts = 0
    · rw [if_pos hconflicts] at h
      exact checked_of_finish hmanifests h hcomplete
    · rw [if_neg hconflicts] at h
      exact ih h

end pass

namespace Store

/-- A listed version that is not here: no version as new is recorded as superseded, and the
record's row, if there is one, is live and older. -/
structure Lacks (s : Store) (kind : EntityKind) (entry : ManifestEntry) : Prop where
  listed : entry ∈ s.heldEntries
  known : entry.entityKind = some kind ∧ kind ∈ syncedKinds
  excused : ¬ s.Excused entry.id entry.updatedAt
  row : ∀ row, s.row? kind entry.id = some row →
    row.deleted = false ∧ row.updatedAt < entry.updatedAt

/-- A tombstone listed since stands for a record that is not here. -/
def ListedGone (s : Store) (kind : EntityKind) (entry : ManifestEntry) : Prop :=
  s.row? kind entry.id = none ∧ ∃ later ∈ s.heldEntries, later.key = entry.key ∧
    later.deleted = true ∧ entry.updatedAt ≤ later.updatedAt

end Store

/-- Withholding is noticed. A check reports every listed version that is not here, unless a
tombstone listed since stands for it; so does every pass that calls itself complete, against
any server. And while anything that touches host keys is written down, a host key that
is answered with is one this device wrote. -/
theorem withholding_noticed :
    (∀ (s : Store) (kind : EntityKind) (entry : ManifestEntry), s.Lacks kind entry →
      s.checkManifests.1.Reported kind entry.id ∨ s.ListedGone kind entry) ∧
    (∀ {σ : Type} (T : Transport σ) (store : Store) (net : σ) (report : SyncReport) (q : Pass σ),
      (∀ net, T.manifests net = true) → syncOnce T store net = (.ok report, q) →
      report.complete = true → ∀ (kind : EntityKind) (entry : ManifestEntry),
        q.store.Lacks kind entry →
        q.store.Reported kind entry.id ∨ q.store.ListedGone kind entry) ∧
    ∀ (s : Store) (v : Violation), v ∈ s.violations → v.kind.isHostKeyKind = true →
      ∀ (address : String) (port : UInt16) (found : KnownHostRecord),
        s.knownHost address port = some found →
        ∃ id row, s.row? .knownHost id = some row ∧ found = .ofCols row.cols ∧
          row.updatedAt.device = s.device := by
  refine ⟨?_, ?_, ?_⟩
  · rintro s kind entry ⟨hlisted, ⟨hkind, hsynced⟩, hexcused, hrow⟩
    exact Store.reported_of_unmet hlisted hkind hsynced hexcused hrow
  · rintro σ T store net report q hmanifests hpass hcomplete kind entry
      ⟨hlisted, ⟨hkind, hsynced⟩, hexcused, hrow⟩
    obtain ⟨t, ht⟩ := checked_of_syncRounds hmanifests hpass hcomplete
    rw [ht] at hlisted hexcused hrow ⊢
    exact Store.reported_of_unmet hlisted hkind hsynced hexcused hrow
  · intro s v hv hhost address port found hanswer
    have hdoubt : s.hostKeysInDoubt = true := List.any_eq_true.mpr ⟨v, hv, hhost⟩
    obtain ⟨id, row, hrow, hfound, -, -, -, hown⟩ := Store.knownHost_spec hanswer
    exact ⟨id, row, hrow, hfound, hown hdoubt⟩

section examples

/-- A store that holds the manifest of device 2 and perhaps a group. -/
def listingStore (entry : ManifestEntry) (row : Option (Row GroupCols)) : Store :=
  let s := (Store.empty 1 7 none).putRow .manifest 9
    { vaultId := 7, updatedAt := ⟨20, 0, 2⟩, rev := 1, deleted := false, dirty := false
      serverSeq := 3
      cols := (Manifest.encode { device := 2, createdAt := ⟨20, 0, 2⟩, partialList := false
                                 entries := [entry] } : List UInt8) }
  row.elim s (s.putRow .group 1)

def groupRow (clock : Hlc) : Row GroupCols :=
  { vaultId := 7, updatedAt := clock, rev := 1, deleted := false, dirty := false, serverSeq := 2
    cols := { workspace := "private", name := "home", position := 0, syncExtra := [] } }

/-- A listed version that nothing as great is here for and that is not reported: a tombstone
of a record that never came, and a tombstone older than the live row that is here. -/
theorem listed_tombstones_pass :
    ∃ (s t : Store) (entry : ManifestEntry), entry.entityKind = some .group ∧
      entry ∈ s.heldEntries ∧ s.row? .group entry.id = none ∧
      s.superseded.lookup entry.id = none ∧ ¬ s.checkManifests.1.Reported .group entry.id ∧
      entry ∈ t.heldEntries ∧
      (∀ row, t.row? .group entry.id = some row →
        row.version < { updatedAt := entry.updatedAt, deleted := entry.deleted }) ∧
      t.superseded.lookup entry.id = none ∧ ¬ t.checkManifests.1.Reported .group entry.id := by
  have hrow : (listingStore (.new .group 1 ⟨5, 0, 2⟩ true) (some (groupRow ⟨10, 0, 1⟩))).row?
      .group 1 = some (groupRow ⟨10, 0, 1⟩) := rfl
  refine ⟨listingStore (.new .group 1 ⟨5, 0, 2⟩ true) none,
    listingStore (.new .group 1 ⟨5, 0, 2⟩ true) (some (groupRow ⟨10, 0, 1⟩)),
    .new .group 1 ⟨5, 0, 2⟩ true, by decide, by decide +kernel, by decide +kernel,
    by decide +kernel, ?_, by decide +kernel, ?_, by decide +kernel, ?_⟩
  · rintro ⟨v, hv, -⟩
    have hnone : (listingStore (.new .group 1 ⟨5, 0, 2⟩ true) none).checkManifests.1.violations =
        [] := by decide +kernel
    rw [hnone] at hv
    cases hv
  · intro row hsome
    rw [show (ManifestEntry.new .group 1 ⟨5, 0, 2⟩ true).id = 1 from rfl, hrow] at hsome
    cases hsome
    decide
  · rintro ⟨v, hv, -⟩
    have hnone : (listingStore (.new .group 1 ⟨5, 0, 2⟩ true)
        (some (groupRow ⟨10, 0, 1⟩))).checkManifests.1.violations = [] := by decide +kernel
    rw [hnone] at hv
    cases hv

/-- A group that is listed and never came is reported. -/
theorem withholding_noticed_group :
    (listingStore (.new .group 1 ⟨5, 0, 2⟩ false) none).checkManifests.1.Reported .group 1 := by
  have hlacks : (listingStore (.new .group 1 ⟨5, 0, 2⟩ false) none).Lacks .group
      (.new .group 1 ⟨5, 0, 2⟩ false) := by
    refine ⟨by decide +kernel, by decide, ?_, ?_⟩
    · rintro ⟨gone, hgone, -⟩
      cases hgone
    · intro row hrow
      cases hrow
  rcases withholding_noticed.1 _ _ _ hlacks with h | ⟨-, later, hlater, -, hdeleted, -⟩
  · exact h
  · have hall : ∀ e ∈ (listingStore (.new .group 1 ⟨5, 0, 2⟩ false) none).heldEntries,
        e.deleted = false := by decide +kernel
    rw [hall later hlater] at hdeleted
    cases hdeleted

end examples

end UwuSsh

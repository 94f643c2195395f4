import UwuSsh.Store.Adopt
import UwuSsh.Store.LocalEdits

/-!
What rows refer to. A host names its group and its login, a login its key and its password, a key its
sealed halves, and the database takes no row whose reference has no row. A program is safe when it
only ever names what it was given, what it read, or what it wrote itself, so that none of its rows
refers to nothing and every record that can be named lasts.
-/
namespace UwuSsh

open Fallible InTx

/-- A record and its kind. -/
abbrev Target := EntityKind × Uuid

/-- The kinds that rows of other tables name. -/
def namedKinds : List EntityKind := [.group, .identity, .key, .secret]

theorem Cols.named_of_pointsAt {kind : EntityKind} {cols : Cols kind} {target : Target}
    (h : target ∈ Cols.pointsAt kind cols) : target.1 ∈ namedKinds := by
  have hmap : ∀ {other : EntityKind} {id : Option Uuid}, target ∈ id.toList.map (other, ·) → target.1 = other := by
    intro other id hmem
    obtain ⟨_, -, rfl⟩ := List.mem_map.mp hmem
    rfl
  cases kind with
  | host | identity | key =>
    rcases List.mem_append.mp h with hmem | hmem <;> rw [hmap hmem] <;> decide
  | _ => cases h

namespace Store

/-- A record that has a row, live or not. -/
def Present (s : Store) (target : Target) : Prop := (s.row? target.1 target.2).isSome = true

instance (s : Store) (target : Target) : Decidable (s.Present target) := inferInstanceAs (Decidable (_ = true))

/-- Every reference names a row that is there. -/
def Closed (s : Store) : Prop :=
  ∀ kind id row, s.row? kind id = some row → ∀ target ∈ Cols.pointsAt kind row.cols, s.Present target

/-- Records that have a row, as far as they can be named. -/
def Knows (s : Store) (known : List Target) : Prop :=
  ∀ target ∈ known, target.1 ∈ namedKinds → s.Present target

/-- A change that leaves every reference its row, and every record that can be named. -/
structure Upholds (s t : Store) : Prop where
  closed : t.Closed
  lasting : ∀ target : Target, target.1 ∈ namedKinds → s.Present target → t.Present target

section upholds

variable {s t u : Store} {kind : EntityKind} {id : Uuid} {row : Row (Cols kind)} {known : List Target}

theorem closed_empty (device : UInt32) (vaultId : Uuid) (vault : Option UnlockedVault) :
    (Store.empty device vaultId vault).Closed := by
  intro kind id row hrow
  cases hrow

theorem present_of_row? {target : Target} {row : Row (Cols target.1)}
    (h : s.row? target.1 target.2 = some row) : s.Present target := by
  rw [Present, h]
  rfl

theorem knows_nil : s.Knows [] := fun _ hmem => absurd hmem List.not_mem_nil

theorem Knows.append {more : List Target} (h : s.Knows known) (h' : s.Knows more) : s.Knows (known ++ more) :=
  fun target hmem => (List.mem_append.mp hmem).elim (h target) (h' target)

theorem Closed.refs (h : s.Closed) (hrow : s.row? kind id = some row) : s.Knows (Cols.pointsAt kind row.cols) :=
  fun target hmem _ => h kind id row hrow target hmem

theorem Upholds.refl (h : s.Closed) : s.Upholds s := ⟨h, fun _ _ hpresent => hpresent⟩

theorem Upholds.trans (h : s.Upholds t) (h' : t.Upholds u) : s.Upholds u :=
  ⟨h'.closed, fun target hkind hpresent => h'.lasting target hkind (h.lasting target hkind hpresent)⟩

theorem Knows.lasts (h : s.Knows known) (hup : s.Upholds t) : t.Knows known :=
  fun target hmem hkind => hup.lasting target hkind (h target hmem hkind)

/-- A change that leaves the rows. -/
theorem upholds_congr (h : s.Closed) (hrows : ∀ kind id, t.row? kind id = s.row? kind id) : s.Upholds t := by
  constructor
  · intro kind id row hrow target hmem
    rw [Present, hrows]
    exact h kind id row ((hrows kind id).symm.trans hrow) target hmem
  · intro target _ hpresent
    rwa [Present, hrows]

theorem present_putRow {target : Target} (h : s.Present target) : (s.putRow kind id row).Present target := by
  by_cases hself : target.1 = kind ∧ target.2 = id
  · obtain ⟨rfl, rfl⟩ := hself
    exact present_of_row? (s.row?_putRow_self row)
  · rwa [Present, s.row?_putRow_of_pair_ne kind id row hself]

/-- A row may be written when what it names is there. -/
theorem Closed.putRow (h : s.Closed) (hrefs : s.Knows (Cols.pointsAt kind row.cols)) :
    s.Upholds (s.putRow kind id row) := by
  refine ⟨?_, fun _ _ hpresent => present_putRow hpresent⟩
  intro kind' id' row' hrow target hmem
  by_cases hself : kind' = kind ∧ id' = id
  · obtain ⟨rfl, rfl⟩ := hself
    rw [row?_putRow_self] at hrow
    cases hrow
    exact present_putRow (hrefs target hmem (Cols.named_of_pointsAt hmem))
  · rw [s.row?_putRow_of_pair_ne kind id row hself] at hrow
    exact present_putRow (h kind' id' row' hrow target hmem)

theorem Closed.updateRow (h : s.Closed) {f : Row (Cols kind) → Row (Cols kind)}
    (hrefs : ∀ row, s.row? kind id = some row → s.Knows (Cols.pointsAt kind (f row).cols)) :
    s.Upholds (s.updateRow kind id f) := by
  cases hrow : s.row? kind id with
  | none =>
    rw [s.updateRow_of_none f hrow]
    exact .refl h
  | some row =>
    rw [s.updateRow_of_some f hrow]
    exact h.putRow (hrefs row hrow)

/-- A row of a kind that nothing names may be taken away. -/
theorem Closed.dropRow (h : s.Closed) (hkind : kind ∉ namedKinds) : s.Upholds (s.dropRow kind id) := by
  have hkeep : ∀ target : Target, target.1 ∈ namedKinds → s.Present target → (s.dropRow kind id).Present target := by
    intro target hnamed hpresent
    rwa [Present, s.row?_dropRow_of_kind_ne fun heq : target.1 = kind => hkind (heq ▸ hnamed)]
  refine ⟨?_, hkeep⟩
  intro kind' id' row hrow target hmem
  have hold : s.row? kind' id' = some row := by
    by_cases hself : kind' = kind ∧ id' = id
    · obtain ⟨rfl, rfl⟩ := hself
      rw [row?_dropRow_self] at hrow
      cases hrow
    · by_cases heq : kind' = kind
      · subst heq
        rwa [s.row?_dropRow_of_ne fun hid => hself ⟨rfl, hid⟩] at hrow
      · rwa [s.row?_dropRow_of_kind_ne heq] at hrow
  have hnamed := Cols.named_of_pointsAt hmem
  exact hkeep target hnamed (h kind' id' row hold target hmem)

/-- Rows that name no more than before. -/
theorem Closed.mapTable (h : s.Closed) {f : Row (Cols kind) → Row (Cols kind)}
    (hrefs : ∀ row, Cols.pointsAt kind (f row).cols ⊆ Cols.pointsAt kind row.cols) :
    s.Upholds (s.mapTable kind f) := by
  have hkeep : ∀ target : Target, s.Present target → (s.mapTable kind f).Present target := by
    intro target hpresent
    by_cases hkind : target.1 = kind
    · subst hkind
      rw [Present, row?_mapTable_self, Option.isSome_map]
      exact hpresent
    · rwa [Present, row?_mapTable_of_ne s f target.2 hkind]
  refine ⟨?_, fun target _ hpresent => hkeep target hpresent⟩
  intro kind' id row hrow target hmem
  by_cases hkind : kind' = kind
  · subst hkind
    rw [row?_mapTable_self] at hrow
    obtain ⟨old, hold, rfl⟩ := Option.map_eq_some_iff.mp hrow
    exact hkeep target (h kind' id old hold target (hrefs old hmem))
  · rw [row?_mapTable_of_ne s f id hkind] at hrow
    exact hkeep target (h kind' id row hrow target hmem)

end upholds

/-! ### Pages and marks -/

section applied

variable {s t : Store} {vault : UnlockedVault} {env : Envelope} {thisDevice : UInt32}

theorem pointsAt_keepLocal (kind : EntityKind) (old new : Cols kind) :
    Cols.pointsAt kind (Cols.keepLocal kind old new) = Cols.pointsAt kind new := by
  cases kind <;> rfl

theorem pointsAt_wiped (kind : EntityKind) (cols : Cols kind) :
    Cols.pointsAt kind (Cols.wiped kind cols) = Cols.pointsAt kind cols := by
  cases kind <;> rfl

theorem pointsAt_stub {kind : EntityKind} {cols : Cols kind} (h : Cols.stub kind = some cols) :
    Cols.pointsAt kind cols = [] := by
  cases kind <;> cases h <;> rfl

/-- A placeholder names nothing, and stands for what is named. -/
theorem Closed.putStub (h : s.Closed) (vaultId : Uuid) (target : Target) :
    s.Upholds (s.putStub vaultId target) ∧ (s.putStub vaultId target).Knows [target] := by
  obtain ⟨kind, id⟩ := target
  unfold Store.putStub
  split
  · next cols hnone hstub =>
    constructor
    · refine h.putRow ?_
      show s.Knows (Cols.pointsAt kind cols)
      rw [pointsAt_stub hstub]
      exact knows_nil
    · intro target hmem _
      obtain rfl := List.mem_singleton.mp hmem
      exact present_of_row? (s.row?_putRow_self _)
  · next hnot =>
    refine ⟨.refl h, ?_⟩
    intro target hmem hnamed
    obtain rfl := List.mem_singleton.mp hmem
    cases hrow : s.row? kind id with
    | some row => exact present_of_row? hrow
    | none =>
      have hstub : (Cols.stub kind).isSome = true := by
        simp only [namedKinds, List.mem_cons, List.not_mem_nil, or_false] at hnamed
        rcases hnamed with rfl | rfl | rfl | rfl <;> rfl
      obtain ⟨cols, hcols⟩ := Option.isSome_iff_exists.mp hstub
      exact (hnot cols hrow hcols).elim

theorem Closed.putStubs (h : s.Closed) (vaultId : Uuid) (targets : List Target) :
    s.Upholds (targets.foldl (fun s target => s.putStub vaultId target) s) ∧
      (targets.foldl (fun s target => s.putStub vaultId target) s).Knows targets := by
  induction targets generalizing s with
  | nil => exact ⟨.refl h, knows_nil⟩
  | cons target rest ih =>
    obtain ⟨hfirst, hknows⟩ := h.putStub vaultId target
    obtain ⟨hrest, hall⟩ := ih hfirst.closed
    exact ⟨hfirst.trans hrest, (hknows.lasts hrest).append hall⟩

theorem Closed.upsertRecord {kind : EntityKind} {cols : Cols kind} (h : s.Closed)
    (hrefs : s.Knows (Cols.pointsAt kind cols)) : s.Upholds (s.upsertRecord kind env cols) := by
  unfold Store.upsertRecord
  split
  · exact h.putRow hrefs
  · refine h.putRow ?_
    show s.Knows (Cols.pointsAt kind (Cols.keepLocal kind _ cols))
    rwa [pointsAt_keepLocal]

theorem Closed.supersede (h : s.Closed) (kind : EntityKind) (id : Uuid) (clock : Hlc) :
    s.Upholds (s.supersede kind id clock) :=
  upholds_congr h fun kind' id' => s.row?_supersede kind id clock kind' id'

theorem Closed.applyKnownHost (h : s.Closed) (env : Envelope) (cols : KnownHostCols) (thisDevice : UInt32) :
    s.Upholds (s.applyKnownHost env cols thisDevice).1 := by
  have hwrite : ∀ {t : Store}, t.Closed → t.Upholds (t.upsertRecord .knownHost env cols) :=
    fun hclosed => hclosed.upsertRecord knows_nil
  unfold Store.applyKnownHost
  split
  · exact hwrite h
  · next rivalId rival _ =>
    dsimp only
    split
    · exact h.supersede _ _ _
    · have hgiven := h.supersede .knownHost rivalId rival.updatedAt
      have hdropped : (s.supersede .knownHost rivalId rival.updatedAt).Upholds
          ((s.supersede .knownHost rivalId rival.updatedAt).dropRow .knownHost rivalId) :=
        hgiven.closed.dropRow (by decide)
      exact (hgiven.trans hdropped).trans (hwrite hdropped.closed)

theorem Closed.insertRecord {plain : Plain} {outcome : ApplyReport} (h : s.Closed)
    (hrun : s.insertRecord vault env plain thisDevice = .ok (t, outcome)) : s.Upholds t := by
  unfold Store.insertRecord at hrun
  split at hrun
  · cases hrun
    exact .refl h
  · cases hrun
    exact h.upsertRecord knows_nil
  · split at hrun
    · cases hrun
      exact .refl h
    · split at hrun
      · cases hrun
        exact .refl h
      · split at hrun
        · cases hrun
          exact .refl h
        · cases hrun
          exact h.upsertRecord knows_nil
  · split at hrun
    · cases hrun
    · next cols _ =>
      have heq := congrArg Prod.fst (Except.ok.inj hrun)
      dsimp only at heq
      rw [← heq]
      exact h.applyKnownHost env cols thisDevice
  · split at hrun
    · cases hrun
    · next cols _ =>
      cases hrun
      obtain ⟨hstubs, hknows⟩ := h.putStubs env.vaultId (Cols.pointsAt env.kind cols)
      exact hstubs.trans (hstubs.closed.upsertRecord hknows)

theorem Closed.keepCols {kind : EntityKind} {id : Uuid} (h : s.Closed) {f : Row (Cols kind) → Row (Cols kind)}
    (hrefs : ∀ row, Cols.pointsAt kind (f row).cols = Cols.pointsAt kind row.cols) :
    s.Upholds (s.updateRow kind id f) := by
  refine h.updateRow fun row hrow => ?_
  rw [hrefs]
  exact h.refs hrow

/-- One record that comes in. -/
theorem Closed.applyOne {outcome : ApplyReport} (h : s.Closed)
    (hrun : s.applyOne vault env thisDevice = .ok (t, outcome)) : s.Upholds t := by
  unfold Store.applyOne at hrun
  split at hrun
  · cases hrun
    exact .refl h
  split at hrun
  · cases hrun
    exact .refl h
  split at hrun
  · cases hrun
    exact .refl h
  split at hrun
  · split at hrun
    · cases hrun
      exact .refl h
    · exact h.insertRecord hrun
  · split at hrun
    · cases hrun
      refine h.keepCols ?_
      exact fun _ => rfl
    · cases hrun
      refine h.keepCols ?_
      exact fun _ => rfl
    · split at hrun
      · cases hrun
        refine h.keepCols ?_
        exact fun row => pointsAt_wiped env.kind row.cols
      · exact h.insertRecord hrun

theorem Closed.applyAll {envelopes : List Envelope} {report report' : ApplyReport} {newest newest' : Option Hlc}
    (h : s.Closed) (hrun : Store.applyAll vault thisDevice envelopes s report newest = .ok (t, report', newest')) :
    s.Upholds t := by
  induction envelopes generalizing s report newest with
  | nil =>
    cases hrun
    exact .refl h
  | cons env rest ih =>
    unfold Store.applyAll at hrun
    split at hrun
    · cases hrun
    next u outcome hone =>
    have hfirst := h.applyOne hone
    exact hfirst.trans (ih hfirst.closed hrun)

theorem Closed.applyEnvelopes {envelopes : List Envelope} {nowMs : UInt64} {report : ApplyReport} (h : s.Closed)
    (hrun : s.applyEnvelopes envelopes nowMs = .ok (t, report)) : s.Upholds t := by
  rcases applyEnvelopes_eq hrun with ⟨-, rfl⟩ | ⟨vault, u, newest, -, hall, rfl⟩
  · exact .refl h
  · have happlied := h.applyAll hall
    refine happlied.trans (upholds_congr happlied.closed ?_)
    cases newest <;> exact fun _ _ => rfl

theorem Closed.markPushed (h : s.Closed) (pushed : List Pushed) : s.Upholds (s.markPushed pushed).1 := by
  induction pushed generalizing s with
  | nil => exact .refl h
  | cons p rest ih =>
    have hone : s.Upholds (s.markOne p).1 := by
      unfold Store.markOne
      split
      · next row hrow =>
        split
        · refine h.putRow ?_
          show s.Knows (Cols.pointsAt p.kind row.cols)
          exact h.refs hrow
        · exact .refl h
      · exact .refl h
    rw [markPushed_cons]
    exact hone.trans (ih hone.closed)

theorem Closed.refreshManifest (h : s.Closed) (nowMs : UInt64) : s.Upholds (s.refreshManifest nowMs).1 := by
  unfold Store.refreshManifest
  dsimp only
  split
  · exact .refl h
  · have hticked : s.Upholds (s.tick nowMs).1 := upholds_congr h (s.row?_tick nowMs)
    exact hticked.trans (hticked.closed.putRow knows_nil)

end applied

end Store

end UwuSsh

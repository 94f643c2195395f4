import UwuSsh.Lib.Fallible
import UwuSsh.Store.Local

/-!
The statements a store's own operations are made of, one transaction each: what is read,
what is drawn, and rows that are inserted or updated by their id. An operation that fails
leaves the store as it was.
-/
namespace UwuSsh

/-- A row that this device edits: the new columns under a new clock, to be pushed. -/
def Row.edited {α : Type} (row : Row α) (clock : Hlc) (cols : α) : Row α :=
  { row with cols, updatedAt := clock, rev := row.rev + 1, dirty := true }

/-- A row that this device deletes. -/
def Row.tombed {α : Type} (row : Row α) (clock : Hlc) : Row α :=
  { row with deleted := true, updatedAt := clock, rev := row.rev + 1, dirty := true }

namespace Store

/-- One `UPDATE … WHERE id` for each of some rows. -/
def updateEach {α : Type} (s : Store) (kind : EntityKind) (rows : List (Uuid × α))
    (f : α → Row (Cols kind) → Row (Cols kind)) : Store :=
  rows.foldl (fun s e => s.updateRow kind e.1 (f e.2)) s

section updates

variable {s : Store} {kind kind' : EntityKind} {id id' : Uuid}

theorem row?_updateRow_of_ne (f : Row (Cols kind) → Row (Cols kind)) (h : id' ≠ id) :
    (s.updateRow kind id f).row? kind' id' = s.row? kind' id' :=
  row?_updateRow_of_pair_ne s kind id f fun hboth => h hboth.2

theorem row?_updateRow_of_kind_ne (f : Row (Cols kind) → Row (Cols kind)) (h : kind' ≠ kind) :
    (s.updateRow kind id f).row? kind' id' = s.row? kind' id' :=
  row?_updateRow_of_pair_ne s kind id f fun hboth => h hboth.1

variable {α : Type} {rows : List (Uuid × α)} {f : α → Row (Cols kind) → Row (Cols kind)}

theorem row?_updateEach_of_kind_ne (h : kind' ≠ kind) :
    (s.updateEach kind rows f).row? kind' id' = s.row? kind' id' := by
  induction rows generalizing s with
  | nil => rfl
  | cons e rest ih => exact ih.trans (row?_updateRow_of_kind_ne (f e.2) h)

theorem row?_updateEach_of_not_mem (h : id ∉ rows.map Prod.fst) :
    (s.updateEach kind rows f).row? kind id = s.row? kind id := by
  induction rows generalizing s with
  | nil => rfl
  | cons e rest ih =>
    rw [List.map_cons, List.mem_cons, not_or] at h
    exact (ih h.2).trans (row?_updateRow_of_ne (f e.2) h.1)

/-- Among rows of different ids each is updated once. -/
theorem row?_updateEach_of_mem {a : α} (hnodup : (rows.map Prod.fst).Nodup) (h : (id, a) ∈ rows) :
    (s.updateEach kind rows f).row? kind id = (s.row? kind id).map (f a) := by
  induction rows generalizing s with
  | nil => cases h
  | cons e rest ih =>
    obtain ⟨hnot, hrest⟩ := List.nodup_cons.mp hnodup
    rcases List.mem_cons.mp h with rfl | hmem
    · exact (row?_updateEach_of_not_mem hnot).trans (row?_updateRow_self _ _ _ (f a))
    · have hne : id ≠ e.1 := by
        intro heq
        exact hnot (heq ▸ List.mem_map_of_mem hmem)
      exact (ih hrest hmem).trans (congrArg (Option.map (f a)) (row?_updateRow_of_ne (f e.2) hne))

end updates

end Store

abbrev InTx (α : Type) := Fallible.Prog Tx LocalError α

namespace InTx

open Fallible

variable (draws : Draws)

def read {α : Type} (f : Store → α) : InTx α := look fun tx => f tx.store

/-- A statement that always goes through. -/
def write (f : Store → Store) : InTx Unit := alter (Tx.onStore f)

def tick : InTx Hlc := fun tx => .ok ((tx.tick draws).2, (tx.tick draws).1)

def newId : InTx Uuid := fun tx => (tx.newId draws).map fun r => (r.2, r.1)

def now : InTx UInt64 := fun tx => .ok (draws.now tx.drawn, { tx with drawn := tx.drawn + 1 })

def insert (kind : EntityKind) (id : Uuid) (cols : Cols kind) (clock : Hlc) : InTx Unit :=
  fun tx => (tx.insert kind id cols clock).map fun tx => ((), tx)

/-- `INSERT` of a whole row. -/
def insertRow (kind : EntityKind) (id : Uuid) (row : Row (Cols kind)) : InTx Unit := fun tx =>
  if (tx.store.row? kind id).isSome then .error .sqlite
  else .ok ((), tx.onStore fun s => s.putRow kind id row)

/-- `UPDATE … WHERE id` -/
def update (kind : EntityKind) (id : Uuid) (f : Row (Cols kind) → Row (Cols kind)) : InTx Unit :=
  write fun s => s.updateRow kind id f

/-- `INSERT … ON CONFLICT (id) DO UPDATE`: the record is live with its new columns. -/
def upsert (kind : EntityKind) (id : Uuid) (cols : Cols kind) (clock : Hlc) : InTx Unit :=
  write fun s =>
    match s.row? kind id with
    | none => s.putRow kind id (s.newRow clock cols)
    | some row => s.putRow kind id { row.edited clock cols with deleted := false }

def sealSecret (vault : UnlockedVault) (plain : Plain) : InTx Uuid := fun tx =>
  (tx.sealSecret draws vault plain).map fun r => (r.2, r.1)

def forgetSecret (id : Uuid) : InTx Unit := alter (Tx.forgetSecret draws id)

/-- The whole transaction, and its commit. -/
def commit {α : Type} (prog : InTx α) (s : Store) : Except LocalError (α × Store) :=
  (prog.run { store := s, drawn := 0 }).map fun r => (r.1, r.2.store)

section ends

variable {draws : Draws} {tx : Tx} {α : Type}

@[simp] theorem store_onStore (f : Store → Store) : (tx.onStore f).store = f tx.store := rfl

@[simp] theorem row?_tick (kind : EntityKind) (id : Uuid) :
    (tx.tick draws).1.store.row? kind id = tx.store.row? kind id := rfl

@[simp] theorem ends_read {f : Store → α} {post : α → Tx → Prop} :
    Ends (read f) tx post ↔ post (f tx.store) tx :=
  ends_look

@[simp] theorem ends_write {f : Store → Store} {post : Unit → Tx → Prop} :
    Ends (write f) tx post ↔ post () (tx.onStore f) :=
  ends_alter

@[simp] theorem ends_tick {post : Hlc → Tx → Prop} :
    Ends (tick draws) tx post ↔ post (tx.tick draws).2 (tx.tick draws).1 := by
  constructor
  · intro h
    exact h _ _ rfl
  · intro h a t hrun
    cases hrun
    exact h

@[simp] theorem ends_now {post : UInt64 → Tx → Prop} :
    Ends (now draws) tx post ↔ post (draws.now tx.drawn) { tx with drawn := tx.drawn + 1 } := by
  constructor
  · intro h
    exact h _ _ rfl
  · intro h a t hrun
    cases hrun
    exact h

@[simp] theorem ends_newId {post : Uuid → Tx → Prop} :
    Ends (newId draws) tx post ↔
      ∀ id, draws.id tx.drawn = some id → post id { tx with drawn := tx.drawn + 1 } := by
  constructor
  · intro h id hid
    apply h id _
    simp [StateT.run, newId, Tx.newId, hid, Except.map]
  · intro h id t hrun
    cases hid : draws.id tx.drawn with
    | none => simp [StateT.run, newId, Tx.newId, hid, Except.map] at hrun
    | some id' =>
      simp only [StateT.run, newId, Tx.newId, hid, Except.map, Except.ok.injEq,
        Prod.mk.injEq] at hrun
      obtain ⟨rfl, rfl⟩ := hrun
      exact h id' hid

@[simp] theorem ends_insert {kind : EntityKind} {id : Uuid} {cols : Cols kind} {clock : Hlc}
    {post : Unit → Tx → Prop} :
    Ends (insert kind id cols clock) tx post ↔ (tx.store.row? kind id = none →
      post () (tx.onStore fun s => s.putRow kind id (s.newRow clock cols))) := by
  constructor
  · intro h hnone
    apply h () _
    simp [StateT.run, insert, Tx.insert, hnone, Except.map]
  · intro h a t hrun
    cases hinsert : tx.insert kind id cols clock with
    | error e => simp [StateT.run, insert, hinsert, Except.map] at hrun
    | ok u =>
      simp only [StateT.run, insert, hinsert, Except.map, Except.ok.injEq, Prod.mk.injEq] at hrun
      obtain ⟨-, rfl⟩ := hrun
      obtain ⟨hnone, rfl⟩ := Tx.insert_ok hinsert
      exact h hnone

@[simp] theorem ends_insertRow {kind : EntityKind} {id : Uuid} {row : Row (Cols kind)}
    {post : Unit → Tx → Prop} :
    Ends (insertRow kind id row) tx post ↔ (tx.store.row? kind id = none →
      post () (tx.onStore fun s => s.putRow kind id row)) := by
  constructor
  · intro h hnone
    apply h () _
    simp [StateT.run, insertRow, hnone]
  · intro h a t hrun
    cases hrow : tx.store.row? kind id with
    | none =>
      simp only [StateT.run, insertRow, hrow, Option.isSome_none, Bool.false_eq_true, if_false,
        Except.ok.injEq, Prod.mk.injEq] at hrun
      obtain ⟨-, rfl⟩ := hrun
      exact h hrow
    | some row' => simp [StateT.run, insertRow, hrow] at hrun

@[simp] theorem ends_update {kind : EntityKind} {id : Uuid} {f : Row (Cols kind) → Row (Cols kind)}
    {post : Unit → Tx → Prop} :
    Ends (update kind id f) tx post ↔ post () (tx.onStore fun s => s.updateRow kind id f) :=
  ends_write

@[simp] theorem ends_forgetSecret {id : Uuid} {post : Unit → Tx → Prop} :
    Ends (forgetSecret draws id) tx post ↔ post () (tx.forgetSecret draws id) :=
  ends_alter

@[simp] theorem ends_sealSecret {vault : UnlockedVault} {plain : Plain} {post : Uuid → Tx → Prop} :
    Ends (sealSecret draws vault plain) tx post ↔
      ∀ id t, tx.sealSecret draws vault plain = .ok (t, id) → post id t := by
  constructor
  · intro h id t hseal
    apply h id t
    simp [StateT.run, sealSecret, hseal, Except.map]
  · intro h id t hrun
    cases hseal : tx.sealSecret draws vault plain with
    | error e => simp [StateT.run, sealSecret, hseal, Except.map] at hrun
    | ok r =>
      simp only [StateT.run, sealSecret, hseal, Except.map, Except.ok.injEq, Prod.mk.injEq] at hrun
      obtain ⟨rfl, rfl⟩ := hrun
      exact h _ _ hseal

@[simp] theorem ends_upsert {kind : EntityKind} {id : Uuid} {cols : Cols kind} {clock : Hlc}
    {post : Unit → Tx → Prop} :
    Ends (upsert kind id cols clock) tx post ↔ post () (tx.onStore fun s =>
      match s.row? kind id with
      | none => s.putRow kind id (s.newRow clock cols)
      | some row => s.putRow kind id { row.edited clock cols with deleted := false }) :=
  ends_write

/-- What a committed transaction guarantees. -/
theorem of_commit {prog : InTx α} {s t : Store} {a : α} {post : α → Tx → Prop}
    (hrun : prog.commit s = .ok (a, t)) (h : Ends prog { store := s, drawn := 0 } post) :
    ∃ tx, tx.store = t ∧ post a tx := by
  unfold commit at hrun
  cases hprog : prog.run { store := s, drawn := 0 } with
  | error e =>
    rw [hprog] at hrun
    cases hrun
  | ok r =>
    rw [hprog] at hrun
    cases hrun
    exact ⟨r.2, rfl, h r.1 r.2 hprog⟩

end ends

end InTx

/-- A record is there, and its row is a good one of its kind. -/
def Tx.Has (kind : EntityKind) (id : Uuid) (good : (kind : EntityKind) → Row (Cols kind) → Prop)
    (tx : Tx) : Prop :=
  ∃ row, tx.store.row? kind id = some row ∧ good kind row

namespace InTx

open Fallible

section keeps

variable {draws : Draws} {kind : EntityKind} {id : Uuid} {α : Type}
  {good : (kind : EntityKind) → Row (Cols kind) → Prop}

theorem has_of_row? {tx tx' : Tx} (h : tx.Has kind id good)
    (hrow : tx'.store.row? kind id = tx.store.row? kind id) : tx'.Has kind id good := by
  obtain ⟨row, hsome, hgood⟩ := h
  exact ⟨row, hrow.trans hsome, hgood⟩

/-- A row put under another record's id leaves the record; under its own it has to be good. -/
theorem has_putRow {tx : Tx} {kind' : EntityKind} {id' : Uuid} {row : Row (Cols kind')}
    (h : tx.Has kind id good) (hgood : kind' = kind → id' = id → good kind' row) :
    (tx.onStore fun s => s.putRow kind' id' row).Has kind id good := by
  by_cases hsame : kind = kind' ∧ id = id'
  · obtain ⟨rfl, rfl⟩ := hsame
    exact ⟨row, tx.store.row?_putRow_self row, hgood rfl rfl⟩
  · exact has_of_row? h (tx.store.row?_putRow_of_pair_ne kind' id' row hsame)

theorem keeps_read {f : Store → α} : Keeps (Tx.Has kind id good) (read f) := keeps_look

/-- What follows a read may use what was found, in the store it was found in. -/
theorem keeps_read_bind {β : Type} {inv : Tx → Prop} {f : Store → α} {prog : α → InTx β}
    (h : ∀ tx, inv tx → Ends (prog (f tx.store)) tx fun _ => inv) : Keeps inv (read f >>= prog) :=
  keeps_look_bind h

theorem keeps_tick : Keeps (Tx.Has kind id good) (tick draws) :=
  fun _ h => ends_tick.mpr (has_of_row? h rfl)

theorem keeps_now : Keeps (Tx.Has kind id good) (now draws) :=
  fun _ h => ends_now.mpr (has_of_row? h rfl)

theorem keeps_newId : Keeps (Tx.Has kind id good) (newId draws) :=
  fun _ h => ends_newId.mpr fun _ _ => has_of_row? h rfl

/-- A new row is none that was there. -/
theorem has_newRow {tx : Tx} {kind' : EntityKind} {id' : Uuid} (row : Row (Cols kind'))
    (h : tx.Has kind id good) (hnone : tx.store.row? kind' id' = none) :
    (tx.onStore fun s => s.putRow kind' id' row).Has kind id good := by
  refine has_putRow h ?_
  rintro rfl rfl
  obtain ⟨old, hsome, -⟩ := h
  rw [hnone] at hsome
  cases hsome

theorem keeps_insertRow {kind' : EntityKind} {id' : Uuid} {row : Row (Cols kind')} :
    Keeps (Tx.Has kind id good) (insertRow kind' id' row) :=
  fun _ h => ends_insertRow.mpr fun hnone => has_newRow row h hnone

theorem keeps_insert {kind' : EntityKind} {id' : Uuid} {cols : Cols kind'} {clock : Hlc} :
    Keeps (Tx.Has kind id good) (insert kind' id' cols clock) :=
  fun _ h => ends_insert.mpr fun hnone => has_newRow _ h hnone

theorem has_updateRow {tx : Tx} {kind' : EntityKind} {id' : Uuid}
    {f : Row (Cols kind') → Row (Cols kind')} (h : tx.Has kind id good)
    (hgood : kind' = kind → id' = id → ∀ row, good kind' row → good kind' (f row)) :
    (tx.onStore fun s => s.updateRow kind' id' f).Has kind id good := by
  by_cases hsame : kind = kind' ∧ id = id'
  · obtain ⟨rfl, rfl⟩ := hsame
    obtain ⟨row, hsome, hrow⟩ := h
    have hnew := tx.store.row?_updateRow_self kind id f
    rw [hsome] at hnew
    exact ⟨f row, hnew, hgood rfl rfl row hrow⟩
  · exact has_of_row? h (tx.store.row?_updateRow_of_pair_ne kind' id' f hsame)

theorem keeps_update {kind' : EntityKind} {id' : Uuid} {f : Row (Cols kind') → Row (Cols kind')}
    (hgood : ∀ row, good kind' row → good kind' (f row)) :
    Keeps (Tx.Has kind id good) (update kind' id' f) :=
  fun _ h => ends_update.mpr (has_updateRow h fun _ _ => hgood)

theorem keeps_write {f : Store → Store}
    (h : ∀ tx : Tx, tx.Has kind id good → (tx.onStore f).Has kind id good) :
    Keeps (Tx.Has kind id good) (write f) :=
  keeps_alter h

theorem keeps_sealSecret {vault : UnlockedVault} {plain : Plain} :
    Keeps (Tx.Has kind id good) (sealSecret draws vault plain) := by
  intro tx h
  refine ends_sealSecret.mpr fun new t hseal => ?_
  obtain ⟨-, u, rfl, hinsert⟩ := Tx.sealSecret_eq hseal
  obtain ⟨hnone, rfl⟩ := Tx.insert_ok hinsert
  have hticked : (({ tx with drawn := tx.drawn + 1 } : Tx).tick draws).1.Has kind id good :=
    has_of_row? h rfl
  exact has_newRow _ hticked hnone

theorem keeps_forgetSecret {secret : Uuid}
    (hgood : ∀ row row', good .secret row → good .secret row') :
    Keeps (Tx.Has kind id good) (forgetSecret draws secret) := by
  intro tx h
  have hticked : (tx.tick draws).1.Has kind id good := has_of_row? h rfl
  exact ends_forgetSecret.mpr (has_of_row? (has_updateRow hticked fun _ _ row => hgood row _) rfl)

end keeps

end InTx

end UwuSsh

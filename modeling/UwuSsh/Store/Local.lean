import UwuSsh.Store.ApplyFacts
import UwuSsh.Store.Manifests
import UwuSsh.Team.File

/-!
Writes of this device's own. One transaction draws new ids and the time as it goes, ticks the
clock for what it writes, and is gone with everything it did when a statement of it fails. A
transaction is known by what it may touch: the rows it was given, and rows under ids it drew.
-/
namespace UwuSsh

/-- What goes wrong in a store's own operations. -/
inductive LocalError
  | tx (e : TxError)
  | unknownHost (id : Uuid)
  | unknownKey (id : Uuid)
  | keyInUse (hosts : ℕ)
  /-- What seals a key for this device did not. -/
  | device
  | io
  | exportFile (problem : String)
deriving DecidableEq

namespace LocalError

def vaultLocked : LocalError := .tx (.store .vaultLocked)

def sqlite : LocalError := .tx .sqlite

def invalid (field problem : String) : LocalError := .tx (.store (.invalid field problem))

end LocalError

/-- What a transaction draws while it runs. -/
structure Draws where
  /-- The new id a draw gives, if the system has one to give. -/
  id : ℕ → Option Uuid
  now : ℕ → UInt64

/-- A store in a transaction, with how often the transaction drew. -/
structure Tx where
  store : Store
  drawn : ℕ

namespace Store

def rows (s : Store) (kind : EntityKind) : List (Uuid × Row (Cols kind)) :=
  (s.tables kind).entries.map fun e => (e.1, e.2)

theorem mem_rows {s : Store} {kind : EntityKind} {id : Uuid} {row : Row (Cols kind)} :
    (id, row) ∈ s.rows kind ↔ s.row? kind id = some row := by
  rw [rows, List.mem_map]
  constructor
  · intro ⟨⟨k, r⟩, hmem, heq⟩
    cases heq
    exact AList.mem_lookup_iff.mpr hmem
  · intro hrow
    exact ⟨⟨id, row⟩, AList.mem_lookup_iff.mp hrow, rfl⟩

theorem nodup_rows (s : Store) (kind : EntityKind) : ((s.rows kind).map Prod.fst).Nodup := by
  rw [rows, List.map_map]
  exact (s.tables kind).nodupKeys

/-- A row as a statement of this build inserts it. -/
def newRow {α : Type} (s : Store) (clock : Hlc) (cols : α) : Row α where
  vaultId := s.vaultId
  updatedAt := clock
  rev := 1
  deleted := false
  dirty := true
  serverSeq := 0
  cols

/-- What becomes of a store in which only some rows were touched. -/
structure Within (touched : EntityKind → Uuid → Prop) (s t : Store) : Prop where
  rows : ∀ kind id, ¬ touched kind id → t.row? kind id = s.row? kind id
  frame : Frame s t
  superseded : t.superseded = s.superseded

section within

variable {touched touched' : EntityKind → Uuid → Prop} {s t u : Store}

theorem Within.refl (s : Store) : Within touched s s := ⟨fun _ _ _ => rfl, .refl s, rfl⟩

theorem Within.trans (h : Within touched s t) (h' : Within touched t u) : Within touched s u where
  rows kind id hnot := (h'.rows kind id hnot).trans (h.rows kind id hnot)
  frame := h.frame.trans h'.frame
  superseded := h'.superseded.trans h.superseded

theorem Within.mono (h : Within touched s t) (hle : ∀ kind id, touched kind id → touched' kind id) :
    Within touched' s t where
  rows kind id hnot := h.rows kind id fun htouched => hnot (hle kind id htouched)
  frame := h.frame
  superseded := h.superseded

theorem Within.inter (h : Within touched s t) (h' : Within touched' s t) :
    Within (fun kind id => touched kind id ∧ touched' kind id) s t where
  rows kind id hnot := by
    by_cases htouched : touched kind id
    · exact h'.rows kind id fun htouched' => hnot ⟨htouched, htouched'⟩
    · exact h.rows kind id htouched
  frame := h.frame
  superseded := h.superseded

theorem Within.tick (s : Store) (nowMs : UInt64) : Within touched s (s.tick nowMs).1 :=
  ⟨fun _ _ _ => rfl, s.frame_setClock _, rfl⟩

theorem Within.putRow (s : Store) {kind : EntityKind} {id : Uuid} (row : Row (Cols kind))
    (h : touched kind id) : Within touched s (s.putRow kind id row) where
  rows kind' id' hnot := by
    apply row?_putRow_of_pair_ne
    intro ⟨hkind, hid⟩
    exact hnot (hkind ▸ hid ▸ h)
  frame := s.frame_putRow kind id row
  superseded := rfl

theorem Within.updateRow (s : Store) {kind : EntityKind} {id : Uuid}
    (f : Row (Cols kind) → Row (Cols kind)) (h : touched kind id) :
    Within touched s (s.updateRow kind id f) := by
  unfold Store.updateRow
  split
  · exact .refl s
  · exact .putRow s _ h

theorem Within.forgetSecret (s : Store) (nowMs : UInt64) {id : Uuid} (h : touched .secret id) :
    Within touched s (s.forgetSecret nowMs id) :=
  (Within.tick s nowMs).trans (.updateRow _ _ h)

end within

@[simp] theorem row?_tick (s : Store) (nowMs : UInt64) (kind : EntityKind) (id : Uuid) :
    (s.tick nowMs).1.row? kind id = s.row? kind id := rfl

end Store

namespace Tx

variable (draws : Draws)

def tick (tx : Tx) : Tx × Hlc :=
  let (store, clock) := tx.store.tick (draws.now tx.drawn)
  ({ store, drawn := tx.drawn + 1 }, clock)

def newId (tx : Tx) : Except LocalError (Tx × Uuid) :=
  match draws.id tx.drawn with
  | none => .error .device
  | some id => .ok ({ tx with drawn := tx.drawn + 1 }, id)

def onStore (f : Store → Store) (tx : Tx) : Tx := { tx with store := f tx.store }

/-- `INSERT`, which fails on a row that is there. -/
def insert (tx : Tx) (kind : EntityKind) (id : Uuid) (cols : Cols kind) (clock : Hlc) :
    Except LocalError Tx :=
  if (tx.store.row? kind id).isSome then .error .sqlite
  else .ok (tx.onStore fun s => s.putRow kind id (s.newRow clock cols))

/-- Seal a secret with the unlocked vault and store it. -/
def sealSecret (vault : UnlockedVault) (plain : Plain) (tx : Tx) : Except LocalError (Tx × Uuid) :=
  (tx.newId draws).bind fun (tx, id) =>
    let (tx, clock) := tx.tick draws
    (tx.insert .secret id (vault.sealStored id .secret plain) clock).map fun tx => (tx, id)

def forgetSecret (id : Uuid) (tx : Tx) : Tx :=
  { store := tx.store.forgetSecret (draws.now tx.drawn) id, drawn := tx.drawn + 1 }

end Tx

/-- Ids that are new: no two draws give the same, and none is used yet. -/
structure Draws.Fresh (draws : Draws) (used : Uuid → Prop) : Prop where
  distinct : ∀ {m n : ℕ} {id : Uuid}, draws.id m = some id → draws.id n = some id → m = n
  unused : ∀ {n : ℕ} {id : Uuid}, draws.id n = some id → ¬ used id

/-- What a stretch of a transaction touched: rows it was given, and rows under ids it drew. -/
structure Tx.Within (draws : Draws) (given : EntityKind → Uuid → Prop) (tx tx' : Tx) : Prop where
  drawn : tx.drawn ≤ tx'.drawn
  store : tx.store.Within (fun kind id => given kind id ∨
    ∃ n, tx.drawn ≤ n ∧ n < tx'.drawn ∧ draws.id n = some id) tx'.store

namespace Tx

variable {draws : Draws} {given given' : EntityKind → Uuid → Prop} {tx tx' tx'' : Tx}

theorem Within.refl (tx : Tx) : Within draws given tx tx := ⟨Nat.le_refl _, .refl _⟩

theorem Within.trans (h : Within draws given tx tx') (h' : Within draws given tx' tx'') :
    Within draws given tx tx'' where
  drawn := h.drawn.trans h'.drawn
  store := by
    have hfirst := h.drawn
    have hsecond := h'.drawn
    refine (h.store.mono fun kind id hid => ?_).trans (h'.store.mono fun kind id hid => ?_)
    · rcases hid with hid | ⟨n, hle, hlt, heq⟩
      · exact Or.inl hid
      · exact Or.inr ⟨n, hle, by omega, heq⟩
    · rcases hid with hid | ⟨n, hle, hlt, heq⟩
      · exact Or.inl hid
      · exact Or.inr ⟨n, by omega, hlt, heq⟩

theorem Within.mono (h : Within draws given tx tx') (hle : ∀ kind id, given kind id → given' kind id) :
    Within draws given' tx tx' :=
  ⟨h.drawn, h.store.mono fun kind id hid => hid.imp_left (hle kind id)⟩

theorem Within.tick (tx : Tx) : Within draws given tx (tx.tick draws).1 :=
  ⟨Nat.le_succ _, .tick _ _⟩

theorem newId_bind {α : Type} {f : Tx × Uuid → Except LocalError α} {r : α}
    (h : (tx.newId draws).bind f = .ok r) :
    ∃ id, draws.id tx.drawn = some id ∧ f ({ tx with drawn := tx.drawn + 1 }, id) = .ok r := by
  unfold newId at h
  cases hid : draws.id tx.drawn with
  | none =>
    rw [hid] at h
    cases h
  | some id =>
    rw [hid] at h
    exact ⟨id, rfl, h⟩

theorem Within.onStore (tx : Tx) {f : Store → Store} (h : tx.store.Within given (f tx.store)) :
    Within draws given tx (tx.onStore f) :=
  ⟨Nat.le_refl _, h.mono fun _ _ => Or.inl⟩

theorem insert_ok {kind : EntityKind} {id : Uuid} {cols : Cols kind} {clock : Hlc}
    (h : tx.insert kind id cols clock = .ok tx') : tx.store.row? kind id = none ∧
      tx' = tx.onStore fun s => s.putRow kind id (s.newRow clock cols) := by
  unfold insert at h
  split at h
  · cases h
  · next hnone =>
    cases h
    exact ⟨by simpa using hnone, rfl⟩

/-- An inserted row is there, and nothing else changed. -/
theorem Within.insert {kind : EntityKind} {id : Uuid} {cols : Cols kind} {clock : Hlc}
    (h : tx.insert kind id cols clock = .ok tx') (hid : given kind id) : Within draws given tx tx' := by
  obtain ⟨-, rfl⟩ := insert_ok h
  exact .onStore tx (.putRow _ _ hid)

theorem row?_insert {kind : EntityKind} {id : Uuid} {cols : Cols kind} {clock : Hlc}
    (h : tx.insert kind id cols clock = .ok tx') :
    tx'.store.row? kind id = some (tx.store.newRow clock cols) := by
  obtain ⟨-, rfl⟩ := insert_ok h
  exact Store.row?_putRow_self ..

/-- How sealing a secret went through. -/
theorem sealSecret_eq {vault : UnlockedVault} {plain : Plain} {id : Uuid}
    (h : tx.sealSecret draws vault plain = .ok (tx', id)) : draws.id tx.drawn = some id ∧
      ∃ u, u = ({ tx with drawn := tx.drawn + 1 } : Tx).tick draws ∧
        u.1.insert .secret id (vault.sealStored id .secret plain) u.2 = .ok tx' := by
  unfold sealSecret at h
  obtain ⟨id', hid, h⟩ := newId_bind h
  dsimp only at h
  cases hinsert : ((({ tx with drawn := tx.drawn + 1 } : Tx).tick draws).1.insert .secret id'
      (vault.sealStored id' .secret plain) (({ tx with drawn := tx.drawn + 1 } : Tx).tick draws).2) with
  | error e =>
    rw [hinsert] at h
    cases h
  | ok u =>
    rw [hinsert] at h
    cases h
    exact ⟨hid, _, rfl, hinsert⟩

/-- A sealed secret lies under an id of its own and opens to what it was made of. -/
theorem sealSecret_ok {vault : UnlockedVault} {plain : Plain} {id : Uuid}
    (h : tx.sealSecret draws vault plain = .ok (tx', id)) :
    draws.id tx.drawn = some id ∧ tx.drawn < tx'.drawn ∧ Within draws given tx tx' ∧
      tx.store.row? .secret id = none ∧
      ∃ row, tx'.store.row? .secret id = some row ∧ row.deleted = false ∧
        row.cols = vault.sealStored id .secret plain := by
  obtain ⟨hid, u, rfl, hinsert⟩ := sealSecret_eq h
  obtain ⟨hnone, rfl⟩ := insert_ok hinsert
  refine ⟨hid, ?_, ⟨?_, ?_⟩, hnone, _, row?_insert hinsert, rfl, rfl⟩
  · show tx.drawn < tx.drawn + 1 + 1
    omega
  · show tx.drawn ≤ tx.drawn + 1 + 1
    omega
  · have hdrawn : ∃ n, tx.drawn ≤ n ∧ n < tx.drawn + 1 + 1 ∧ draws.id n = some id :=
      ⟨tx.drawn, Nat.le_refl _, by omega, hid⟩
    exact (Store.Within.tick tx.store _).trans (.putRow _ _ (Or.inr hdrawn))

theorem sealSecret_within {touched : EntityKind → Uuid → Prop} {vault : UnlockedVault} {plain : Plain}
    {id : Uuid} (h : tx.sealSecret draws vault plain = .ok (tx', id)) (hid : touched .secret id) :
    tx.store.Within touched tx'.store := by
  obtain ⟨-, u, rfl, hinsert⟩ := sealSecret_eq h
  obtain ⟨-, rfl⟩ := insert_ok hinsert
  exact (Store.Within.tick tx.store _).trans (.putRow _ _ hid)

theorem Within.forgetSecret (tx : Tx) {id : Uuid} (h : given .secret id) :
    Within draws given tx (tx.forgetSecret draws id) :=
  ⟨Nat.le_succ _, .forgetSecret _ _ (Or.inl h)⟩

end Tx

end UwuSsh

import UwuSsh.Store.References

/-!
What an edit does to a row. A row is left as it is, up to columns that stay on this device, or it is
written: it waits to be pushed, on the server version it was based on, under a clock of the transaction,
and a tombstone stays one unless the record is of a kind that lives under the id it had. A clock of the
transaction is later than any this store had before, as long as the wall clock's range does not run out.
-/
namespace UwuSsh

open Fallible InTx

/-- The kinds of which a deleted record comes back under its id: a host key when its slot is trusted
again, and what has a fixed id. -/
def revivedKinds : List EntityKind := [.knownHost, .assistConfig, .assistCache, .keymap]

namespace Row

variable {kind : EntityKind}

/-- Nothing that is synced differs. -/
structure SameSynced (id : Uuid) (row row' : Row (Cols kind)) : Prop where
  version : row'.version = row.version
  dirty : row'.dirty = row.dirty
  base : row'.serverSeq = row.serverSeq
  payload : ∀ vault, payloadOf vault id kind row'.cols = payloadOf vault id kind row.cols

/-- A row to be pushed, in the place of another one if there was one. -/
structure Written (old : Option (Row (Cols kind))) (row : Row (Cols kind)) : Prop where
  dirty : row.dirty = true
  base : row.serverSeq = (old.map (·.serverSeq)).getD 0
  final : kind ∉ revivedKinds → ∀ before, old = some before → before.deleted = true → row.deleted = true

theorem SameSynced.refl (id : Uuid) (row : Row (Cols kind)) : row.SameSynced id row :=
  ⟨rfl, rfl, rfl, fun _ => rfl⟩

theorem SameSynced.trans {id : Uuid} {row row' row'' : Row (Cols kind)} (h : row.SameSynced id row')
    (h' : row'.SameSynced id row'') : row.SameSynced id row'' where
  version := h'.version.trans h.version
  dirty := h'.dirty.trans h.dirty
  base := h'.base.trans h.base
  payload vault := (h'.payload vault).trans (h.payload vault)

theorem SameSynced.deleted {id : Uuid} {row row' : Row (Cols kind)} (h : row.SameSynced id row') :
    row'.deleted = row.deleted :=
  congrArg Version.deleted h.version

theorem written_edited {row : Row (Cols kind)} {clock : Hlc} {cols : Cols kind} :
    Written (some row) (row.edited clock cols) :=
  ⟨rfl, rfl, fun _ _ hold hdeleted => Option.some.inj hold ▸ hdeleted⟩

theorem written_tombed {row : Row (Cols kind)} {clock : Hlc} : Written (some row) (row.tombed clock) :=
  ⟨rfl, rfl, fun _ _ _ _ => rfl⟩

theorem written_newRow {s : Store} {clock : Hlc} {cols : Cols kind} : Written none (s.newRow clock cols) :=
  ⟨rfl, rfl, fun _ _ hold => nomatch hold⟩

end Row

namespace Store

/-- The wall clock has room for what comes. -/
def Unspent (s : Store) : Prop := s.clockWallMs.toNat + 1 < 2 ^ 64

instance (s : Store) : Decidable s.Unspent := inferInstanceAs (Decidable (_ < _))

/-- What became of one record: it is as it was, or was written under a good clock. -/
inductive Became (good : Hlc → Prop) (s t : Store) (kind : EntityKind) (id : Uuid) : Prop
  | kept : Option.Rel (Row.SameSynced id) (s.row? kind id) (t.row? kind id) → Became good s t kind id
  | written (row : Row (Cols kind)) : t.row? kind id = some row → good row.updatedAt →
      Row.Written (s.row? kind id) row → Became good s t kind id

section became

variable {good good' : Hlc → Prop} {s t u : Store} {kind kind' : EntityKind} {id id' : Uuid}

theorem rel_refl (found : Option (Row (Cols kind))) : Option.Rel (Row.SameSynced id) found found := by
  cases found with
  | none => exact .none
  | some row => exact .some (.refl id row)

theorem became_of_eq (h : t.row? kind id = s.row? kind id) : Became good s t kind id :=
  .kept (h ▸ rel_refl _)

theorem Became.mono (h : Became good s t kind id) (hle : ∀ c, good c → good' c) : Became good' s t kind id := by
  cases h with
  | kept hrel => exact .kept hrel
  | written row hrow hgood hwritten => exact .written row hrow (hle _ hgood) hwritten

/-- A row that is written twice was written, one that is written and left alone too. -/
theorem Became.trans (h : Became good s t kind id) (h' : Became good t u kind id) : Became good s u kind id := by
  cases h' with
  | kept hrel' =>
    cases h with
    | kept hrel =>
      refine .kept ?_
      generalize hs : s.row? kind id = old at hrel
      generalize ht : t.row? kind id = mid at hrel hrel'
      generalize hu : u.row? kind id = new at hrel'
      cases hrel with
      | none =>
        cases hrel'
        exact .none
      | some hfirst =>
        cases hrel' with
        | some hsecond => exact .some (hfirst.trans hsecond)
    | written row hrow hgood hwritten =>
      generalize hu : u.row? kind id = new at hrel'
      rw [hrow] at hrel'
      cases hrel' with
      | @some _ row' hsame =>
        have hclock : row'.updatedAt = row.updatedAt := congrArg Version.updatedAt hsame.version
        refine .written row' hu (hclock ▸ hgood) ⟨hsame.dirty.trans hwritten.dirty, hsame.base.trans hwritten.base, ?_⟩
        intro hkind before hold hdeleted
        exact hsame.deleted.trans (hwritten.final hkind before hold hdeleted)
  | written row hrow hgood hwritten =>
    refine .written row hrow hgood ⟨hwritten.dirty, ?_, ?_⟩
    · rw [hwritten.base]
      cases h with
      | kept hrel =>
        generalize s.row? kind id = old at hrel ⊢
        generalize t.row? kind id = mid at hrel ⊢
        cases hrel with
        | none => rfl
        | some hsame => exact hsame.base
      | written mid hmid _ hfirst =>
        rw [hmid]
        exact hfirst.base
    · intro hkind before hold hdeleted
      cases h with
      | kept hrel =>
        rw [hold] at hrel
        generalize hmid : t.row? kind id = mid at hrel
        cases hrel with
        | some hsame => exact hwritten.final hkind _ hmid (hsame.deleted.trans hdeleted)
      | written mid hmid _ hfirst =>
        exact hwritten.final hkind mid hmid (hfirst.final hkind before hold hdeleted)

theorem became_putRow {row : Row (Cols kind)} (hgood : good row.updatedAt)
    (hwritten : Row.Written (s.row? kind id) row) (kind' : EntityKind) (id' : Uuid) :
    Became good s (s.putRow kind id row) kind' id' := by
  by_cases hself : kind' = kind ∧ id' = id
  · obtain ⟨rfl, rfl⟩ := hself
    exact .written row (s.row?_putRow_self row) hgood hwritten
  · exact became_of_eq (s.row?_putRow_of_pair_ne kind id row hself)

/-- One row of a statement: left as it is, or written. -/
def RowBecame (good : Hlc → Prop) (id : Uuid) (row row' : Row (Cols kind)) : Prop :=
  row.SameSynced id row' ∨ good row'.updatedAt ∧ Row.Written (some row) row'

theorem became_of_rowBecame {row row' : Row (Cols kind)} (h : RowBecame good id row row')
    (hrow : s.row? kind id = some row) (hrow' : t.row? kind id = some row') : Became good s t kind id := by
  rcases h with hsame | ⟨hgood, hwritten⟩
  · refine .kept ?_
    rw [hrow, hrow']
    exact .some hsame
  · exact .written row' hrow' hgood (hrow ▸ hwritten)

theorem became_updateRow {f : Row (Cols kind) → Row (Cols kind)} (h : ∀ row, RowBecame good id row (f row))
    (kind' : EntityKind) (id' : Uuid) : Became good s (s.updateRow kind id f) kind' id' := by
  cases hrow : s.row? kind id with
  | none =>
    rw [s.updateRow_of_none f hrow]
    exact became_of_eq rfl
  | some row =>
    by_cases hself : kind' = kind ∧ id' = id
    · obtain ⟨rfl, rfl⟩ := hself
      refine became_of_rowBecame (h row) hrow ?_
      rw [row?_updateRow_self, hrow, Option.map_some]
    · exact became_of_eq (s.row?_updateRow_of_pair_ne kind id f hself)

theorem became_mapTable {f : Row (Cols kind) → Row (Cols kind)} (h : ∀ id row, RowBecame good id row (f row))
    (kind' : EntityKind) (id' : Uuid) : Became good s (s.mapTable kind f) kind' id' := by
  by_cases hkind : kind' = kind
  · subst hkind
    cases hrow : s.row? kind' id' with
    | none =>
      refine became_of_eq ?_
      rw [row?_mapTable_self, hrow]
      rfl
    | some row =>
      refine became_of_rowBecame (h id' row) hrow ?_
      rw [row?_mapTable_self, hrow, Option.map_some]
  · exact became_of_eq (row?_mapTable_of_ne s f id' hkind)

end became

section since

variable {start s t : Store}

/-- What became of a store since a transaction began in it. -/
structure Since (start s : Store) : Prop where
  clock : start.clock ≤ s.clock
  rows : ∀ kind id, Became (fun c => start.clock < c ∧ c ≤ s.clock) start s kind id

theorem Since.refl (s : Store) : s.Since s := ⟨le_rfl, fun _ _ => became_of_eq rfl⟩

theorem Since.write (h : start.Since s) {good : Hlc → Prop} (hclock : t.clock = s.clock)
    (hgood : ∀ c, good c → start.clock < c ∧ c ≤ s.clock) (hrows : ∀ kind id, Became good s t kind id) :
    start.Since t := by
  refine ⟨hclock ▸ h.clock, fun kind id => ?_⟩
  rw [hclock]
  exact (h.rows kind id).trans ((hrows kind id).mono hgood)

theorem Since.later (h : start.Since s) (hle : s.clock ≤ t.clock) (hrows : ∀ kind id, t.row? kind id = s.row? kind id) :
    start.Since t := by
  refine ⟨h.clock.trans hle, fun kind id => ?_⟩
  exact ((h.rows kind id).mono fun c hc => ⟨hc.1, hc.2.trans hle⟩).trans (became_of_eq (hrows kind id))

/-- The wall of a clock that ticks does not go back. -/
theorem unspent_of_tick {nowMs : UInt64} (h : (s.tick nowMs).1.Unspent) : s.Unspent := by
  have hwall := Hlc.le_tick_wall s.clock nowMs
  have hroom : (s.clock.tick nowMs).wallMs.toNat + 1 < 2 ^ 64 := h
  show s.clock.wallMs.toNat + 1 < 2 ^ 64
  omega

theorem clock_tick (s : Store) (nowMs : UInt64) : (s.tick nowMs).1.clock = (s.tick nowMs).2 := by
  have hdevice : (s.clock.tick nowMs).device = s.device := Hlc.tick_device s.clock nowMs
  show ({ wallMs := (s.clock.tick nowMs).wallMs, counter := (s.clock.tick nowMs).counter, device := s.device } : Hlc) = _
  rw [← hdevice]
  rfl

theorem lt_tick {nowMs : UInt64} (h : s.Unspent) : s.clock < (s.tick nowMs).1.clock := by
  refine Hlc.lt_of_stamp_lt (Hlc.stamp_lt_tick nowMs fun hend => ?_)
  have hroom : s.clock.wallMs.toNat + 1 < 2 ^ 64 := h
  have hwall : s.clock.wallMs.toNat = 2 ^ 64 - 1 := hend.1
  omega

end since

end Store

section rowBecame

variable {kind : EntityKind} {id : Uuid} {row row' : Row (Cols kind)} {clock : Hlc} {cols : Cols kind}
  {good : Hlc → Prop}

theorem rowBecame_edited : Store.RowBecame (· = clock) id row (row.edited clock cols) :=
  .inr ⟨rfl, Row.written_edited⟩

theorem rowBecame_tombed : Store.RowBecame (· = clock) id row (row.tombed clock) := .inr ⟨rfl, Row.written_tombed⟩

theorem rowBecame_self : Store.RowBecame good id row row := .inl (.refl id row)

theorem rowBecame_ite {p : Prop} [Decidable p] {new old : Row (Cols kind)} (h : Store.RowBecame good id row new)
    (h' : Store.RowBecame good id row old) : Store.RowBecame good id row (if p then new else old) := by
  split
  · exact h
  · exact h'

end rowBecame

/-! ### What a transaction may rely on -/

/-- A fact a program may rely on from then on. -/
inductive Fact
  /-- A record that can be named has a row. -/
  | there (target : Target)
  /-- A clock of this transaction. -/
  | stamped (clock : Hlc)

def Fact.Holds (start s : Store) : Fact → Prop
  | .there target => target.1 ∈ namedKinds → s.Present target
  | .stamped clock => s.Unspent → start.clock < clock ∧ clock ≤ s.clock

/-- The record an optional reference names is there. -/
def named (kind : EntityKind) (id : Option Uuid) : List Fact := id.toList.map fun id => .there (kind, id)

/-- What a row names is there. -/
def refs (kind : EntityKind) (cols : Cols kind) : List Fact := (Cols.pointsAt kind cols).map .there

namespace Store

/-- A store in a transaction: no reference dangles, and every row is as it was or written since. -/
structure Sound (start s : Store) : Prop where
  closed : s.Closed
  since : s.Unspent → start.Since s

/-- What is known in a store. -/
def Facts (start s : Store) (known : List Fact) : Prop := ∀ fact ∈ known, fact.Holds start s

/-- A stretch of a transaction: the store stays sound, and what was known goes on being so. -/
structure Goes (start s t : Store) : Prop where
  sound : start.Sound t
  facts : ∀ fact : Fact, fact.Holds start s → fact.Holds start t

section facts

variable {start s t u : Store} {known more less : List Fact} {kind : EntityKind} {cols : Cols kind}

theorem facts_nil : start.Facts s [] := fun _ hmem => absurd hmem List.not_mem_nil

theorem Facts.append (h : start.Facts s known) (h' : start.Facts s more) : start.Facts s (known ++ more) :=
  fun fact hmem => (List.mem_append.mp hmem).elim (h fact) (h' fact)

theorem Facts.mono (h : start.Facts s known) (hle : less ⊆ known) : start.Facts s less :=
  fun fact hmem => h fact (hle hmem)

theorem facts_refs : start.Facts s (refs kind cols) ↔ s.Knows (Cols.pointsAt kind cols) := by
  constructor
  · intro h target hmem
    exact h (.there target) (List.mem_map_of_mem hmem)
  · intro h fact hmem
    obtain ⟨target, htarget, rfl⟩ := List.mem_map.mp hmem
    exact h target htarget

theorem facts_named {id : Uuid} : start.Facts s (named kind (some id)) ↔ (kind ∈ namedKinds → s.Present (kind, id)) := by
  constructor
  · intro h
    exact h _ (List.mem_singleton_self _)
  · intro h fact hmem
    obtain rfl := List.mem_singleton.mp hmem
    exact h

theorem Goes.refl (h : start.Sound s) : start.Goes s s := ⟨h, fun _ hold => hold⟩

theorem Goes.trans (h : start.Goes s t) (h' : start.Goes t u) : start.Goes s u :=
  ⟨h'.sound, fun fact hold => h'.facts fact (h.facts fact hold)⟩

theorem Facts.lasts (h : start.Facts s known) (hgoes : start.Goes s t) : start.Facts t known :=
  fun fact hmem => hgoes.facts fact (h fact hmem)

theorem sound_start (h : s.Closed) : s.Sound s := ⟨h, fun _ => .refl s⟩

/-- Rows are written under clocks of the transaction. -/
theorem Sound.write (h : start.Sound s) (hup : s.Upholds t) (hclock : t.clock = s.clock) {good : Hlc → Prop}
    (hgood : ∀ c, good c → (Fact.stamped c).Holds start s) (hrows : ∀ kind id, Became good s t kind id) :
    start.Goes s t := by
  have hroom : t.Unspent → s.Unspent := by
    intro hspent
    have hwall : t.clock.wallMs = s.clock.wallMs := congrArg Hlc.wallMs hclock
    show s.clock.wallMs.toNat + 1 < 2 ^ 64
    rw [← hwall]
    exact hspent
  refine ⟨⟨hup.closed, fun hspent => ?_⟩, fun fact hold => ?_⟩
  · exact (h.since (hroom hspent)).write hclock (fun c hc => hgood c hc (hroom hspent)) hrows
  · cases fact with
    | there target => exact fun hnamed => hup.lasting target hnamed (hold hnamed)
    | stamped clock =>
      intro hspent
      rw [hclock]
      exact hold (hroom hspent)

section rows

variable {id : Uuid} {good : Hlc → Prop}

theorem Sound.putRow {row : Row (Cols kind)} (h : start.Sound s) (hknown : start.Facts s known)
    (hclock : .stamped row.updatedAt ∈ known) (hwritten : Row.Written (s.row? kind id) row)
    (hrefs : refs kind row.cols ⊆ known) :
    start.Goes s (s.putRow kind id row) ∧ start.Facts (s.putRow kind id row) (named kind (some id)) := by
  have hup : s.Upholds (s.putRow kind id row) := h.closed.putRow (facts_refs.mp (hknown.mono hrefs))
  constructor
  · refine h.write hup rfl (fun c hc => ?_) (became_putRow (rfl : row.updatedAt = row.updatedAt) hwritten)
    exact hc ▸ hknown _ hclock
  · exact facts_named.mpr fun _ => present_of_row? (s.row?_putRow_self row)

/-- A row that was not there before. -/
theorem Sound.newRow {clock : Hlc} (h : start.Sound s) (hknown : start.Facts s known) (hnone : s.row? kind id = none)
    (hclock : .stamped clock ∈ known) (hrefs : refs kind cols ⊆ known) :
    start.Goes s (s.putRow kind id (s.newRow clock cols)) ∧
      start.Facts (s.putRow kind id (s.newRow clock cols)) (named kind (some id)) := by
  refine h.putRow hknown hclock ?_ hrefs
  rw [hnone]
  exact Row.written_newRow

theorem Sound.updateRow {f : Row (Cols kind) → Row (Cols kind)} (h : start.Sound s) (hknown : start.Facts s known)
    (hgood : ∀ c, good c → .stamped c ∈ known) (hrow : ∀ row, RowBecame good id row (f row))
    (hrefs : ∀ row, refs kind (f row).cols ⊆ refs kind row.cols ++ known) :
    start.Goes s (s.updateRow kind id f) := by
  refine h.write (h.closed.updateRow fun row hfound => ?_) (clock_updateRow s kind id f) (fun c hc => hknown _ (hgood c hc))
    (became_updateRow hrow)
  have hold : start.Facts s (refs kind row.cols) := facts_refs.mpr (h.closed.refs hfound)
  exact facts_refs.mp ((hold.append hknown).mono (hrefs row))

theorem Sound.updateEach {α : Type} {rows : List (Uuid × α)} {f : α → Row (Cols kind) → Row (Cols kind)}
    (h : start.Sound s) (hknown : start.Facts s known) (hgood : ∀ c, good c → .stamped c ∈ known)
    (hrow : ∀ a id row, RowBecame good id row (f a row))
    (hrefs : ∀ a row, refs kind (f a row).cols ⊆ refs kind row.cols ++ known) :
    start.Goes s (s.updateEach kind rows f) := by
  induction rows generalizing s with
  | nil => exact .refl h
  | cons e rest ih =>
    have hfirst : start.Goes s (s.updateRow kind e.1 (f e.2)) :=
      h.updateRow hknown hgood (hrow e.2 e.1) (hrefs e.2)
    exact hfirst.trans (ih hfirst.sound (hknown.lasts hfirst))

/-- A statement over a whole table, whose rows go on naming what they named. -/
theorem Sound.mapTable {f : Row (Cols kind) → Row (Cols kind)} (h : start.Sound s) (hknown : start.Facts s known)
    (hgood : ∀ c, good c → .stamped c ∈ known) (hrow : ∀ id row, RowBecame good id row (f row))
    (hrefs : ∀ row, Cols.pointsAt kind (f row).cols ⊆ Cols.pointsAt kind row.cols) :
    start.Goes s (s.mapTable kind f) :=
  h.write (h.closed.mapTable hrefs) rfl (fun c hc => hknown _ (hgood c hc)) (became_mapTable hrow)

end rows

/-- The clock of a tick is a clock of the transaction. -/
theorem Sound.tick (h : start.Sound s) (nowMs : UInt64) :
    start.Goes s (s.tick nowMs).1 ∧ start.Facts (s.tick nowMs).1 [.stamped (s.tick nowMs).2] := by
  have hup : s.Upholds (s.tick nowMs).1 := upholds_congr h.closed (s.row?_tick nowMs)
  refine ⟨⟨⟨hup.closed, fun hspent => ?_⟩, fun fact hold => ?_⟩, ?_⟩
  · have hroom := unspent_of_tick hspent
    exact (h.since hroom).later (lt_tick hroom).le (s.row?_tick nowMs)
  · cases fact with
    | there target => exact fun hnamed => hup.lasting target hnamed (hold hnamed)
    | stamped clock =>
      intro hspent
      have hroom := unspent_of_tick hspent
      obtain ⟨hafter, hupto⟩ := hold hroom
      exact ⟨hafter, hupto.trans (lt_tick hroom).le⟩
  · intro fact hmem
    obtain rfl := List.mem_singleton.mp hmem
    intro hspent
    have hroom := unspent_of_tick hspent
    rw [← clock_tick]
    exact ⟨(h.since hroom).clock.trans_lt (lt_tick hroom), le_rfl⟩

end facts

end Store

end UwuSsh

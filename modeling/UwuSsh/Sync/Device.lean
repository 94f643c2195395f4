import UwuSsh.Sync.Engine
import UwuSsh.Sync.MemoryFacts

/-!
A device as a machine. Between two of its store calls a device is idle, or it has
read a batch and sent it, or has an answer or a page in hand; local writes come at any
moment, and any pass can be cut short. The answers are whatever comes in: a server
that gives them is put beside the device later.
-/
namespace UwuSsh

namespace Store

/-- The batches a device sends: its records, the kinds that travel apart, or its manifest. -/
inductive Offers (s : Store) : List Envelope → Prop
  | records {sent : List Envelope} {leftOut : ℕ} :
      s.pendingEnvelopes maxBatch = .ok (sent, leftOut) → Offers s sent
  | apart {sent : List Envelope} {leftOut : ℕ} :
      s.pendingApartEnvelopes maxBatch = .ok (sent, leftOut) → Offers s sent
  | manifest {env : Envelope} : s.pendingManifest = .ok (some env) → Offers s [env]

theorem Offers.batch {s : Store} {sent : List Envelope} (h : s.Offers sent) : s.Batch sent := by
  cases h with
  | records h => exact pendingEnvelopes_spec h
  | apart h => exact pendingApartEnvelopes_spec h
  | manifest h => exact pendingManifest_spec h

/-- A local write of one record: a dirty row in its place, still based on the server
version the record was based on. -/
inductive Edit (s : Store) (kind : EntityKind) (id : Uuid) : Version → Store → Prop
  | mk (clock : Hlc) (row : Row (Cols kind)) : row.dirty = true →
      row.serverSeq = (s.cell kind id).base →
      Edit s kind id row.version ((s.setClock clock).putRow kind id row)

end Store

/-- Where a device stands between two of its store calls. -/
inductive Flight
  | idle
  | pushing (sent : List Envelope)
  | answered (sent : List Envelope) (response : PushResponse)
  | merging (conflicts : List Envelope)
  | paged (page : PullResponse)
  | applied (page : PullResponse)
  /-- A pull has just come to its end. -/
  | pulled

structure Device where
  store : Store
  flight : Flight

inductive Event
  | wrote (kind : EntityKind) (id : Uuid) (version : Version)
  | offered (sent : List Envelope)
  | heard (sent : List Envelope) (response : PushResponse)
  | lost (sent : List Envelope)
  | marked (pushed : List Pushed)
  | handed (since : ℕ) (page : PullResponse)
  | applied (envelopes : List Envelope)
  | moved (cursor : ℕ)
  | stopped

/-- Which local writes are made: the store before, the record and version, the store after. -/
abbrev WriteRule := Store → EntityKind → Uuid → Version → Store → Prop

namespace Device

inductive Step (rule : WriteRule) : Device → Event → Device → Prop
  | write (d : Device) {kind : EntityKind} {id : Uuid} {v : Version} {t : Store} :
      d.store.Edit kind id v t → rule d.store kind id v t →
      Step rule d (.wrote kind id v) { d with store := t }
  | offer (d : Device) {sent : List Envelope} : d.store.Offers sent →
      Step rule d (.offered sent) { d with flight := .pushing sent }
  | hear (d : Device) {sent : List Envelope} (response : PushResponse) :
      d.flight = .pushing sent →
      Step rule d (.heard sent response) { d with flight := .answered sent response }
  /-- The server may have got the batch or a part of it; the device never learns. -/
  | lose (d : Device) {sent : List Envelope} : d.flight = .pushing sent →
      Step rule d (.lost sent) { d with flight := .idle }
  | mark (d : Device) {sent : List Envelope} {response : PushResponse} :
      d.flight = .answered sent response →
      Step rule d (.marked (acceptedOf sent response))
        { store := (d.store.markPushed (acceptedOf sent response)).1
          flight := .merging response.conflicts }
  | merge (d : Device) {conflicts : List Envelope} (nowMs : UInt64) {t : Store}
      {report : ApplyReport} : d.flight = .merging conflicts →
      d.store.applyEnvelopes conflicts nowMs = .ok (t, report) →
      Step rule d (.applied conflicts) { store := t, flight := .idle }
  | fetch (d : Device) (page : PullResponse) :
      Step rule d (.handed d.store.cursor page) { d with flight := .paged page }
  | apply (d : Device) {page : PullResponse} (nowMs : UInt64) {t : Store} {report : ApplyReport} :
      d.flight = .paged page → d.store.applyEnvelopes page.envelopes nowMs = .ok (t, report) →
      Step rule d (.applied page.envelopes) { store := t, flight := .applied page }
  | advance (d : Device) {page : PullResponse} : d.flight = .applied page →
      d.store.cursor < page.cursor →
      Step rule d (.moved page.cursor)
        { store := { d.store with cursor := page.cursor }
          flight := if page.hasMore then .idle else .pulled }
  /-- A page that leads nowhere ends the pull. -/
  | settle (d : Device) {page : PullResponse} : d.flight = .applied page →
      page.cursor ≤ d.store.cursor → Step rule d .stopped { d with flight := .pulled }
  | cut (d : Device) : Step rule d .stopped { d with flight := .idle }
  | rewind (d : Device) :
      Step rule d (.moved 0) { store := { d.store with cursor := 0 }, flight := .idle }

end Device

namespace Store

section edit

variable {s t : Store} {kind : EntityKind} {id : Uuid} {v : Version}

theorem Edit.frame (h : s.Edit kind id v t) : Frame s t := by
  obtain ⟨clock, row, -, -⟩ := h
  exact (s.frame_setClock clock).trans (frame_putRow _ _ _ _)

theorem Edit.superseded (h : s.Edit kind id v t) : t.superseded = s.superseded := by
  obtain ⟨clock, row, -, -⟩ := h
  rfl

theorem Edit.row?_self (h : s.Edit kind id v t) :
    ∃ row, t.row? kind id = some row ∧ row.version = v ∧ row.dirty = true ∧
      row.serverSeq = (s.cell kind id).base := by
  obtain ⟨clock, row, hdirty, hbase⟩ := h
  exact ⟨row, row?_putRow_self _ _, rfl, hdirty, hbase⟩

theorem Edit.row?_of_ne (h : s.Edit kind id v t) {kind' : EntityKind} {id' : Uuid}
    (hne : ¬ (kind' = kind ∧ id' = id)) : t.row? kind' id' = s.row? kind' id' := by
  obtain ⟨clock, row, -, -⟩ := h
  exact row?_putRow_of_pair_ne _ _ _ row hne

theorem Edit.cell_self (h : s.Edit kind id v t) :
    t.cell kind id = { s.cell kind id with version := v, dirty := true } := by
  obtain ⟨row, hrow, hversion, hdirty, hbase⟩ := h.row?_self
  have hmark : t.mark kind id = s.mark kind id := mark_congr (by rw [h.superseded]) kind
  rw [cell_of_some hrow, Row.cell, hversion, hdirty, hbase, hmark, ← mark_cell]

theorem Edit.cell_of_ne (h : s.Edit kind id v t) {kind' : EntityKind} {id' : Uuid}
    (hne : ¬ (kind' = kind ∧ id' = id)) : t.cell kind' id' = s.cell kind' id' := by
  have hmark : t.mark kind' id' = s.mark kind' id' := mark_congr (by rw [h.superseded]) kind'
  simp [cell, h.row?_of_ne hne, hmark]

end edit

end Store

/-- Nothing that was superseded is forgotten. -/
theorem Device.Step.superseded {rule : WriteRule} {d d' : Device} {e : Event}
    (hstep : Device.Step rule d e d') {id : Uuid} (h : d.store.Superseded id) :
    d'.store.Superseded id := by
  cases hstep with
  | write hedit _ =>
    unfold Store.Superseded
    rw [hedit.superseded]
    exact h
  | @mark sent response _ =>
    unfold Store.Superseded
    rw [(d.store.markPushed_spec (acceptedOf sent response)).2.1]
    exact h
  | merge nowMs _ happly => exact (Store.applyEnvelopes_touched happly).2 id h
  | apply nowMs _ happly => exact (Store.applyEnvelopes_touched happly).2 id h
  | _ => exact h

namespace Store

/-- A batch is still about the rows it was read from, or about what they were before
a later write. -/
def Current (s : Store) (env : Envelope) : Prop :=
  (s.cell env.kind env.id).version = env.version ∨
    env.updatedAt < (s.cell env.kind env.id).version.updatedAt

theorem Batch.current {s : Store} {sent : List Envelope} (h : s.Batch sent) {env : Envelope}
    (henv : env ∈ sent) : s.Current env := by
  obtain ⟨vault, row, -, hrow, -, hof⟩ := h.rows env henv
  left
  rw [cell_of_some hrow, hof.version]
  rfl

end Store

theorem mem_acceptedOf {sent : List Envelope} {response : PushResponse} {p : Pushed}
    (h : p ∈ acceptedOf sent response) : ∃ env ∈ sent, ∃ a ∈ response.accepted,
      sent.find? (fun env => env.id = a.id) = some env ∧ p.id = a.id ∧ env.id = a.id ∧
        p.kind = env.kind ∧ p.updatedAt = env.updatedAt ∧ p.seq = a.seq := by
  obtain ⟨a, ha, hp⟩ := List.mem_filterMap.mp h
  obtain ⟨env, hfind, rfl⟩ := Option.map_eq_some_iff.mp hp
  have hid := List.find?_some hfind
  exact ⟨env, List.mem_of_find?_eq_some hfind, a, ha, hfind, rfl, by simpa using hid, rfl, rfl, rfl⟩

end UwuSsh

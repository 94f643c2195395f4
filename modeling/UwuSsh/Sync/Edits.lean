import UwuSsh.Sync.Moves

/-!
A local edit around a push in flight. A device's own clock stamps what it writes, so a
batch under way is never newer than the rows it was read from. What waits to be pushed
therefore goes on waiting, through every outcome of the push and every crash, until
the server has taken that very version, a version as new came down, or another host
key took its slot.
-/
namespace UwuSsh

/-- A write stamped by the device's clock: right after a tick, or once more under the
same tick for another row of the transaction. -/
def Store.Ticks : WriteRule := fun s kind id v t =>
  t.clock = v.updatedAt ∧
    ((∃ nowMs, v.updatedAt = s.clock.tick nowMs) ∨
      (v.updatedAt = s.clock ∧ (s.cell kind id).version.updatedAt ≠ v.updatedAt))

/-- A row that waits to be pushed, in this version. -/
def Store.Waits (s : Store) (kind : EntityKind) (id : Uuid) (v : Version) : Prop :=
  (s.cell kind id).dirty = true ∧ (s.cell kind id).version = v

namespace Event

/-- The server took this version of the record. -/
def Took (kind : EntityKind) (id : Uuid) (v : Version) : Event → Prop
  | .heard sent response => ∃ env ∈ sent, env.kind = kind ∧ env.id = id ∧ env.version = v ∧
      ∃ a ∈ response.accepted, a.id = id
  | _ => False

/-- A version of the record was applied that the device's own one does not win against. -/
def Brought (kind : EntityKind) (id : Uuid) (v : Version) : Event → Prop
  | .applied envelopes => ∃ env ∈ envelopes, env.kind = kind ∧ env.id = id ∧
      resolve v env.version ≠ .keepLocal
  | _ => False

/-- A host key of another id was applied that is not older. -/
def TookSlot (kind : EntityKind) (id : Uuid) (v : Version) : Event → Prop
  | .applied envelopes => ∃ env ∈ envelopes, Store.TakesSlot env kind id v.updatedAt
  | _ => False

end Event

namespace Device

/-- A step of a device that stamps with its clock, which does not run out. -/
def ClockedStep (d : Device) (e : Event) (d' : Device) : Prop :=
  Step Store.Ticks d e d' ∧ d'.store.clockWallMs.toNat + 1 < 2 ^ 64

/-- What waits was stamped by this device, and what was sent is not newer. -/
structure Tidy (d : Device) : Prop where
  unspent : d.store.clockWallMs.toNat + 1 < 2 ^ 64
  stamped : ∀ kind id, (d.store.cell kind id).dirty = true →
    (d.store.cell kind id).version.updatedAt ≤ d.store.clock
  sent : ∀ env ∈ d.flight.sent,
    (d.store.cell env.kind env.id).dirty = true ∧ d.store.Current env

theorem tidy_empty (device : UInt32) (vaultId : Uuid) (vault : Option UnlockedVault) :
    Tidy { store := Store.empty device vaultId vault, flight := .idle } where
  unspent := by
    show (0 : UInt64).toNat + 1 < 2 ^ 64
    decide
  stamped := by
    intro kind id h
    rw [Store.cell_of_none (by simp [Store.empty, Store.row?])] at h
    cases h
  sent := by simp [Flight.sent]

section edit

variable {d : Device} {kind : EntityKind} {id : Uuid} {v : Version} {t : Store}

theorem Tidy.lt_tick (h : Tidy d) (nowMs : UInt64) : d.store.clock < d.store.clock.tick nowMs := by
  refine Hlc.lt_of_stamp_lt (Hlc.stamp_lt_tick nowMs fun hend => ?_)
  have hwall : d.store.clockWallMs.toNat = 2 ^ 64 - 1 := hend.1
  have hroom := h.unspent
  omega

theorem Tidy.clock_le (h : Tidy d) (hticks : Store.Ticks d.store kind id v t) :
    d.store.clock ≤ t.clock := by
  obtain ⟨hclock, ⟨nowMs, htick⟩ | ⟨hsame, -⟩⟩ := hticks
  · rw [hclock, htick]
    exact (h.lt_tick nowMs).le
  · rw [hclock, hsame]

/-- An edit of a row that waits is stamped later than what waits. -/
theorem Tidy.older_row (h : Tidy d) (hticks : Store.Ticks d.store kind id v t)
    (hdirty : (d.store.cell kind id).dirty = true) :
    (d.store.cell kind id).version.updatedAt < v.updatedAt := by
  have hle := h.stamped kind id hdirty
  obtain ⟨hclock, ⟨nowMs, htick⟩ | ⟨hsame, hne⟩⟩ := hticks
  · rw [htick]
    exact hle.trans_lt (h.lt_tick nowMs)
  · rw [hsame] at hne ⊢
    exact lt_of_le_of_ne hle hne

/-- What is on its way up of the record is older than an edit made now. -/
theorem Tidy.older_sent (h : Tidy d) (hticks : Store.Ticks d.store kind id v t) {env : Envelope}
    (henv : env ∈ d.flight.sent) (hkind : env.kind = kind) (hid : env.id = id) :
    env.updatedAt < v.updatedAt := by
  obtain ⟨hdirty, hcurrent⟩ := h.sent env henv
  subst hkind hid
  have hlt := h.older_row hticks hdirty
  rcases hcurrent with hsame | holder
  · rw [hsame] at hlt
    exact hlt
  · exact holder.trans hlt

end edit

/-- One step keeps a device tidy. -/
theorem Tidy.step {d d' : Device} {e : Event} (h : Tidy d) (hstep : ClockedStep d e d') :
    Tidy d' := by
  obtain ⟨hstep, hunspent⟩ := hstep
  have hnone : ∀ {flight : Flight}, flight.sent = [] → ∀ s : Store, ∀ env ∈ flight.sent,
      (s.cell env.kind env.id).dirty = true ∧ s.Current env := by
    intro flight hflight s env henv
    rw [hflight] at henv
    cases henv
  have happlied : ∀ {envelopes nowMs t report}, d.store.applyEnvelopes envelopes nowMs =
      .ok (t, report) → t.clockWallMs.toNat + 1 < 2 ^ 64 → ∀ kind id,
        (t.cell kind id).dirty = true → (t.cell kind id).version.updatedAt ≤ t.clock := by
    intro envelopes nowMs t report happly hend kind id hdirty
    obtain ⟨hwaited, hversion⟩ := Store.applyEnvelopes_dirty happly hdirty
    rw [hversion]
    exact (h.stamped kind id hwaited).trans (Store.applyEnvelopes_clock happly hend)
  cases hstep with
  | @write kind id v t hedit hticks =>
    refine ⟨hunspent, ?_, ?_⟩
    · intro kind' id' hdirty
      by_cases heq : kind' = kind ∧ id' = id
      · obtain ⟨rfl, rfl⟩ := heq
        rw [hedit.cell_self]
        exact hticks.1.ge
      · rw [hedit.cell_of_ne heq] at hdirty ⊢
        exact (h.stamped kind' id' hdirty).trans (h.clock_le hticks)
    · intro env henv
      unfold Store.Current
      by_cases heq : env.kind = kind ∧ env.id = id
      · have holder := h.older_sent hticks henv heq.1 heq.2
        rw [heq.1, heq.2, hedit.cell_self]
        exact ⟨rfl, Or.inr holder⟩
      · rw [hedit.cell_of_ne heq]
        exact h.sent env henv
  | @offer sent hoffers =>
    refine ⟨hunspent, h.stamped, ?_⟩
    intro env henv
    obtain ⟨vault, row, -, hrow, hdirty, -⟩ := hoffers.batch.rows env henv
    refine ⟨?_, hoffers.batch.current henv⟩
    rw [Store.cell_of_some hrow]
    exact hdirty
  | @hear sent response hflight =>
    have hsent := h.sent
    rw [hflight] at hsent
    exact ⟨hunspent, h.stamped, hsent⟩
  | lose => exact ⟨hunspent, h.stamped, hnone rfl _⟩
  | @mark sent response _ =>
    obtain ⟨-, hsuper, hclock, hmarked⟩ := d.store.markPushed_spec (acceptedOf sent response)
    refine ⟨hunspent, ?_, hnone rfl _⟩
    intro kind id hdirty
    rcases (hmarked kind id).cell hsuper with heq | ⟨p, -, -, -, -, heq⟩
    · simp only [hclock]
      rw [heq] at hdirty ⊢
      exact h.stamped kind id hdirty
    · rw [heq] at hdirty
      cases hdirty
  | merge nowMs _ happly => exact ⟨hunspent, happlied happly hunspent, hnone rfl _⟩
  | fetch page => exact ⟨hunspent, h.stamped, hnone rfl _⟩
  | apply nowMs _ happly => exact ⟨hunspent, happlied happly hunspent, hnone rfl _⟩
  | @advance page _ _ =>
    have hflight : (if page.hasMore = true then Flight.idle else Flight.pulled).sent = [] := by
      split <;> rfl
    exact ⟨hunspent, h.stamped, hnone hflight _⟩
  | settle => exact ⟨hunspent, h.stamped, hnone rfl _⟩
  | cut => exact ⟨hunspent, h.stamped, hnone rfl _⟩
  | rewind => exact ⟨hunspent, h.stamped, hnone rfl _⟩

/-- How an edit stands after some events: it waits, or one of them says why not. -/
structure Watched (kind : EntityKind) (id : Uuid) (v : Version) (after : List Event)
    (d : Device) : Prop where
  tidy : Tidy d
  heard : ∀ sent response, d.flight = .answered sent response →
    (∃ env ∈ sent, env.kind = kind ∧ env.id = id ∧ env.version = v) → .heard sent response ∈ after
  fate : d.store.Waits kind id v ∨ (∃ e ∈ after, e.Took kind id v) ∨
    (∃ e ∈ after, e.Brought kind id v) ∨
    ((∃ e ∈ after, e.TookSlot kind id v) ∧ d.store.Superseded id)

section watched

variable {kind : EntityKind} {id : Uuid} {v : Version} {after : List Event} {d d' : Device}
  {e : Event}

theorem Watched.fate_cons (h : Watched kind id v after d) (hstep : Step Store.Ticks d e d')
    (hnew : d.store.Waits kind id v → d'.store.Waits kind id v ∨
      (∃ e' ∈ e :: after, e'.Took kind id v) ∨ (∃ e' ∈ e :: after, e'.Brought kind id v) ∨
      ((∃ e' ∈ e :: after, e'.TookSlot kind id v) ∧ d'.store.Superseded id)) :
    d'.store.Waits kind id v ∨
      (∃ e' ∈ e :: after, e'.Took kind id v) ∨ (∃ e' ∈ e :: after, e'.Brought kind id v) ∨
      ((∃ e' ∈ e :: after, e'.TookSlot kind id v) ∧ d'.store.Superseded id) := by
  rcases h.fate with hwaits | ⟨e', he, htook⟩ | ⟨e', he, hbrought⟩ | ⟨⟨e', he, hslot⟩, hsuper⟩
  · exact hnew hwaits
  · exact Or.inr (Or.inl ⟨e', List.mem_cons_of_mem _ he, htook⟩)
  · exact Or.inr (Or.inr (Or.inl ⟨e', List.mem_cons_of_mem _ he, hbrought⟩))
  · exact Or.inr (Or.inr (Or.inr ⟨⟨e', List.mem_cons_of_mem _ he, hslot⟩, hstep.superseded hsuper⟩))

/-- A batch that was applied leaves the row waiting, or is the reason it no longer does. -/
theorem waits_of_applied {envelopes : List Envelope} {nowMs : UInt64} {t : Store}
    {report : ApplyReport} (happly : d.store.applyEnvelopes envelopes nowMs = .ok (t, report))
    (hwaits : d.store.Waits kind id v) :
    t.Waits kind id v ∨ (∃ e ∈ .applied envelopes :: after, e.Took kind id v) ∨
      (∃ e ∈ .applied envelopes :: after, e.Brought kind id v) ∨
      ((∃ e ∈ .applied envelopes :: after, e.TookSlot kind id v) ∧ t.Superseded id) := by
  obtain ⟨hdirty, rfl⟩ := hwaits
  rcases Store.applyEnvelopes_waiting happly hdirty with
    ⟨hstill, hversion⟩ | ⟨env, henv, hkind, hid, hle⟩ | ⟨hsuper, env, henv, hslot⟩
  · exact Or.inl ⟨hstill, hversion⟩
  · refine Or.inr (Or.inr (Or.inl ⟨_, List.mem_cons_self .., env, henv, hkind, hid, ?_⟩))
    rw [Ne, resolve_eq_keepLocal_iff]
    exact not_lt.mpr hle
  · exact Or.inr (Or.inr (Or.inr ⟨⟨_, List.mem_cons_self .., env, henv, hslot⟩, hsuper⟩))

/-- One step that does not write the record again. -/
theorem Watched.step (h : Watched kind id v after d) (hstep : ClockedStep d e d')
    (hother : ∀ u, e ≠ .wrote kind id u) : Watched kind id v (e :: after) d' := by
  refine ⟨h.tidy.step hstep, ?_, h.fate_cons hstep.1 ?_⟩
  · obtain ⟨hstep, -⟩ := hstep
    intro sent response hflight hsent
    cases hstep with
    | write => exact List.mem_cons_of_mem _ (h.heard sent response hflight hsent)
    | hear response' _ =>
      cases hflight
      exact List.mem_cons_self ..
    | @advance page _ _ =>
      simp only at hflight
      split at hflight <;> cases hflight
    | _ => cases hflight
  · obtain ⟨hstep, -⟩ := hstep
    intro hwaits
    cases hstep with
    | @write kind' id' u t hedit _ =>
      left
      have hne : ¬ (kind = kind' ∧ id = id') := by
        rintro ⟨rfl, rfl⟩
        exact hother u rfl
      rw [Store.Waits, hedit.cell_of_ne hne]
      exact hwaits
    | @mark sent response hflight =>
      obtain ⟨-, hsuper, -, hmarked⟩ := d.store.markPushed_spec (acceptedOf sent response)
      rcases (hmarked kind id).cell hsuper with heq | ⟨p, hp, hkind, hid, hclock, -⟩
      · left
        rw [Store.Waits, heq]
        exact hwaits
      · -- The flag only falls for the version that was sent and taken.
        right; left
        obtain ⟨env, henv, a, ha, -, hpid, heid, hpkind, hpclock, -⟩ := mem_acceptedOf hp
        have hekind : env.kind = kind := hpkind.symm.trans hkind
        have heid' : env.id = id := heid.trans (hpid.symm.trans hid)
        have hsent := h.tidy.sent env (by rw [hflight]; exact henv)
        have hversion : env.version = v := by
          rw [hekind, heid', Store.Current, hekind, heid', hclock, hpclock] at hsent
          rcases hsent.2 with hsame | hlt
          · rw [← hsame, hwaits.2]
          · exact absurd hlt (lt_irrefl _)
        refine ⟨_, List.mem_cons_of_mem _ (h.heard sent response hflight ?_), env, henv, hekind,
          heid', hversion, a, ha, hpid.symm.trans hid⟩
        exact ⟨env, henv, hekind, heid', hversion⟩
    | merge nowMs _ happly => exact waits_of_applied happly hwaits
    | apply nowMs _ happly => exact waits_of_applied happly hwaits
    | _ => exact Or.inl hwaits

end watched

section examples

open World (exampleVault exampleKey)

/-- A page with another device's key for a host. -/
def rivalPage : PullResponse where
  envelopes := (sealRow exampleVault .knownHost (2, (Store.empty 2 7 none).rowFor .knownHost 2
    ⟨11, 0, 2⟩ false (exampleKey "b"))).toList.map fun env => { env with seq := some 1 }
  cursor := 1
  hasMore := false

def trustingStore : Store :=
  let s := Store.empty 1 7 (some exampleVault)
  (s.setClock ⟨10, 0, 1⟩).putRow .knownHost 1
    (s.rowFor .knownHost 1 ⟨10, 0, 1⟩ false (exampleKey "a"))

/-- A key is trusted and, before it goes up, the newer one of another device comes down. -/
theorem rival_trace :
    ∃ d : Device, Run.Trace ClockedStep
        { store := Store.empty 1 7 (some exampleVault), flight := .idle }
        ([.applied rivalPage.envelopes, .handed 0 rivalPage] ++
          [.wrote .knownHost 1 ⟨⟨10, 0, 1⟩, false⟩]) d ∧
      d.store.row? .knownHost 1 = none := by
  have hresult : (trustingStore.applyEnvelopes rivalPage.envelopes 12).toOption.any (fun r =>
      r.1.row? .knownHost 1 = none ∧ r.1.clockWallMs.toNat + 1 < 2 ^ 64) = true := by
    decide +kernel
  cases happly : trustingStore.applyEnvelopes rivalPage.envelopes 12 with
  | error e =>
    rw [happly] at hresult
    cases hresult
  | ok result =>
    obtain ⟨t, report⟩ := result
    rw [happly] at hresult
    obtain ⟨hgone, hroom⟩ := of_decide_eq_true hresult
    have htrusting : trustingStore.clockWallMs.toNat + 1 < 2 ^ 64 := by decide
    have hedit : (Store.empty 1 7 (some exampleVault)).Edit .knownHost 1
        ⟨⟨10, 0, 1⟩, false⟩ trustingStore :=
      .mk ⟨10, 0, 1⟩ ((Store.empty 1 7 (some exampleVault)).rowFor .knownHost 1 ⟨10, 0, 1⟩ false
        (exampleKey "a")) rfl rfl
    have hwrite : ClockedStep { store := Store.empty 1 7 (some exampleVault), flight := .idle }
        (.wrote .knownHost 1 ⟨⟨10, 0, 1⟩, false⟩) { store := trustingStore, flight := .idle } :=
      ⟨.write _ hedit ⟨rfl, Or.inl ⟨10, rfl⟩⟩, htrusting⟩
    have hfetch : ClockedStep { store := trustingStore, flight := .idle } (.handed 0 rivalPage)
        { store := trustingStore, flight := .paged rivalPage } :=
      ⟨.fetch _ rivalPage, htrusting⟩
    have happlied : ClockedStep { store := trustingStore, flight := .paged rivalPage }
        (.applied rivalPage.envelopes) { store := t, flight := .applied rivalPage } :=
      ⟨.apply _ 12 rfl happly, hroom⟩
    exact ⟨_, ((Run.Trace.start.step hwrite).step hfetch).step happlied, hgone⟩

/-- The key is trusted once more, with a push of the first one on its way. -/
def trustingAgain : Store :=
  (trustingStore.setClock ⟨11, 0, 1⟩).putRow .knownHost 1
    (trustingStore.rowFor .knownHost 1 ⟨11, 0, 1⟩ false (exampleKey "b"))

/-- The server takes what it was sent. -/
def firstTaken : PushResponse where
  accepted := [{ id := 1, seq := 5 }]
  conflicts := []
  cursor := 5

/-- A key is trusted and sent, and trusted once more before the answer comes and the batch is marked. -/
theorem mid_push_trace :
    ∃ (d : Device) (sent : List Envelope), d.flight = .merging [] ∧ sent ≠ [] ∧
      (∀ env ∈ sent, env.version = ⟨⟨10, 0, 1⟩, false⟩) ∧
      Run.Trace ClockedStep { store := Store.empty 1 7 (some exampleVault), flight := .idle }
        ([.marked (acceptedOf sent firstTaken), .heard sent firstTaken] ++
          .wrote .knownHost 1 ⟨⟨11, 0, 1⟩, false⟩ ::
          [.offered sent, .wrote .knownHost 1 ⟨⟨10, 0, 1⟩, false⟩]) d := by
  have hresult : (trustingStore.pendingEnvelopes maxBatch).toOption.any (fun r =>
      r.1 ≠ [] ∧ ∀ env ∈ r.1, env.version = ⟨⟨10, 0, 1⟩, false⟩) = true := by
    decide +kernel
  cases hpending : trustingStore.pendingEnvelopes maxBatch with
  | error e =>
    rw [hpending] at hresult
    cases hresult
  | ok result =>
    obtain ⟨sent, leftOut⟩ := result
    rw [hpending] at hresult
    obtain ⟨hsent, hversions⟩ := of_decide_eq_true hresult
    have hroom : trustingStore.clockWallMs.toNat + 1 < 2 ^ 64 := by decide
    have hroom' : trustingAgain.clockWallMs.toNat + 1 < 2 ^ 64 := by decide
    have hedit : (Store.empty 1 7 (some exampleVault)).Edit .knownHost 1 ⟨⟨10, 0, 1⟩, false⟩ trustingStore :=
      .mk ⟨10, 0, 1⟩ ((Store.empty 1 7 (some exampleVault)).rowFor .knownHost 1 ⟨10, 0, 1⟩ false
        (exampleKey "a")) rfl rfl
    have hagain : trustingStore.Edit .knownHost 1 ⟨⟨11, 0, 1⟩, false⟩ trustingAgain :=
      .mk ⟨11, 0, 1⟩ (trustingStore.rowFor .knownHost 1 ⟨11, 0, 1⟩ false (exampleKey "b")) rfl rfl
    have hfirst : ClockedStep { store := Store.empty 1 7 (some exampleVault), flight := .idle }
        (.wrote .knownHost 1 ⟨⟨10, 0, 1⟩, false⟩) { store := trustingStore, flight := .idle } :=
      ⟨.write _ hedit ⟨rfl, .inl ⟨10, rfl⟩⟩, hroom⟩
    have hoffer : ClockedStep { store := trustingStore, flight := .idle } (.offered sent)
        { store := trustingStore, flight := .pushing sent } :=
      ⟨.offer _ (.records hpending), hroom⟩
    have hsecond : ClockedStep { store := trustingStore, flight := .pushing sent }
        (.wrote .knownHost 1 ⟨⟨11, 0, 1⟩, false⟩) { store := trustingAgain, flight := .pushing sent } :=
      ⟨.write _ hagain ⟨rfl, .inl ⟨11, rfl⟩⟩, hroom'⟩
    have hheard : ClockedStep { store := trustingAgain, flight := .pushing sent } (.heard sent firstTaken)
        { store := trustingAgain, flight := .answered sent firstTaken } :=
      ⟨.hear _ _ rfl, hroom'⟩
    have hclock : (trustingAgain.markPushed (acceptedOf sent firstTaken)).1.clockWallMs =
        trustingAgain.clockWallMs :=
      congrArg Hlc.wallMs (trustingAgain.markPushed_spec (acceptedOf sent firstTaken)).2.2.1
    have hmarked : ClockedStep { store := trustingAgain, flight := .answered sent firstTaken }
        (.marked (acceptedOf sent firstTaken))
        { store := (trustingAgain.markPushed (acceptedOf sent firstTaken)).1, flight := .merging [] } :=
      ⟨.mark _ rfl, (congrArg (·.toNat + 1 < 2 ^ 64) hclock).mpr hroom'⟩
    exact ⟨_, sent, rfl, hsent, hversions,
      ((((Run.Trace.start.step hfirst).step hoffer).step hsecond).step hheard).step hmarked⟩

end examples

end Device

end UwuSsh

import UwuSsh.Store.Contents
import UwuSsh.Sync.Convergence
import UwuSsh.Sync.Edits

/-!
Two devices that have the same version of a record show the same. A clock never stamps two versions of
one record alike, and what a version says is what it said where it was written, in rows, on their way
and at the server.
-/
namespace UwuSsh

open Register

/-- Everything on its way to or from a device. -/
def Flight.carried (flight : Flight) : List Envelope := flight.sent ++ flight.incoming

namespace MemoryServer

/-- The server holds a live record of this clock, which says this. -/
def Says (server : MemoryServer) (vault : UnlockedVault) (kind : EntityKind) (id : Uuid) (clock : Hlc)
    (said : Option Plain) : Prop :=
  ∃ x env, server.records.lookup x = some env ∧ env.Says vault kind id clock said

/-- What the server holds of a record, unless it has none or a deleted one. -/
def liveContent (server : MemoryServer) (vault : UnlockedVault) (id : Uuid) : Option (Option Plain) :=
  (server.records.lookup id).bind fun env => if env.deleted = true then none else some (env.content vault)

variable {server server' : MemoryServer} {vault : UnlockedVault} {kind : EntityKind} {id : Uuid} {clock : Hlc}
  {said : Option Plain} {sent conflicts : List Envelope} {accepted : List Accepted}

theorem said_take {env : Envelope} (h : (server.take env).Says vault kind id clock said) :
    server.Says vault kind id clock said ∨ env.Says vault kind id clock said := by
  obtain ⟨x, held, hlookup, hshows⟩ := h
  by_cases hx : x = env.id
  · subst hx
    rw [lookup_take_self] at hlookup
    cases hlookup
    exact .inr hshows
  · rw [lookup_take_of_ne _ hx] at hlookup
    exact .inl ⟨x, held, hlookup, hshows⟩

/-- A server says what it was told, and answers with what it says. -/
theorem Answered.origin (h : Answered server sent server' accepted conflicts) :
    (server'.Says vault kind id clock said ∨ ∃ env ∈ conflicts, env.Says vault kind id clock said) →
      server.Says vault kind id clock said ∨ ∃ env ∈ sent, env.Says vault kind id clock said := by
  induction h with
  | nil server =>
    rintro (hshows | ⟨env, henv, -⟩)
    · exact .inl hshows
    · cases henv
  | @accept server server' env rest accepted conflicts _ _ ih =>
    intro hshows
    rcases ih hshows with htaken | ⟨later, hlater, hsays⟩
    · rcases said_take htaken with hold | hnew
      · exact .inl hold
      · exact .inr ⟨env, List.mem_cons_self, hnew⟩
    · exact .inr ⟨later, List.mem_cons_of_mem _ hlater, hsays⟩
  | @conflict server server' env current rest accepted conflicts hcurrent _ _ ih =>
    have hrest : server'.Says vault kind id clock said ∨ (∃ e ∈ conflicts, e.Says vault kind id clock said) →
        server.Says vault kind id clock said ∨ ∃ e ∈ env :: rest, e.Says vault kind id clock said := by
      intro hshows
      rcases ih hshows with hold | ⟨later, hlater, hsays⟩
      · exact .inl hold
      · exact .inr ⟨later, List.mem_cons_of_mem _ hlater, hsays⟩
    rintro (hshows | ⟨held, hheld, hsays⟩)
    · exact hrest (.inl hshows)
    · rcases List.mem_cons.mp hheld with rfl | hheld
      · exact .inl ⟨_, _, hcurrent, hsays⟩
      · exact hrest (.inr ⟨held, hheld, hsays⟩)

end MemoryServer

/-- What is sent of a record says what its row says. -/
theorem Store.Batch.origin {s : Store} {vault : UnlockedVault} {sent : List Envelope} (h : s.Batch sent)
    (hvault : s.vault = some vault) {env : Envelope} (henv : env ∈ sent) {kind : EntityKind} {id : Uuid} {clock : Hlc}
    {said : Option Plain} (hshows : env.Says vault kind id clock said) : s.Says vault kind id clock said := by
  obtain ⟨rfl, rfl, hlive, rfl, rfl⟩ := hshows
  obtain ⟨vault', row, hvault', hrow, -, hof⟩ := h.rows env henv
  obtain rfl : vault = vault' := Option.some.inj (hvault.symm.trans hvault')
  have hdeleted : row.deleted = false := (congrArg Version.deleted hof.version).symm.trans hlive
  obtain ⟨plain, hplain, hopen⟩ := hof.opened
  rw [plainOfRow, hdeleted, if_neg Bool.false_ne_true] at hplain
  refine ⟨row, hrow, hdeleted, (congrArg Version.updatedAt hof.version).symm, ?_⟩
  rw [contentOf, hplain, Envelope.content, hopen]

namespace World

variable {ι : Type} [DecidableEq ι] {vault : UnlockedVault} {kind : EntityKind} {id : Uuid} {clock : Hlc}
  {said said' : Option Plain}

/-- Somewhere a live version of a record has this clock and says this: in a row, on its way, or at the
server. -/
def Says (w : World ι) (vault : UnlockedVault) (kind : EntityKind) (id : Uuid) (clock : Hlc) (said : Option Plain) :
    Prop :=
  (∃ i, (w.devices i).store.Says vault kind id clock said) ∨
    (∃ i, ∃ env ∈ (w.devices i).flight.carried, env.Says vault kind id clock said) ∨
      w.server.Says vault kind id clock said

theorem Says.of_after {w : World ι} {i : ι} {e : Event} {d : Device} {server : MemoryServer}
    (h : (w.after i e d server).Says vault kind id clock said) :
    w.Says vault kind id clock said ∨ d.store.Says vault kind id clock said ∨
      (∃ env ∈ d.flight.carried, env.Says vault kind id clock said) ∨ server.Says vault kind id clock said := by
  rcases h with ⟨j, hrow⟩ | ⟨j, env, henv, hshows⟩ | hserver
  · by_cases hj : j = i
    · subst hj
      rw [after_devices_self] at hrow
      exact .inr (.inl hrow)
    · rw [after_devices_of_ne _ hj] at hrow
      exact .inl (.inl ⟨j, hrow⟩)
  · by_cases hj : j = i
    · subst hj
      rw [after_devices_self] at henv
      exact .inr (.inr (.inl ⟨env, henv, hshows⟩))
    · rw [after_devices_of_ne _ hj] at henv
      exact .inl (.inr (.inl ⟨j, env, henv, hshows⟩))
  · exact .inr (.inr (.inr hserver))

/-- Nothing is said after a step that was not said before, but what was just written. -/
theorem Says.before {rule : WriteRule} {w : World ι} {i : ι} {e : Event} {d : Device} {server : MemoryServer}
    (hbase : Base vault w) (hdev : Device.Step rule (w.devices i) e d) (hans : w.server.Answers e server)
    (hclock : clock ≠ Hlc.zero) (h : (w.after i e d server).Says vault kind id clock said) :
    w.Says vault kind id clock said ∨
      ∃ v, e = .wrote kind id v ∧ v.updatedAt = clock ∧ d.store.Says vault kind id clock said := by
  have hready := hbase.device i
  have hstore : (w.devices i).store.Says vault kind id clock said → w.Says vault kind id clock said :=
    fun h => .inl ⟨i, h⟩
  have hcarried : ∀ env ∈ (w.devices i).flight.carried, env.Says vault kind id clock said →
      w.Says vault kind id clock said := fun env henv hshows => .inr (.inl ⟨i, env, henv, hshows⟩)
  have hserver : w.server.Says vault kind id clock said → w.Says vault kind id clock said := fun h => .inr (.inr h)
  have hpushed : ∀ {sent result}, (w.devices i).flight = .pushing sent → w.server.push sent = (server, result) →
      (server.Says vault kind id clock said ∨ ∃ response, result = .ok response ∧
        ∃ env ∈ response.conflicts, env.Says vault kind id clock said) → w.Says vault kind id clock said := by
    intro sent result hflight hpush hshows
    obtain ⟨response, rfl, hrun⟩ := (hready.sending sent hflight).push hbase.claimed hpush
    have hfrom : server.Says vault kind id clock said ∨
        ∃ env ∈ response.conflicts, env.Says vault kind id clock said := by
      rcases hshows with hshows | ⟨response', hsame, hconflict⟩
      · exact .inl hshows
      · obtain rfl := Except.ok.inj hsame
        exact .inr hconflict
    rcases hrun.origin hfrom with hold | ⟨env, henv, hsays⟩
    · exact hserver hold
    · apply hcarried env _ hsays
      rw [Flight.carried, hflight]
      exact List.mem_append_left _ henv
  have happlied : ∀ {envelopes nowMs t report}, (w.devices i).store.applyEnvelopes envelopes nowMs = .ok (t, report) →
      (∀ env ∈ envelopes, env ∈ (w.devices i).flight.carried) → t.Says vault kind id clock said →
        w.Says vault kind id clock said := by
    intro envelopes nowMs t report happly hfrom hshows
    rcases Store.applyEnvelopes_said happly hready.unlocked hshows hclock with hold | ⟨env, henv, hsays⟩
    · exact hstore hold
    · exact hcarried env (hfrom env henv) hsays
  rcases h.of_after with hold | hrow | ⟨env, henv, hsays⟩ | hheld
  · exact .inl hold
  · -- A row of the device itself.
    cases hdev with
    | @write kind' id' v t hedit _ =>
      by_cases hself : kind = kind' ∧ id = id'
      · obtain ⟨rfl, rfl⟩ := hself
        obtain ⟨row, hsome, hversion, -⟩ := hedit.row?_self
        obtain ⟨row', hsome', hlive, hat, hsaid⟩ := hrow
        obtain rfl : row = row' := Option.some.inj (hsome.symm.trans hsome')
        exact .inr ⟨v, rfl, hversion ▸ hat, row, hsome, hlive, hat, hsaid⟩
      · exact .inl (hstore (hrow.congr (hedit.row?_of_ne hself)))
    | @mark sent response _ =>
      obtain ⟨-, -, -, hmarked⟩ := (w.devices i).store.markPushed_spec (acceptedOf sent response)
      obtain ⟨row, hsome, hrest⟩ := hrow
      rcases hmarked kind id with hsame | ⟨p, -, -, -, old, hold, -, hnew⟩
      · exact .inl (hstore ⟨row, hsame ▸ hsome, hrest⟩)
      · obtain rfl := Option.some.inj (hnew.symm.trans hsome)
        exact .inl (hstore ⟨old, hold, hrest⟩)
    | merge nowMs hflight happly =>
      refine .inl (happlied happly ?_ hrow)
      intro env henv
      rw [Flight.carried, hflight]
      exact List.mem_append_right _ henv
    | apply nowMs hflight happly =>
      refine .inl (happlied happly ?_ hrow)
      intro env henv
      rw [Flight.carried, hflight]
      exact List.mem_append_right _ henv
    | _ => exact .inl (hstore hrow)
  · -- On its way to or from the device.
    left
    cases hdev with
    | write => exact hcarried env henv hsays
    | offer hoffers =>
      have henv : env ∈ _ ++ [] := henv
      rw [List.append_nil] at henv
      exact hstore (hoffers.batch.origin hready.unlocked henv hsays)
    | @hear sent response hflight =>
      have henv : env ∈ sent ++ response.conflicts := henv
      rcases List.mem_append.mp henv with hsent | hconflict
      · apply hcarried env _ hsays
        rw [Flight.carried, hflight]
        exact List.mem_append_left _ hsent
      · exact hpushed hflight hans (.inr ⟨response, rfl, env, hconflict, hsays⟩)
    | @mark sent response hflight =>
      apply hcarried env _ hsays
      rw [Flight.carried, hflight]
      exact List.mem_append_right _ henv
    | fetch page =>
      obtain ⟨rfl, -⟩ := hans
      have hpage := MemoryServer.pull_spec hbase.server (w.devices i).store.cursor maxBatch
      exact hserver ⟨_, env, (hpage.records env henv).1, hsays⟩
    | @advance page _ _ =>
      have hnone : (if page.hasMore = true then Flight.idle else Flight.pulled).carried = [] := by
        split <;> rfl
      have henv : env ∈ (if page.hasMore = true then Flight.idle else Flight.pulled).carried := henv
      rw [hnone] at henv
      cases henv
    | _ => cases henv
  · -- At the server.
    left
    cases hdev with
    | hear response hflight => exact hpushed hflight hans (.inl hheld)
    | lose hflight =>
      obtain ⟨result, hpush⟩ := hans
      exact hpushed hflight hpush (.inl hheld)
    | fetch page =>
      obtain ⟨-, rfl⟩ := hans
      exact hserver hheld
    | _ =>
      obtain rfl := hans
      exact hserver hheld

/-- A step in which nobody's clock runs out. -/
def ClockedStep (rule : WriteRule) (w w' : World ι) : Prop :=
  Step rule w w' ∧ ∀ i, (w'.devices i).store.clockWallMs.toNat + 1 < 2 ^ 64

/-- A clock stands for one version of a record: whoever has it, the device whose clock it is has come as far,
and stands at it only with that version. -/
structure Agreeing (vault : UnlockedVault) (deviceId : ι → UInt32) (w : World ι) : Prop where
  device : ∀ i, (w.devices i).store.device = deviceId i
  unspent : ∀ i, (w.devices i).store.clockWallMs.toNat + 1 < 2 ^ 64
  same : ∀ kind id clock said said', clock ≠ Hlc.zero → w.Says vault kind id clock said →
    w.Says vault kind id clock said' → said = said'
  stamped : ∀ i kind id clock said, clock ≠ Hlc.zero → w.Says vault kind id clock said →
    clock.device = deviceId i → clock ≤ (w.devices i).store.clock ∧
      (clock = (w.devices i).store.clock → ((w.devices i).store.cell kind id).version.updatedAt = clock)

omit [DecidableEq ι] in
theorem agreeing_initial (vault : UnlockedVault) (deviceId : ι → UInt32) :
    Agreeing vault deviceId (initial vault deviceId) := by
  have hsilent : ∀ kind id clock said, ¬ (initial vault deviceId).Says vault kind id clock said := by
    rintro kind id clock said (⟨i, row, hrow, -⟩ | ⟨i, env, henv, -⟩ | ⟨x, env, hlookup, -⟩)
    · cases hrow
    · cases henv
    · cases hlookup
  refine ⟨fun _ => rfl, ?_, ?_, ?_⟩
  · intro i
    show (0 : UInt64).toNat + 1 < 2 ^ 64
    decide
  · intro kind id clock said said' _ h
    exact absurd h (hsilent _ _ _ _)
  · intro i kind id clock said _ h
    exact absurd h (hsilent _ _ _ _)

/-- A device's clock moves on, or every record stays as old as it was, but for one just written. -/
theorem clock_moves {d d' : Device} {e : Event} (hstep : Device.Step Store.Ticks d e d')
    (hroom : d.store.clockWallMs.toNat + 1 < 2 ^ 64) (hroom' : d'.store.clockWallMs.toNat + 1 < 2 ^ 64) :
    d'.store.device = d.store.device ∧ (d.store.clock < d'.store.clock ∨
      d'.store.clock = d.store.clock ∧ ∀ kind id,
        (d'.store.cell kind id).version.updatedAt = (d.store.cell kind id).version.updatedAt ∨
        (d'.store.cell kind id).version.updatedAt = d'.store.clock) := by
  have hrows : ∀ {t : Store}, (∀ kind id, t.row? kind id = d.store.row? kind id) → ∀ kind id,
      (t.cell kind id).version.updatedAt = (d.store.cell kind id).version.updatedAt := by
    intro t hrow kind id
    cases hsome : d.store.row? kind id with
    | none => rw [Store.cell_of_none hsome, Store.cell_of_none ((hrow kind id).trans hsome)]
    | some row =>
      rw [Store.cell_of_some hsome, Store.cell_of_some ((hrow kind id).trans hsome)]
      rfl
  have happlied : ∀ {envelopes nowMs t report}, d.store.applyEnvelopes envelopes nowMs = .ok (t, report) →
      t.clockWallMs.toNat + 1 < 2 ^ 64 → t.device = d.store.device ∧ (d.store.clock < t.clock ∨
        t.clock = d.store.clock ∧ ∀ kind id,
          (t.cell kind id).version.updatedAt = (d.store.cell kind id).version.updatedAt ∨
          (t.cell kind id).version.updatedAt = t.clock) := by
    intro envelopes nowMs t report happly hend
    refine ⟨(Store.applyEnvelopes_touched happly).1.device, ?_⟩
    rcases Store.applyEnvelopes_moves happly hend with hlt | ⟨hsame, hrow⟩
    · exact .inl hlt
    · exact .inr ⟨hsame, fun kind id => .inl (hrows hrow kind id)⟩
  cases hstep with
  | @write kind id v t hedit hticks =>
    refine ⟨hedit.frame.device, ?_⟩
    obtain ⟨hclock, ⟨nowMs, htick⟩ | ⟨hsame, -⟩⟩ := hticks
    · left
      show d.store.clock < t.clock
      rw [hclock, htick]
      refine Hlc.lt_of_stamp_lt (Hlc.stamp_lt_tick nowMs fun hend => ?_)
      have hwall : d.store.clockWallMs.toNat = 2 ^ 64 - 1 := hend.1
      omega
    · refine .inr ⟨hclock.trans hsame, fun kind' id' => ?_⟩
      by_cases heq : kind' = kind ∧ id' = id
      · obtain ⟨rfl, rfl⟩ := heq
        right
        rw [hedit.cell_self]
        exact hclock.symm
      · left
        rw [hedit.cell_of_ne heq]
  | @mark sent response _ =>
    obtain ⟨hframe, hsuper, hclock, hmarked⟩ := d.store.markPushed_spec (acceptedOf sent response)
    refine ⟨hframe.device, .inr ⟨hclock, fun kind id => .inl ?_⟩⟩
    rcases (hmarked kind id).cell hsuper with heq | ⟨p, -, -, -, -, heq⟩ <;> rw [heq]
  | merge nowMs _ happly => exact happlied happly hroom'
  | apply nowMs _ happly => exact happlied happly hroom'
  | _ => exact ⟨rfl, .inr ⟨rfl, fun _ _ => .inl rfl⟩⟩

omit [DecidableEq ι] in
/-- What a device writes has a clock that was never seen on the record. -/
theorem Agreeing.fresh {deviceId : ι → UInt32} {w : World ι} (h : Agreeing vault deviceId w) {i : ι} {v : Version}
    {t : Store} (hedit : (w.devices i).store.Edit kind id v t) (hticks : Store.Ticks (w.devices i).store kind id v t)
    (hzero : v.updatedAt ≠ Hlc.zero) : ¬ w.Says vault kind id v.updatedAt said := by
  intro hsays
  have hdevice : v.updatedAt.device = deviceId i := by
    rw [← hticks.1, ← h.device i]
    exact hedit.frame.device
  obtain ⟨hle, hcell⟩ := h.stamped i kind id _ said hzero hsays hdevice
  obtain ⟨-, ⟨nowMs, htick⟩ | ⟨hsame, hne⟩⟩ := hticks
  · have hlt : (w.devices i).store.clock < (w.devices i).store.clock.tick nowMs := by
      refine Hlc.lt_of_stamp_lt (Hlc.stamp_lt_tick nowMs fun hend => ?_)
      have hwall : (w.devices i).store.clockWallMs.toNat = 2 ^ 64 - 1 := hend.1
      have hroom := h.unspent i
      omega
    rw [htick] at hle
    exact not_le.mpr hlt hle
  · exact hne (hcell hsame)

/-- One step of devices that stamp with their clocks. -/
theorem Agreeing.step {deviceId : ι → UInt32} (hids : Function.Injective deviceId) {w w' : World ι}
    (hbase : Base vault w) (h : Agreeing vault deviceId w) (hstep : ClockedStep Store.Ticks w w') :
    Agreeing vault deviceId w' := by
  obtain ⟨⟨i, hdev, hans⟩, hroom⟩ := hstep
  next e d server =>
  have hroomi := hroom i
  rw [after_devices_self] at hroomi
  obtain ⟨hdevice, hmoves⟩ := clock_moves hdev (h.unspent i) hroomi
  refine ⟨?_, hroom, ?_, ?_⟩
  · intro j
    by_cases hj : j = i
    · subst hj
      rw [after_devices_self, hdevice]
      exact h.device j
    · rw [after_devices_of_ne _ hj]
      exact h.device j
  · intro kind id clock said said' hzero hsays hsays'
    rcases hsays.before hbase hdev hans hzero with hold | ⟨v, rfl, hat, hrow⟩
    · rcases hsays'.before hbase hdev hans hzero with hold' | ⟨v, rfl, rfl, -⟩
      · exact h.same kind id clock said said' hzero hold hold'
      · cases hdev with
        | write hedit hticks => exact absurd hold (h.fresh hedit hticks hzero)
    · rcases hsays'.before hbase hdev hans hzero with hold' | ⟨v', -, -, hrow'⟩
      · subst hat
        cases hdev with
        | write hedit hticks => exact absurd hold' (h.fresh hedit hticks hzero)
      · obtain ⟨row, hsome, -, -, rfl⟩ := hrow
        obtain ⟨row', hsome', -, -, rfl⟩ := hrow'
        rw [Option.some.inj (hsome.symm.trans hsome')]
  · intro j kind id clock said hzero hsays hclock
    rcases hsays.before hbase hdev hans hzero with hold | ⟨v, rfl, rfl, row, hrow, -, hat, -⟩
    · obtain ⟨hle, hcell⟩ := h.stamped j kind id clock said hzero hold hclock
      by_cases hj : j = i
      · subst hj
        rw [after_devices_self]
        rcases hmoves with hlt | ⟨hsame, hcells⟩
        · exact ⟨hle.trans hlt.le, fun heq => absurd hle (not_le.mpr (heq ▸ hlt))⟩
        · refine ⟨hsame ▸ hle, fun heq => ?_⟩
          rcases hcells kind id with hkept | hnew
          · rw [hkept]
            exact hcell (heq.trans hsame)
          · rw [hnew, heq]
      · rw [after_devices_of_ne _ hj]
        exact ⟨hle, hcell⟩
    · cases hdev with
      | write hedit hticks =>
        have hown : v.updatedAt.device = deviceId i := by
          rw [← hticks.1, ← h.device i]
          exact hdevice
        obtain rfl : j = i := hids (hclock.symm.trans hown)
        rw [after_devices_self]
        refine ⟨hticks.1.ge, fun _ => ?_⟩
        rw [hedit.cell_self]

theorem agreeing_run {deviceId : ι → UInt32} (hids : Function.Injective deviceId) {w : World ι}
    (hrun : Run.Steps (ClockedStep Store.Ticks) (initial vault deviceId) w) :
    Base vault w ∧ Agreeing vault deviceId w := by
  have hstep : ∀ u v : World ι, Base vault u ∧ Agreeing vault deviceId u → ClockedStep Store.Ticks u v →
      Base vault v ∧ Agreeing vault deviceId v :=
    fun u v h hstep => ⟨h.1.step hstep.1, h.2.step hids h.1 hstep⟩
  exact Run.invariant hstep hrun ⟨base_initial vault deviceId, agreeing_initial vault deviceId⟩

/-- A write as the protocol has it, stamped by the device's clock. -/
def Stamped (kindOf : Uuid → EntityKind) (vault : UnlockedVault) : WriteRule := fun s kind id v t =>
  Rises kindOf vault s kind id v t ∧ Store.Ticks s kind id v t

theorem Step.mono {rule rule' : WriteRule} (hrule : ∀ s kind id v t, rule s kind id v t → rule' s kind id v t)
    {w w' : World ι} (h : Step rule w w') : Step rule' w w' := by
  obtain ⟨i, hdev, hans⟩ := h
  refine .mk w i ?_ hans
  cases hdev with
  | write hedit hr => exact .write _ hedit (hrule _ _ _ _ _ hr)
  | offer hoffers => exact .offer _ hoffers
  | hear response hflight => exact .hear _ response hflight
  | lose hflight => exact .lose _ hflight
  | mark hflight => exact .mark _ hflight
  | merge nowMs hflight happly => exact .merge _ nowMs hflight happly
  | fetch page => exact .fetch _ page
  | apply nowMs hflight happly => exact .apply _ nowMs hflight happly
  | advance hflight hlt => exact .advance _ hflight hlt
  | settle hflight hle => exact .settle _ hflight hle
  | cut => exact .cut _
  | rewind => exact .rewind _

/-- Wherever a live version of a record is met it says the same, and once nobody has anything left to push or to
pull, every device shows of a record what the server holds of it. -/
theorem devices_say_the_same {kindOf : Uuid → EntityKind} {deviceId : ι → UInt32} (hids : Function.Injective deviceId)
    {w : World ι} (hrun : Run.Steps (ClockedStep (Stamped kindOf vault)) (initial vault deviceId) w) :
    (∀ kind id clock said said', clock ≠ Hlc.zero → w.Says vault kind id clock said →
      w.Says vault kind id clock said' → said = said') ∧
    ((∀ i, (w.devices i).store.dirtyCount = 0) → (∀ i, w.CaughtUp i) → ∀ id,
      (kindOf id = .knownHost → ∀ i, ¬ (w.devices i).store.Superseded id) →
      ∀ i, (w.devices i).store.liveContent vault (kindOf id) id = w.server.liveContent vault id) := by
  have hticked : Run.Steps (ClockedStep Store.Ticks) (initial vault deviceId) w :=
    Relation.ReflTransGen.mono (fun _ _ hstep => ⟨hstep.1.mono fun _ _ _ _ _ h => h.2, hstep.2⟩) _ _ hrun
  have hrisen : Run.Steps (Step (Rises kindOf vault)) (initial vault deviceId) w :=
    Relation.ReflTransGen.mono (fun _ _ hstep => hstep.1.mono fun _ _ _ _ _ h => h.1) _ _ hrun
  have hsame := (agreeing_run hids hticked).2.same
  refine ⟨hsame, ?_⟩
  intro hclean hpulled id hslot i
  have hinv := inv_of_run (register_run hrisen hslot)
  obtain ⟨hbase, hproper⟩ := proper_run (fun _ _ _ _ _ h => h) hrisen (base_initial vault deviceId)
    (proper_initial kindOf vault deviceId)
  have hseen : ∀ i, ∀ cur ∈ (register kindOf id w).current, cur.2 ≤ ((register kindOf id w).peers i).cursor := by
    intro i cur hcur
    obtain ⟨env, hlookup, rfl⟩ := Option.map_eq_some_iff.mp hcur
    exact (hpulled i).seen hbase.server hlookup
  have hmark : ∀ i, ((register kindOf id w).peers i).cell.mark = ⊥ := by
    intro i
    show ((w.devices i).store.cell (kindOf id) id).mark = ⊥
    rw [Store.mark_cell]
    exact Store.mark_of_not_superseded fun hkind => hslot hkind i
  have hplaces : ((w.devices i).store.cell (kindOf id) id).version = ⊥ →
      (w.devices i).store.liveContent vault (kindOf id) id = none := by
    intro hcell
    cases hrow : (w.devices i).store.row? (kindOf id) id with
    | none => rw [Store.liveContent, hrow, Option.bind_none]
    | some row =>
      have hblank := congrArg Version.updatedAt (Store.without_of_cell hcell row hrow)
      rw [Store.liveContent, hrow, Option.bind_some, if_pos (.inr hblank)]
  rcases hinv.converged (fun i => clean_of_dirtyCount (hclean i) _ _) hseen hmark with
    ⟨-, hcurrent, hbot⟩ | ⟨cur, hcurrent, hgreatest, hpeers⟩
  · have hnone : w.server.records.lookup id = none := Option.map_eq_none_iff.mp hcurrent
    rw [hplaces (hbot i), MemoryServer.liveContent, hnone, Option.bind_none]
  · obtain ⟨env, hlookup, rfl⟩ := Option.map_eq_some_iff.mp hcurrent
    have hpositive := hinv.positive _ hgreatest.1
    rw [MemoryServer.liveContent, hlookup, Option.bind_some]
    rcases hpeers i with hhas | ⟨hbot, htomb⟩
    · obtain ⟨row, hrow, hversion⟩ := Store.has_of_cell hpositive hhas
      have hdeleted : row.deleted = env.deleted := congrArg Version.deleted hversion
      have hclock : row.updatedAt = env.updatedAt := congrArg Version.updatedAt hversion
      rw [Store.liveContent, hrow, Option.bind_some, hdeleted]
      cases hlive : env.deleted with
      | true => rw [if_pos (.inl rfl), if_pos rfl]
      | false =>
        have hzero : env.updatedAt ≠ Hlc.zero := by
          intro hzero
          have hblank : env.version = ⊥ := by
            show Version.mk env.updatedAt env.deleted = Version.blank
            rw [hzero, hlive]
            rfl
          exact hpositive.ne hblank.symm
        have hid := hbase.server.filed id env hlookup
        have hkind : env.kind = kindOf id := hid ▸ (hproper.records id env hlookup).2
        have hrowSays : w.Says vault (kindOf id) id env.updatedAt (contentOf vault id (kindOf id) row.cols) :=
          .inl ⟨i, row, hrow, hdeleted.trans hlive, hclock, rfl⟩
        have hserverSays : w.Says vault (kindOf id) id env.updatedAt (env.content vault) :=
          .inr (.inr ⟨id, env, hlookup, hkind, hid, hlive, rfl, rfl⟩)
        rw [if_neg, if_neg Bool.false_ne_true, hsame _ _ _ _ _ hzero hrowSays hserverSays]
        rintro (hfalse | hfalse)
        · cases hfalse
        · exact hzero (hclock.symm.trans hfalse)
    · have hdeleted : env.deleted = true := htomb
      rw [hplaces hbot, if_pos hdeleted]

section examples

/-- Moves in which nobody's clock runs out. -/
def playClocked (check : WriteCheck) : List (ι × Move) → World ι → Option (World ι)
  | [], w => some w
  | (i, m) :: rest, w =>
      match (w.devices i).move check w.server m with
      | some (e, d, server) =>
          if d.store.clockWallMs.toNat + 1 < 2 ^ 64 then playClocked check rest (w.after i e d server) else none
      | none => none

theorem steps_of_playClocked {check : WriteCheck} {rule : WriteRule}
    (hcheck : ∀ s kind id clock deleted cols, check s kind id (s.rowFor kind id clock deleted cols).version = true →
      rule s kind id (s.rowFor kind id clock deleted cols).version
        ((s.setClock clock).putRow kind id (s.rowFor kind id clock deleted cols)))
    {moves : List (ι × Move)} {w w' : World ι} (hroom : ∀ i, (w.devices i).store.clockWallMs.toNat + 1 < 2 ^ 64)
    (h : playClocked check moves w = some w') : Run.Steps (ClockedStep rule) w w' := by
  induction moves generalizing w with
  | nil =>
    cases h
    exact .refl
  | cons move rest ih =>
    obtain ⟨i, m⟩ := move
    unfold playClocked at h
    split at h
    · next e d server hmove =>
      split at h
      · next hd =>
        obtain ⟨hstep, hans⟩ := Device.step_of_move hcheck hmove
        have hall : ∀ j, ((w.after i e d server).devices j).store.clockWallMs.toNat + 1 < 2 ^ 64 := by
          intro j
          by_cases hj : j = i
          · subst hj
            rwa [after_devices_self]
          · rw [after_devices_of_ne _ hj]
            exact hroom j
        exact .head ⟨.mk w i hstep hans, hall⟩ (ih hall h)
      · cases h
    · cases h

def stampedCheck (kindOf : Uuid → EntityKind) : WriteCheck := fun s kind id v =>
  risesCheck kindOf s kind id v ∧ v.updatedAt = s.clock.tick v.updatedAt.wallMs

theorem stamped_of_check (kindOf : Uuid → EntityKind) (vault : UnlockedVault) (s : Store) (kind : EntityKind)
    (id : Uuid) (clock : Hlc) (deleted : Bool) (cols : Cols kind)
    (h : stampedCheck kindOf s kind id (s.rowFor kind id clock deleted cols).version = true) :
    Stamped kindOf vault s kind id (s.rowFor kind id clock deleted cols).version
      ((s.setClock clock).putRow kind id (s.rowFor kind id clock deleted cols)) := by
  obtain ⟨hrises, htick⟩ := of_decide_eq_true h
  have htick : clock = s.clock.tick clock.wallMs := htick
  have hclock : (s.setClock clock).clock = clock := by
    have hdevice : clock.device = s.device := (congrArg Hlc.device htick).trans (Hlc.tick_device _ _)
    show Hlc.mk clock.wallMs clock.counter s.device = clock
    rw [← hdevice]
  exact ⟨rises_of_check kindOf vault s kind id clock deleted cols hrises, hclock, .inl ⟨_, htick⟩⟩

/-- A group in a workspace nobody knows is written, renamed, and pulled by the other device. -/
def renamedMoves : List (Bool × Move) :=
  [(true, .write .group 1 ⟨10, 0, 1⟩ false { exampleGroup with workspace := "elsewhere" }),
   (true, .write .group 1 ⟨10, 1, 1⟩ false { exampleGroup with workspace := "elsewhere", name := "away" })] ++
    pushMoves true 12 ++ pullMoves true 13 ++ pullMoves false 14

theorem devices_say_the_same_renamed :
    ∃ w : World Bool, w.Settled ∧ (w.server.liveContent exampleVault 1).isSome = true ∧
      ∀ i, (w.devices i).store.liveContent exampleVault .group 1 = w.server.liveContent exampleVault 1 := by
  have hplay : (playClocked (stampedCheck fun _ => .group) renamedMoves (initial exampleVault exampleDevice)).any
      (fun w => w.Settled ∧ (w.server.liveContent exampleVault 1).isSome = true) = true := by decide +kernel
  cases hw : playClocked (stampedCheck fun _ => .group) renamedMoves (initial exampleVault exampleDevice) with
  | none =>
    rw [hw] at hplay
    cases hplay
  | some w =>
    rw [hw, Option.any_some] at hplay
    obtain ⟨⟨hclean, hpulled⟩, hlive⟩ := of_decide_eq_true hplay
    have hroom : ∀ i, ((initial exampleVault exampleDevice).devices i).store.clockWallMs.toNat + 1 < 2 ^ 64 := by
      intro i
      show (0 : UInt64).toNat + 1 < 2 ^ 64
      decide
    have hids : Function.Injective exampleDevice := by
      intro i j h
      cases i <;> cases j <;> first | rfl | exact absurd h (by decide)
    have hrun := steps_of_playClocked (stamped_of_check (fun _ => .group) exampleVault) hroom hw
    refine ⟨w, ⟨hclean, hpulled⟩, hlive, ?_⟩
    exact (devices_say_the_same hids hrun).2 hclean hpulled 1 fun h => nomatch h

end examples

end World

end UwuSsh

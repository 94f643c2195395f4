import UwuSsh.Lib.Run
import UwuSsh.Sync.Device

/-!
Any number of devices of one vault and the server between them. A step is a step of
one device; where it hears from the server, the server gives the answer. The log
keeps who did what, the newest first, so that "ever written" and "ever applied" can be
said of a state. Two layers of invariants follow: what holds whatever the devices write, and
what holds when they write as the protocol has it.
-/
namespace UwuSsh

/-- What the server has to do with an event of a device. -/
def MemoryServer.Answers (server : MemoryServer) (e : Event) (server' : MemoryServer) : Prop :=
  match e with
  | .heard sent response => server.push sent = (server', .ok response)
  | .lost sent => ∃ result, server.push sent = (server', result)
  | .handed since page => page = server.pull since maxBatch ∧ server' = server
  | _ => server' = server

structure World (ι : Type) where
  devices : ι → Device
  server : MemoryServer
  log : List (ι × Event)

namespace World

variable {ι : Type} [DecidableEq ι]

def initial (vault : UnlockedVault) (deviceId : ι → UInt32) : World ι where
  devices i := { store := Store.empty (deviceId i) vault.vaultId (some vault), flight := .idle }
  server := MemoryServer.new
  log := []

/-- The world after an event at one device. -/
def after (w : World ι) (i : ι) (e : Event) (d : Device) (server : MemoryServer) : World ι where
  devices := Function.update w.devices i d
  server
  log := (i, e) :: w.log

inductive Step (rule : WriteRule) : World ι → World ι → Prop
  | mk (w : World ι) (i : ι) {e : Event} {d : Device} {server : MemoryServer} :
      Device.Step rule (w.devices i) e d → w.server.Answers e server →
      Step rule w (w.after i e d server)

/-- Every version a device ever wrote of a record. -/
def written (w : World ι) (i : ι) (id : Uuid) : Set Version :=
  {v | ∃ kind, (i, .wrote kind id v) ∈ w.log}

/-- A record a device has applied, in a transaction that was committed. -/
def HasApplied (w : World ι) (i : ι) (env : Envelope) : Prop :=
  ∃ envelopes, (i, .applied envelopes) ∈ w.log ∧ env ∈ envelopes

@[simp] theorem after_devices_self (w : World ι) (i : ι) (e : Event) (d : Device)
    (server : MemoryServer) : (w.after i e d server).devices i = d := by
  simp [after]

theorem after_devices_of_ne (w : World ι) {i j : ι} (h : j ≠ i) (e : Event) (d : Device)
    (server : MemoryServer) : (w.after i e d server).devices j = w.devices j := by
  simp [after, h]

theorem HasApplied.after {w : World ι} {j : ι} {env : Envelope} (h : w.HasApplied j env) (i : ι)
    (e : Event) (d : Device) (server : MemoryServer) : (w.after i e d server).HasApplied j env := by
  obtain ⟨envelopes, hlog, hmem⟩ := h
  exact ⟨envelopes, List.mem_cons_of_mem _ hlog, hmem⟩

section base

/-- A batch the server has no reason to refuse. -/
structure Sendable (vault : UnlockedVault) (sent : List Envelope) : Prop where
  each : ∀ env ∈ sent, env.nonce.length = 24 ∧ env.blob.length ≤ maxBlobBytes ∧
    env.vaultId = vault.vaultId
  count : sent.length ≤ maxBatch
  total : 1 < sent.length → (sent.map (·.blob.length)).sum ≤ maxBatchBytes

theorem sendable_of_batch {vault : UnlockedVault} {s : Store} {sent : List Envelope}
    (hvault : s.vault = some vault) (h : s.Batch sent) : Sendable vault sent := by
  refine ⟨?_, h.count, h.total⟩
  intro env henv
  obtain ⟨vault', row, hvault', -, -, hof⟩ := h.rows env henv
  rw [hvault] at hvault'
  cases hvault'
  exact ⟨hof.nonce, h.blobs env henv, hof.vaultId⟩

/-- A batch without fault is answered, each record in its turn. -/
theorem Sendable.push {vault : UnlockedVault} {sent : List Envelope} (h : Sendable vault sent)
    {server server' : MemoryServer} {result : Except TransportError PushResponse}
    (hclaim : server.vaultId = none ∨ server.vaultId = some vault.vaultId)
    (hpush : server.push sent = (server', result)) :
    ∃ response, result = .ok response ∧
      MemoryServer.Answered server sent server' response.accepted response.conflicts := by
  unfold MemoryServer.push at hpush
  rw [if_neg (Nat.not_lt.mpr h.count), if_neg fun hbig => Nat.not_lt.mpr (h.total hbig.1) hbig.2]
    at hpush
  obtain ⟨server'', response, hok⟩ := MemoryServer.pushAll_ok hclaim h.each
    { accepted := [], conflicts := [], cursor := 0 }
  obtain ⟨accepted, conflicts, hrun, hacc, hconf⟩ := MemoryServer.pushAll_answered hok
  rw [hok] at hpush
  cases hpush
  refine ⟨response, rfl, ?_⟩
  rw [List.nil_append] at hacc hconf
  rwa [hacc, hconf]

/-- What holds of one device whatever it writes. -/
structure Ready (vault : UnlockedVault) (server : MemoryServer) (d : Device) : Prop where
  unlocked : d.store.vault = some vault
  vaultId : d.store.vaultId = vault.vaultId
  cursor : d.store.cursor ≤ server.seq
  sending : ∀ sent, d.flight = .pushing sent → Sendable vault sent
  paged : ∀ page, d.flight = .paged page → page.cursor ≤ server.seq ∧
    ∀ x env, server.records.lookup x = some env → d.store.cursor < env.seq.getD 0 →
      env.seq.getD 0 ≤ page.cursor → env ∈ page.envelopes
  applied : ∀ page, d.flight = .applied page → page.cursor ≤ server.seq

/-- The server at a later time: what it has that is not new, it had before. -/
structure Grown (server server' : MemoryServer) : Prop where
  seq : server.seq ≤ server'.seq
  old : ∀ x env, server'.records.lookup x = some env → env.seq.getD 0 ≤ server.seq →
    server.records.lookup x = some env

theorem Grown.refl (server : MemoryServer) : Grown server server := ⟨le_rfl, fun _ _ h _ => h⟩

theorem grown_of_answered {server server' : MemoryServer} {sent : List Envelope}
    {accepted : List Accepted} {conflicts : List Envelope}
    (h : MemoryServer.Answered server sent server' accepted conflicts) : Grown server server' := by
  induction h with
  | nil => exact .refl _
  | @accept server server' env rest accepted conflicts _ _ ih =>
    refine ⟨(Nat.le_succ _).trans ih.seq, ?_⟩
    intro x e hlookup hle
    have htaken := ih.old x e hlookup (hle.trans (Nat.le_succ _))
    by_cases hx : x = env.id
    · subst hx
      rw [MemoryServer.lookup_take_self] at htaken
      cases htaken
      rw [Option.getD_some] at hle
      omega
    · rwa [MemoryServer.lookup_take_of_ne _ hx] at htaken
  | conflict _ _ _ ih => exact ⟨ih.seq, ih.old⟩

theorem Ready.grown {vault : UnlockedVault} {server server' : MemoryServer} {d : Device}
    (h : Ready vault server d) (hgrown : Grown server server') : Ready vault server' d where
  unlocked := h.unlocked
  vaultId := h.vaultId
  cursor := h.cursor.trans hgrown.seq
  sending := h.sending
  paged := by
    intro page hpage
    obtain ⟨hle, hcovers⟩ := h.paged page hpage
    refine ⟨hle.trans hgrown.seq, fun x env hlookup hlt henv => ?_⟩
    exact hcovers x env (hgrown.old x env hlookup (henv.trans hle)) hlt henv
  applied := fun page hpage => (h.applied page hpage).trans hgrown.seq

/-- What holds of every state, whatever the devices write. -/
structure Base (vault : UnlockedVault) (w : World ι) : Prop where
  server : w.server.WellFormed
  claimed : w.server.vaultId = none ∨ w.server.vaultId = some vault.vaultId
  device : ∀ i, Ready vault w.server (w.devices i)
  behind : ∀ i x env, w.server.records.lookup x = some env →
    env.seq.getD 0 ≤ (w.devices i).store.cursor → w.HasApplied i env
  batched : ∀ i page, (w.devices i).flight = .applied page →
    ∀ x env, w.server.records.lookup x = some env → env.seq.getD 0 ≤ page.cursor →
      w.HasApplied i env

omit [DecidableEq ι] in
theorem base_initial (vault : UnlockedVault) (deviceId : ι → UInt32) :
    Base vault (initial vault deviceId) where
  server := MemoryServer.wellFormed_new
  claimed := Or.inl rfl
  device := fun _ => ⟨rfl, rfl, le_rfl, (fun _ h => nomatch h), (fun _ h => nomatch h),
    (fun _ h => nomatch h)⟩
  behind := by simp [initial, MemoryServer.new]
  batched := fun _ _ h => nomatch h

/-- How the server answers an event, and what that does to it. -/
theorem answers_spec {vault : UnlockedVault} {server server' : MemoryServer} {d d' : Device}
    {rule : WriteRule} {e : Event} (hstep : Device.Step rule d e d')
    (h : server.WellFormed) (hclaim : server.vaultId = none ∨ server.vaultId = some vault.vaultId)
    (hd : Ready vault server d) (hans : server.Answers e server') :
    server'.WellFormed ∧ (server'.vaultId = none ∨ server'.vaultId = some vault.vaultId) ∧
      Grown server server' := by
  have hsame : server' = server → server'.WellFormed ∧
      (server'.vaultId = none ∨ server'.vaultId = some vault.vaultId) ∧ Grown server server' := by
    rintro rfl
    exact ⟨h, hclaim, .refl _⟩
  have hpushed : ∀ {sent result}, d.flight = .pushing sent →
      server.push sent = (server', result) → server'.WellFormed ∧
      (server'.vaultId = none ∨ server'.vaultId = some vault.vaultId) ∧ Grown server server' := by
    intro sent result hflight hpush
    have hsend := hd.sending sent hflight
    obtain ⟨response, -, hrun⟩ := hsend.push hclaim hpush
    exact ⟨hrun.wellFormed h, hrun.vaultId hclaim fun env henv => (hsend.each env henv).2.2,
      grown_of_answered hrun⟩
  cases hstep with
  | hear response hflight => exact hpushed hflight hans
  | lose hflight =>
    obtain ⟨result, hpush⟩ := hans
    exact hpushed hflight hpush
  | fetch => exact hsame hans.2
  | _ => exact hsame hans

/-- One step keeps what holds whatever is written. -/
theorem Base.step {vault : UnlockedVault} {rule : WriteRule} {w w' : World ι}
    (h : Base vault w) (hstep : Step rule w w') : Base vault w' := by
  obtain ⟨i, hdev, hans⟩ := hstep
  next e d server' =>
  have hi := h.device i
  obtain ⟨hserver, hclaim, hgrown⟩ := answers_spec hdev h.server h.claimed hi hans
  -- What the device itself looks like afterwards.
  have hown : Ready vault server' d ∧
      (d.store.cursor ≤ (w.devices i).store.cursor ∨
        ∃ page, (w.devices i).flight = .applied page ∧ d.store.cursor ≤ page.cursor) ∧
      ∀ page, d.flight = .applied page →
        ((w.devices i).flight = .applied page ∧ d.store.cursor = (w.devices i).store.cursor) ∨
          ((w.devices i).flight = .paged page ∧ e = .applied page.envelopes) := by
    have hi' := hi.grown hgrown
    cases hdev with
    | write hedit _ =>
      have hframe := hedit.frame
      refine ⟨⟨hframe.vault.trans hi'.unlocked, hframe.vaultId.trans hi'.vaultId,
        hframe.cursor.trans_le hi'.cursor, hi'.sending, ?_, hi'.applied⟩, Or.inl hframe.cursor.le,
        fun page hpage => Or.inl ⟨hpage, hframe.cursor⟩⟩
      intro page hpage
      simp only [hframe.cursor]
      exact hi'.paged page hpage
    | offer hoffers =>
      refine ⟨⟨hi'.unlocked, hi'.vaultId, hi'.cursor, ?_, (fun _ h => nomatch h),
        (fun _ h => nomatch h)⟩, Or.inl le_rfl, fun _ h => nomatch h⟩
      intro sent hsent
      cases hsent
      exact sendable_of_batch hi.unlocked hoffers.batch
    | hear =>
      exact ⟨⟨hi'.unlocked, hi'.vaultId, hi'.cursor, (fun _ h => nomatch h), (fun _ h => nomatch h),
        (fun _ h => nomatch h)⟩, Or.inl le_rfl, fun _ h => nomatch h⟩
    | lose =>
      exact ⟨⟨hi'.unlocked, hi'.vaultId, hi'.cursor, (fun _ h => nomatch h), (fun _ h => nomatch h),
        (fun _ h => nomatch h)⟩, Or.inl le_rfl, fun _ h => nomatch h⟩
    | @mark sent response _ =>
      obtain ⟨hframe, -⟩ := (w.devices i).store.markPushed_spec (acceptedOf sent response)
      exact ⟨⟨hframe.vault.trans hi'.unlocked, hframe.vaultId.trans hi'.vaultId,
        hframe.cursor.trans_le hi'.cursor, (fun _ h => nomatch h), (fun _ h => nomatch h),
        (fun _ h => nomatch h)⟩, Or.inl hframe.cursor.le, fun _ h => nomatch h⟩
    | merge nowMs _ happly =>
      have hframe := (Store.applyEnvelopes_touched happly).1
      exact ⟨⟨hframe.vault.trans hi'.unlocked, hframe.vaultId.trans hi'.vaultId,
        hframe.cursor.trans_le hi'.cursor, (fun _ h => nomatch h), (fun _ h => nomatch h),
        (fun _ h => nomatch h)⟩, Or.inl hframe.cursor.le, fun _ h => nomatch h⟩
    | fetch page =>
      obtain ⟨rfl, rfl⟩ := hans
      have hpage := MemoryServer.pull_spec h.server (w.devices i).store.cursor maxBatch
      refine ⟨⟨hi.unlocked, hi.vaultId, hi.cursor, (fun _ h => nomatch h), ?_,
        (fun _ h => nomatch h)⟩, Or.inl le_rfl, fun _ h => nomatch h⟩
      intro page' hpage'
      cases hpage'
      exact ⟨hpage.cursor_le hi.cursor, hpage.covers⟩
    | @apply page nowMs _ _ hflight happly =>
      have hframe := (Store.applyEnvelopes_touched happly).1
      refine ⟨⟨hframe.vault.trans hi'.unlocked, hframe.vaultId.trans hi'.vaultId,
        hframe.cursor.trans_le hi'.cursor, (fun _ h => nomatch h), (fun _ h => nomatch h), ?_⟩,
        Or.inl hframe.cursor.le, ?_⟩
      · intro page' hpage'
        cases hpage'
        exact (hi'.paged page hflight).1
      · intro page' hpage'
        cases hpage'
        exact Or.inr ⟨hflight, rfl⟩
    | @advance page hflight _ =>
      have hle := hi'.applied page hflight
      refine ⟨⟨hi'.unlocked, hi'.vaultId, hle, ?_, ?_, ?_⟩, Or.inr ⟨page, hflight, le_rfl⟩, ?_⟩
      all_goals
        intro x hx
        simp only at hx
        split at hx <;> cases hx
    | settle =>
      exact ⟨⟨hi'.unlocked, hi'.vaultId, hi'.cursor, (fun _ h => nomatch h), (fun _ h => nomatch h),
        (fun _ h => nomatch h)⟩, Or.inl le_rfl, fun _ h => nomatch h⟩
    | cut =>
      exact ⟨⟨hi'.unlocked, hi'.vaultId, hi'.cursor, (fun _ h => nomatch h), (fun _ h => nomatch h),
        (fun _ h => nomatch h)⟩, Or.inl le_rfl, fun _ h => nomatch h⟩
    | rewind =>
      exact ⟨⟨hi'.unlocked, hi'.vaultId, Nat.zero_le _, (fun _ h => nomatch h),
        (fun _ h => nomatch h), (fun _ h => nomatch h)⟩, Or.inl (Nat.zero_le _),
        fun _ h => nomatch h⟩
  obtain ⟨hready, hcursor, hbatched⟩ := hown
  refine ⟨hserver, hclaim, ?_, ?_, ?_⟩
  · intro j
    by_cases hj : j = i
    · subst hj
      rwa [after_devices_self]
    · rw [after_devices_of_ne _ hj]
      exact (h.device j).grown hgrown
  · intro j x env hlookup hle
    by_cases hj : j = i
    · subst hj
      rw [after_devices_self] at hle
      rcases hcursor with hcursor | ⟨page, hflight, hcursor⟩
      · have hle' := hle.trans hcursor
        have hold := hgrown.old x env hlookup (hle'.trans hi.cursor)
        exact (h.behind j x env hold hle').after _ _ _ _
      · have hle' := hle.trans hcursor
        have hold := hgrown.old x env hlookup (hle'.trans (hi.applied page hflight))
        exact (h.batched j page hflight x env hold hle').after _ _ _ _
    · rw [after_devices_of_ne _ hj] at hle
      have hold := hgrown.old x env hlookup (hle.trans (h.device j).cursor)
      exact (h.behind j x env hold hle).after _ _ _ _
  · intro j page hflight x env hlookup hle
    by_cases hj : j = i
    · subst hj
      rw [after_devices_self] at hflight
      rcases hbatched page hflight with ⟨hold, -⟩ | ⟨hpaged, rfl⟩
      · have hlookup' := hgrown.old x env hlookup (hle.trans (hi.applied page hold))
        exact (h.batched j page hold x env hlookup' hle).after _ _ _ _
      · obtain ⟨hpage, hcovers⟩ := hi.paged page hpaged
        have hlookup' := hgrown.old x env hlookup (hle.trans hpage)
        by_cases hseen : env.seq.getD 0 ≤ (w.devices j).store.cursor
        · exact (h.behind j x env hlookup' hseen).after _ _ _ _
        · exact ⟨page.envelopes, List.mem_cons_self .., hcovers x env hlookup' (by omega) hle⟩
    · rw [after_devices_of_ne _ hj] at hflight
      have hold := hgrown.old x env hlookup (hle.trans ((h.device j).applied page hflight))
      exact (h.batched j page hflight x env hold hle).after _ _ _ _

end base

section proper

variable (kindOf : Uuid → EntityKind) (vault : UnlockedVault)

/-- A write as the protocol has it: of the record's own kind, with a later clock than
the version it replaces, and never bringing a tombstone back. -/
structure Rises (s : Store) (kind : EntityKind) (id : Uuid) (v : Version) (t : Store) : Prop where
  kind_eq : kind = kindOf id
  later : (s.cell kind id).version.updatedAt < v.updatedAt
  final : (s.cell kind id).version.deleted = true → v.deleted = true
  readable : kind = .manifest → ∀ row, t.row? .manifest id = some row →
    Store.GoodManifest vault.vaultId id row

def Authentic (env : Envelope) : Prop := vault.Sound env ∧ env.kind = kindOf env.id

/-- Authentic envelopes, at most one of each record. -/
def Goods (envelopes : List Envelope) : Prop :=
  (∀ env ∈ envelopes, Authentic kindOf vault env) ∧ (envelopes.map (·.id)).Nodup

end proper

end World

/-- The batch that is on its way to the server, and what is on its way into the store. -/
def Flight.sent : Flight → List Envelope
  | .pushing sent => sent
  | .answered sent _ => sent
  | _ => []

def Flight.incoming : Flight → List Envelope
  | .answered _ response => response.conflicts
  | .merging conflicts => conflicts
  | .paged page => page.envelopes
  | _ => []

def Flight.accepted : Flight → List Accepted
  | .answered _ response => response.accepted
  | _ => []

namespace World

section proper

variable {ι : Type} [DecidableEq ι] (kindOf : Uuid → EntityKind) (vault : UnlockedVault)

/-- What holds of a device that writes as the protocol has it. -/
structure Honest (d : Device) : Prop where
  waiting : ∀ kind id, (d.store.cell kind id).dirty = true → kind = kindOf id
  manifests : ∀ id row, d.store.row? .manifest id = some row →
    Store.GoodManifest vault.vaultId id row
  sent : Goods kindOf vault d.flight.sent
  current : ∀ env ∈ d.flight.sent, d.store.Current env
  incoming : Goods kindOf vault d.flight.incoming
  once : (d.flight.accepted.map (·.id)).Nodup

structure Proper (w : World ι) : Prop where
  records : ∀ x env, w.server.records.lookup x = some env → Authentic kindOf vault env
  device : ∀ i, Honest kindOf vault (w.devices i)

omit [DecidableEq ι] in
theorem proper_initial (deviceId : ι → UInt32) :
    Proper kindOf vault (initial vault deviceId) where
  records := by simp [initial, MemoryServer.new]
  device := fun i =>
    { waiting := fun kind id h => by
        rw [Store.cell_of_none (by simp [initial, Store.empty, Store.row?])] at h
        cases h
      manifests := fun id row h => by simp [initial, Store.empty, Store.row?] at h
      sent := ⟨by simp [initial, Flight.sent], by simp [initial, Flight.sent]⟩
      current := by simp [initial, Flight.sent]
      incoming := ⟨by simp [initial, Flight.incoming], by simp [initial, Flight.incoming]⟩
      once := by simp [initial, Flight.accepted] }

variable {kindOf vault}

theorem goods_nil : Goods kindOf vault [] := ⟨by simp, by simp⟩

theorem readable_of_payload {id : Uuid} {kind : EntityKind} {cols : Cols kind} {plain : Plain}
    (h : payloadOf vault id kind cols = some plain)
    (hmanifest : ∀ bytes : List UInt8, kind = .manifest → plain = .bytes bytes →
      ∃ m, Manifest.decode bytes = some m ∧ id = manifestId vault.vaultId m.device) :
    plain.Readable vault.vaultId id kind := by
  cases kind with
  | terminalProfile => cases cols
  | secret => trivial
  | manifest =>
    cases h
    obtain ⟨m, hdecode, hid⟩ := hmanifest cols rfl rfl
    exact ⟨cols, m, rfl, hdecode, hid⟩
  | _ =>
    cases h
    rfl

/-- The envelope of a waiting row of an honest device is authentic. -/
theorem Honest.authentic {d : Device} (h : Honest kindOf vault d) {env : Envelope}
    {row : Row (Cols env.kind)} (hrow : d.store.row? env.kind env.id = some row)
    (hdirty : row.dirty = true) (hof : env.OfRow vault row) : Authentic kindOf vault env := by
  have hkind : env.kind = kindOf env.id := h.waiting env.kind env.id (by
    rw [Store.cell_of_some hrow]
    exact hdirty)
  obtain ⟨plain, hplain, hopen⟩ := hof.opened
  refine ⟨⟨hof.vaultId, ?_, plain, hopen, ?_⟩, hkind⟩
  · have hcols := row.cols
    generalize env.kind = kind at hcols
    cases kind with
    | terminalProfile => cases hcols
    | _ => rfl
  · intro hlive
    have hdeleted : row.deleted = false := by
      rw [← hlive]
      exact (congrArg Version.deleted hof.version).symm
    rw [plainOfRow, if_neg (by simp [hdeleted])] at hplain
    unfold Envelope.Readable
    rw [hof.vaultId]
    refine readable_of_payload hplain ?_
    rintro bytes hmanifest rfl
    have hgood := h.manifests env.id
    clear hof hopen hkind hdirty hlive
    generalize env.kind = kind at *
    subst hmanifest
    cases hplain
    exact hgood row hrow hdeleted

theorem Honest.goods {d : Device} (h : Honest kindOf vault d) (hvault : d.store.vault = some vault)
    {sent : List Envelope} (hbatch : d.store.Batch sent) : Goods kindOf vault sent := by
  have hall : ∀ env ∈ sent, Authentic kindOf vault env := by
    intro env henv
    obtain ⟨vault', row, hvault', hrow, hdirty, hof⟩ := hbatch.rows env henv
    rw [hvault] at hvault'
    cases hvault'
    exact h.authentic hrow hdirty hof
  refine ⟨hall, ?_⟩
  -- Two envelopes with one id are of one kind, so they are about one row.
  have hkeys : sent.map Store.keyOf = (sent.map (·.id)).map fun id => (kindOf id, id) := by
    rw [List.map_map]
    refine List.map_congr_left fun env henv => ?_
    rw [Store.keyOf, (hall env henv).2]
    rfl
  have hnodup := hbatch.nodup
  rw [hkeys] at hnodup
  exact hnodup.of_map

/-- What one of its steps leaves of an honest device, if what comes in is authentic. -/
theorem Honest.step {rule : WriteRule}
    (hrule : ∀ s kind id v t, rule s kind id v t → Rises kindOf vault s kind id v t)
    {d d' : Device} {e : Event} (h : Honest kindOf vault d) (hvault : d.store.vault = some vault)
    (hstep : Device.Step rule d e d')
    (hheard : ∀ sent response, e = .heard sent response →
      Goods kindOf vault response.conflicts ∧ (response.accepted.map (·.id)).Nodup)
    (hhanded : ∀ since page, e = .handed since page → Goods kindOf vault page.envelopes) :
    Honest kindOf vault d' := by
  have happlied : ∀ {envelopes nowMs t report}, d.store.applyEnvelopes envelopes nowMs =
      .ok (t, report) → (∀ kind id, (t.cell kind id).dirty = true → kind = kindOf id) ∧
        ∀ id row, t.row? .manifest id = some row → Store.GoodManifest vault.vaultId id row := by
    intro envelopes nowMs t report happly
    refine ⟨fun kind id hdirty => h.waiting kind id (Store.applyEnvelopes_dirty happly hdirty).1, ?_⟩
    intro id row hrow
    rcases Store.applyEnvelopes_manifest happly hvault hrow with
      ⟨old, hold, hcols, hdel⟩ | ⟨env, -, -, -, -, -, hgood⟩
    · intro hlive
      rw [hcols]
      exact h.manifests id old hold (hdel hlive)
    · exact hgood
  cases hstep with
  | @write kind id v t hedit hr =>
    have hrises := hrule _ _ _ _ _ hr
    refine ⟨?_, ?_, h.sent, ?_, h.incoming, h.once⟩
    · intro kind' id' hdirty
      by_cases heq : kind' = kind ∧ id' = id
      · obtain ⟨rfl, rfl⟩ := heq
        exact hrises.kind_eq
      · rw [hedit.cell_of_ne heq] at hdirty
        exact h.waiting kind' id' hdirty
    · intro id' row hrow
      by_cases heq : EntityKind.manifest = kind ∧ id' = id
      · obtain ⟨rfl, rfl⟩ := heq
        exact hrises.readable rfl row hrow
      · rw [hedit.row?_of_ne heq] at hrow
        exact h.manifests id' row hrow
    · intro env henv
      have hcurrent := h.current env henv
      unfold Store.Current at hcurrent ⊢
      by_cases heq : env.kind = kind ∧ env.id = id
      · obtain ⟨rfl, rfl⟩ := heq
        right
        have hlater := hrises.later
        rw [hedit.cell_self]
        rcases hcurrent with hsame | hlt
        · rwa [hsame] at hlater
        · exact hlt.trans hlater
      · rwa [hedit.cell_of_ne heq]
  | offer hoffers =>
    have hbatch := hoffers.batch
    exact ⟨h.waiting, h.manifests, h.goods hvault hbatch, fun env henv => hbatch.current henv,
      goods_nil, List.nodup_nil⟩
  | @hear sent response hflight =>
    have hsent := h.sent
    have hcurrent := h.current
    rw [hflight] at hsent hcurrent
    obtain ⟨hincoming, honce⟩ := hheard sent response rfl
    exact ⟨h.waiting, h.manifests, hsent, hcurrent, hincoming, honce⟩
  | lose => exact ⟨h.waiting, h.manifests, goods_nil, by simp [Flight.sent], goods_nil, List.nodup_nil⟩
  | @mark sent response hflight =>
    have hincoming := h.incoming
    rw [hflight] at hincoming
    obtain ⟨-, hsuper, -, hmarked⟩ := d.store.markPushed_spec (acceptedOf sent response)
    refine ⟨?_, ?_, goods_nil, by simp [Flight.sent], hincoming, List.nodup_nil⟩
    · intro kind id hdirty
      rcases (hmarked kind id).cell hsuper with heq | ⟨p, -, -, -, -, heq⟩
      · rw [heq] at hdirty
        exact h.waiting kind id hdirty
      · rw [heq] at hdirty
        cases hdirty
    · intro id row hrow
      rcases hmarked .manifest id with heq | ⟨p, -, -, -, old, hold, -, hnew⟩
      · rw [heq] at hrow
        exact h.manifests id row hrow
      · rw [hnew] at hrow
        cases hrow
        exact h.manifests id old hold
  | merge nowMs _ happly =>
    exact ⟨(happlied happly).1, (happlied happly).2, goods_nil, by simp [Flight.sent], goods_nil, List.nodup_nil⟩
  | fetch page =>
    exact ⟨h.waiting, h.manifests, goods_nil, by simp [Flight.sent], hhanded _ page rfl,
      List.nodup_nil⟩
  | apply nowMs _ happly =>
    exact ⟨(happlied happly).1, (happlied happly).2, goods_nil, by simp [Flight.sent], goods_nil, List.nodup_nil⟩
  | @advance page _ _ =>
    have hnone : ∀ b : Bool, (if b = true then Flight.idle else Flight.pulled).sent = [] ∧
        (if b = true then Flight.idle else Flight.pulled).incoming = [] ∧
        (if b = true then Flight.idle else Flight.pulled).accepted = [] := by decide
    obtain ⟨hsent, hincoming, haccepted⟩ := hnone page.hasMore
    refine ⟨h.waiting, h.manifests, ?_, ?_, ?_, ?_⟩
    · rw [hsent]
      exact goods_nil
    · rw [hsent]
      simp
    · rw [hincoming]
      exact goods_nil
    · rw [haccepted]
      exact List.nodup_nil
  | settle => exact ⟨h.waiting, h.manifests, goods_nil, by simp [Flight.sent], goods_nil, List.nodup_nil⟩
  | cut => exact ⟨h.waiting, h.manifests, goods_nil, by simp [Flight.sent], goods_nil, List.nodup_nil⟩
  | rewind => exact ⟨h.waiting, h.manifests, goods_nil, by simp [Flight.sent], goods_nil, List.nodup_nil⟩

/-- A record with another number is as authentic. -/
theorem Authentic.numbered {env : Envelope} (h : Authentic kindOf vault env) (q : Option ℕ) :
    Authentic kindOf vault { env with seq := q } := h

theorem authentic_of_answered {server server' : MemoryServer} {sent : List Envelope}
    {accepted : List Accepted} {conflicts : List Envelope}
    (hrun : MemoryServer.Answered server sent server' accepted conflicts)
    (hsent : ∀ env ∈ sent, Authentic kindOf vault env)
    (h : ∀ x env, server.records.lookup x = some env → Authentic kindOf vault env) :
    (∀ x env, server'.records.lookup x = some env → Authentic kindOf vault env) ∧
      ∀ env ∈ conflicts, Authentic kindOf vault env := by
  induction hrun with
  | nil => exact ⟨h, by simp⟩
  | @accept server server' env rest accepted conflicts _ _ ih =>
    refine ih (fun e he => hsent e (List.mem_cons_of_mem _ he)) ?_
    intro x e hlookup
    by_cases hx : x = env.id
    · subst hx
      rw [MemoryServer.lookup_take_self] at hlookup
      cases hlookup
      exact (hsent env (List.mem_cons_self ..)).numbered _
    · rw [MemoryServer.lookup_take_of_ne _ hx] at hlookup
      exact h x e hlookup
  | @conflict server server' env current rest accepted conflicts hcur _ _ ih =>
    obtain ⟨hrecords, hconf⟩ := ih (fun e he => hsent e (List.mem_cons_of_mem _ he)) h
    refine ⟨hrecords, ?_⟩
    intro e he
    rcases List.mem_cons.mp he with rfl | he
    · exact h _ _ hcur
    · exact hconf e he

/-- The ids of the refused records, in the order of the request. -/
theorem conflicts_sublist {server server' : MemoryServer} {sent : List Envelope}
    {accepted : List Accepted} {conflicts : List Envelope}
    (hrun : MemoryServer.Answered server sent server' accepted conflicts)
    (h : server.WellFormed) : (conflicts.map (·.id)).Sublist (sent.map (·.id)) := by
  induction hrun with
  | nil => exact .refl _
  | accept _ _ ih => exact (ih (h.take _)).cons _
  | @conflict server server' env current rest accepted conflicts hcur _ _ ih =>
    rw [List.map_cons, List.map_cons, h.filed _ _ hcur]
    exact (ih (h.claim _)).cons_cons _

theorem accepted_sublist {server server' : MemoryServer} {sent : List Envelope}
    {accepted : List Accepted} {conflicts : List Envelope}
    (hrun : MemoryServer.Answered server sent server' accepted conflicts) :
    (accepted.map (·.id)).Sublist (sent.map (·.id)) := by
  induction hrun with
  | nil => exact .refl _
  | accept _ _ ih => exact ih.cons_cons _
  | conflict _ _ _ ih => exact ih.cons _

/-- One step of a world in which everybody writes as the protocol has it. -/
theorem Proper.step {rule : WriteRule}
    (hrule : ∀ s kind id v t, rule s kind id v t → Rises kindOf vault s kind id v t)
    {w w' : World ι} (hbase : Base vault w) (h : Proper kindOf vault w)
    (hstep : Step rule w w') : Proper kindOf vault w' := by
  obtain ⟨i, hdev, hans⟩ := hstep
  next e d server' =>
  have hi := h.device i
  have hready := hbase.device i
  have hpushed : ∀ {sent result}, (w.devices i).flight = .pushing sent →
      w.server.push sent = (server', result) →
      (∀ x env, server'.records.lookup x = some env → Authentic kindOf vault env) ∧
        ∀ response, result = .ok response → Goods kindOf vault response.conflicts ∧
          (response.accepted.map (·.id)).Nodup := by
    intro sent result hflight hpush
    have hsent := hi.sent
    rw [hflight] at hsent
    obtain ⟨response, rfl, hrun⟩ := (hready.sending sent hflight).push hbase.claimed hpush
    obtain ⟨hrecords, hconf⟩ := authentic_of_answered hrun hsent.1 h.records
    refine ⟨hrecords, ?_⟩
    rintro response' ⟨⟩
    exact ⟨⟨hconf, hsent.2.sublist (conflicts_sublist hrun hbase.server)⟩,
      hsent.2.sublist (accepted_sublist hrun)⟩
  have hrecords : ∀ x env, server'.records.lookup x = some env → Authentic kindOf vault env := by
    cases hdev with
    | hear response hflight => exact (hpushed hflight hans).1
    | lose hflight =>
      obtain ⟨result, hpush⟩ := hans
      exact (hpushed hflight hpush).1
    | fetch =>
      rw [hans.2]
      exact h.records
    | _ =>
      rw [hans]
      exact h.records
  refine ⟨hrecords, ?_⟩
  intro j
  by_cases hj : j = i
  · subst hj
    rw [after_devices_self]
    refine hi.step hrule hready.unlocked hdev ?_ ?_
    · rintro sent response rfl
      cases hdev with
      | hear _ hflight => exact (hpushed hflight hans).2 response rfl
    · rintro since page rfl
      cases hdev with
      | fetch =>
        obtain ⟨rfl, -⟩ := hans
        have hpage := MemoryServer.pull_spec hbase.server (w.devices j).store.cursor maxBatch
        exact ⟨fun env henv => h.records _ _ (hpage.records env henv).1, hpage.nodup⟩
  · rw [after_devices_of_ne _ hj]
    exact h.device j

theorem proper_run {rule : WriteRule}
    (hrule : ∀ s kind id v t, rule s kind id v t → Rises kindOf vault s kind id v t)
    {w w' : World ι} (hrun : Run.Steps (Step rule) w w') (hbase : Base vault w)
    (hproper : Proper kindOf vault w) : Base vault w' ∧ Proper kindOf vault w' := by
  have hstep : ∀ u v : World ι, Base vault u ∧ Proper kindOf vault u → Step rule u v →
      Base vault v ∧ Proper kindOf vault v :=
    fun u v h hstep => ⟨h.1.step hstep, h.2.step hrule h.1 hstep⟩
  exact Run.invariant hstep hrun ⟨hbase, hproper⟩

end proper

theorem base_run {ι : Type} [DecidableEq ι] {rule : WriteRule} {vault : UnlockedVault} {deviceId : ι → UInt32} {w : World ι}
    (hrun : Run.Steps (Step rule) (initial vault deviceId) w) : Base vault w :=
  Run.invariant (fun _ _ h hstep => h.step hstep) hrun (base_initial vault deviceId)

end World

end UwuSsh

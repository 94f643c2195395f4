import UwuSsh.Sync.Moves

/-!
Every record of a world is a replicated register: the server's version of it with
its number, and each device's copy. A step of the world is a short run of the
register, so what is known of registers holds of records. Records that lost a host-key
slot are followed through what was given up for it.
-/
namespace UwuSsh

open Register

namespace World

variable {ι : Type} [DecidableEq ι]

section abstraction

/-- What the server took of one record. -/
def takenOf (x : Uuid) (sent : List Envelope) (response : PushResponse) :
    Option (Numbered Version) :=
  (response.accepted.find? fun a => a.id = x).bind fun a =>
    (sent.find? fun env => env.id = x).map fun env => (env.version, a.seq)

def numberedOf (x : Uuid) (envelopes : List Envelope) : Option (Numbered Version) :=
  (envelopes.find? fun env => env.id = x).map Envelope.numbered

def phaseOf (x : Uuid) : Flight → Phase Version
  | .idle | .pulled => .idle
  | .pushing sent =>
      .offered ((sent.find? fun env => env.id = x).map fun env => (env.version, env.baseSeq))
  | .answered sent response => .answered (takenOf x sent response) (numberedOf x response.conflicts)
  | .merging conflicts => .merging (numberedOf x conflicts)
  | .paged page => .paged (numberedOf x page.envelopes) page.cursor
  | .applied page => .applied page.cursor

variable (kindOf : Uuid → EntityKind) (x : Uuid)

def peerOf (d : Device) : Peer Version :=
  { cell := d.store.cell (kindOf x) x, cursor := d.store.cursor, phase := phaseOf x d.flight }

/-- The register one record is. -/
def register (w : World ι) : State ι Version where
  current := (w.server.records.lookup x).map Envelope.numbered
  seq := w.server.seq
  peers i := peerOf kindOf x (w.devices i)
  written i := w.written i x

variable {kindOf x}

omit [DecidableEq ι] in
theorem register_initial (vault : UnlockedVault) (deviceId : ι → UInt32) :
    register kindOf x (initial vault deviceId) = Register.initial := by
  have hcell : ∀ i, (Store.empty (deviceId i) vault.vaultId (some vault)).cell (kindOf x) x =
      Cell.blank := by
    intro i
    rw [Store.cell_of_none (by simp [Store.empty, Store.row?]),
      Store.mark_of_not_superseded (by simp [Store.Superseded, Store.empty])]
    rfl
  have hpeer : ∀ i, peerOf kindOf x ((initial vault deviceId).devices i) =
      { cell := .blank, cursor := 0, phase := .idle } := by
    intro i
    simp only [peerOf, initial, phaseOf, hcell]
    rfl
  simp only [register, hpeer]
  simp [Register.initial, initial, MemoryServer.new, written]

theorem written_after_of_ne (w : World ι) {i : ι} {e : Event} (d : Device) (server : MemoryServer)
    (h : ∀ kind v, e ≠ .wrote kind x v) (j : ι) :
    (w.after i e d server).written j x = w.written j x := by
  ext v
  simp only [written, after, List.mem_cons, Prod.mk.injEq, Set.mem_ofPred_eq]
  constructor
  · rintro ⟨kind, ⟨-, heq⟩ | hmem⟩
    · exact absurd heq.symm (h kind v)
    · exact ⟨kind, hmem⟩
  · rintro ⟨kind, hmem⟩
    exact ⟨kind, Or.inr hmem⟩

theorem written_after_self (w : World ι) (i : ι) (kind : EntityKind) (v : Version) (d : Device)
    (server : MemoryServer) :
    (fun j => (w.after i (.wrote kind x v) d server).written j x) =
      Function.update (fun j => w.written j x) i (insert v (w.written i x)) := by
  funext j
  ext u
  by_cases hj : j = i
  · subst hj
    simp only [written, after, List.mem_cons, Prod.mk.injEq, true_and, Event.wrote.injEq,
      Set.mem_ofPred_eq, Function.update_self, Set.mem_insert_iff]
    constructor
    · rintro ⟨kind', ⟨-, heq⟩ | hmem⟩
      · exact Or.inl heq
      · exact Or.inr ⟨kind', hmem⟩
    · rintro (rfl | ⟨kind', hmem⟩)
      · exact ⟨kind, Or.inl ⟨rfl, rfl⟩⟩
      · exact ⟨kind', Or.inr hmem⟩
  · simp [written, after, hj]

/-- An event that writes nothing of the record changes one peer and the server. -/
theorem register_after (w : World ι) (i : ι) {e : Event} (d : Device) (server : MemoryServer)
    (h : ∀ kind v, e ≠ .wrote kind x v) :
    register kindOf x (w.after i e d server) =
      State.setPeer { register kindOf x w with
        current := (server.records.lookup x).map Envelope.numbered, seq := server.seq } i
        (peerOf kindOf x d) := by
  have hpeers : (fun j => peerOf kindOf x ((w.after i e d server).devices j)) =
      Function.update (fun j => peerOf kindOf x (w.devices j)) i (peerOf kindOf x d) := by
    funext j
    by_cases hj : j = i
    · subst hj
      simp
    · rw [after_devices_of_ne _ hj, Function.update_of_ne hj]
  simp only [register, State.setPeer, written_after_of_ne w d server h, hpeers]
  rfl

end abstraction

variable {kindOf : Uuid → EntityKind} {vault : UnlockedVault} {x : Uuid}

/-- The server's answer to a batch, as far as one record goes. -/
theorem serve_of_answered {server server' : MemoryServer} {sent : List Envelope}
    {response : PushResponse}
    (hrun : MemoryServer.Answered server sent server' response.accepted response.conflicts)
    (h : server.WellFormed) (hnodup : (sent.map (·.id)).Nodup) :
    Serve ((server.records.lookup x).map Envelope.numbered, server.seq)
      ((sent.find? fun env => env.id = x).map fun env => (env.version, env.baseSeq))
      ((server'.records.lookup x).map Envelope.numbered, server'.seq)
      (takenOf x sent response) (numberedOf x response.conflicts) := by
  cases hfind : sent.find? fun env => env.id = x with
  | none =>
    have hother : ∀ env ∈ sent, env.id ≠ x := by
      simpa [List.find?_eq_none] using hfind
    obtain ⟨hlookup, hacc, hconf⟩ := hrun.other h hother
    have htaken : takenOf x sent response = none := by
      simp [takenOf, hfind]
    have hconflict : numberedOf x response.conflicts = none := by
      simpa [numberedOf] using hconf
    rw [htaken, hconflict, hlookup]
    exact .other hrun.seq_le
  | some env =>
    have hid : env.id = x := by simpa using List.find?_some hfind
    subst hid
    have hfate := hrun.fate h hnodup (List.mem_of_find?_eq_some hfind)
    cases hfate with
    | accepted q hbase hlt hle hlookup hacc hconf =>
      have htaken : takenOf env.id sent response = some (env.version, q) := by
        rw [takenOf, hfind, ← List.head?_filter, hacc]
        rfl
      have hconflict : numberedOf env.id response.conflicts = none := by
        simpa [numberedOf] using hconf
      rw [htaken, hconflict, hlookup]
      refine .accept ?_ hlt hle
      intro m hm
      obtain ⟨current, hcurrent, rfl⟩ := Option.map_eq_some_iff.mp hm
      exact hbase current hcurrent
    | refused current hcurrent hbase hlookup hacc hconf =>
      have htaken : takenOf env.id sent response = none := by
        have hnone : response.accepted.find? (fun a => a.id = env.id) = none := by
          simpa [List.find?_eq_none] using hacc
        simp [takenOf, hnone]
      have hconflict : numberedOf env.id response.conflicts = some current.numbered := by
        rw [numberedOf, ← List.head?_filter, hconf]
        rfl
      rw [htaken, hconflict, hlookup, hcurrent]
      exact .conflict hrun.seq_le

/-- Among envelopes of different records one record is found by its id. -/
theorem filter_id_eq {envelopes : List Envelope} (h : (envelopes.map (·.id)).Nodup)
    {env : Envelope} (henv : env ∈ envelopes) :
    envelopes.filter (fun e => e.id = env.id) = [env] := by
  induction envelopes with
  | nil => cases henv
  | cons first rest ih =>
    rw [List.map_cons, List.nodup_cons] at h
    rcases List.mem_cons.mp henv with rfl | hmem
    · have hnone : rest.filter (fun e => e.id = env.id) = [] := by
        refine List.filter_eq_nil_iff.mpr fun e he => ?_
        simp only [decide_eq_true_eq]
        exact fun heq => h.1 (heq ▸ List.mem_map_of_mem he)
      rw [List.filter_cons_of_pos (by simp), hnone]
    · have hne : first.id ≠ env.id := fun heq => h.1 (heq ▸ List.mem_map_of_mem hmem)
      rw [List.filter_cons_of_neg (by simpa using hne)]
      exact ih h.2 hmem

theorem find_id_eq {envelopes : List Envelope} (h : (envelopes.map (·.id)).Nodup)
    {env : Envelope} (henv : env ∈ envelopes) :
    envelopes.find? (fun e => e.id = env.id) = some env := by
  rw [← List.head?_filter, filter_id_eq h henv]
  rfl

theorem about_of_goods {envelopes : List Envelope} (h : Goods kindOf vault envelopes) :
    Store.about (kindOf x) x envelopes = envelopes.filter fun env => env.id = x := by
  refine List.filter_congr fun env henv => ?_
  have hkind := (h.1 env henv).2
  by_cases hid : env.id = x
  · subst hid
    simp [hkind]
  · simp [hid]

theorem numberedOf_of_goods {envelopes : List Envelope} (h : Goods kindOf vault envelopes) :
    ((Store.about (kindOf x) x envelopes).map Envelope.numbered).head? =
      numberedOf x envelopes := by
  rw [about_of_goods h, List.head?_map, List.head?_filter]
  rfl

theorem length_about_of_goods {envelopes : List Envelope} (h : Goods kindOf vault envelopes) :
    (Store.about (kindOf x) x envelopes).length ≤ 1 := by
  rw [about_of_goods h]
  by_cases hmem : ∃ env ∈ envelopes, env.id = x
  · obtain ⟨env, henv, rfl⟩ := hmem
    rw [filter_id_eq h.2 henv]
    simp
  · have hnone : envelopes.filter (fun env => env.id = x) = [] := by
      refine List.filter_eq_nil_iff.mpr fun env henv => ?_
      simp only [decide_eq_true_eq]
      exact fun hid => hmem ⟨env, henv, hid⟩
    rw [hnone]
    simp

theorem find_accepted {accepted : List Accepted} (h : (accepted.map (·.id)).Nodup) {a : Accepted}
    (ha : a ∈ accepted) (hid : a.id = x) : accepted.find? (fun a => a.id = x) = some a := by
  subst hid
  induction accepted with
  | nil => cases ha
  | cons first rest ih =>
    rw [List.map_cons, List.nodup_cons] at h
    rcases List.mem_cons.mp ha with rfl | hmem
    · simp
    · have hne : first.id ≠ a.id := fun heq => h.1 (heq ▸ List.mem_map_of_mem hmem)
      rw [List.find?_cons_of_neg (by simpa using hne)]
      exact ih h.2 hmem

/-- A page of an honest server, as far as one record goes. -/
theorem pageOf_pull {server : MemoryServer} {since : ℕ} {page : PullResponse}
    (h : server.WellFormed) (hpage : server.Page since page) :
    PageOf ((server.records.lookup x).map Envelope.numbered) since page.cursor
      (numberedOf x page.envelopes) := by
  constructor
  · intro m hm
    obtain ⟨env, hfind, rfl⟩ := Option.map_eq_some_iff.mp hm
    have hid : env.id = x := by simpa using List.find?_some hfind
    obtain ⟨hlookup, hlt⟩ := hpage.records env (List.mem_of_find?_eq_some hfind)
    rw [← hid, hlookup]
    exact ⟨rfl, hlt⟩
  · intro m hm hlt hle
    obtain ⟨env, hlookup, rfl⟩ := Option.map_eq_some_iff.mp hm
    have hmem := hpage.covers x env hlookup hlt hle
    have hid := h.filed x env hlookup
    rw [numberedOf, ← hid, find_id_eq hpage.nodup hmem]
    rfl

/-- How a batch was digested at one record, on the device that applied it. -/
def Digests (tomb : Version → Prop) (kindOf : Uuid → EntityKind) (x : Uuid) (s : Store)
    (envelopes : List Envelope) (t : Store) : Prop :=
  Digest tomb (s.cell (kindOf x) x)
    ((Store.about (kindOf x) x envelopes).map Envelope.numbered) (t.cell (kindOf x) x)

/-- A step of the world is a run of each record's register. -/
theorem simulates {tomb : Version → Prop} {rule : WriteRule}
    (hrule : ∀ s kind id v t, rule s kind id v t → Rises kindOf vault s kind id v t)
    {w : World ι} (hbase : Base vault w) (hproper : Proper kindOf vault w)
    {i : ι} {e : Event} {d : Device} {server : MemoryServer}
    (hdev : Device.Step rule (w.devices i) e d) (hans : w.server.Answers e server)
    (hdigest : ∀ envelopes, e = .applied envelopes →
      Digests tomb kindOf x (w.devices i).store envelopes d.store) :
    Run.Steps (Register.Step tomb) (register kindOf x w)
      (register kindOf x (w.after i e d server)) := by
  have hready := hbase.device i
  have honest := hproper.device i
  have hpushed : ∀ {sent result}, (w.devices i).flight = .pushing sent →
      w.server.push sent = (server, result) → ∃ response, result = .ok response ∧
        Serve ((register kindOf x w).current, (register kindOf x w).seq)
          ((sent.find? fun env => env.id = x).map fun env => (env.version, env.baseSeq))
          ((server.records.lookup x).map Envelope.numbered, server.seq)
          (takenOf x sent response) (numberedOf x response.conflicts) := by
    intro sent result hflight hpush
    have hsent := honest.sent
    rw [hflight] at hsent
    obtain ⟨response, hok, hrun⟩ := (hready.sending sent hflight).push hbase.claimed hpush
    exact ⟨response, hok, serve_of_answered hrun hbase.server hsent.2⟩
  cases hdev with
  | @write kind id v t hedit hr =>
    cases hans
    have hrises := hrule _ _ _ _ _ hr
    have hcursor : t.cursor = (w.devices i).store.cursor := hedit.frame.cursor
    by_cases hid : id = x
    · subst hid
      have hkind := hrises.kind_eq
      subst hkind
      have hlt : ((register kindOf id w).peers i).cell.version < v :=
        Version.lt_of_clock_lt hrises.later hrises.final
      have hstep : Register.Step tomb _ _ := .write (register kindOf id w) i v hlt
      have heq : register kindOf id (w.after i (.wrote (kindOf id) id v)
          { w.devices i with store := t } w.server) =
          { register kindOf id w with
            peers := Function.update (register kindOf id w).peers i
              { (register kindOf id w).peers i with
                cell := { ((register kindOf id w).peers i).cell with version := v, dirty := true } }
            written := Function.update (register kindOf id w).written i
              (insert v ((register kindOf id w).written i)) } := by
        have hwritten := written_after_self (x := id) w i (kindOf id) v
          { w.devices i with store := t } w.server
        have hpeers : (register kindOf id (w.after i (.wrote (kindOf id) id v)
            { w.devices i with store := t } w.server)).peers =
            Function.update (register kindOf id w).peers i
              { (register kindOf id w).peers i with
                cell := { ((register kindOf id w).peers i).cell with
                  version := v, dirty := true } } := by
          funext j
          by_cases hj : j = i
          · subst hj
            rw [Function.update_self]
            simp only [register, after_devices_self, peerOf, hedit.cell_self, hcursor]
          · rw [Function.update_of_ne hj]
            simp only [register, after_devices_of_ne _ hj]
        rw [← hpeers]
        simp only [register] at hwritten ⊢
        rw [hwritten]
        rfl
      rw [heq]
      exact Relation.ReflTransGen.single hstep
    · have hother : ∀ kind' v', Event.wrote kind id v ≠ .wrote kind' x v' := by
        rintro kind' v' ⟨⟩
        exact hid rfl
      rw [register_after w i _ _ hother]
      have hcell : t.cell (kindOf x) x = (w.devices i).store.cell (kindOf x) x :=
        hedit.cell_of_ne fun h => hid h.2.symm
      have hpeer : peerOf kindOf x { w.devices i with store := t } =
          (register kindOf x w).peers i := by
        simp only [peerOf, register, hcell, hcursor]
      rw [hpeer]
      have hself := State.setPeer_self (register kindOf x w) i
      change Run.Steps _ _ (State.setPeer (register kindOf x w) i _)
      rw [hself]
  | @offer sent hoffers =>
    cases hans
    have hbatch := hoffers.batch
    have hgoods := honest.goods hready.unlocked hbatch
    rw [register_after w i _ _ (by simp)]
    refine Relation.ReflTransGen.single (.offer (register kindOf x w) i _ ?_)
    intro m hm
    obtain ⟨env, hfind, rfl⟩ := Option.map_eq_some_iff.mp hm
    have hid : env.id = x := by simpa using List.find?_some hfind
    have hmem := List.mem_of_find?_eq_some hfind
    obtain ⟨vault', row, -, hrow, hdirty, hof⟩ := hbatch.rows env hmem
    have hcell : (w.devices i).store.cell (kindOf x) x =
        row.cell ((w.devices i).store.mark (kindOf x) x) := by
      rw [← hid, ← (hgoods.1 env hmem).2, Store.cell_of_some hrow]
    simp only [register, peerOf, hcell]
    refine ⟨hdirty, ?_⟩
    rw [hof.version, hof.base]
    rfl
  | @hear sent response hflight =>
    obtain ⟨response', hok, hserve⟩ := hpushed hflight hans
    cases hok
    rw [register_after w i _ _ (by simp)]
    refine Relation.ReflTransGen.single (.serve (register kindOf x w) i ?_ hserve)
    simp only [register, peerOf, hflight, phaseOf]
  | @lose sent hflight =>
    obtain ⟨result, hpush⟩ := hans
    obtain ⟨response, -, hserve⟩ := hpushed hflight hpush
    rw [register_after w i _ _ (by simp)]
    have hfirst : Register.Step tomb _ _ :=
      .serve (register kindOf x w) i (by simp only [register, peerOf, hflight, phaseOf]) hserve
    exact (Relation.ReflTransGen.single hfirst).tail (.cut_setPeer _ i _)
  | @mark sent response hflight =>
    cases hans
    rw [register_after w i _ _ (by simp)]
    obtain ⟨hframe, hsuper, -, hmarked⟩ :=
      (w.devices i).store.markPushed_spec (acceptedOf sent response)
    have hsent := honest.sent
    have hcurrent := honest.current
    rw [hflight] at hsent hcurrent
    have hpeer : ∀ c, ((w.devices i).store.markPushed (acceptedOf sent response)).1.cell
        (kindOf x) x = c → peerOf kindOf x
          { store := ((w.devices i).store.markPushed (acceptedOf sent response)).1
            flight := .merging response.conflicts } =
          { (register kindOf x w).peers i with
            cell := c, phase := .merging (numberedOf x response.conflicts) } := by
      rintro c rfl
      simp only [peerOf, hframe.cursor, phaseOf, register]
    have hphase : ((register kindOf x w).peers i).phase =
        .answered (takenOf x sent response) (numberedOf x response.conflicts) := by
      simp only [register, peerOf, hflight, phaseOf]
    rw [hpeer _ rfl]
    refine Relation.ReflTransGen.single (.mark (register kindOf x w) i _ hphase ?_)
    rcases (hmarked (kindOf x) x).cell hsuper with heq | ⟨p, hp, hkind, hid, hclock, heq⟩
    · exact Or.inl heq
    · right
      obtain ⟨env, henv, a, ha, -, hpid, heid, hpkind, hpclock, hpseq⟩ := mem_acceptedOf hp
      have hax : a.id = x := hpid.symm.trans hid
      have hex : env.id = x := heid.trans hax
      have honce := honest.once
      rw [hflight] at honce
      have hversion : ((w.devices i).store.cell (kindOf x) x).version = env.version := by
        have hcur := hcurrent env henv
        rw [Store.Current, ← hpkind, hkind, hex] at hcur
        rcases hcur with heq | hlt
        · exact heq
        · rw [hclock, hpclock] at hlt
          exact absurd hlt (lt_irrefl _)
      refine ⟨p.seq, ?_, heq⟩
      have hfind : response.accepted.find? (fun a => a.id = x) = some a :=
        find_accepted honce ha hax
      have hfind' : sent.find? (fun env => env.id = x) = some env := by
        rw [← hex]
        exact find_id_eq hsent.2 henv
      rw [takenOf, hfind, Option.bind_some, hfind', hpseq]
      exact congrArg (fun v => some (v, a.seq)) hversion.symm
  | @merge conflicts nowMs t report hflight happly =>
    cases hans
    rw [register_after w i _ _ (by simp)]
    have hcursor := (Store.applyEnvelopes_touched happly).1.cursor
    have hgoods := honest.incoming
    rw [hflight] at hgoods
    have hgoods : Goods kindOf vault conflicts := hgoods
    have hd : Digest tomb ((register kindOf x w).peers i).cell _ _ := hdigest conflicts rfl
    have hphase : ((register kindOf x w).peers i).phase =
        .merging ((Store.about (kindOf x) x conflicts).map Envelope.numbered).head? := by
      rw [numberedOf_of_goods hgoods]
      simp only [register, peerOf, hflight, phaseOf]
    have hsteps := hd.steps_merge hphase (by simpa using length_about_of_goods hgoods)
    have hpeer : peerOf kindOf x { store := t, flight := .idle } =
        { (register kindOf x w).peers i with cell := t.cell (kindOf x) x, phase := .idle } := by
      simp only [peerOf, register, hcursor, phaseOf]
    rw [hpeer]
    exact hsteps
  | fetch page =>
    obtain ⟨rfl, rfl⟩ := hans
    rw [register_after w i _ _ (by simp)]
    have hpage := MemoryServer.pull_spec hbase.server (w.devices i).store.cursor maxBatch
    refine Relation.ReflTransGen.single (.fetch (register kindOf x w) i _ _ ?_ ?_)
    · exact hpage.cursor_le hready.cursor
    · exact pageOf_pull hbase.server hpage
  | @apply page nowMs t report hflight happly =>
    cases hans
    rw [register_after w i _ _ (by simp)]
    have hcursor := (Store.applyEnvelopes_touched happly).1.cursor
    have hgoods := honest.incoming
    rw [hflight] at hgoods
    have hgoods : Goods kindOf vault page.envelopes := hgoods
    have hd : Digest tomb ((register kindOf x w).peers i).cell _ _ := hdigest page.envelopes rfl
    have hphase : ((register kindOf x w).peers i).phase =
        .paged ((Store.about (kindOf x) x page.envelopes).map Envelope.numbered).head?
          page.cursor := by
      rw [numberedOf_of_goods hgoods]
      simp only [register, peerOf, hflight, phaseOf]
    have hsteps := hd.steps_apply hphase (by simpa using length_about_of_goods hgoods)
    have hpeer : peerOf kindOf x { store := t, flight := .applied page } =
        { (register kindOf x w).peers i with
          cell := t.cell (kindOf x) x, phase := .applied page.cursor } := by
      simp only [peerOf, register, hcursor, phaseOf]
    rw [hpeer]
    exact hsteps
  | @advance page hflight _ =>
    cases hans
    rw [register_after w i _ _ (by simp)]
    have hphase : ((register kindOf x w).peers i).phase = .applied page.cursor := by
      simp only [register, peerOf, hflight, phaseOf]
    have hstep : Register.Step tomb _ _ := .advance (register kindOf x w) i hphase
    have hidle : phaseOf x (if page.hasMore = true then Flight.idle else Flight.pulled) = .idle := by
      split <;> rfl
    have hpeer : peerOf kindOf x
        { store := { (w.devices i).store with cursor := page.cursor }
          flight := if page.hasMore = true then Flight.idle else Flight.pulled } =
        { (register kindOf x w).peers i with cursor := page.cursor, phase := .idle } := by
      simp only [peerOf, register, hidle]
      rfl
    rw [hpeer]
    exact Relation.ReflTransGen.single hstep
  | settle =>
    cases hans
    rw [register_after w i _ _ (by simp)]
    exact Relation.ReflTransGen.single (.cut (register kindOf x w) i)
  | cut =>
    cases hans
    rw [register_after w i _ _ (by simp)]
    exact Relation.ReflTransGen.single (.cut (register kindOf x w) i)
  | rewind =>
    cases hans
    rw [register_after w i _ _ (by simp)]
    exact Relation.ReflTransGen.single (.rewind (register kindOf x w) i)

/-- Nothing that was superseded is forgotten. -/
theorem superseded_of_step {rule : WriteRule} {w w' : World ι} (hstep : Step rule w w') {i : ι}
    (h : (w.devices i).store.Superseded x) : (w'.devices i).store.Superseded x := by
  obtain ⟨j, hdev, -⟩ := hstep
  next e d server =>
  by_cases hj : i = j
  · subst hj
    rw [after_devices_self]
    exact hdev.superseded h
  · rwa [after_devices_of_ne _ hj]

/-- A batch applied by an honest device, at a record that no slot was given up for. -/
theorem digests_of_kept {d d' : Device} {rule : WriteRule} {envelopes : List Envelope}
    (h : Honest kindOf vault d) (hvault : d.store.vault = some vault)
    (hdev : Device.Step rule d (.applied envelopes) d')
    (hkept : kindOf x = .knownHost → ¬ d'.store.Superseded x) :
    Digests Version.IsTomb kindOf x d.store envelopes d'.store := by
  have hgoods := h.incoming
  have hdigest : ∀ {nowMs report}, Goods kindOf vault envelopes →
      d.store.applyEnvelopes envelopes nowMs = .ok (d'.store, report) →
      Digests Version.IsTomb kindOf x d.store envelopes d'.store := by
    intro nowMs report hgoods happly
    refine Store.applyEnvelopes_digest happly hvault (length_about_of_goods hgoods) ?_ hkept
    intro env henv
    exact (hgoods.1 env (List.mem_of_mem_filter henv)).1
  cases hdev with
  | merge nowMs hflight happly =>
    rw [hflight] at hgoods
    exact hdigest hgoods happly
  | apply nowMs hflight happly =>
    rw [hflight] at hgoods
    exact hdigest hgoods happly

/-- Along a run in which everybody writes as the protocol has it, every record that
nobody gave up for a slot is a register along a run of its own. -/
theorem register_run {deviceId : ι → UInt32} {w : World ι}
    (hrun : Run.Steps (Step (Rises kindOf vault)) (initial vault deviceId) w)
    (hkept : kindOf x = .knownHost → ∀ i, ¬ (w.devices i).store.Superseded x) :
    Run.Steps (Register.Step Version.IsTomb) Register.initial (register kindOf x w) := by
  rw [← register_initial vault deviceId]
  have hinv : ∀ u v : World ι, Base vault u ∧ Proper kindOf vault u →
      Step (Rises kindOf vault) u v → Base vault v ∧ Proper kindOf vault v :=
    fun u v h hstep => ⟨h.1.step hstep, h.2.step (fun _ _ _ _ _ h => h) h.1 hstep⟩
  have hback : ∀ u v : World ι, Step (Rises kindOf vault) u v →
      (kindOf x = .knownHost → ∀ i, ¬ (v.devices i).store.Superseded x) →
      kindOf x = .knownHost → ∀ i, ¬ (u.devices i).store.Superseded x :=
    fun u v hstep hgood hkind i hsuper => hgood hkind i (superseded_of_step hstep hsuper)
  refine Run.simulate (register kindOf x) hinv hback ?_ hrun
    ⟨base_initial vault deviceId, proper_initial kindOf vault deviceId⟩ hkept
  rintro u v ⟨hbase, hproper⟩ ⟨i, hdev, hans⟩ hgood
  next e d server =>
  refine simulates (fun _ _ _ _ _ h => h) hbase hproper hdev hans ?_
  rintro envelopes rfl
  refine digests_of_kept (hproper.device i) (hbase.device i).unlocked hdev ?_
  intro hkind hsuper
  exact hgood hkind i (by rwa [after_devices_self])

section converged

theorem clean_of_dirtyCount {s : Store} (h : s.dirtyCount = 0) (kind : EntityKind) (id : Uuid) :
    (s.cell kind id).dirty = false := by
  have hall : kind ∈ EntityKind.all := by cases kind <;> decide
  have hkind : s.dirtyCountOf kind = 0 := by
    have hzero := List.sum_eq_zero_iff.mp h
    exact hzero _ (List.mem_map_of_mem hall)
  cases hrow : s.row? kind id with
  | none =>
    rw [Store.cell_of_none hrow]
    rfl
  | some row =>
    rw [Store.cell_of_some hrow]
    have hnone := List.countP_eq_zero.mp hkind ⟨id, row⟩ (AList.mem_lookup_iff.mp hrow)
    exact Bool.not_eq_true _ ▸ hnone

/-- A device that has nothing more to pull. -/
def CaughtUp (w : World ι) (i : ι) : Prop :=
  w.server.waiting (w.devices i).store.cursor = []

instance (w : World ι) (i : ι) : Decidable (w.CaughtUp i) :=
  inferInstanceAs (Decidable (_ = []))

omit [DecidableEq ι] in
theorem CaughtUp.seen {w : World ι} {i : ι} (h : w.CaughtUp i) (hserver : w.server.WellFormed)
    {env : Envelope} (hlookup : w.server.records.lookup x = some env) :
    env.seq.getD 0 ≤ (w.devices i).store.cursor := by
  by_contra hlt
  have hid := hserver.filed x env hlookup
  have hmem : env ∈ w.server.waiting (w.devices i).store.cursor :=
    (MemoryServer.mem_waiting hserver).mpr ⟨hid ▸ hlookup, by omega⟩
  rw [CaughtUp] at h
  rw [h] at hmem
  cases hmem

/-- No row, or one that only holds the place of a record. -/
def Store.Without (s : Store) (kind : EntityKind) (id : Uuid) : Prop :=
  ∀ row, s.row? kind id = some row → row.version = Version.blank

/-- A row with exactly this version. -/
def Store.Has (s : Store) (kind : EntityKind) (id : Uuid) (v : Version) : Prop :=
  ∃ row, s.row? kind id = some row ∧ row.version = v

theorem Store.without_of_cell {s : Store} {kind : EntityKind} {id : Uuid}
    (h : (s.cell kind id).version = ⊥) : Store.Without s kind id := by
  intro row hrow
  rw [Store.cell_of_some hrow] at h
  exact h

theorem Store.has_of_cell {s : Store} {kind : EntityKind} {id : Uuid} {v : Version} (hv : ⊥ < v)
    (h : (s.cell kind id).version = v) : Store.Has s kind id v := by
  cases hrow : s.row? kind id with
  | none =>
    rw [Store.cell_of_none hrow] at h
    exact absurd h hv.ne
  | some row =>
    rw [Store.cell_of_some hrow] at h
    exact ⟨row, hrow, h⟩

/-- Convergence. When no device has anything left to push and each has pulled to the
end, the server holds the greatest version ever written of a record, and every device
has exactly that one; only a device that never had the record may be without it, when it
was deleted. -/
theorem devices_converge {deviceId : ι → UInt32} {w : World ι}
    (hrun : Run.Steps (Step (Rises kindOf vault)) (initial vault deviceId) w)
    (hclean : ∀ i, (w.devices i).store.dirtyCount = 0) (hpulled : ∀ i, w.CaughtUp i) (id : Uuid)
    (hslot : kindOf id = .knownHost → ∀ i, ¬ (w.devices i).store.Superseded id) :
    ((∀ i, w.written i id = ∅) ∧ w.server.records.lookup id = none ∧
        ∀ i, Store.Without (w.devices i).store (kindOf id) id) ∨
      ∃ env, w.server.records.lookup id = some env ∧
        IsGreatest (⋃ i, w.written i id) env.version ∧
        ∀ i, Store.Has (w.devices i).store (kindOf id) id env.version ∨
          (env.deleted = true ∧ Store.Without (w.devices i).store (kindOf id) id) := by
  have hinv := inv_of_run (register_run hrun hslot)
  have hbase := base_run hrun
  have hseen : ∀ i, ∀ cur ∈ (register kindOf id w).current,
      cur.2 ≤ ((register kindOf id w).peers i).cursor := by
    intro i cur hcur
    obtain ⟨env, hlookup, rfl⟩ := Option.map_eq_some_iff.mp hcur
    exact (hpulled i).seen hbase.server hlookup
  have hmark : ∀ i, ((register kindOf id w).peers i).cell.mark = ⊥ := by
    intro i
    change ((w.devices i).store.cell (kindOf id) id).mark = ⊥
    rw [Store.mark_cell]
    exact Store.mark_of_not_superseded fun hkind => hslot hkind i
  rcases hinv.converged (fun i => clean_of_dirtyCount (hclean i) _ _) hseen hmark with
    ⟨hnone, hcurrent, hbot⟩ | ⟨cur, hcurrent, hgreatest, hpeers⟩
  · left
    refine ⟨fun i => ?_, by simpa [register] using hcurrent, fun i =>
      Store.without_of_cell (hbot i)⟩
    exact Set.subset_eq_empty (Set.subset_iUnion (fun i => w.written i id) i) hnone
  · right
    obtain ⟨env, hlookup, rfl⟩ := Option.map_eq_some_iff.mp hcurrent
    refine ⟨env, hlookup, hgreatest, fun i => ?_⟩
    rcases hpeers i with hhas | ⟨hbot, htomb⟩
    · exact Or.inl (Store.has_of_cell (hinv.positive _ hgreatest.1) hhas)
    · exact Or.inr ⟨htomb, Store.without_of_cell hbot⟩

section examples

/-- A group written and deleted before anybody else heard of it. -/
def shortLivedMoves : List (Bool × Move) :=
  [(true, .write .group 1 ⟨10, 0, 1⟩ false exampleGroup),
   (true, .write .group 1 ⟨11, 0, 1⟩ true exampleGroup)] ++
    pushMoves true 12 ++ pullMoves true 13 ++ pullMoves false 14

/-- Two devices that both trusted a key of one host, under two ids. -/
def rivalMoves : List (Bool × Move) :=
  [(true, .write .knownHost 1 ⟨10, 0, 1⟩ false (exampleKey "a")),
   (false, .write .knownHost 2 ⟨11, 0, 2⟩ false (exampleKey "b"))] ++
    pushMoves true 12 ++ pushMoves false 13 ++ pullMoves true 14 ++ pullMoves false 15

/-- Everybody has pushed and pulled. -/
def Settled (w : World Bool) : Prop :=
  (∀ i, (w.devices i).store.dirtyCount = 0) ∧ ∀ i, w.CaughtUp i

instance (w : World Bool) : Decidable w.Settled := inferInstanceAs (Decidable (_ ∧ _))

/-- The version a device has of a record, if it has a row for it at all. -/
def held (w : World Bool) (i : Bool) (kind : EntityKind) (id : Uuid) : Option Version :=
  ((w.devices i).store.row? kind id).map Row.version

/-- Devices can be done and hold different things: a tombstone is only kept where the
record was, and a host key that lost its slot is nowhere although it was never deleted. -/
theorem settled_devices_differ :
    (∃ w, Run.Steps (Step (Rises (fun _ => .group) exampleVault))
      (initial exampleVault exampleDevice) w ∧ w.Settled ∧
        w.held true .group 1 = some ⟨⟨11, 0, 1⟩, true⟩ ∧ w.held false .group 1 = none) ∧
    ∃ w, Run.Steps (Step (Rises (fun _ => .knownHost) exampleVault))
      (initial exampleVault exampleDevice) w ∧ w.Settled ∧
        (w.server.records.lookup 1).map Envelope.version = some ⟨⟨10, 0, 1⟩, false⟩ ∧
        ∀ i, w.held i .knownHost 1 = none :=
  ⟨reaches_of_play (rises_of_check _ _) shortLivedMoves _ _ (by decide +kernel),
    reaches_of_play (rises_of_check _ _) rivalMoves _ _ (by decide +kernel)⟩

/-- The group was deleted, so that the one device has its tombstone and the other nothing. -/
theorem devices_converge_shortLived :
    ∃ w : World Bool, w.Settled ∧
      (((∀ i, w.written i 1 = ∅) ∧ w.server.records.lookup 1 = none ∧
        ∀ i, Store.Without (w.devices i).store .group 1) ∨
      ∃ env, w.server.records.lookup 1 = some env ∧
        IsGreatest (⋃ i, w.written i 1) env.version ∧
        ∀ i, Store.Has (w.devices i).store .group 1 env.version ∨
          (env.deleted = true ∧ Store.Without (w.devices i).store .group 1)) := by
  obtain ⟨w, hrun, hsettled⟩ := reaches_of_play (rises_of_check (fun _ => .group) exampleVault)
    shortLivedMoves (initial exampleVault exampleDevice) Settled (by decide +kernel)
  exact ⟨w, hsettled, devices_converge hrun hsettled.1 hsettled.2 1 fun h => nomatch h⟩

end examples

end converged

end World

end UwuSsh

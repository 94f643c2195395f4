import Mathlib.Data.List.Sort
import UwuSsh.Store.PendingFacts
import UwuSsh.Sync.Memory

/-!
What an honest server keeps to. Its records are filed under their own ids and
numbered differently, none above the number it has reached. A page is a beginning of what waits
past the cursor, so it covers everything up to the number it ends at; a push takes
each record of a request or answers with the one it has, and does nothing to others.
-/
namespace UwuSsh

namespace MemoryServer

/-- A server whose records are in order. -/
structure WellFormed (server : MemoryServer) : Prop where
  honest : server.Honest
  filed : ∀ x env, server.records.lookup x = some env → env.id = x
  numbered : ∀ x env, server.records.lookup x = some env →
    ∃ q, env.seq = some q ∧ 0 < q ∧ q ≤ server.seq
  distinct : ∀ x y env env', server.records.lookup x = some env →
    server.records.lookup y = some env' → env.seq = env'.seq → x = y

theorem wellFormed_new : MemoryServer.new.WellFormed where
  honest := ⟨rfl, rfl⟩
  filed := by simp [MemoryServer.new]
  numbered := by simp [MemoryServer.new]
  distinct := by simp [MemoryServer.new]

theorem shown_of_honest {server : MemoryServer} (h : server.Honest) (env : Envelope) :
    server.shown env = env := by
  simp [shown, h.2]

theorem mem_waiting {server : MemoryServer} (h : server.WellFormed) {since : ℕ} {env : Envelope} :
    env ∈ server.waiting since ↔
      server.records.lookup env.id = some env ∧ since < env.seq.getD 0 := by
  have hshown : server.shown = id := funext (shown_of_honest h.honest)
  rw [waiting, List.mem_insertionSort, hshown, List.map_id, List.mem_filter, List.mem_filter]
  simp only [h.honest.1, List.not_mem_nil, not_false_eq_true, decide_true, and_true,
    decide_eq_true_eq]
  refine and_congr_left fun _ => ?_
  simp only [envelopes, List.mem_map]
  constructor
  · rintro ⟨⟨x, e⟩, hmem, rfl⟩
    have hlookup := AList.mem_lookup_iff.mpr hmem
    rwa [h.filed x e hlookup]
  · intro hlookup
    exact ⟨⟨env.id, env⟩, AList.mem_lookup_iff.mp hlookup, rfl⟩

theorem nodup_waiting {server : MemoryServer} (h : server.WellFormed) (since : ℕ) :
    ((server.waiting since).map (·.id)).Nodup := by
  have hshown : server.shown = id := funext (shown_of_honest h.honest)
  have hperm := (List.perm_insertionSort seqBefore
    (((server.envelopes.filter fun env => since < env.seq.getD 0).filter
      fun env => env.id ∉ server.withheld).map server.shown)).map (·.id)
  refine hperm.nodup_iff.mpr ?_
  rw [hshown, List.map_id]
  refine List.Nodup.sublist (List.Sublist.map _ (List.filter_sublist.trans List.filter_sublist)) ?_
  have hkeys : server.envelopes.map (·.id) = server.records.keys := by
    rw [envelopes, List.map_map]
    refine List.map_congr_left fun e he => ?_
    exact h.filed e.1 e.2 (AList.mem_lookup_iff.mpr he)
  rw [hkeys]
  exact server.records.nodupKeys

theorem pairwise_waiting (server : MemoryServer) (since : ℕ) :
    (server.waiting since).Pairwise fun a b => a.seq.getD 0 ≤ b.seq.getD 0 := by
  have : Std.Total (seqBefore : Envelope → Envelope → Prop) :=
    ⟨fun a b => le_total (a.seq.getD 0) (b.seq.getD 0)⟩
  have : IsTrans Envelope seqBefore := ⟨fun _ _ _ h h' => le_trans h h'⟩
  exact List.pairwise_insertionSort seqBefore _

/-- How many records a page of a pull has. -/
def pageLength (server : MemoryServer) (since limit : ℕ) : ℕ :=
  min (max (fitting maxBatchBytes ((server.waiting since).take (min limit maxBatch))) 1)
    (server.waiting since).length

theorem envelopes_pull (server : MemoryServer) (since limit : ℕ) :
    (server.pull since limit).envelopes =
      (server.waiting since).take (server.pageLength since limit) := rfl

theorem hasMore_pull (server : MemoryServer) (since limit : ℕ) :
    (server.pull since limit).hasMore =
      decide (server.pageLength since limit < (server.waiting since).length) := rfl

theorem cursor_pull (server : MemoryServer) (since limit : ℕ) :
    (server.pull since limit).cursor =
      ((server.pull since limit).envelopes.getLast?.bind (·.seq)).getD since := rfl

/-- What an honest server hands over from a cursor. -/
structure Page (server : MemoryServer) (since : ℕ) (page : PullResponse) : Prop where
  records : ∀ env ∈ page.envelopes,
    server.records.lookup env.id = some env ∧ since < env.seq.getD 0
  nodup : (page.envelopes.map (·.id)).Nodup
  covers : ∀ x env, server.records.lookup x = some env → since < env.seq.getD 0 →
    env.seq.getD 0 ≤ page.cursor → env ∈ page.envelopes
  since_le : since ≤ page.cursor
  cursor_le : since ≤ server.seq → page.cursor ≤ server.seq
  moves : page.envelopes ≠ [] → since < page.cursor
  stays : page.envelopes = [] → page.cursor = since
  done : page.envelopes = [] → page.hasMore = false
  last : page.hasMore = false → ∀ x env, server.records.lookup x = some env →
    env.seq.getD 0 ≤ page.cursor

theorem pull_spec {server : MemoryServer} (h : server.WellFormed) (since limit : ℕ) :
    server.Page since (server.pull since limit) := by
  set page := server.pull since limit with hpage
  have hsorted := server.pairwise_waiting since
  have hsub : page.envelopes.Sublist (server.waiting since) := List.take_sublist _ _
  have hrecords : ∀ env ∈ page.envelopes,
      server.records.lookup env.id = some env ∧ since < env.seq.getD 0 :=
    fun env henv => (mem_waiting h).mp (hsub.subset henv)
  have hseq : ∀ env ∈ page.envelopes, ∃ q, env.seq = some q ∧ since < q ∧ q ≤ server.seq := by
    intro env henv
    obtain ⟨hlookup, hlt⟩ := hrecords env henv
    obtain ⟨q, hq, -, hle⟩ := h.numbered _ _ hlookup
    refine ⟨q, hq, ?_, hle⟩
    simpa [hq] using hlt
  have hlast : (page.envelopes = [] ∧ page.cursor = since) ∨
      ∃ env ∈ page.envelopes, page.envelopes.getLast? = some env ∧ env.seq = some page.cursor := by
    cases hl : page.envelopes.getLast? with
    | none =>
      left
      refine ⟨List.getLast?_eq_none_iff.mp hl, ?_⟩
      rw [hpage, cursor_pull, ← hpage, hl]
      rfl
    | some env =>
      right
      have hmem := List.mem_of_getLast? hl
      obtain ⟨q, hq, -, -⟩ := hseq env hmem
      refine ⟨env, hmem, rfl, ?_⟩
      rw [hpage, cursor_pull, ← hpage, hl, Option.bind_some, hq]
      rfl
  -- What waits behind the page has a greater number than the record it ends with.
  have hcovers : ∀ x env, server.records.lookup x = some env → since < env.seq.getD 0 →
      env.seq.getD 0 ≤ page.cursor → env ∈ page.envelopes := by
    intro x env hlookup hlt hle
    have hid := h.filed x env hlookup
    have hmem : env ∈ server.waiting since := (mem_waiting h).mpr ⟨hid ▸ hlookup, hlt⟩
    rcases hlast with ⟨-, hcursor⟩ | ⟨end_, hend, -, hendseq⟩
    · omega
    · have hsplit := hsorted
      rw [← List.take_append_drop (server.pageLength since limit) (server.waiting since)]
        at hmem hsplit
      rcases List.mem_append.mp hmem with hin | hout
      · exact hin
      · have hge := (List.pairwise_append.mp hsplit).2.2 end_ hend env hout
        rw [hendseq, Option.getD_some] at hge
        obtain ⟨q, hq, -, -⟩ := h.numbered x env hlookup
        have hsame : end_.seq = env.seq := by
          rw [hendseq, hq]
          rw [hq, Option.getD_some] at hge hle
          exact congrArg some (by omega)
        have hids := h.distinct _ _ _ _ (hrecords end_ hend).1 hlookup hsame
        have heq : end_ = env := by
          have hend' := (hrecords end_ hend).1
          rw [hids, hlookup] at hend'
          exact (Option.some.inj hend').symm
        exact heq ▸ hend
  have hnodup := (nodup_waiting h since).sublist (hsub.map (·.id))
  have hmoves : page.envelopes ≠ [] → since < page.cursor := by
    intro hne
    rcases hlast with ⟨hnil, -⟩ | ⟨env, hmem, -, hend⟩
    · exact absurd hnil hne
    · obtain ⟨q, hq, hlt, -⟩ := hseq env hmem
      rw [hend] at hq
      cases hq
      exact hlt
  have hstays : page.envelopes = [] → page.cursor = since := by
    intro hnil
    rcases hlast with ⟨-, hcursor⟩ | ⟨env, hmem, -⟩
    · exact hcursor
    · rw [hnil] at hmem
      cases hmem
  refine ⟨hrecords, hnodup, hcovers, ?_, ?_, hmoves, hstays, ?_, ?_⟩
  · by_cases hnil : page.envelopes = []
    · exact (hstays hnil).ge
    · exact (hmoves hnil).le
  · intro hsince
    rcases hlast with ⟨-, hcursor⟩ | ⟨env, hmem, -, hend⟩
    · omega
    · obtain ⟨q, hq, -, hle⟩ := hseq env hmem
      rw [hend] at hq
      cases hq
      exact hle
  · intro hnil
    rw [hpage, envelopes_pull, List.take_eq_nil_iff] at hnil
    rw [hpage, hasMore_pull, decide_eq_false_iff_not]
    rcases hnil with hzero | hnil
    · unfold pageLength at hzero ⊢
      omega
    · simp [hnil]
  · intro hmore x env hlookup
    rw [hpage, hasMore_pull, decide_eq_false_iff_not, not_lt] at hmore
    have hall : page.envelopes = server.waiting since := List.take_of_length_le hmore
    by_cases hlt : since < env.seq.getD 0
    · have hid := h.filed x env hlookup
      have hmem : env ∈ server.waiting since := (mem_waiting h).mpr ⟨hid ▸ hlookup, hlt⟩
      rcases hlast with ⟨hnil, -⟩ | ⟨end_, hend, hget, hendseq⟩
      · rw [← hall, hnil] at hmem
        cases hmem
      · -- The page is sorted, and ends with `end_`.
        rw [← hall] at hmem hsorted
        have hpos := List.ne_nil_of_mem hend
        have hsplit := hsorted
        rw [← List.dropLast_append_getLast hpos] at hmem hsplit
        rw [List.getLast?_eq_some_getLast hpos, Option.some.injEq] at hget
        rw [hget] at hmem hsplit
        rcases List.mem_append.mp hmem with hin | hin
        · have hle := (List.pairwise_append.mp hsplit).2.2 env hin end_ (List.mem_singleton_self _)
          rwa [hendseq, Option.getD_some] at hle
        · rw [List.mem_singleton.mp hin, hendseq, Option.getD_some]
    · have hle : since ≤ page.cursor := by
        by_cases hnil : page.envelopes = []
        · exact (hstays hnil).ge
        · exact (hmoves hnil).le
      omega

/-- Behind a page that leads nowhere, or that says it is the last one, nothing waits. -/
theorem Page.nothing_waits {server : MemoryServer} {since cursor : ℕ} {page : PullResponse}
    (h : server.WellFormed) (hpage : server.Page since page)
    (hmore : since < page.cursor → page.hasMore = false) (hle : page.cursor ≤ cursor) :
    server.waiting cursor = [] := by
  have hend : page.hasMore = false := by
    by_cases hnil : page.envelopes = []
    · exact hpage.done hnil
    · exact hmore (hpage.moves hnil)
  refine List.eq_nil_iff_forall_not_mem.mpr fun env henv => ?_
  obtain ⟨hlookup, hlt⟩ := (mem_waiting h).mp henv
  have hseq := hpage.last hend _ _ hlookup
  omega

section push

/-- The server after it took one record. -/
def take (server : MemoryServer) (env : Envelope) : MemoryServer :=
  { server with
    seq := server.seq + 1
    records := server.records.insert env.id { env with seq := some (server.seq + 1) }
    vaultId := some env.vaultId }

/-- One record after the other, taken or answered with the one that is held. -/
inductive Answered : MemoryServer → List Envelope → MemoryServer → List Accepted →
    List Envelope → Prop
  | nil (server : MemoryServer) : Answered server [] server [] []
  | accept {server server' : MemoryServer} {env : Envelope} {rest : List Envelope}
      {accepted : List Accepted} {conflicts : List Envelope} :
      (∀ current, server.records.lookup env.id = some current →
        current.seq.getD 0 = env.baseSeq) →
      Answered (server.take env) rest server' accepted conflicts →
      Answered server (env :: rest) server' ({ id := env.id, seq := server.seq + 1 } :: accepted)
        conflicts
  | conflict {server server' : MemoryServer} {env current : Envelope} {rest : List Envelope}
      {accepted : List Accepted} {conflicts : List Envelope} :
      server.records.lookup env.id = some current → current.seq.getD 0 ≠ env.baseSeq →
      Answered { server with vaultId := some env.vaultId } rest server' accepted conflicts →
      Answered server (env :: rest) server' accepted (current :: conflicts)

theorem pushAll_answered {envelopes : List Envelope} {server server' : MemoryServer}
    {response response' : PushResponse}
    (h : pushAll envelopes server response = (server', .ok response')) :
    ∃ accepted conflicts, Answered server envelopes server' accepted conflicts ∧
      response'.accepted = response.accepted ++ accepted ∧
      response'.conflicts = response.conflicts ++ conflicts := by
  induction envelopes generalizing server response with
  | nil =>
    cases h
    exact ⟨[], [], .nil _, by simp, by simp⟩
  | cons env rest ih =>
    unfold pushAll at h
    by_cases hadmits : server.admits env = true
    · rw [if_pos hadmits] at h
      cases hlookup : server.records.lookup env.id with
      | none =>
        simp only [pushOne, hlookup] at h
        obtain ⟨accepted, conflicts, hrun, hacc, hconf⟩ := ih h
        refine ⟨_, conflicts, .accept (by simp [hlookup]) hrun, ?_, hconf⟩
        simpa using hacc
      | some current =>
        by_cases hbase : current.seq.getD 0 = env.baseSeq
        · simp only [pushOne, hlookup, hbase, ne_eq, not_true_eq_false, ↓reduceIte] at h
          obtain ⟨accepted, conflicts, hrun, hacc, hconf⟩ := ih h
          refine ⟨_, conflicts, .accept ?_ hrun, by simpa using hacc, hconf⟩
          intro cur hcur
          rw [hlookup] at hcur
          cases hcur
          exact hbase
        · simp only [pushOne, hlookup, hbase, ne_eq, not_false_eq_true, ↓reduceIte] at h
          obtain ⟨accepted, conflicts, hrun, hacc, hconf⟩ := ih h
          exact ⟨accepted, _, .conflict hlookup hbase hrun, hacc, by simpa using hconf⟩
    · rw [if_neg hadmits] at h
      cases h

/-- A request in which every record is allowed is answered. -/
theorem pushAll_ok {vaultId : Uuid} {envelopes : List Envelope} {server : MemoryServer}
    (hvault : server.vaultId = none ∨ server.vaultId = some vaultId)
    (h : ∀ env ∈ envelopes, env.nonce.length = 24 ∧ env.blob.length ≤ maxBlobBytes ∧
      env.vaultId = vaultId) (response : PushResponse) :
    ∃ server' response', pushAll envelopes server response = (server', .ok response') := by
  induction envelopes generalizing server response with
  | nil => exact ⟨_, _, rfl⟩
  | cons env rest ih =>
    obtain ⟨hnonce, hblob, hid⟩ := h env (List.mem_cons_self ..)
    have hadmits : server.admits env = true := by
      rcases hvault with hv | hv <;> simp [admits, hnonce, hblob, hv, hid]
    have hrest := fun e he => h e (List.mem_cons_of_mem _ he)
    unfold pushAll
    rw [if_pos hadmits]
    have hclaimed : ∀ server' result,
        ({ server with vaultId := some env.vaultId } : MemoryServer).pushOne env =
          (server', result) → server'.vaultId = some vaultId := by
      intro server' result heq
      unfold pushOne at heq
      split at heq
      · split at heq <;> (cases heq; rw [← hid])
      · cases heq
        rw [← hid]
    dsimp only
    split
    · next server' accepted heq => exact ih (Or.inr (hclaimed _ _ heq)) hrest _
    · next server' current heq => exact ih (Or.inr (hclaimed _ _ heq)) hrest _

variable {server server' : MemoryServer} {envelopes : List Envelope} {accepted : List Accepted}
  {conflicts : List Envelope}

theorem WellFormed.claim (h : server.WellFormed) (vaultId : Option Uuid) :
    ({ server with vaultId } : MemoryServer).WellFormed :=
  ⟨h.honest, h.filed, h.numbered, h.distinct⟩

theorem lookup_take_self (server : MemoryServer) (env : Envelope) :
    (server.take env).records.lookup env.id =
      some { env with seq := some (server.seq + 1) } := by
  simp [take]

theorem lookup_take_of_ne (server : MemoryServer) {env : Envelope} {x : Uuid} (h : x ≠ env.id) :
    (server.take env).records.lookup x = server.records.lookup x :=
  AList.lookup_insert_ne h

theorem WellFormed.take (h : server.WellFormed) (env : Envelope) :
    (server.take env).WellFormed := by
  have hold : ∀ {x e}, x ≠ env.id → (server.take env).records.lookup x = some e →
      server.records.lookup x = some e := by
    intro x e hx hlookup
    rwa [lookup_take_of_ne _ hx] at hlookup
  have hnew : ∀ {e}, (server.take env).records.lookup env.id = some e →
      e = { env with seq := some (server.seq + 1) } := by
    intro e hlookup
    rw [lookup_take_self] at hlookup
    exact (Option.some.inj hlookup).symm
  refine ⟨h.honest, ?_, ?_, ?_⟩
  · intro x e hlookup
    by_cases hx : x = env.id
    · subst hx
      rw [hnew hlookup]
    · exact h.filed x e (hold hx hlookup)
  · intro x e hlookup
    by_cases hx : x = env.id
    · subst hx
      rw [hnew hlookup]
      exact ⟨server.seq + 1, rfl, Nat.succ_pos _, le_rfl⟩
    · obtain ⟨q, hq, hpos, hle⟩ := h.numbered x e (hold hx hlookup)
      exact ⟨q, hq, hpos, hle.trans (Nat.le_succ _)⟩
  · intro x y e e' hlookup hlookup' hseq
    have hfresh : ∀ {z f}, z ≠ env.id → (server.take env).records.lookup z = some f →
        f.seq ≠ some (server.seq + 1) := by
      intro z f hz hf heq
      obtain ⟨q, hq, -, hle⟩ := h.numbered z f (hold hz hf)
      rw [heq] at hq
      cases hq
      omega
    by_cases hx : x = env.id
    · by_cases hy : y = env.id
      · exact hx.trans hy.symm
      · subst hx
        rw [hnew hlookup] at hseq
        exact absurd hseq.symm (hfresh hy hlookup')
    · by_cases hy : y = env.id
      · subst hy
        rw [hnew hlookup'] at hseq
        exact absurd hseq (hfresh hx hlookup)
      · exact h.distinct x y e e' (hold hx hlookup) (hold hy hlookup') hseq

theorem Answered.wellFormed (hrun : Answered server envelopes server' accepted conflicts)
    (h : server.WellFormed) : server'.WellFormed := by
  induction hrun with
  | nil => exact h
  | accept _ _ ih => exact ih (h.take _)
  | conflict _ _ _ ih => exact ih (h.claim _)

theorem Answered.seq_le (hrun : Answered server envelopes server' accepted conflicts) :
    server.seq ≤ server'.seq := by
  induction hrun with
  | nil => exact le_rfl
  | accept _ _ ih => exact (Nat.le_succ _).trans ih
  | conflict _ _ _ ih => exact ih

theorem Answered.vaultId (hrun : Answered server envelopes server' accepted conflicts)
    {vaultId : Uuid} (h : server.vaultId = none ∨ server.vaultId = some vaultId)
    (hall : ∀ env ∈ envelopes, env.vaultId = vaultId) :
    server'.vaultId = none ∨ server'.vaultId = some vaultId := by
  induction hrun with
  | nil => exact h
  | accept _ _ ih =>
    exact ih (Or.inr (congrArg some (hall _ (List.mem_cons_self ..))))
      fun e he => hall e (List.mem_cons_of_mem _ he)
  | conflict _ _ _ ih =>
    exact ih (Or.inr (congrArg some (hall _ (List.mem_cons_self ..))))
      fun e he => hall e (List.mem_cons_of_mem _ he)

/-- A request does nothing to a record it does not name. -/
theorem Answered.other (hrun : Answered server envelopes server' accepted conflicts)
    (h : server.WellFormed) {x : Uuid} (hx : ∀ env ∈ envelopes, env.id ≠ x) :
    server'.records.lookup x = server.records.lookup x ∧ (∀ a ∈ accepted, a.id ≠ x) ∧
      ∀ env ∈ conflicts, env.id ≠ x := by
  induction hrun with
  | nil => exact ⟨rfl, by simp, by simp⟩
  | @accept server server' env rest accepted conflicts hbase _ ih =>
    have hne := hx env (List.mem_cons_self ..)
    obtain ⟨hlookup, hacc, hconf⟩ := ih (h.take env) fun e he => hx e (List.mem_cons_of_mem _ he)
    refine ⟨hlookup.trans (lookup_take_of_ne _ hne.symm), ?_, hconf⟩
    intro a ha
    rcases List.mem_cons.mp ha with rfl | ha
    · exact hne
    · exact hacc a ha
  | @conflict server server' env current rest accepted conflicts hcur _ _ ih =>
    have hne := hx env (List.mem_cons_self ..)
    obtain ⟨hlookup, hacc, hconf⟩ := ih (h.claim _) fun e he => hx e (List.mem_cons_of_mem _ he)
    refine ⟨hlookup, hacc, ?_⟩
    intro e he
    rcases List.mem_cons.mp he with rfl | he
    · rw [h.filed _ _ hcur]
      exact hne
    · exact hconf e he

/-- What became of one record of a request. -/
inductive Fate (server server' : MemoryServer) (env : Envelope) (accepted : List Accepted)
    (conflicts : List Envelope) : Prop
  | accepted (q : ℕ) :
      (∀ current, server.records.lookup env.id = some current →
        current.seq.getD 0 = env.baseSeq) →
      server.seq < q → q ≤ server'.seq →
      server'.records.lookup env.id = some { env with seq := some q } →
      accepted.filter (fun a => a.id = env.id) = [{ id := env.id, seq := q }] →
      (∀ e ∈ conflicts, e.id ≠ env.id) → Fate server server' env accepted conflicts
  | refused (current : Envelope) :
      server.records.lookup env.id = some current → current.seq.getD 0 ≠ env.baseSeq →
      server'.records.lookup env.id = some current → (∀ a ∈ accepted, a.id ≠ env.id) →
      conflicts.filter (fun e => e.id = env.id) = [current] →
      Fate server server' env accepted conflicts

theorem Answered.fate (hrun : Answered server envelopes server' accepted conflicts)
    (h : server.WellFormed) (hnodup : (envelopes.map (·.id)).Nodup) {env : Envelope}
    (henv : env ∈ envelopes) : Fate server server' env accepted conflicts := by
  induction hrun with
  | nil => cases henv
  | @accept server server' first rest accepted conflicts hbase hrest ih =>
    rw [List.map_cons, List.nodup_cons] at hnodup
    obtain ⟨hfirst, hnodup⟩ := hnodup
    rcases List.mem_cons.mp henv with rfl | hmem
    · have hothers : ∀ e ∈ rest, e.id ≠ env.id := fun e he heq =>
        hfirst (heq ▸ List.mem_map_of_mem he)
      obtain ⟨hlookup, hacc, hconf⟩ := hrest.other (h.take env) hothers
      have hle := hrest.seq_le
      refine .accepted (server.seq + 1) hbase (Nat.lt_succ_self _) hle
        (hlookup.trans (lookup_take_self _ _)) ?_ hconf
      have hnil : accepted.filter (fun a => a.id = env.id) = [] :=
        List.filter_eq_nil_iff.mpr fun a ha => by simpa using hacc a ha
      rw [List.filter_cons_of_pos (by simp), hnil]
    · have hne : env.id ≠ first.id := fun heq =>
        hfirst (heq ▸ List.mem_map_of_mem hmem)
      have hskip : ∀ accepted : List Accepted,
          (({ id := first.id, seq := server.seq + 1 } : Accepted) :: accepted).filter
            (fun a => a.id = env.id) = accepted.filter (fun a => a.id = env.id) :=
        fun accepted => List.filter_cons_of_neg (by simpa using hne.symm)
      cases ih (h.take first) hnodup hmem with
      | accepted q hbase' hlt hle hlookup hacc hconf =>
        refine .accepted q ?_ ?_ hle hlookup ((hskip _).trans hacc) hconf
        · intro current hcurrent
          exact hbase' current ((lookup_take_of_ne _ hne).trans hcurrent)
        · exact (Nat.lt_succ_self _).trans hlt
      | refused current hlookup hbase' hlookup' hacc hconf =>
        rw [lookup_take_of_ne _ hne] at hlookup
        refine .refused current hlookup hbase' hlookup' ?_ hconf
        intro a ha
        rcases List.mem_cons.mp ha with rfl | ha
        · exact hne.symm
        · exact hacc a ha
  | @conflict server server' first held rest accepted conflicts hheld hbase hrest ih =>
    rw [List.map_cons, List.nodup_cons] at hnodup
    obtain ⟨hfirst, hnodup⟩ := hnodup
    have hid := h.filed _ _ hheld
    rcases List.mem_cons.mp henv with rfl | hmem
    · have hothers : ∀ e ∈ rest, e.id ≠ env.id := fun e he heq =>
        hfirst (heq ▸ List.mem_map_of_mem he)
      obtain ⟨hlookup, hacc, hconf⟩ := hrest.other (h.claim _) hothers
      refine .refused held hheld hbase (hlookup.trans hheld) hacc ?_
      have hnil : conflicts.filter (fun e => e.id = env.id) = [] :=
        List.filter_eq_nil_iff.mpr fun e he => by simpa using hconf e he
      rw [List.filter_cons_of_pos (by simpa using hid), hnil]
    · have hne : env.id ≠ first.id := fun heq =>
        hfirst (heq ▸ List.mem_map_of_mem hmem)
      have hother : held.id ≠ env.id := hid ▸ hne.symm
      cases ih (h.claim _) hnodup hmem with
      | accepted q hbase' hlt hle hlookup hacc hconf =>
        refine .accepted q hbase' hlt hle hlookup hacc ?_
        intro e he
        rcases List.mem_cons.mp he with rfl | he
        · exact hother
        · exact hconf e he
      | refused current hlookup hbase' hlookup' hacc hconf =>
        refine .refused current hlookup hbase' hlookup' hacc ?_
        rw [List.filter_cons_of_neg (by simpa using hother)]
        exact hconf

end push

end MemoryServer

end UwuSsh

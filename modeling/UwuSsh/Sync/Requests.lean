import UwuSsh.Sync.Device

/-!
How much one pass asks of a server. The push loops have no bound of their own: they go on as long as
the server takes something. Whatever it answers, every turn that goes on leaves fewer rows waiting, and
nothing a server hands out makes a row wait, so the rows that wait at the start pay for all of it.
-/
namespace UwuSsh

namespace Store

section dirty

variable {s t : Store} {kind : EntityKind} {id : Uuid}

/-- The rows of a kind that wait to be pushed. -/
def dirtyIds (s : Store) (kind : EntityKind) : List Uuid :=
  ((s.tables kind).entries.filter fun e => e.2.dirty).map (·.1)

theorem mem_dirtyIds : id ∈ s.dirtyIds kind ↔ ∃ row, s.row? kind id = some row ∧ row.dirty = true := by
  constructor
  · intro h
    obtain ⟨⟨id, row⟩, hmem, rfl⟩ := List.mem_map.mp h
    obtain ⟨hentry, hdirty⟩ := List.mem_filter.mp hmem
    exact ⟨row, AList.mem_lookup_iff.mpr hentry, hdirty⟩
  · rintro ⟨row, hrow, hdirty⟩
    exact List.mem_map.mpr ⟨⟨id, row⟩, List.mem_filter.mpr ⟨AList.mem_lookup_iff.mp hrow, hdirty⟩, rfl⟩

theorem nodup_dirtyIds (s : Store) (kind : EntityKind) : (s.dirtyIds kind).Nodup :=
  List.Nodup.sublist (List.filter_sublist.map _) (s.tables kind).nodupKeys

theorem length_dirtyIds (s : Store) (kind : EntityKind) : (s.dirtyIds kind).length = s.dirtyCountOf kind := by
  rw [dirtyIds, List.length_map, dirtyCountOf, List.countP_eq_length_filter]

theorem dirtyCountOf_le (h : ∀ id ∈ t.dirtyIds kind, id ∈ s.dirtyIds kind) :
    t.dirtyCountOf kind ≤ s.dirtyCountOf kind := by
  rw [← length_dirtyIds, ← length_dirtyIds]
  exact (List.subperm_of_subset (t.nodup_dirtyIds kind) h).length_le

theorem dirtyCountOf_lt (h : ∀ id ∈ t.dirtyIds kind, id ∈ s.dirtyIds kind) (hold : id ∈ s.dirtyIds kind)
    (hnew : id ∉ t.dirtyIds kind) : t.dirtyCountOf kind < s.dirtyCountOf kind := by
  rw [← length_dirtyIds, ← length_dirtyIds]
  have hnodup : (id :: t.dirtyIds kind).Nodup := List.nodup_cons.mpr ⟨hnew, t.nodup_dirtyIds kind⟩
  have hsubset : id :: t.dirtyIds kind ⊆ s.dirtyIds kind := List.cons_subset.mpr ⟨hold, h⟩
  exact (List.subperm_of_subset hnodup hsubset).length_le

/-- Nothing waits that did not wait before. -/
def Calmer (s t : Store) : Prop := ∀ kind, ∀ id ∈ t.dirtyIds kind, id ∈ s.dirtyIds kind

theorem Calmer.trans {u : Store} (h : Calmer s t) (h' : Calmer t u) : Calmer s u :=
  fun kind id hid => h kind id (h' kind id hid)

theorem Calmer.dirtyCount_le (h : Calmer s t) : t.dirtyCount ≤ s.dirtyCount :=
  List.sum_le_sum fun kind _ => dirtyCountOf_le (h kind)

theorem Calmer.dirtyCount_lt (h : Calmer s t) (hold : id ∈ s.dirtyIds kind) (hnew : id ∉ t.dirtyIds kind) :
    t.dirtyCount < s.dirtyCount := by
  have hkind : kind ∈ EntityKind.all := by cases kind <;> decide
  exact List.sum_lt_sum _ _ (fun kind _ => dirtyCountOf_le (h kind)) ⟨kind, hkind, dirtyCountOf_lt (h kind) hold hnew⟩

/-- Taking records in makes nothing wait. -/
theorem calmer_applyEnvelopes {envelopes : List Envelope} {nowMs : UInt64} {report : ApplyReport}
    (h : s.applyEnvelopes envelopes nowMs = .ok (t, report)) : Calmer s t := by
  intro kind id hid
  obtain ⟨row, hrow, hdirty⟩ := mem_dirtyIds.mp hid
  have hwaits : (t.cell kind id).dirty = true := by
    rw [cell_of_some hrow]
    exact hdirty
  have hwaited := (applyEnvelopes_dirty h hwaits).1
  cases hold : s.row? kind id with
  | none =>
    rw [cell_of_none hold] at hwaited
    cases hwaited
  | some old =>
    rw [cell_of_some hold] at hwaited
    exact mem_dirtyIds.mpr ⟨old, hold, hwaited⟩

theorem calmer_markPushed (s : Store) (pushed : List Pushed) : Calmer s (s.markPushed pushed).1 := by
  intro kind id hid
  obtain ⟨row, hrow, hdirty⟩ := mem_dirtyIds.mp hid
  obtain ⟨-, -, -, hmarked⟩ := s.markPushed_spec pushed
  rcases hmarked kind id with hsame | ⟨p, -, -, -, old, -, -, hnew⟩
  · exact mem_dirtyIds.mpr ⟨row, hsame ▸ hrow, hdirty⟩
  · rw [hnew] at hrow
    cases hrow
    cases hdirty

/-- Where something was counted as cleared, one of the records named is not waiting any more. -/
theorem markPushed_cleared {pushed : List Pushed} (h : (s.markPushed pushed).2 ≠ 0) :
    ∃ p ∈ pushed, p.id ∉ (s.markPushed pushed).1.dirtyIds p.kind := by
  induction pushed using List.reverseRecOn with
  | nil => exact absurd rfl h
  | append_singleton front p ih =>
    have hsplit : s.markPushed (front ++ [p]) =
        (((s.markPushed front).1.markOne p).1, (s.markPushed front).2 + ((s.markPushed front).1.markOne p).2) := by
      rw [markPushed, List.foldl_append]
      rfl
    rw [hsplit] at h ⊢
    dsimp only at h ⊢
    by_cases hone : ((s.markPushed front).1.markOne p).2 = 0
    · rw [hone, Nat.add_zero] at h
      obtain ⟨q, hq, hgone⟩ := ih h
      refine ⟨q, List.mem_append_left _ hq, fun hback => hgone ?_⟩
      obtain ⟨-, -, -, hmarked⟩ := (s.markPushed front).1.markOne_spec p
      obtain ⟨row, hrow, hdirty⟩ := mem_dirtyIds.mp hback
      rcases hmarked q.kind q.id with hsame | ⟨_, -, -, -, old, -, -, hnew⟩
      · exact mem_dirtyIds.mpr ⟨row, hsame ▸ hrow, hdirty⟩
      · rw [hnew] at hrow
        cases hrow
        cases hdirty
    · refine ⟨p, List.mem_append_right _ (List.mem_singleton_self p), fun hback => ?_⟩
      obtain ⟨row, hrow, hdirty⟩ := mem_dirtyIds.mp hback
      unfold markOne at hone hrow
      split at hone
      · next old hold =>
        split at hone
        · next hclock =>
          simp only [hold, if_pos hclock, row?_putRow_self] at hrow
          cases hrow
          cases hdirty
        · exact hone rfl
      · exact hone rfl

end dirty

end Store

/-- A transport that counts what it is asked for, pages and batches alike. -/
def Transport.metered {σ : Type} (T : Transport σ) : Transport (σ × ℕ) where
  pull net since limit := ((T.pull net.1 since limit).1, ((T.pull net.1 since limit).2, net.2 + 1))
  push net envelopes := ((T.push net.1 envelopes).1, ((T.push net.1 envelopes).2, net.2 + 1))
  takeReset net := ((T.takeReset net.1).1, ((T.takeReset net.1).2, net.2))
  manifests net := T.manifests net.1
  writes net := T.writes net.1
  nowMs net := ((T.nowMs net.1).1, ((T.nowMs net.1).2, net.2))

/-- A count that a page or a batch raises by one at most, and nothing else raises. -/
structure Transport.Meters {σ : Type} (T : Transport σ) (spent : σ → ℕ) : Prop where
  pull : ∀ net since limit, spent (T.pull net since limit).2 ≤ spent net + 1
  push : ∀ net envelopes, spent (T.push net envelopes).2 ≤ spent net + 1
  takeReset : ∀ net, spent (T.takeReset net).2 ≤ spent net
  nowMs : ∀ net, spent (T.nowMs net).2 ≤ spent net

theorem Transport.meters_metered {σ : Type} (T : Transport σ) : T.metered.Meters Prod.snd :=
  ⟨fun _ _ _ => le_rfl, fun _ _ => le_rfl, fun _ => le_rfl, fun _ => le_rfl⟩

/-- No count at all. -/
theorem Transport.meters_zero {σ : Type} (T : Transport σ) : T.Meters fun _ => 0 :=
  ⟨fun _ _ _ => Nat.zero_le _, fun _ _ => Nat.zero_le _, fun _ => le_rfl, fun _ => le_rfl⟩

/-- Where a pass stands: after how many requests, and with how many rows waiting. -/
structure Pass.Within {σ : Type} (p : Pass σ) (meter : σ → ℕ) (requests waiting : ℕ) : Prop where
  requests : meter p.net ≤ requests
  waiting : p.store.dirtyCount ≤ waiting

section pass

variable {σ : Type} {T : Transport σ} {meter : σ → ℕ} {p q : Pass σ}

theorem applyEnvelopes_requests (hT : T.Meters meter) {envelopes : List Envelope}
    {result : Except SyncError ApplyReport} (h : p.applyEnvelopes T envelopes = (result, q)) :
    meter q.net ≤ meter p.net := by
  unfold Pass.applyEnvelopes at h
  dsimp only at h
  split at h
  · cases h
    exact hT.nowMs p.net
  · cases h
    exact hT.nowMs p.net

theorem applyEnvelopes_within (hT : T.Meters meter) {envelopes : List Envelope}
    {result : Except SyncError ApplyReport} {r n : ℕ} (h : p.applyEnvelopes T envelopes = (result, q))
    (hp : p.Within meter r n) : q.Within meter r n := by
  have hrequests := (applyEnvelopes_requests hT h).trans hp.requests
  unfold Pass.applyEnvelopes at h
  dsimp only at h
  split at h
  · cases h
    exact ⟨hrequests, hp.waiting⟩
  · next t report happly =>
    cases h
    exact ⟨hrequests, (Store.calmer_applyEnvelopes happly).dirtyCount_le.trans hp.waiting⟩

theorem advance_within {cursor : ℕ} {page : PullResponse} {r n : ℕ} (hp : p.Within meter r n) :
    (p.advance cursor page).elim (fun o => o.2.Within meter r n) fun q => q.Within meter r n := by
  unfold Pass.advance
  split
  · dsimp only
    split
    · exact ⟨hp.requests, hp.waiting⟩
    · exact ⟨hp.requests, hp.waiting⟩
  · exact hp

/-- A turn of a pull is one request. -/
theorem pullTurn_within (hT : T.Meters meter) {r n : ℕ} (hp : p.Within meter r n) :
    (pullTurn T p).elim (fun o => o.2.Within meter (r + 1) n) fun q => q.Within meter (r + 1) n := by
  have hpulled := (hT.pull p.net p.store.cursor maxBatch).trans (Nat.succ_le_succ hp.requests)
  unfold pullTurn
  dsimp only
  split
  · next e net hpull =>
    rw [hpull] at hpulled
    exact ⟨hpulled, hp.waiting⟩
  · next page net hpull =>
    rw [hpull] at hpulled
    have hasked := (hT.takeReset net).trans hpulled
    split
    · split
      · exact ⟨hasked, hp.waiting⟩
      · exact ⟨hasked, hp.waiting⟩
    · split
      · apply advance_within
        exact ⟨hasked, hp.waiting⟩
      · split
        · next e q happly => exact applyEnvelopes_within hT happly ⟨hasked, hp.waiting⟩
        · next applied q happly =>
          have hq : q.Within meter (r + 1) n := applyEnvelopes_within hT happly ⟨hasked, hp.waiting⟩
          split
          · exact hq
          · exact advance_within hq

theorem turns_within {ρ : Type} {body : Pass σ → ρ ⊕ Pass σ} {out : ρ → Pass σ}
    (hbody : ∀ p r n, p.Within meter r n →
      (body p).elim (fun o => (out o).Within meter (r + 1) n) fun q => q.Within meter (r + 1) n)
    (fuel : ℕ) {r n : ℕ} (hp : p.Within meter r n) :
    (Loop.turns body fuel p).elim (fun o => (out o).Within meter (r + fuel) n) fun q =>
      q.Within meter (r + fuel) n := by
  induction fuel generalizing p r with
  | zero => exact hp
  | succ fuel ih =>
    have hturn := hbody p r n hp
    cases hb : body p with
    | inl result =>
      rw [hb] at hturn
      rw [Loop.turns_of_inl hb]
      have hturn : (out result).Within meter (r + 1) n := hturn
      have hroom : r + 1 ≤ r + (fuel + 1) := by omega
      exact ⟨hturn.requests.trans hroom, hturn.waiting⟩
    | inr q =>
      rw [hb] at hturn
      rw [Loop.turns_of_inr hb]
      have hrest := ih hturn
      rwa [Nat.add_assoc, Nat.add_comm 1] at hrest

/-- A pull asks for so many pages at most, and nothing waits for it. -/
theorem pullAll_within (hT : T.Meters meter) {r n : ℕ} (hp : p.Within meter r n) :
    (pullAll T p).2.Within meter (r + maxPages) n := by
  have hbody : ∀ (p : Pass σ) r n, p.Within meter r n →
      (pullTurn T p).elim (fun o => (Prod.snd o).Within meter (r + 1) n) fun q => q.Within meter (r + 1) n :=
    fun p r n hp => pullTurn_within hT hp
  have hturns := turns_within hbody maxPages hp
  unfold pullAll
  cases hrun : Loop.turns (pullTurn T) maxPages p with
  | inl o => rwa [hrun] at hturns
  | inr q => rwa [hrun] at hturns

/-- What a batch is answered with asks for nothing, and where the loop goes on one row less waits. -/
theorem takeAnswer_within (hT : T.Meters meter) {conflicts : ℕ} {envelopes : List Envelope} {response : PushResponse}
    {r n m : ℕ} (hp : p.Within meter r n) (hbatch : p.store.Batch envelopes) (hm : p.store.dirtyCount = m) :
    (takeAnswer T conflicts p envelopes response).elim (fun o => o.2.Within meter r n) fun t =>
      t.2.Within meter r n ∧ t.2.store.dirtyCount < m := by
  subst hm
  have hcalm := p.store.calmer_markPushed (acceptedOf envelopes response)
  have hmarked : (p.store.markPushed (acceptedOf envelopes response)).1.dirtyCount ≤ n :=
    hcalm.dirtyCount_le.trans hp.waiting
  have hless : ¬ ((acceptedOf envelopes response).isEmpty ||
      (p.store.markPushed (acceptedOf envelopes response)).2 == 0) = true →
      (p.store.markPushed (acceptedOf envelopes response)).1.dirtyCount < p.store.dirtyCount := by
    intro hgo
    have hcleared : (p.store.markPushed (acceptedOf envelopes response)).2 ≠ 0 := by
      intro hzero
      rw [hzero] at hgo
      simp at hgo
    obtain ⟨pushed, hpushed, hgone⟩ := Store.markPushed_cleared hcleared
    obtain ⟨env, henv, a, -, -, hid, heid, hkind, -⟩ := mem_acceptedOf hpushed
    obtain ⟨-, row, -, hrow, hdirty, -⟩ := hbatch.rows env henv
    refine hcalm.dirtyCount_lt ?_ hgone
    rw [hkind, hid, ← heid]
    exact Store.mem_dirtyIds.mpr ⟨row, hrow, hdirty⟩
  unfold takeAnswer
  dsimp only
  split
  · split
    · exact ⟨hp.requests, hmarked⟩
    · next hgo => exact ⟨⟨hp.requests, hmarked⟩, hless hgo⟩
  · split
    · next e q happly => exact applyEnvelopes_within hT happly ⟨hp.requests, hmarked⟩
    · next report q happly =>
      have hq : q.Within meter r n := applyEnvelopes_within hT happly ⟨hp.requests, hmarked⟩
      split
      · exact hq
      · next hgo =>
        have hq' : q.Within meter r (p.store.markPushed (acceptedOf envelopes response)).1.dirtyCount :=
          applyEnvelopes_within hT happly ⟨hp.requests, le_rfl⟩
        exact ⟨hq, hq'.waiting.trans_lt (hless hgo)⟩

/-- A turn of a push loop: one request, and where it goes on one row less waits. -/
def PushTurn (meter : σ → ℕ) (body : ℕ × Pass σ → Outcome σ ℕ ⊕ ℕ × Pass σ) : Prop :=
  ∀ s r n, s.2.Within meter r n → (body s).elim (fun o => o.2.Within meter (r + 1) n) fun t =>
    t.2.Within meter (r + 1) n ∧ t.2.store.dirtyCount < s.2.store.dirtyCount

theorem pushTurn_turn (hT : T.Meters meter) : PushTurn meter (pushTurn T) := by
  intro s r n hs
  unfold pushTurn
  dsimp only
  split
  · exact ⟨hs.requests.trans (Nat.le_succ r), hs.waiting⟩
  · next envelopes oversized hpending =>
    split
    · exact ⟨hs.requests.trans (Nat.le_succ r), hs.waiting⟩
    · split
      · next e net hpush =>
        have hasked := hT.push s.2.net envelopes
        rw [hpush] at hasked
        exact ⟨hasked.trans (Nat.succ_le_succ hs.requests), hs.waiting⟩
      · next response net hpush =>
        have hasked := hT.push s.2.net envelopes
        rw [hpush] at hasked
        have hbatch := (Store.Offers.records hpending).batch
        refine takeAnswer_within hT ?_ hbatch rfl
        exact ⟨hasked.trans (Nat.succ_le_succ hs.requests), hs.waiting⟩

theorem pushApartTurn_turn (hT : T.Meters meter) : PushTurn meter (pushApartTurn T) := by
  intro s r n hs
  unfold pushApartTurn
  dsimp only
  split
  · exact ⟨hs.requests.trans (Nat.le_succ r), hs.waiting⟩
  · next envelopes oversized hpending =>
    split
    · exact ⟨hs.requests.trans (Nat.le_succ r), hs.waiting⟩
    · split
      · next net hpush =>
        have hasked := hT.push s.2.net envelopes
        rw [hpush] at hasked
        exact ⟨hasked.trans (Nat.succ_le_succ hs.requests), hs.waiting⟩
      · next e net _ hpush =>
        have hasked := hT.push s.2.net envelopes
        rw [hpush] at hasked
        exact ⟨hasked.trans (Nat.succ_le_succ hs.requests), hs.waiting⟩
      · next response net hpush =>
        have hasked := hT.push s.2.net envelopes
        rw [hpush] at hasked
        have hbatch := (Store.Offers.apart hpending).batch
        refine takeAnswer_within hT ?_ hbatch rfl
        exact ⟨hasked.trans (Nat.succ_le_succ hs.requests), hs.waiting⟩

/-- The requests made and the rows that may still cost one. -/
def Pass.spent (p : Pass σ) (meter : σ → ℕ) : ℕ := meter p.net + p.store.dirtyCount

/-- A push loop ends by itself, and spends one request beyond what the rows pay for. -/
theorem PushTurn.returns {body : ℕ × Pass σ → Outcome σ ℕ ⊕ ℕ × Pass σ} (h : PushTurn meter body)
    (p : Pass σ) :
    (∀ fuel, p.store.dirtyCount < fuel → Loop.turns body fuel (0, p) = .inl (pushLoop body p)) ∧
      (pushLoop body p).2.spent meter ≤ p.spent meter + 1 := by
  have hdec : ∀ s t, body s = .inr t → t.2.store.dirtyCount < s.2.store.dirtyCount := by
    intro s t hturn
    have hs := h s _ _ ⟨le_rfl, le_rfl⟩
    rw [hturn] at hs
    exact hs.2
  have hkeep : ∀ s t, s.2.spent meter ≤ p.spent meter → body s = .inr t → t.2.spent meter ≤ p.spent meter := by
    intro s t hspent hturn
    have hs := h s _ _ ⟨le_rfl, le_rfl⟩
    rw [hturn] at hs
    have hrequests : meter t.2.net ≤ meter s.2.net + 1 := hs.1.requests
    have hless : t.2.store.dirtyCount < s.2.store.dirtyCount := hs.2
    unfold Pass.spent at hspent ⊢
    omega
  have hreturn : ∀ s o, s.2.spent meter ≤ p.spent meter → body s = .inl o → o.2.spent meter ≤ p.spent meter + 1 := by
    intro s o hspent hturn
    have hs := h s _ _ ⟨le_rfl, le_rfl⟩
    rw [hturn] at hs
    have hrequests : meter o.2.net ≤ meter s.2.net + 1 := hs.requests
    have hwaiting : o.2.store.dirtyCount ≤ s.2.store.dirtyCount := hs.waiting
    unfold Pass.spent at hspent ⊢
    omega
  obtain ⟨o, ho⟩ : ∃ o, Loop.turns body (p.store.dirtyCount + 1) (0, p) = .inl o :=
    Loop.turns_returns (fun s => s.2.store.dirtyCount) hdec (Nat.lt_succ_self _)
  have hloop : pushLoop body p = o := by
    unfold pushLoop
    rw [ho]
  have hpost := Loop.turns_post (fun s => s.2.spent meter ≤ p.spent meter)
    (fun o => o.2.spent meter ≤ p.spent meter + 1) hkeep hreturn (p.store.dirtyCount + 1) (s := (0, p)) le_rfl
  rw [ho] at hpost
  rw [hloop]
  exact ⟨fun fuel hfuel => Loop.turns_mono hfuel ho, hpost⟩

/-- What is pushed at the start of a round. -/
theorem pushRound_spent (hT : T.Meters meter) (p : Pass σ) : (pushRound T p).2.spent meter ≤ p.spent meter + 2 := by
  have hrecords := (pushTurn_turn hT).returns p
  have hapart := (pushApartTurn_turn hT).returns (pushAll T p).2
  unfold pushRound
  split
  · split
    · next e q hall =>
      have hq : (pushAll T p).2 = q := congrArg Prod.snd hall
      have hfirst : q.spent meter ≤ p.spent meter + 1 := hq ▸ hrecords.2
      exact hfirst.trans (Nat.le_succ _)
    · next conflicts q hall =>
      have hq : (pushAll T p).2 = q := congrArg Prod.snd hall
      have hfirst : q.spent meter ≤ p.spent meter + 1 := hq ▸ hrecords.2
      have hsecond : (pushApart T q).2.spent meter ≤ q.spent meter + 1 := hq ▸ hapart.2
      split
      · next e u hmore =>
        rw [hmore] at hsecond
        exact hsecond.trans (Nat.succ_le_succ hfirst)
      · next more u hmore =>
        rw [hmore] at hsecond
        exact hsecond.trans (Nat.succ_le_succ hfirst)
  · exact Nat.le_add_right _ _

theorem pullAll_requests (hT : T.Meters meter) (p : Pass σ) : meter (pullAll T p).2.net ≤ meter p.net + maxPages :=
  (pullAll_within hT (n := p.store.dirtyCount) ⟨le_rfl, le_rfl⟩).requests

theorem pullAll_spent (hT : T.Meters meter) (p : Pass σ) : (pullAll T p).2.spent meter ≤ p.spent meter + maxPages := by
  obtain ⟨hrequests, hwaiting⟩ := pullAll_within hT (p := p) ⟨le_rfl, le_rfl⟩
  unfold Pass.spent
  omega

theorem publishManifest_requests (hT : T.Meters meter) (p : Pass σ) :
    meter (publishManifest T p).2.net ≤ meter p.net + 1 + maxPages := by
  have hclock := hT.nowMs p.net
  unfold publishManifest
  dsimp only
  split
  · exact hclock.trans ((Nat.le_add_right _ 1).trans (Nat.le_add_right _ _))
  · exact hclock.trans ((Nat.le_add_right _ 1).trans (Nat.le_add_right _ _))
  · next manifest _ =>
    have hasked := (hT.push (T.nowMs p.net).2 [manifest]).trans (Nat.succ_le_succ hclock)
    split
    · next e net hpush =>
      rw [hpush] at hasked
      exact hasked.trans (Nat.le_add_right _ _)
    · next response net hpush =>
      rw [hpush] at hasked
      split
      · exact (pullAll_requests hT _).trans (Nat.add_le_add_right hasked _)
      · split
        · next e q happly => exact ((applyEnvelopes_requests hT happly).trans hasked).trans (Nat.le_add_right _ _)
        · next report q happly =>
          exact (pullAll_requests hT q).trans
            (Nat.add_le_add_right ((applyEnvelopes_requests hT happly).trans hasked) _)

theorem check_requests (hT : T.Meters meter) (complete : Bool) (p : Pass σ) :
    meter (check T complete p).2.net ≤ meter p.net + maxPages := by
  have hpull := pullAll_requests hT (Pass.setCursor { p with store := p.store.checkManifests.1 } 0)
  unfold check
  split
  · exact Nat.le_add_right _ _
  · dsimp only
    split
    · exact Nat.le_add_right _ _
    · split
      · next e q hagain =>
        rw [hagain] at hpull
        exact hpull
      · next q hagain =>
        rw [hagain] at hpull
        exact hpull
      · next q hagain =>
        rw [hagain] at hpull
        exact hpull

/-- The end of a pass: its manifest, and the pull it may do once more. -/
theorem finish_requests (hT : T.Meters meter) (complete : Bool) (p : Pass σ) :
    meter (finish T complete p).2.net ≤ meter p.net + 1 + maxPages + maxPages := by
  have hpublish : meter (if complete then publishManifest T p else (.ok false, p)).2.net ≤
      meter p.net + 1 + maxPages := by
    split
    · exact publishManifest_requests hT p
    · exact (Nat.le_add_right _ 1).trans (Nat.le_add_right _ _)
  unfold finish
  split
  · exact (Nat.le_add_right _ 1).trans ((Nat.le_add_right _ _).trans (Nat.le_add_right _ _))
  · split
    · next e q hfirst =>
      rw [hfirst] at hpublish
      exact hpublish.trans (Nat.le_add_right _ _)
    · next done q hfirst =>
      rw [hfirst] at hpublish
      have hpublish : meter q.net ≤ meter p.net + 1 + maxPages := hpublish
      have hcheck := check_requests hT done { q with report := { q.report with complete := done } }
      have hboth := hcheck.trans (Nat.add_le_add_right hpublish _)
      split
      · next e u hsecond =>
        rw [hsecond] at hboth
        exact hboth
      · next withheld u hsecond =>
        rw [hsecond] at hboth
        exact hboth

theorem syncRounds_requests (hT : T.Meters meter) (left round : ℕ) (p : Pass σ) :
    meter (syncRounds T left round p).2.net ≤ p.spent meter + left * (2 + maxPages) + (1 + maxPages + maxPages) := by
  induction left generalizing round p with
  | zero =>
    show meter p.net ≤ p.spent meter + 0 * (2 + maxPages) + (1 + maxPages + maxPages)
    unfold Pass.spent
    omega
  | succ left ih =>
    have hpush := pushRound_spent hT { p with report := { p.report with rounds := round } }
    have hstart : Pass.spent { p with report := { p.report with rounds := round } } meter = p.spent meter := rfl
    rw [hstart] at hpush
    have hrounds : (left + 1) * (2 + maxPages) = left * (2 + maxPages) + (2 + maxPages) := Nat.succ_mul _ _
    unfold syncRounds
    split
    · next e q hfirst =>
      rw [hfirst] at hpush
      have hpush : meter q.net + q.store.dirtyCount ≤ p.spent meter + 2 := hpush
      show meter q.net ≤ _
      omega
    · next conflicts q hfirst =>
      rw [hfirst] at hpush
      have hpull := (pullAll_spent hT q).trans (Nat.add_le_add_right hpush _)
      split
      · next e u hsecond =>
        rw [hsecond] at hpull
        have hpull : meter u.net + u.store.dirtyCount ≤ p.spent meter + 2 + maxPages := hpull
        show meter u.net ≤ _
        omega
      · next complete u hsecond =>
        rw [hsecond] at hpull
        have hpull : meter u.net + u.store.dirtyCount ≤ p.spent meter + 2 + maxPages := hpull
        split
        · have hfinish := finish_requests hT complete u
          omega
        · have hrest := ih (round + 1) u
          have hspent : u.spent meter = meter u.net + u.store.dirtyCount := rfl
          omega

/-- Whatever a server answers, both push loops end by themselves, and a whole pass makes one request for
every row that waits and so many more at most. -/
theorem syncOnce_requests (T : Transport σ) (s : Store) (net : σ) :
    (∀ p : Pass σ, ∀ fuel, p.store.dirtyCount < fuel →
      Loop.turns (pushTurn T) fuel (0, p) = .inl (pushAll T p) ∧
      Loop.turns (pushApartTurn T) fuel (0, p) = .inl (pushApart T p)) ∧
    (syncOnce T.metered s (net, 0)).2.net.2 ≤ s.dirtyCount + 5007 := by
  constructor
  · intro p fuel hfuel
    exact ⟨((pushTurn_turn T.meters_zero).returns p).1 fuel hfuel,
      ((pushApartTurn_turn T.meters_zero).returns p).1 fuel hfuel⟩
  · have hrounds := syncRounds_requests T.meters_metered maxRounds 1 { store := s, net := (net, 0), report := {} }
    have hspent : Pass.spent { store := s, net := (net, 0), report := {} } Prod.snd = s.dirtyCount := Nat.zero_add _
    rw [hspent] at hrounds
    exact hrounds

end pass

end UwuSsh

import UwuSsh.Sync.BadRecords

/-!
Pass after pass against a log that stands still. Where the server answers and no batch can
fail, a pass fails only by meeting conflicts in every round. Each pull that does not reach the
end of the log has moved the cursor on, so a few passes are enough to reach it, unless a page
of nothing but forged records stands in the way: there every pull ends.
-/
namespace UwuSsh

variable {σ : Type}

section unfailing

/-- A server that always answers, for a store whose batches never fail. -/
structure Transport.Answers (T : Transport σ) (fed : Envelope → Prop) (inv : Store → Prop) :
    Prop extends Store.PassKeeps fed inv where
  feeds : T.Feeds fed
  unlocked : ∀ {s : Store}, inv s → s.vault.isSome = true
  applies : ∀ {s : Store} {envelopes : List Envelope} (nowMs : UInt64), inv s →
    (∀ env ∈ envelopes, fed env) → ∃ result, s.applyEnvelopes envelopes nowMs = .ok result
  pull : ∀ (net : σ) (since : ℕ), ∃ page, (T.pull net since maxBatch).1 = .ok page
  push : ∀ (net : σ) (sent : List Envelope), ∃ response, (T.push net sent).1 = .ok response

/-- A result that is not an error. -/
abbrev Fine {α : Type} (o : Outcome σ α) : Prop := ∃ a, o.1 = .ok a

namespace Transport.Answers

variable {T : Transport σ} {fed : Envelope → Prop} {inv : Store → Prop}

theorem applyEnvelopes_fine (h : T.Answers fed inv) {p q : Pass σ} {envelopes : List Envelope}
    {e : SyncError} (happly : p.applyEnvelopes T envelopes = (.error e, q))
    (hinv : inv p.store) : ¬ ∀ env ∈ envelopes, fed env := by
  intro hfed
  obtain ⟨result, hok⟩ := h.applies (T.nowMs p.net).1 hinv hfed
  unfold Pass.applyEnvelopes at happly
  dsimp only at happly
  rw [hok] at happly
  cases happly

theorem pullTurn_fine (h : T.Answers fed inv) {p : Pass σ} (hinv : inv p.store) :
    (pullTurn T p).elim Fine fun _ => True := by
  have hadvance : ∀ (q : Pass σ) (cursor : ℕ) (page : PullResponse),
      (q.advance cursor page).elim Fine fun _ => True := by
    intro q cursor page
    unfold Pass.advance
    split
    · dsimp only
      split
      · trivial
      · exact ⟨_, rfl⟩
    · exact ⟨_, rfl⟩
  obtain ⟨page, hpage⟩ := h.pull p.net p.store.cursor
  unfold pullTurn
  dsimp only
  cases hpull : T.pull p.net p.store.cursor maxBatch with
  | mk answer net =>
    rw [hpull] at hpage
    cases hpage
    have hfed := h.feeds.pulled (congrArg Prod.fst hpull)
    dsimp only
    split
    · split
      · exact ⟨_, rfl⟩
      · trivial
    · split
      · exact hadvance _ _ _
      · split
        · next e q happly => exact absurd hfed (h.applyEnvelopes_fine happly hinv)
        · split
          · exact ⟨_, rfl⟩
          · exact hadvance _ _ _

theorem pullAll_fine (h : T.Answers fed inv) {p : Pass σ} (hinv : inv p.store) :
    Fine (pullAll T p) := by
  have hturn : ∀ q : Pass σ, inv q.store →
      (pullTurn T q).elim Fine fun q' => inv q'.store := by
    intro q hq
    have hfine := h.pullTurn_fine hq
    have hkept := h.toPassKeeps.pullTurn h.feeds hq
    cases hturn : pullTurn T q with
    | inl o => rwa [hturn] at hfine
    | inr q' => rwa [hturn] at hkept
  have hpost := Loop.turns_keep (fun q : Pass σ => inv q.store) Fine hturn maxPages hinv
  unfold pullAll
  cases hturns : Loop.turns (pullTurn T) maxPages p with
  | inl o => rwa [hturns] at hpost
  | inr q => exact ⟨_, rfl⟩

theorem takeAnswer_fine (h : T.Answers fed inv) {p : Pass σ} {conflicts : ℕ}
    {envelopes : List Envelope} {response : PushResponse}
    (hfed : ∀ env ∈ response.conflicts, fed env) (hinv : inv p.store) :
    (takeAnswer T conflicts p envelopes response).elim Fine fun _ => True := by
  unfold takeAnswer
  dsimp only
  split
  · split
    · exact ⟨_, rfl⟩
    · trivial
  · split
    · next e q happly =>
      exact absurd hfed (h.applyEnvelopes_fine happly (h.marked _ hinv))
    · split
      · exact ⟨_, rfl⟩
      · trivial

theorem pendingOf_fine (h : T.Answers fed inv) {s : Store} (hinv : inv s)
    (kinds : List EntityKind) (limit : ℕ) : ∃ batch, s.pendingOf kinds limit = .ok batch := by
  obtain ⟨vault, hvault⟩ := Option.isSome_iff_exists.mp (h.unlocked hinv)
  unfold Store.pendingOf
  rw [hvault]
  exact ⟨_, rfl⟩

theorem pushTurn_fine (h : T.Answers fed inv) {s : ℕ × Pass σ} (hinv : inv s.2.store) :
    (pushTurn T s).elim Fine fun _ => True := by
  obtain ⟨batch, hbatch⟩ := h.pendingOf_fine hinv
    (syncedKinds.filter fun kind => !kind.travelsApart) maxBatch
  obtain ⟨response, hpush⟩ := h.push s.2.net batch.1
  unfold pushTurn Store.pendingEnvelopes
  dsimp only
  rw [hbatch]
  dsimp only
  split
  · exact ⟨_, rfl⟩
  · split
    · next e net herror =>
      rw [herror] at hpush
      cases hpush
    · next response' net hresponse =>
      exact h.takeAnswer_fine (h.feeds.refused (congrArg Prod.fst hresponse)) hinv

theorem pushApartTurn_fine (h : T.Answers fed inv) {s : ℕ × Pass σ} (hinv : inv s.2.store) :
    (pushApartTurn T s).elim Fine fun _ => True := by
  obtain ⟨batch, hbatch⟩ := h.pendingOf_fine hinv EntityKind.apart maxBatch
  obtain ⟨response, hpush⟩ := h.push s.2.net batch.1
  unfold pushApartTurn Store.pendingApartEnvelopes
  dsimp only
  rw [hbatch]
  dsimp only
  split
  · exact ⟨_, rfl⟩
  · split
    · next net herror =>
      rw [herror] at hpush
      cases hpush
    · next e net _ herror =>
      rw [herror] at hpush
      cases hpush
    · next response' net hresponse =>
      exact h.takeAnswer_fine (h.feeds.refused (congrArg Prod.fst hresponse)) hinv

theorem pushLoop_fine {body : ℕ × Pass σ → Outcome σ ℕ ⊕ ℕ × Pass σ}
    (hkept : ∀ s, inv s.2.store → Store.PushKeeps.Kept inv (body s))
    (hfine : ∀ s, inv s.2.store → (body s).elim Fine fun _ => True) {p : Pass σ}
    (hinv : inv p.store) : Fine (pushLoop body p) := by
  have hbody : ∀ s, inv s.2.store → (body s).elim Fine fun t => inv t.2.store := by
    intro s hs
    have hk := hkept s hs
    have hf := hfine s hs
    cases hturn : body s with
    | inl o => rwa [hturn] at hf
    | inr t => rwa [hturn] at hk
  have hstart : inv ((0, p) : ℕ × Pass σ).2.store := hinv
  have hpost := Loop.turns_keep (fun s : ℕ × Pass σ => inv s.2.store) Fine hbody
    (p.store.dirtyCount + 1) hstart
  unfold pushLoop
  cases hturns : Loop.turns body (p.store.dirtyCount + 1) (0, p) with
  | inl o => rwa [hturns] at hpost
  | inr s => exact ⟨_, rfl⟩

theorem pushRound_fine (h : T.Answers fed inv) {p : Pass σ} (hinv : inv p.store) :
    Fine (pushRound T p) := by
  have hkeeps := h.toPassKeeps.toPushKeeps
  obtain ⟨conflicts, hall⟩ : Fine (pushAll T p) :=
    pushLoop_fine (fun _ hs => hkeeps.pushTurn h.feeds hs) (fun _ hs => h.pushTurn_fine hs) hinv
  have hinv' : inv (pushAll T p).2.store :=
    Store.PushKeeps.pushLoop (fun _ hs => hkeeps.pushTurn h.feeds hs) hinv
  obtain ⟨more, hapart⟩ : Fine (pushApart T (pushAll T p).2) :=
    pushLoop_fine (fun _ hs => hkeeps.pushApartTurn h.feeds hs)
      (fun _ hs => h.pushApartTurn_fine hs) hinv'
  unfold pushRound
  split
  · split
    · next e q hq =>
      rw [hq] at hall
      cases hall
    · next n q hq =>
      rw [hq] at hapart
      split
      · next e q' hq' =>
        rw [hq'] at hapart
        cases hapart
      · exact ⟨_, rfl⟩
  · exact ⟨_, rfl⟩

theorem publishManifest_fine (h : T.Answers fed inv) {p : Pass σ} (hinv : inv p.store) :
    Fine (publishManifest T p) := by
  have hrefreshed := h.refreshed (T.nowMs p.net).1 hinv
  unfold publishManifest
  dsimp only
  split
  · next e herror =>
    obtain ⟨vault, hvault⟩ := Option.isSome_iff_exists.mp (h.unlocked hrefreshed)
    unfold Store.pendingManifest at herror
    rw [hvault] at herror
    dsimp only at herror
    split at herror <;> cases herror
  · exact ⟨_, rfl⟩
  · split
    · exact ⟨_, rfl⟩
    · next response net hpush =>
      have hfed := h.feeds.refused (congrArg Prod.fst hpush)
      split
      · exact h.pullAll_fine (h.marked _ hrefreshed)
      · split
        · next e q happly =>
          exact absurd hfed (h.applyEnvelopes_fine happly (h.marked _ hrefreshed))
        · next report q happly =>
          have hq : inv q.store := (congrArg (fun r => inv r.2.store) happly).mp
            (h.toPushKeeps.applyEnvelopes (h.marked _ hrefreshed) hfed)
          exact h.pullAll_fine hq

theorem check_fine (h : T.Answers fed inv) (complete : Bool) {p : Pass σ} (hinv : inv p.store) :
    Fine (check T complete p) := by
  unfold check
  split
  · exact ⟨_, rfl⟩
  · dsimp only
    split
    · exact ⟨_, rfl⟩
    · obtain ⟨done, hpull⟩ := h.pullAll_fine
        (p := Pass.setCursor { p with store := p.store.checkManifests.1 } 0)
        (h.moved 0 (h.checked hinv))
      split
      · next e q hq =>
        rw [hq] at hpull
        cases hpull
      · exact ⟨_, rfl⟩
      · exact ⟨_, rfl⟩

theorem finish_fine (h : T.Answers fed inv) (complete : Bool) {p : Pass σ} (hinv : inv p.store) :
    Fine (finish T complete p) := by
  unfold finish
  split
  · exact ⟨_, rfl⟩
  · have hpublish : Fine (if complete = true then publishManifest T p else (.ok false, p)) ∧
        inv (if complete = true then publishManifest T p else (.ok false, p)).2.store := by
      split
      · exact ⟨h.publishManifest_fine hinv, h.toPassKeeps.publishManifest h.feeds hinv⟩
      · exact ⟨⟨_, rfl⟩, hinv⟩
    obtain ⟨⟨b, hok⟩, hkept⟩ := hpublish
    split
    · next e q hq =>
      rw [hq] at hok
      cases hok
    · next done q hq =>
      rw [hq] at hkept
      obtain ⟨withheld, hchecked⟩ := h.check_fine (T := T) done
        (p := { q with report := { q.report with complete := done } }) hkept
      split
      · next e q' hq' =>
        rw [hq'] at hchecked
        cases hchecked
      · exact ⟨_, rfl⟩

/-- The one way such a pass fails is to meet conflicts in every round. -/
theorem syncRounds_fine (h : T.Answers fed inv) (left round : ℕ) {p : Pass σ}
    (hinv : inv p.store) {e : SyncError} (herror : (syncRounds T left round p).1 = .error e) :
    e = .conflictLoop maxRounds := by
  induction left generalizing round p with
  | zero =>
    cases herror
    rfl
  | succ left ih =>
    unfold syncRounds at herror
    have hstart : inv ({ p with report := { p.report with rounds := round } } : Pass σ).store := hinv
    obtain ⟨n, hpush⟩ := h.pushRound_fine hstart
    have hpushed := h.toPassKeeps.toPushKeeps.pushRound h.feeds hstart
    split at herror
    · next e' q hq =>
      rw [hq] at hpush
      cases hpush
    · next conflicts q hq =>
      rw [hq] at hpushed
      obtain ⟨b, hpull⟩ := h.pullAll_fine hpushed
      have hpulled := h.toPassKeeps.pullAll h.feeds hpushed
      split at herror
      · next e' q' hq' =>
        rw [hq'] at hpull
        cases hpull
      · next complete q' hq' =>
        rw [hq'] at hpulled
        split at herror
        · obtain ⟨report, hfinish⟩ := h.finish_fine complete hpulled
          rw [hfinish] at herror
          cases herror
        · exact ih (round + 1) hpulled herror

end Transport.Answers

end unfailing

/-- A log that stands still: whatever it is asked, the server hands out pages of the same
records, never says to start over, and refuses a push only with records of the log. -/
structure Transport.Serves (T : Transport σ) (server : MemoryServer) (limit : ℕ) : Prop where
  pull : ∀ (net : σ) (since : ℕ), (T.pull net since maxBatch).1 = .ok (server.pull since limit)
  stays : ∀ net : σ, (T.takeReset net).1 = false
  push : ∀ (net : σ) (sent : List Envelope), ∃ response, (T.push net sent).1 = .ok response ∧
    ∀ env ∈ response.conflicts, server.records.lookup env.id = some env

namespace MemoryServer

variable (server : MemoryServer) (limit : ℕ)

def Holds (env : Envelope) : Prop := server.records.lookup env.id = some env

/-- The cursors at which pages begin, from a first one on. -/
inductive Reached (start : ℕ) : ℕ → Prop
  | start : Reached start start
  | next {cursor : ℕ} : Reached start cursor → (server.pull cursor limit).envelopes ≠ [] →
      Reached start (server.pull cursor limit).cursor

theorem holds_eq {e e' : Envelope} (h : server.Holds e) (h' : server.Holds e')
    (hid : e.id = e'.id) : e = e' := by
  unfold Holds at h h'
  rw [hid, h'] at h
  exact (Option.some.inj h).symm

end MemoryServer

/-- Pass after pass, however each of them ends. -/
def passes (T : Transport σ) : ℕ → Pass σ → Pass σ
  | 0, p => p
  | n + 1, p => passes T n (syncOnce T p.store p.net).2

section still

/-- A log that stands still, without unreadable records, in which every page from a cursor on
has a record that is neither forged nor misfiled. -/
structure StandsStill (T : Transport σ) (server : MemoryServer) (limit : ℕ) (vault : UnlockedVault)
    (start : ℕ) : Prop where
  wellFormed : server.WellFormed
  serves : T.Serves server limit
  parses : ∀ env, server.Holds env → ¬ vault.Unparsed env
  pages : ∀ cursor, server.Reached limit start cursor →
    (server.pull cursor limit).envelopes ≠ [] →
      ∃ env ∈ (server.pull cursor limit).envelopes, ¬ vault.Forged env ∧ ¬ vault.Misfiled env

/-- The records a store owes: sound ones of the log that it has not been past, or has met. -/
structure Owed (server : MemoryServer) (vault : UnlockedVault) (origin : Store)
    (env : Envelope) : Prop where
  holds : server.Holds env
  sound : vault.Sound env
  ahead : origin.cursor < env.seq.getD 0 ∨ origin.Met env

/-- A store that owes nothing any more. -/
def AllMet (server : MemoryServer) (vault : UnlockedVault) (origin s : Store) : Prop :=
  s.vault = some vault ∧ ∀ env, Owed server vault origin env → s.Met env

/-- How far a store has come from an origin: everything owed up to its cursor is met. -/
structure UpTo (server : MemoryServer) (limit : ℕ) (vault : UnlockedVault) (origin : Store)
    (cursor : ℕ) (s : Store) : Prop where
  opened : s.vault = some vault
  stands : s.cursor = cursor
  met : ∀ env, Owed server vault origin env →
    env.seq.getD 0 ≤ cursor ∨ origin.Met env → s.Met env

variable {T : Transport σ} {server : MemoryServer} {limit : ℕ} {vault : UnlockedVault}
  {origin : Store}

theorem Transport.Serves.feeds (h : T.Serves server limit) (hserver : server.WellFormed) :
    T.Feeds server.Holds where
  pulled := by
    intro net since page hpage env henv
    rw [h.pull] at hpage
    cases hpage
    exact ((MemoryServer.pull_spec hserver since limit).records env henv).1
  refused := by
    intro net sent response hresponse env henv
    obtain ⟨response', hok, hlog⟩ := h.push net sent
    rw [hok] at hresponse
    cases hresponse
    exact hlog env henv

theorem StandsStill.answers (h : StandsStill T server limit vault origin.cursor)
    (done : Envelope → Prop) (hdone : ∀ e, done e → server.Holds e ∧ vault.Sound e) :
    T.Answers server.Holds fun s => s.vault = some vault ∧ ∀ e, done e → s.Met e where
  toPassKeeps := Store.passKeeps_met (fun _ _ => server.holds_eq) hdone
  feeds := h.serves.feeds h.wellFormed
  unlocked := fun hinv => Option.isSome_iff_exists.mpr ⟨vault, hinv.1⟩
  applies := by
    rintro s envelopes nowMs ⟨hvault, -⟩ hfed
    obtain ⟨t, report, hok, -⟩ := Store.applyEnvelopes_of_parsed hvault
      (fun env henv => h.parses env (hfed env henv)) nowMs
    exact ⟨_, hok⟩
  pull := fun net since => ⟨_, h.serves.pull net since⟩
  push := by
    intro net sent
    obtain ⟨response, hok, -⟩ := h.serves.push net sent
    exact ⟨response, hok⟩

/-- What a push keeps: how far the store has come. -/
theorem pushKeeps_upTo (cursor : ℕ) :
    Store.PushKeeps server.Holds (UpTo server limit vault origin cursor) where
  applied := by
    intro s t envelopes nowMs report hs hfed h
    have hframe := (Store.applyEnvelopes_touched h).1
    refine ⟨hframe.vault.trans hs.opened, hframe.cursor.trans hs.stands, fun env henv hle => ?_⟩
    exact Store.met_of_applyEnvelopes (fun _ _ => server.holds_eq) hfed hs.opened h henv.holds
      henv.sound (Or.inl (hs.met env henv hle))
  marked := by
    intro s pushed hs
    obtain ⟨hframe, -⟩ := s.markPushed_spec pushed
    exact ⟨hframe.vault.trans hs.opened, hframe.cursor.trans hs.stands,
      fun env henv hle => (hs.met env henv hle).markPushed pushed⟩

/-- One page: the pull ends with everything owed met, or the store has come further. -/
theorem pullTurn_still (h : StandsStill T server limit vault origin.cursor) {p : Pass σ}
    (hp : UpTo server limit vault origin p.store.cursor p.store)
    (hreached : server.Reached limit origin.cursor p.store.cursor) :
    (∃ q, pullTurn T p = .inl (.ok true, q) ∧ AllMet server vault origin q.store) ∨
      ∃ q, pullTurn T p = .inr q ∧ p.store.cursor < q.store.cursor ∧
        q.store.cursor ≤ server.seq ∧ UpTo server limit vault origin q.store.cursor q.store ∧
        server.Reached limit origin.cursor q.store.cursor := by
  set page := server.pull p.store.cursor limit with hpage
  have hspec := MemoryServer.pull_spec h.wellFormed p.store.cursor limit
  rw [← hpage] at hspec
  cases hpull : T.pull p.net p.store.cursor maxBatch with
  | mk answer net =>
    have hanswer := (congrArg Prod.fst hpull).symm.trans (h.serves.pull p.net p.store.cursor)
    dsimp only at hanswer
    subst hanswer
    unfold pullTurn
    dsimp only
    rw [hpull]
    dsimp only
    rw [h.serves.stays net, if_neg Bool.false_ne_true, ← hpage]
    by_cases hempty : page.envelopes.isEmpty = true
    · -- Nothing is left behind the cursor.
      have hnil := List.isEmpty_iff.mp hempty
      have hstays := hspec.stays hnil
      rw [if_pos hempty]
      refine Or.inl ⟨{ p with net := (T.takeReset net).2 }, ?_, hp.opened, fun env henv => ?_⟩
      · unfold Pass.advance
        rw [if_neg (by omega)]
      · refine hp.met env henv (Or.inl ?_)
        have hle := hspec.last (hspec.done hnil) _ env henv.holds
        omega
    · rw [if_neg hempty]
      have hne : page.envelopes ≠ [] := fun hnil => hempty (List.isEmpty_iff.mpr hnil)
      have hfed : ∀ env ∈ page.envelopes, server.Holds env := fun env henv =>
        (hspec.records env henv).1
      have hmoves := hspec.moves hne
      obtain ⟨t, report, happly, hsome⟩ := Store.applyEnvelopes_of_parsed hp.opened
        (fun env henv => h.parses env (hfed env henv)) (T.nowMs (T.takeReset net).2).1
      have hkept := hsome (h.pages _ hreached hne)
      have hframe := (Store.applyEnvelopes_touched happly).1
      have hmet : ∀ env, Owed server vault origin env →
          env.seq.getD 0 ≤ page.cursor ∨ origin.Met env → t.Met env := by
        intro env henv hle
        refine Store.met_of_applyEnvelopes (fun _ _ => server.holds_eq) hfed hp.opened happly
          henv.holds henv.sound ?_
        by_cases hold : env.seq.getD 0 ≤ p.store.cursor ∨ origin.Met env
        · exact Or.inl (hp.met env henv hold)
        · rw [not_or] at hold
          exact Or.inr (hspec.covers _ env henv.holds (by omega) (hle.resolve_right hold.2))
      unfold Pass.applyEnvelopes
      dsimp only
      rw [happly]
      dsimp only
      rw [if_neg hkept]
      unfold Pass.advance
      rw [if_pos hmoves]
      dsimp only
      cases hmore : page.hasMore with
      | false =>
        refine Or.inl ⟨_, rfl, hframe.vault.trans hp.opened, fun env henv => ?_⟩
        have hle := hspec.last hmore _ env henv.holds
        exact (hmet env henv (Or.inl hle)).congr (fun _ => Or.inr rfl) (fun _ => rfl)
          (fun _ h => h) rfl
      | true =>
        refine Or.inr ⟨_, rfl, hmoves, ?_, ⟨hframe.vault.trans hp.opened, rfl, ?_⟩,
          .next hreached hne⟩
        · obtain ⟨env, henv, -⟩ := h.pages _ hreached hne
          obtain ⟨hholds, hlt⟩ := hspec.records env henv
          obtain ⟨q, hq, -, hle⟩ := h.wellFormed.numbered _ _ hholds
          rw [hq, Option.getD_some] at hlt
          exact hspec.cursor_le (by omega)
        · intro env henv hle
          exact (hmet env henv hle).congr (fun _ => Or.inr rfl) (fun _ => rfl) (fun _ h => h) rfl

/-- The turns of a pull: it ends with everything owed met, or each turn has come further. -/
theorem turns_still (h : StandsStill T server limit vault origin.cursor) (fuel : ℕ) {p : Pass σ}
    (hp : UpTo server limit vault origin p.store.cursor p.store)
    (hreached : server.Reached limit origin.cursor p.store.cursor) :
    (∃ q, Loop.turns (pullTurn T) fuel p = .inl (.ok true, q) ∧
        AllMet server vault origin q.store) ∨
      ∃ q, Loop.turns (pullTurn T) fuel p = .inr q ∧ p.store.cursor + fuel ≤ q.store.cursor ∧
        (0 < fuel → q.store.cursor ≤ server.seq) ∧
        UpTo server limit vault origin q.store.cursor q.store ∧
        server.Reached limit origin.cursor q.store.cursor := by
  induction fuel generalizing p with
  | zero => exact Or.inr ⟨p, rfl, le_rfl, fun hpos => absurd hpos (lt_irrefl 0), hp, hreached⟩
  | succ fuel ih =>
    rcases pullTurn_still h hp hreached with ⟨q, hturn, hmet⟩ | ⟨q, hturn, hlt, hle, hq, hreached'⟩
    · rw [Loop.turns_of_inl hturn]
      exact Or.inl ⟨q, rfl, hmet⟩
    · rw [Loop.turns_of_inr hturn]
      rcases ih hq hreached' with hdone | ⟨q', hturns, hfar, hle', hq', hreached''⟩
      · exact Or.inl hdone
      · refine Or.inr ⟨q', hturns, by omega, fun _ => ?_, hq', hreached''⟩
        cases fuel with
        | zero =>
          cases hturns
          exact hle
        | succ n => exact hle' (Nat.succ_pos n)

theorem finish_false (T : Transport σ) (p : Pass σ) :
    (finish T false p).2.store = p.store ∨
      (finish T false p).2.store = p.store.noteIncompletePull.1 := by
  unfold finish
  split
  · exact Or.inl rfl
  · exact Or.inr rfl

/-- The rounds of a pass: the store owes nothing any more, or every round has come further. -/
theorem syncRounds_still (h : StandsStill T server limit vault origin.cursor) (left round : ℕ)
    {p : Pass σ} (hp : UpTo server limit vault origin p.store.cursor p.store)
    (hreached : server.Reached limit origin.cursor p.store.cursor) {s : Store}
    (hs : (syncRounds T left round p).2.store = s) :
    AllMet server vault origin s ∨
      (p.store.cursor ≤ s.cursor ∧
        (0 < left → p.store.cursor < s.cursor ∧ s.cursor ≤ server.seq) ∧
        UpTo server limit vault origin s.cursor s ∧
        server.Reached limit origin.cursor s.cursor) := by
  induction left generalizing round p with
  | zero =>
    subst hs
    exact Or.inr ⟨le_rfl, fun hpos => absurd hpos (lt_irrefl 0), hp, hreached⟩
  | succ left ih =>
    have hanswers := h.answers (Owed server vault origin)
      fun _ henv => ⟨henv.holds, henv.sound⟩
    have hnothing := h.answers (fun _ => False) fun _ hfalse => hfalse.elim
    have hfeeds := h.serves.feeds h.wellFormed
    set p₀ : Pass σ := { p with report := { p.report with rounds := round } } with hp₀
    have hpush := hnothing.pushRound_fine (p := p₀) ⟨hp.opened, fun _ hfalse => hfalse.elim⟩
    have hpushed : UpTo server limit vault origin p.store.cursor (pushRound T p₀).2.store :=
      (pushKeeps_upTo p.store.cursor).pushRound hfeeds hp
    obtain ⟨conflicts, hok⟩ := hpush
    generalize hq : (pushRound T p₀).2 = q at hpushed
    have hround : pushRound T p₀ = (.ok conflicts, q) := Prod.ext hok hq
    have hqcursor := hpushed.stands
    rw [← hqcursor] at hpushed hreached
    unfold syncRounds at hs
    rw [← hp₀, hround] at hs
    dsimp only at hs
    rcases turns_still h maxPages hpushed hreached with
      ⟨q', hturns, hall⟩ | ⟨q', hturns, hfar, hle, hq', hreached'⟩
    · -- The pull got to the end: the rest of the pass keeps what is met.
      have hpull : pullAll T q = (.ok true, q') := by
        unfold pullAll
        rw [hturns]
      rw [hpull] at hs
      dsimp only at hs
      left
      rw [← hs]
      split
      · exact hanswers.toPassKeeps.finish hfeeds true hall
      · exact hanswers.toPassKeeps.syncRounds hfeeds left (round + 1) hall
    · have hpull : pullAll T q = (.ok false, q') := by
        unfold pullAll
        rw [hturns]
      have hmax : maxPages = 1000 := rfl
      have hle' := hle (by omega)
      rw [hpull] at hs
      dsimp only at hs
      by_cases hzero : conflicts = 0
      · rw [if_pos hzero] at hs
        right
        have hcursor : s.cursor = q'.store.cursor := by
          rcases finish_false T q' with hsame | hnoted
          · rw [← hs, hsame]
          · rw [← hs, hnoted]
            rfl
        rw [hcursor]
        refine ⟨by omega, fun _ => ⟨by omega, hle'⟩, ?_, hreached'⟩
        rcases finish_false T q' with hsame | hnoted
        · rw [← hs, hsame]
          exact hq'
        · rw [← hs, hnoted]
          exact ⟨hq'.opened, rfl, fun env henv hold =>
            (hq'.met env henv hold).congr (fun _ => Or.inr rfl) (fun _ => rfl) (fun _ h => h) rfl⟩
      · rw [if_neg hzero] at hs
        rcases ih (round + 1) hq' hreached' hs with hall | ⟨hge, hstrict, hup, hreached''⟩
        · exact Or.inl hall
        · refine Or.inr ⟨by omega, fun _ => ⟨by omega, ?_⟩, hup, hreached''⟩
          rcases Nat.eq_zero_or_pos left with rfl | hpos
          · cases hs
            exact hle'
          · exact (hstrict hpos).2

/-- A pass keeps a store that owes nothing. -/
theorem allMet_passes (h : StandsStill T server limit vault origin.cursor) (n : ℕ) {p : Pass σ}
    (hp : AllMet server vault origin p.store) :
    AllMet server vault origin (passes T n p).store := by
  have hanswers := h.answers (Owed server vault origin)
    fun _ henv => ⟨henv.holds, henv.sound⟩
  induction n generalizing p with
  | zero => exact hp
  | succ n ih => exact ih (hanswers.toPassKeeps.syncOnce hanswers.feeds p.net hp)

/-- As many passes as the log has numbers left are enough. -/
theorem passes_still (h : StandsStill T server limit vault origin.cursor) {n : ℕ} {p : Pass σ}
    (hp : UpTo server limit vault origin p.store.cursor p.store)
    (hreached : server.Reached limit origin.cursor p.store.cursor) (hpos : 0 < n)
    (hn : server.seq < p.store.cursor + n) :
    AllMet server vault origin (passes T n p).store := by
  induction n generalizing p with
  | zero => omega
  | succ n ih =>
    have hfresh : UpTo server limit vault origin p.store.cursor
        ({ store := p.store, net := p.net, report := {} } : Pass σ).store := hp
    rcases syncRounds_still h maxRounds 1 (p := { store := p.store, net := p.net, report := {} })
      hfresh hreached rfl with hall | ⟨-, hstrict, hup, hreached'⟩
    · exact allMet_passes h n hall
    · obtain ⟨hlt, hle⟩ := hstrict (by decide)
      have hfar : p.store.cursor < (syncOnce T p.store p.net).2.store.cursor := hlt
      have hend : (syncOnce T p.store p.net).2.store.cursor ≤ server.seq := hle
      exact ih hup hreached' (by omega) (by omega)

/-- A pull that stands before a page of nothing but forged records ends there. -/
theorem pullAll_of_forged {T : Transport σ} (hserves : T.Serves server limit) {p : Pass σ}
    (hvault : p.store.vault = some vault)
    (hne : (server.pull p.store.cursor limit).envelopes ≠ [])
    (hforged : ∀ env ∈ (server.pull p.store.cursor limit).envelopes, vault.Forged env) :
    (pullAll T p).1 = .ok true ∧ (pullAll T p).2.store = p.store := by
  have hturn : ∃ q, pullTurn T p = .inl (.ok true, q) ∧ q.store = p.store := by
    cases hpull : T.pull p.net p.store.cursor maxBatch with
    | mk answer net =>
      have hanswer := (congrArg Prod.fst hpull).symm.trans (hserves.pull p.net p.store.cursor)
      dsimp only at hanswer
      subst hanswer
      obtain ⟨report, happly, hall⟩ := Store.applyEnvelopes_of_forged hvault hforged
        (T.nowMs (T.takeReset net).2).1
      unfold pullTurn Pass.applyEnvelopes
      dsimp only
      rw [hpull]
      dsimp only
      rw [hserves.stays net, if_neg Bool.false_ne_true,
        if_neg (fun hempty => hne (List.isEmpty_iff.mp hempty)), happly]
      dsimp only
      rw [if_pos hall]
      exact ⟨_, rfl, rfl⟩
  obtain ⟨q, hq, hstore⟩ := hturn
  unfold pullAll
  have hturns := Loop.turns_of_inl hq 999
  rw [show maxPages = 999 + 1 from rfl, hturns]
  exact ⟨rfl, hstore⟩

end still

/-- Bad records do not keep the others back. Passes against a log that stands still, in which
every page from the store's cursor on has a record that is neither forged nor misfiled, meet
every sound record of it after finitely many, and what was met stays so; no pass fails but by
meeting conflicts in each of its rounds. A page of nothing but forged records is where a
pull ends. -/
theorem bad_records_pass {T : Transport σ} {server : MemoryServer} {limit : ℕ}
    {vault : UnlockedVault} {s : Store} (hvault : s.vault = some vault)
    (h : StandsStill T server limit vault s.cursor) (net : σ) :
    (∃ n, ∀ m, n ≤ m → ∀ env, Owed server vault s env →
      (passes T m { store := s, net, report := {} }).store.Met env) ∧
    (∀ m e, (syncOnce T (passes T m { store := s, net, report := {} }).store
        (passes T m { store := s, net, report := {} }).net).1 = .error e →
      e = .conflictLoop maxRounds) ∧
    ∀ p : Pass σ, p.store.vault = some vault →
      (server.pull p.store.cursor limit).envelopes ≠ [] →
      (∀ env ∈ (server.pull p.store.cursor limit).envelopes, vault.Forged env) →
      (pullAll T p).1 = .ok true ∧ (pullAll T p).2.store = p.store := by
  set start : Pass σ := { store := s, net, report := {} } with hstart
  have hup : UpTo server limit vault s start.store.cursor start.store :=
    ⟨hvault, rfl, fun env henv hold => by
      rcases hold with hle | hmet
      · exact henv.ahead.resolve_left (not_lt.mpr hle)
      · exact hmet⟩
  refine ⟨⟨server.seq + 1, fun m hm env henv => ?_⟩, fun m e herror => ?_,
    fun p hp hne hforged => pullAll_of_forged h.serves hp hne hforged⟩
  · have hpos : 0 < m := by omega
    exact (passes_still h hup .start hpos (by omega)).2 env henv
  · have hnothing := h.answers (fun _ => False) fun _ hfalse => hfalse.elim
    have hopen : ∀ (n : ℕ) (p : Pass σ), p.store.vault = some vault →
        (passes T n p).store.vault = some vault := by
      intro n
      induction n with
      | zero => exact fun _ hp => hp
      | succ n ih =>
        intro p hp
        exact ih _ (hnothing.toPassKeeps.syncOnce hnothing.feeds p.net
          ⟨hp, fun _ hfalse => hfalse.elim⟩).1
    exact hnothing.syncRounds_fine maxRounds 1
      (p := { store := (passes T m start).store, net := (passes T m start).net, report := {} })
      ⟨hopen m start hvault, fun _ hfalse => hfalse.elim⟩ herror

section examples

/-- A server that answers every push with nothing and hands out its log page by page. -/
def MemoryServer.standing (server : MemoryServer) (limit : ℕ) (manifests : Bool) :
    Transport Unit where
  pull _ since _ := (.ok (server.pull since limit), ())
  push _ _ := (.ok { accepted := [], conflicts := [], cursor := 0 }, ())
  takeReset _ := (false, ())
  manifests _ := manifests
  writes _ := true
  nowMs _ := (0, ())

def logVault : UnlockedVault := { vaultId := 7, key := 0 }

/-- A group as it stands in a log, sealed under a key. -/
def loggedGroup (key : ℕ) (id : Uuid) (seq : ℕ) : Envelope :=
  { Store.sealPending { logVault with key }
      { id, kind := .group, updatedAt := ⟨5, 0, 2⟩, deleted := false, baseSeq := 0
        payload := .json (.group
          { workspace := "private", name := "home", position := 0, extra := [] }) } with
    seq := some seq }

/-- A forged group in front of a good one. -/
def mixedLog : MemoryServer where
  seq := 2
  records := (AList.insert 2 (loggedGroup 0 2 2) (AList.insert 1 (loggedGroup 1 1 1) ∅))
  vaultId := some 7
  withheld := []
  stale := ∅

theorem lookup_mixedLog {x : Uuid} {env : Envelope}
    (h : mixedLog.records.lookup x = some env) :
    (x = 1 ∧ env = loggedGroup 1 1 1) ∨ (x = 2 ∧ env = loggedGroup 0 2 2) := by
  by_cases h2 : x = 2
  · subst h2
    have heq : mixedLog.records.lookup 2 = some (loggedGroup 0 2 2) := rfl
    rw [heq] at h
    exact Or.inr ⟨rfl, (Option.some.inj h).symm⟩
  · by_cases h1 : x = 1
    · subst h1
      have heq : mixedLog.records.lookup 1 = some (loggedGroup 1 1 1) := rfl
      rw [heq] at h
      exact Or.inl ⟨rfl, (Option.some.inj h).symm⟩
    · have hnone : mixedLog.records.lookup x = none := by
        unfold mixedLog
        rw [AList.lookup_insert_ne h2, AList.lookup_insert_ne h1, AList.lookup_empty]
      rw [hnone] at h
      cases h

theorem wellFormed_mixedLog : mixedLog.WellFormed where
  honest := ⟨rfl, rfl⟩
  filed := by
    intro x env h
    rcases lookup_mixedLog h with ⟨rfl, rfl⟩ | ⟨rfl, rfl⟩ <;> rfl
  numbered := by
    intro x env h
    rcases lookup_mixedLog h with ⟨rfl, rfl⟩ | ⟨rfl, rfl⟩
    · exact ⟨1, rfl, by decide, by decide⟩
    · exact ⟨2, rfl, by decide, by decide⟩
  distinct := by
    intro x y env env' h h' hseq
    rcases lookup_mixedLog h with ⟨rfl, rfl⟩ | ⟨rfl, rfl⟩ <;>
      rcases lookup_mixedLog h' with ⟨rfl, rfl⟩ | ⟨rfl, rfl⟩
    · rfl
    · exact absurd hseq (by decide)
    · exact absurd hseq (by decide)
    · rfl

theorem serves_standing (limit : ℕ) (manifests : Bool) :
    (mixedLog.standing limit manifests).Serves mixedLog limit where
  pull := fun _ _ => rfl
  stays := fun _ => rfl
  push := fun _ _ => ⟨_, rfl, fun _ henv => absurd henv List.not_mem_nil⟩

theorem sound_loggedGroup : logVault.Sound (loggedGroup 0 2 2) :=
  ⟨rfl, rfl, _, rfl, fun _ => rfl⟩

theorem forged_loggedGroup : logVault.Forged (loggedGroup 1 1 1) := Or.inr ⟨rfl, rfl⟩

/-- A store with nothing in it. -/
def bareStore : Store := Store.empty 1 7 (some logVault)

/-- With one record to a page, the forged group keeps the good one behind it away, however
often the device syncs. -/
theorem forged_page_blocks :
    ∃ (T : Transport Unit) (env : Envelope), T.Serves mixedLog 1 ∧
      (∀ e, mixedLog.Holds e → logVault.Sound e ∨ logVault.Forged e) ∧
      Owed mixedLog logVault bareStore env ∧
      ∀ n, ¬ (passes T n { store := bareStore, net := (), report := {} }).store.Met env := by
  have hpass : (syncOnce (mixedLog.standing 1 false) bareStore ()).2.store = bareStore := by
    have hpushed : (pushRound (mixedLog.standing 1 false)
        { store := bareStore, net := (), report := { rounds := 1 } }) =
        (.ok 0, { store := bareStore, net := (), report := { rounds := 1 } }) := rfl
    have hopen : bareStore.vault = some logVault := rfl
    have hpulled := pullAll_of_forged (serves_standing 1 false)
      (p := { store := bareStore, net := (), report := { rounds := 1 } }) hopen
      (List.ne_nil_of_mem (a := loggedGroup 1 1 1) (by decide +kernel)) (by
        intro env henv
        have hpage : (mixedLog.pull bareStore.cursor 1).envelopes = [loggedGroup 1 1 1] := by
          decide +kernel
        rw [hpage, List.mem_singleton] at henv
        rw [henv]
        exact forged_loggedGroup)
    obtain ⟨hok, hstore⟩ := hpulled
    unfold syncOnce
    rw [show maxRounds = 2 + 1 from rfl]
    unfold syncRounds
    rw [hpushed]
    dsimp only
    split
    · next e q hq =>
      rw [hq] at hok
      cases hok
    · next complete q hq =>
      rw [hq] at hstore
      exact hstore
  have hpasses : ∀ (n : ℕ) (p : Pass Unit), p.store = bareStore →
      (passes (mixedLog.standing 1 false) n p).store = bareStore := by
    intro n
    induction n with
    | zero => exact fun _ hp => hp
    | succ n ih =>
      intro p hp
      have hnet : p.net = () := rfl
      refine ih _ ?_
      rw [hp, hnet]
      exact hpass
  refine ⟨mixedLog.standing 1 false, loggedGroup 0 2 2, serves_standing 1 false, ?_,
    ⟨rfl, sound_loggedGroup, Or.inl (by decide)⟩, fun n hmet => ?_⟩
  · intro e he
    rcases lookup_mixedLog he with ⟨-, rfl⟩ | ⟨-, rfl⟩
    · exact Or.inr forged_loggedGroup
    · exact Or.inl sound_loggedGroup
  · rw [hpasses n _ rfl] at hmet
    rcases hmet with hle | ⟨hdeleted, -⟩ | ⟨hkind, -⟩ | ⟨hkind, -⟩
    · exact absurd hle (by decide)
    · cases hdeleted
    · cases hkind
    · cases hkind

/-- With both on one page, the good group arrives. -/
theorem bad_records_pass_mixed :
    ∃ n, ∀ m, n ≤ m → (passes (mixedLog.standing 500 true) m
      { store := bareStore, net := (), report := {} }).store.Met (loggedGroup 0 2 2) := by
  have hreached : ∀ cursor, mixedLog.Reached 500 0 cursor → cursor = 0 ∨ cursor = 2 := by
    intro cursor h
    induction h with
    | start => exact Or.inl rfl
    | next _ _ ih =>
      rcases ih with rfl | rfl
      · exact Or.inr rfl
      · exact Or.inr rfl
  have hstill : StandsStill (mixedLog.standing 500 true) mixedLog 500 logVault bareStore.cursor := by
    refine ⟨wellFormed_mixedLog, serves_standing 500 true, fun env henv => ?_,
      fun cursor hcursor hne => ?_⟩
    · rintro ⟨-, -, plain, hopen, hparses⟩
      rcases lookup_mixedLog henv with ⟨-, rfl⟩ | ⟨-, rfl⟩
      · cases hopen
      · cases hopen
        exact hparses rfl
    · rcases hreached cursor hcursor with rfl | rfl
      · refine ⟨loggedGroup 0 2 2, by decide +kernel, ?_, ?_⟩
        · rintro (hvault | ⟨-, hopen⟩)
          · exact hvault rfl
          · cases hopen
        · rintro ⟨hkind, -⟩
          cases hkind
      · exact absurd rfl hne
  obtain ⟨⟨n, hmet⟩, -⟩ := bad_records_pass (s := bareStore) rfl hstill ()
  exact ⟨n, fun m hm => hmet m hm _ ⟨rfl, sound_loggedGroup, Or.inl (by decide)⟩⟩

end examples

end UwuSsh

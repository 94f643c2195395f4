import UwuSsh.Sync.Engine

/-!
What a whole pass keeps. A pass touches the store only through a handful of calls, and it
applies nothing but what the server handed over, so a property that every such call keeps
for the records this server can hand over holds after the pass if it held before, however
the pass ends.
-/
namespace UwuSsh

/-- What every store call of a push keeps, when all records that are applied are `fed`. -/
structure Store.PushKeeps (fed : Envelope → Prop) (inv : Store → Prop) : Prop where
  applied : ∀ {s t : Store} {envelopes : List Envelope} {nowMs : UInt64} {report : ApplyReport},
    inv s → (∀ env ∈ envelopes, fed env) → s.applyEnvelopes envelopes nowMs = .ok (t, report) →
      inv t
  marked : ∀ {s : Store} (pushed : List Pushed), inv s → inv (s.markPushed pushed).1

/-- The same of every store call of a pass. -/
structure Store.PassKeeps (fed : Envelope → Prop) (inv : Store → Prop) : Prop
    extends Store.PushKeeps fed inv where
  moved : ∀ {s : Store} (cursor : ℕ), inv s → inv { s with cursor }
  refreshed : ∀ {s : Store} (nowMs : UInt64), inv s → inv (s.refreshManifest nowMs).1
  checked : ∀ {s : Store}, inv s → inv s.checkManifests.1
  noted : ∀ {s : Store}, inv s → inv s.noteIncompletePull.1

/-- A server that hands over only such records, in pages and as conflicts. -/
structure Transport.Feeds {σ : Type} (T : Transport σ) (fed : Envelope → Prop) : Prop where
  pulled : ∀ {net : σ} {since : ℕ} {page : PullResponse},
    (T.pull net since maxBatch).1 = .ok page → ∀ env ∈ page.envelopes, fed env
  refused : ∀ {net : σ} {sent : List Envelope} {response : PushResponse},
    (T.push net sent).1 = .ok response → ∀ env ∈ response.conflicts, fed env

namespace Store.PushKeeps

variable {σ : Type} {T : Transport σ} {fed : Envelope → Prop} {inv : Store → Prop}

theorem applyEnvelopes (h : PushKeeps fed inv) {p : Pass σ} {envelopes : List Envelope}
    (hinv : inv p.store) (hfed : ∀ env ∈ envelopes, fed env) :
    inv (p.applyEnvelopes T envelopes).2.store := by
  unfold Pass.applyEnvelopes
  dsimp only
  cases happly : p.store.applyEnvelopes envelopes (T.nowMs p.net).1 with
  | error e => exact hinv
  | ok result => exact h.applied hinv hfed happly

/-- What is kept of a push loop's state, whether it goes on or ends. -/
abbrev Kept (inv : Store → Prop) (turn : Outcome σ ℕ ⊕ ℕ × Pass σ) : Prop :=
  turn.elim (fun o => inv o.2.store) fun s => inv s.2.store

theorem takeAnswer (h : PushKeeps fed inv) {p : Pass σ} {conflicts : ℕ}
    {envelopes : List Envelope} {response : PushResponse}
    (hfed : ∀ env ∈ response.conflicts, fed env) (hinv : inv p.store) :
    Kept inv (UwuSsh.takeAnswer T conflicts p envelopes response) := by
  have hmarked := h.marked (acceptedOf envelopes response) hinv
  unfold UwuSsh.takeAnswer
  dsimp only
  split
  · split
    · exact hmarked
    · exact hmarked
  · split
    · next e q happly =>
      have hq := congrArg (fun r => inv r.2.store) happly
      exact hq.mp (h.applyEnvelopes hmarked hfed)
    · next report q happly =>
      have hq : inv q.store :=
        (congrArg (fun r => inv r.2.store) happly).mp (h.applyEnvelopes hmarked hfed)
      split
      · exact hq
      · exact hq

theorem pushTurn (h : PushKeeps fed inv) (hfeeds : T.Feeds fed) {s : ℕ × Pass σ}
    (hinv : inv s.2.store) : Kept inv (UwuSsh.pushTurn T s) := by
  unfold UwuSsh.pushTurn
  dsimp only
  split
  · exact hinv
  · split
    · exact hinv
    · split
      · exact hinv
      · next response net hpush =>
        exact h.takeAnswer (hfeeds.refused (congrArg Prod.fst hpush)) hinv

theorem pushApartTurn (h : PushKeeps fed inv) (hfeeds : T.Feeds fed) {s : ℕ × Pass σ}
    (hinv : inv s.2.store) : Kept inv (UwuSsh.pushApartTurn T s) := by
  unfold UwuSsh.pushApartTurn
  dsimp only
  split
  · exact hinv
  · split
    · exact hinv
    · split
      · exact hinv
      · exact hinv
      · next response net hpush =>
        exact h.takeAnswer (hfeeds.refused (congrArg Prod.fst hpush)) hinv

theorem pushLoop {body : ℕ × Pass σ → Outcome σ ℕ ⊕ ℕ × Pass σ}
    (hbody : ∀ s, inv s.2.store → Kept inv (body s)) {p : Pass σ} (hinv : inv p.store) :
    inv (UwuSsh.pushLoop body p).2.store := by
  have hstart : inv ((0, p) : ℕ × Pass σ).2.store := hinv
  have hpost := Loop.turns_keep (fun s : ℕ × Pass σ => inv s.2.store)
    (fun o : Outcome σ ℕ => inv o.2.store) hbody (p.store.dirtyCount + 1) hstart
  unfold UwuSsh.pushLoop
  cases hturns : Loop.turns body (p.store.dirtyCount + 1) (0, p) <;> rwa [hturns] at hpost

theorem pushRound (h : PushKeeps fed inv) (hfeeds : T.Feeds fed) {p : Pass σ}
    (hinv : inv p.store) : inv (UwuSsh.pushRound T p).2.store := by
  have hall : inv (pushAll T p).2.store := pushLoop (fun _ hs => h.pushTurn hfeeds hs) hinv
  unfold UwuSsh.pushRound
  split
  · split
    · next e q hpush =>
      rwa [hpush] at hall
    · next conflicts q hpush =>
      rw [hpush] at hall
      have hapart : inv (pushApart T q).2.store :=
        pushLoop (fun _ hs => h.pushApartTurn hfeeds hs) hall
      split
      · next e q' hpush' =>
        rwa [hpush'] at hapart
      · next more q' hpush' =>
        rwa [hpush'] at hapart
  · exact hinv

end Store.PushKeeps

namespace Store.PassKeeps

variable {σ : Type} {T : Transport σ} {fed : Envelope → Prop} {inv : Store → Prop}

theorem advance (h : PassKeeps fed inv) {p : Pass σ} (cursor : ℕ) (page : PullResponse)
    (hinv : inv p.store) :
    (p.advance cursor page).elim (fun o => inv o.2.store) fun q => inv q.store := by
  unfold Pass.advance
  by_cases hlt : cursor < page.cursor
  · rw [if_pos hlt]
    have hmoved := h.moved page.cursor hinv
    cases page.hasMore <;> exact hmoved
  · rw [if_neg hlt]
    exact hinv

theorem pullTurn (h : PassKeeps fed inv) (hfeeds : T.Feeds fed) {p : Pass σ}
    (hinv : inv p.store) :
    (UwuSsh.pullTurn T p).elim (fun o => inv o.2.store) fun q => inv q.store := by
  unfold UwuSsh.pullTurn
  dsimp only
  cases hpull : T.pull p.net p.store.cursor maxBatch with
  | mk answer net =>
    cases answer with
    | error e => exact hinv
    | ok page =>
      have hfed := hfeeds.pulled (congrArg Prod.fst hpull)
      dsimp only
      by_cases hreset : (T.takeReset net).1 = true
      · rw [if_pos hreset]
        by_cases hzero : p.store.cursor = 0
        · rw [if_pos hzero]
          exact hinv
        · rw [if_neg hzero]
          exact h.moved 0 hinv
      rw [if_neg hreset]
      by_cases hempty : page.envelopes.isEmpty = true
      · rw [if_pos hempty]
        exact h.advance _ page hinv
      rw [if_neg hempty]
      unfold Pass.applyEnvelopes
      dsimp only
      cases happly : p.store.applyEnvelopes page.envelopes (T.nowMs (T.takeReset net).2).1 with
      | error e => exact hinv
      | ok result =>
        have hinv' : inv result.1 := h.applied hinv hfed happly
        dsimp only
        by_cases hall : result.2.rejected = page.envelopes.length
        · rw [if_pos hall]
          exact hinv'
        · rw [if_neg hall]
          exact h.advance _ page hinv'

theorem pullAll (h : PassKeeps fed inv) (hfeeds : T.Feeds fed) {p : Pass σ}
    (hinv : inv p.store) : inv (UwuSsh.pullAll T p).2.store := by
  have hpost := Loop.turns_keep (fun p : Pass σ => inv p.store)
    (fun o : Outcome σ Bool => inv o.2.store) (fun _ hp => h.pullTurn hfeeds hp) maxPages hinv
  unfold UwuSsh.pullAll
  cases hturns : Loop.turns (UwuSsh.pullTurn T) maxPages p <;> rwa [hturns] at hpost

theorem publishManifest (h : PassKeeps fed inv) (hfeeds : T.Feeds fed) {p : Pass σ}
    (hinv : inv p.store) : inv (UwuSsh.publishManifest T p).2.store := by
  have hrefreshed := h.refreshed (T.nowMs p.net).1 hinv
  unfold UwuSsh.publishManifest
  dsimp only
  split
  · exact hrefreshed
  · exact hrefreshed
  · split
    · exact hrefreshed
    · next response net hpush =>
      split
      · exact h.pullAll hfeeds (h.marked _ hrefreshed)
      · split
        · next e q happly =>
          have hq := congrArg (fun r => inv r.2.store) happly
          exact hq.mp (h.toPushKeeps.applyEnvelopes (h.marked _ hrefreshed)
            (hfeeds.refused (congrArg Prod.fst hpush)))
        · next report q happly =>
          have hq : inv q.store := (congrArg (fun r => inv r.2.store) happly).mp
            (h.toPushKeeps.applyEnvelopes (h.marked _ hrefreshed)
              (hfeeds.refused (congrArg Prod.fst hpush)))
          exact h.pullAll hfeeds hq

theorem check (h : PassKeeps fed inv) (hfeeds : T.Feeds fed) (complete : Bool) {p : Pass σ}
    (hinv : inv p.store) : inv (UwuSsh.check T complete p).2.store := by
  unfold UwuSsh.check
  split
  · exact h.noted hinv
  · dsimp only
    split
    · exact h.checked hinv
    · have hpulled := h.pullAll (T := T) hfeeds
        (p := Pass.setCursor { p with store := p.store.checkManifests.1 } 0)
        (h.moved 0 (h.checked hinv))
      split
      · next e q hpull =>
        rwa [hpull] at hpulled
      · next q hpull =>
        rw [hpull] at hpulled
        exact h.checked hpulled
      · next q hpull =>
        rw [hpull] at hpulled
        exact h.noted hpulled

theorem finish (h : PassKeeps fed inv) (hfeeds : T.Feeds fed) (complete : Bool) {p : Pass σ}
    (hinv : inv p.store) : inv (UwuSsh.finish T complete p).2.store := by
  unfold UwuSsh.finish
  split
  · exact hinv
  · have hpublished : inv (if complete = true then UwuSsh.publishManifest T p
        else (.ok false, p)).2.store := by
      split
      · exact h.publishManifest hfeeds hinv
      · exact hinv
    split
    · next e q hq =>
      rwa [hq] at hpublished
    · next done q hq =>
      rw [hq] at hpublished
      have hchecked := h.check (T := T) hfeeds done
        (p := { q with report := { q.report with complete := done } }) hpublished
      split
      · next e q' hq' =>
        rwa [hq'] at hchecked
      · next withheld q' hq' =>
        rwa [hq'] at hchecked

theorem syncRounds (h : PassKeeps fed inv) (hfeeds : T.Feeds fed) (left round : ℕ) {p : Pass σ}
    (hinv : inv p.store) : inv (UwuSsh.syncRounds T left round p).2.store := by
  induction left generalizing round p with
  | zero => exact hinv
  | succ left ih =>
    unfold UwuSsh.syncRounds
    have hpushed := h.toPushKeeps.pushRound (T := T) hfeeds
      (p := { p with report := { p.report with rounds := round } }) hinv
    split
    · next e q hq =>
      rwa [hq] at hpushed
    · next conflicts q hq =>
      rw [hq] at hpushed
      have hpulled := h.pullAll (T := T) hfeeds hpushed
      split
      · next e q' hq' =>
        rwa [hq'] at hpulled
      · next complete q' hq' =>
        rw [hq'] at hpulled
        split
        · exact h.finish hfeeds complete hpulled
        · exact ih (round + 1) hpulled

/-- However a pass ends, it keeps what its store calls keep. -/
theorem syncOnce (h : PassKeeps fed inv) (hfeeds : T.Feeds fed) {s : Store} (net : σ)
    (hinv : inv s) : inv (UwuSsh.syncOnce T s net).2.store :=
  h.syncRounds hfeeds maxRounds 1 hinv

end Store.PassKeeps

end UwuSsh

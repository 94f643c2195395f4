import UwuSsh.Sync.Convergence

/-!
Pulling to the end. Whatever the server answers, a pull is a short chain of requests,
each of which does one of four things to the store, and the cursor only passes a page
whose records were applied. Against an honest server a pull is a run of the device, and one
that reports it got to the end leaves nothing to pull.
-/
namespace UwuSsh

section anyServer

variable {σ : Type} (T : Transport σ)

/-- What one request of a pull does to the store, the page being the server's answer
for the cursor the store had. -/
inductive Asked (s : Store) : Store → Prop
  | nothing : Asked s s
  | startOver {net : σ} : (T.takeReset net).1 = true → Asked s { s with cursor := 0 }
  | applied {net : σ} {page : PullResponse} {nowMs : UInt64} {t : Store} {report : ApplyReport} :
      (T.pull net s.cursor maxBatch).1 = .ok page →
      s.applyEnvelopes page.envelopes nowMs = .ok (t, report) → Asked s t
  | passed {net : σ} {page : PullResponse} {nowMs : UInt64} {t : Store} {report : ApplyReport} :
      (T.pull net s.cursor maxBatch).1 = .ok page →
      s.applyEnvelopes page.envelopes nowMs = .ok (t, report) → s.cursor < page.cursor →
      Asked s { t with cursor := page.cursor }

/-- The pass at the end of a turn. -/
def passAfter {α : Type} : Outcome σ α ⊕ Pass σ → Pass σ := Sum.elim Prod.snd id

variable {T}

theorem asked_of_advance {p : Pass σ} {s : Store} {net : σ} {page : PullResponse}
    {nowMs : UInt64} {report : ApplyReport} (hpull : (T.pull net s.cursor maxBatch).1 = .ok page)
    (happly : s.applyEnvelopes page.envelopes nowMs = .ok (p.store, report)) :
    Asked T s (passAfter (p.advance s.cursor page)).store := by
  unfold Pass.advance
  by_cases hlt : s.cursor < page.cursor
  · rw [if_pos hlt]
    have hpassed : Asked T s { p.store with cursor := page.cursor } := .passed hpull happly hlt
    by_cases hmore : page.hasMore = true
    · simp only [hmore, ↓reduceIte]
      exact hpassed
    · simp only [hmore]
      exact hpassed
  · rw [if_neg hlt]
    exact .applied hpull happly

/-- One turn of a pull is one request. -/
theorem asked_of_pullTurn (p : Pass σ) : Asked T p.store (passAfter (pullTurn T p)).store := by
  unfold pullTurn
  dsimp only
  cases hpull : T.pull p.net p.store.cursor maxBatch with
  | mk answer net =>
    cases answer with
    | error e => exact .nothing
    | ok page =>
      have hanswer : (T.pull p.net p.store.cursor maxBatch).1 = .ok page := by rw [hpull]
      dsimp only
      by_cases hreset : (T.takeReset net).1 = true
      · rw [if_pos hreset]
        by_cases hzero : p.store.cursor = 0
        · rw [if_pos hzero]
          exact .nothing
        · rw [if_neg hzero]
          exact .startOver hreset
      rw [if_neg hreset]
      by_cases hempty : page.envelopes.isEmpty = true
      · rw [if_pos hempty]
        have hnone : p.store.applyEnvelopes page.envelopes 0 = .ok (p.store, {}) := by
          simp [Store.applyEnvelopes, hempty]
        exact asked_of_advance hanswer hnone
      rw [if_neg hempty]
      unfold Pass.applyEnvelopes
      dsimp only
      cases happly : p.store.applyEnvelopes page.envelopes (T.nowMs (T.takeReset net).2).1 with
      | error e => exact .nothing
      | ok result =>
        obtain ⟨t, applied⟩ := result
        dsimp only
        by_cases hall : applied.rejected = page.envelopes.length
        · rw [if_pos hall]
          exact .applied hanswer happly
        · rw [if_neg hall]
          exact asked_of_advance hanswer happly

theorem pullAll_snd (p : Pass σ) :
    (pullAll T p).2 = passAfter (Loop.turns (pullTurn T) maxPages p) := by
  unfold pullAll
  cases Loop.turns (pullTurn T) maxPages p <;> rfl

/-- A pull is a chain of at most as many requests as it has pages. -/
theorem pullAll_chain (p : Pass σ) :
    ∃ n ≤ maxPages, Loop.Chain (Asked T) n p.store (pullAll T p).2.store := by
  have hlink : ∀ p turn, pullTurn T p = turn → Asked T p.store (passAfter turn).store := by
    rintro p _ rfl
    exact asked_of_pullTurn p
  obtain ⟨n, hn, hchain⟩ := Loop.turns_chain Pass.store (fun o : Outcome σ Bool => o.2.store)
    (fun p _ h => hlink p _ h) (fun p _ h => hlink p _ h) maxPages p
  refine ⟨n, hn, ?_⟩
  rw [pullAll_snd]
  cases hturns : Loop.turns (pullTurn T) maxPages p <;> rwa [hturns] at hchain

/-- A request moves the cursor forward, or starts over because it was told to. -/
theorem Asked.cursor {s t : Store} (h : Asked T s t) : s.cursor ≤ t.cursor ∨
    ∃ net, (T.takeReset net).1 = true ∧ t = { s with cursor := 0 } := by
  cases h with
  | nothing => exact .inl le_rfl
  | startOver hreset => exact .inr ⟨_, hreset, rfl⟩
  | applied _ happly => exact .inl (Store.applyEnvelopes_touched happly).1.cursor.ge
  | passed _ _ hlt => exact .inl hlt.le

theorem net_advance (p : Pass σ) (cursor : ℕ) (page : PullResponse) :
    (passAfter (p.advance cursor page)).net = p.net := by
  unfold Pass.advance
  by_cases hlt : cursor < page.cursor
  · rw [if_pos hlt]
    cases page.hasMore <;> rfl
  · rw [if_neg hlt]
    rfl

theorem net_applyEnvelopes (p : Pass σ) (envelopes : List Envelope) :
    (p.applyEnvelopes T envelopes).2.net = (T.nowMs p.net).2 := by
  unfold Pass.applyEnvelopes
  dsimp only
  cases p.store.applyEnvelopes envelopes (T.nowMs p.net).1 <;> rfl

/-- A turn asks for one page. -/
theorem counted_pullTurn (p : Pass (σ × ℕ)) :
    (passAfter (pullTurn T.counted p)).net.2 = p.net.2 + 1 := by
  unfold pullTurn
  dsimp only
  cases hpull : T.counted.pull p.net p.store.cursor maxBatch with
  | mk answer net =>
    have hnet : net.2 = p.net.2 + 1 := by
      have h := congrArg (fun r => r.2.2) hpull
      exact h.symm
    have hreset : (T.counted.takeReset net).2.2 = p.net.2 + 1 := hnet
    cases answer with
    | error e => exact hnet
    | ok page =>
      dsimp only
      by_cases hflag : (T.counted.takeReset net).1 = true
      · rw [if_pos hflag]
        by_cases hzero : p.store.cursor = 0
        · rw [if_pos hzero]
          exact hreset
        · rw [if_neg hzero]
          exact hreset
      rw [if_neg hflag]
      by_cases hempty : page.envelopes.isEmpty = true
      · rw [if_pos hempty, net_advance]
        exact hreset
      rw [if_neg hempty]
      split
      · next e p' happly =>
        have h : p'.net = _ := (congrArg (fun r => r.2.net) happly).symm.trans
          (net_applyEnvelopes _ _)
        exact (congrArg Prod.snd h).trans hreset
      · next applied p' happly =>
        have h : p'.net = _ := (congrArg (fun r => r.2.net) happly).symm.trans
          (net_applyEnvelopes _ _)
        have hnet' : p'.net.2 = p.net.2 + 1 := (congrArg Prod.snd h).trans hreset
        by_cases hall : applied.rejected = page.envelopes.length
        · rw [if_pos hall]
          exact hnet'
        · rw [if_neg hall, net_advance]
          exact hnet'

theorem counted_pullAll (p : Pass (σ × ℕ)) :
    (pullAll T.counted p).2.net.2 ≤ p.net.2 + maxPages := by
  have hlink : ∀ p turn, pullTurn T.counted p = turn → (passAfter turn).net.2 = p.net.2 + 1 := by
    rintro p _ rfl
    exact counted_pullTurn p
  have hcount : ∃ n ≤ maxPages, Loop.Chain (fun a b : ℕ => b = a + 1) n p.net.2
      ((Loop.turns (pullTurn T.counted) maxPages p).elim (fun o => o.2.net.2) fun p => p.net.2) :=
    Loop.turns_chain (fun p : Pass (σ × ℕ) => p.net.2) _ (fun p _ h => hlink p _ h)
      (fun p _ h => hlink p _ h) maxPages p
  obtain ⟨n, hn, hchain⟩ := hcount
  have heq : (pullAll T.counted p).2.net.2 = p.net.2 + n := by
    rw [pullAll_snd, ← hchain.eq_add]
    cases Loop.turns (pullTurn T.counted) maxPages p <;> rfl
  omega

end anyServer

section honestServer

variable {ι : Type} [DecidableEq ι] (rule : WriteRule) (clock : ℕ → UInt64)

/-- A pass that stands where a device of a world does. -/
structure World.Follows (w : World ι) (i : ι) (p : Pass (MemoryServer × ℕ)) : Prop where
  store : (w.devices i).store = p.store
  server : w.server = p.net.1

namespace World

variable {w : World ι} {i : ι} {p : Pass (MemoryServer × ℕ)}

/-- Moving past an applied page is a step of the device. -/
theorem advance_run {page : PullResponse} (h : w.Follows i p)
    (hflight : (w.devices i).flight = .applied page) :
    ∃ w', Step rule w w' ∧ w'.server = w.server ∧
      w'.Follows i (passAfter (p.advance p.store.cursor page)) ∧
      ∀ q, p.advance p.store.cursor page = .inl (.ok true, q) →
        (w'.devices i).flight = .pulled ∧ page.cursor ≤ q.store.cursor ∧
          (p.store.cursor < page.cursor → page.hasMore = false) := by
  unfold Pass.advance
  by_cases hlt : p.store.cursor < page.cursor
  · rw [if_pos hlt]
    have hstep : Device.Step rule (w.devices i) _ _ :=
      .advance (w.devices i) hflight (h.store ▸ hlt)
    refine ⟨_, .mk w i hstep rfl, rfl, ?_, ?_⟩
    · have hstore : (passAfter (if page.hasMore = true then
          (.inr (p.setCursor page.cursor) : Outcome (MemoryServer × ℕ) Bool ⊕ Pass _)
          else .inl (.ok true, p.setCursor page.cursor))) = p.setCursor page.cursor := by
        split <;> rfl
      constructor
      · rw [after_devices_self, hstore, h.store]
        rfl
      · rw [hstore]
        exact h.server
    · intro q hq
      cases hmore : page.hasMore with
      | true => simp [hmore] at hq
      | false =>
        simp only [hmore, Bool.false_eq_true, ↓reduceIte, Sum.inl.injEq, Prod.mk.injEq] at hq
        obtain ⟨-, rfl⟩ := hq
        rw [after_devices_self]
        exact ⟨rfl, le_rfl, fun _ => rfl⟩
  · rw [if_neg hlt]
    have hstep : Device.Step rule (w.devices i) _ _ :=
      .settle (w.devices i) hflight (h.store ▸ Nat.le_of_not_lt hlt)
    refine ⟨_, .mk w i hstep rfl, rfl, ⟨?_, h.server⟩, ?_⟩
    · rw [after_devices_self]
      exact h.store
    · intro q hq
      cases hq
      rw [after_devices_self]
      exact ⟨rfl, Nat.le_of_not_lt hlt, fun hlt' => absurd hlt' hlt⟩

/-- One turn against an honest server is a short run of the device. When every device
writes as the protocol has it, a turn that says the pull got to the end leaves nothing
to pull. -/
theorem pullTurn_run (h : w.Follows i p) :
    ∃ w', Run.Steps (Step rule) w w' ∧
      w'.Follows i (passAfter (pullTurn (MemoryServer.transport clock) p)) ∧
      ∀ q, pullTurn (MemoryServer.transport clock) p = .inl (.ok true, q) →
        ∀ kindOf vault, Base vault w → Proper kindOf vault w →
          (w'.devices i).flight = .pulled ∧ w'.CaughtUp i := by
  set page := w.server.pull (w.devices i).store.cursor maxBatch with hpage
  have hasked : (MemoryServer.transport clock).pull p.net p.store.cursor maxBatch =
      (.ok page, p.net) := by
    rw [hpage, h.store, h.server]
    rfl
  have hfetch : Step rule w (w.after i (.handed (w.devices i).store.cursor page)
      { w.devices i with flight := .paged page } w.server) :=
    .mk w i (.fetch _ page) ⟨hpage, rfl⟩
  set w₁ := w.after i (.handed (w.devices i).store.cursor page)
    { w.devices i with flight := .paged page } w.server with hw₁
  have hat₁ : w₁.devices i = { w.devices i with flight := .paged page } := after_devices_self ..
  -- What follows once the page is applied.
  have hpassed : ∀ {p' : Pass (MemoryServer × ℕ)} {nowMs report}, p'.net.1 = w.server →
      (w.devices i).store.applyEnvelopes page.envelopes nowMs = .ok (p'.store, report) →
      ∃ w', Run.Steps (Step rule) w w' ∧
        w'.Follows i (passAfter (p'.advance p.store.cursor page)) ∧
        ∀ q, p'.advance p.store.cursor page = .inl (.ok true, q) →
          ∀ kindOf vault, Base vault w → Proper kindOf vault w →
            (w'.devices i).flight = .pulled ∧ w'.CaughtUp i := by
    intro p' nowMs report hnet happly
    have hcursor : p'.store.cursor = p.store.cursor := by
      rw [(Store.applyEnvelopes_touched happly).1.cursor, h.store]
    have hstep : Device.Step rule (w₁.devices i) (.applied page.envelopes)
        { store := p'.store, flight := .applied page } := by
      rw [hat₁]
      exact .apply _ nowMs rfl happly
    have hfollows : (w₁.after i (.applied page.envelopes)
        { store := p'.store, flight := .applied page } w.server).Follows i p' :=
      ⟨by rw [after_devices_self], hnet.symm⟩
    have hflight : ((w₁.after i (.applied page.envelopes)
        { store := p'.store, flight := .applied page } w.server).devices i).flight =
        .applied page := by rw [after_devices_self]
    obtain ⟨w', hlast, hserver, hfollows', hdone⟩ := advance_run rule hfollows hflight
    rw [hcursor] at hfollows' hdone
    refine ⟨w', ((Relation.ReflTransGen.single hfetch).tail (.mk w₁ i hstep rfl)).tail hlast,
      hfollows', ?_⟩
    intro q hq kindOf vault hbase hproper
    obtain ⟨hflight, hle, hmore⟩ := hdone q hq
    rw [hq] at hfollows'
    refine ⟨hflight, ?_⟩
    rw [CaughtUp, hserver, hfollows'.store]
    have hspec := MemoryServer.pull_spec hbase.server (w.devices i).store.cursor maxBatch
    rw [← h.store] at hmore
    exact hspec.nothing_waits hbase.server hmore hle
  unfold pullTurn
  dsimp only
  rw [hasked]
  dsimp only
  rw [if_neg (show ¬ ((MemoryServer.transport clock).takeReset p.net).1 = true from Bool.false_ne_true)]
  by_cases hempty : page.envelopes.isEmpty = true
  · rw [if_pos hempty]
    have happly : (w.devices i).store.applyEnvelopes page.envelopes 0 = .ok (p.store, {}) := by
      simp [Store.applyEnvelopes, hempty, h.store]
    exact hpassed h.server.symm happly
  rw [if_neg hempty]
  unfold Pass.applyEnvelopes
  dsimp only
  cases happly : p.store.applyEnvelopes page.envelopes
      ((MemoryServer.transport clock).nowMs
        ((MemoryServer.transport clock).takeReset p.net).2).1 with
  | error e =>
    refine ⟨w₁, .single hfetch, ⟨?_, h.server⟩, fun q hq => by cases hq⟩
    rw [hat₁]
    exact h.store
  | ok result =>
    obtain ⟨t, applied⟩ := result
    dsimp only
    rw [← h.store] at happly
    by_cases hall : applied.rejected = page.envelopes.length
    · rw [if_pos hall]
      have hstep : Device.Step rule (w₁.devices i) (.applied page.envelopes)
          { store := t, flight := .applied page } := by
        rw [hat₁]
        exact .apply _ _ rfl happly
      refine ⟨_, (Relation.ReflTransGen.single hfetch).tail (.mk w₁ i hstep rfl), ⟨?_, h.server⟩, ?_⟩
      · rw [after_devices_self]
        rfl
      · intro q hq kindOf vault hbase hproper
        -- An honest page is not rejected as a whole.
        have hspec := MemoryServer.pull_spec hbase.server (w.devices i).store.cursor maxBatch
        obtain ⟨t', report', happly', hnone⟩ := Store.applyEnvelopes_of_sound
          (hbase.device i).unlocked
          (fun env henv => (hproper.records _ _ (hspec.records env henv).1).1) _
        rw [happly'] at happly
        cases happly
        rw [hnone] at hall
        exact absurd (List.isEmpty_iff.mpr (List.length_eq_zero_iff.mp hall.symm)) hempty
    · rw [if_neg hall]
      exact hpassed h.server.symm happly

/-- A pull against an honest server is a run of the device. -/
theorem pullAll_follows (h : w.Follows i p) :
    ∃ w', Run.Steps (Step rule) w w' ∧
      w'.Follows i (pullAll (MemoryServer.transport clock) p).2 := by
  have hturn : ∀ p turn, pullTurn (MemoryServer.transport clock) p = turn →
      (∃ u, Run.Steps (Step rule) w u ∧ u.Follows i p) →
      ∃ u, Run.Steps (Step rule) w u ∧ u.Follows i (passAfter turn) := by
    rintro p _ rfl ⟨u, hrun, hfollows⟩
    obtain ⟨u', hrun', hfollows', -⟩ := pullTurn_run rule clock hfollows
    exact ⟨u', hrun.trans hrun', hfollows'⟩
  have hpost := Loop.turns_post (fun p => ∃ u, Run.Steps (Step rule) w u ∧ u.Follows i p)
    (fun o : Outcome (MemoryServer × ℕ) Bool => ∃ u, Run.Steps (Step rule) w u ∧ u.Follows i o.2)
    (fun p _ hp h => hturn p _ h hp) (fun p _ hp h => hturn p _ h hp) maxPages ⟨w, .refl, h⟩
  rw [pullAll_snd]
  cases hloop : Loop.turns (pullTurn (MemoryServer.transport clock)) maxPages p <;>
    rwa [hloop] at hpost

/-- When every device writes as the protocol has it, a pull that got to the end leaves
nothing to pull. -/
theorem pullAll_caughtUp {kindOf : Uuid → EntityKind} {vault : UnlockedVault}
    (hrule : ∀ s kind id v t, rule s kind id v t → Rises kindOf vault s kind id v t)
    (hbase : Base vault w) (hproper : Proper kindOf vault w) (h : w.Follows i p)
    (hend : (pullAll (MemoryServer.transport clock) p).1 = .ok true) :
    ∃ w', Run.Steps (Step rule) w w' ∧
      w'.Follows i (pullAll (MemoryServer.transport clock) p).2 ∧
      (w'.devices i).flight = .pulled ∧ w'.CaughtUp i := by
  have hturn : ∀ p turn, pullTurn (MemoryServer.transport clock) p = turn →
      (∃ u, Run.Steps (Step rule) w u ∧ u.Follows i p) →
      ∃ u, Run.Steps (Step rule) w u ∧ u.Follows i (passAfter turn) ∧
        ∀ q, turn = .inl (.ok true, q) → (u.devices i).flight = .pulled ∧ u.CaughtUp i := by
    rintro p _ rfl ⟨u, hrun, hfollows⟩
    obtain ⟨u', hrun', hfollows', hdone⟩ := pullTurn_run rule clock hfollows
    obtain ⟨hbase', hproper'⟩ := proper_run hrule hrun hbase hproper
    exact ⟨u', hrun.trans hrun', hfollows', fun q hq => hdone q hq kindOf vault hbase' hproper'⟩
  have hpost := Loop.turns_post (fun p => ∃ u, Run.Steps (Step rule) w u ∧ u.Follows i p)
    (fun o : Outcome (MemoryServer × ℕ) Bool =>
      ∃ u, Run.Steps (Step rule) w u ∧ u.Follows i o.2 ∧
        (o.1 = .ok true → (u.devices i).flight = .pulled ∧ u.CaughtUp i))
    (fun p _ hp h => by
      obtain ⟨u, hrun, hfollows, -⟩ := hturn p _ h hp
      exact ⟨u, hrun, hfollows⟩)
    (fun p o hp h => by
      obtain ⟨u, hrun, hfollows, hdone⟩ := hturn p _ h hp
      exact ⟨u, hrun, hfollows, fun hok => hdone o.2 (by rw [← hok])⟩)
    maxPages ⟨w, .refl, h⟩
  unfold pullAll at hend ⊢
  cases hloop : Loop.turns (pullTurn (MemoryServer.transport clock)) maxPages p with
  | inl o =>
    rw [hloop] at hpost hend
    obtain ⟨u, hrun, hfollows, hdone⟩ := hpost
    exact ⟨u, hrun, hfollows, hdone hend⟩
  | inr q =>
    rw [hloop] at hend
    cases hend

end World

end honestServer

end UwuSsh

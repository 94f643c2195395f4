import UwuSsh.Lib.Loop
import UwuSsh.Store.Manifests
import UwuSsh.Sync.Memory

/-!
One pass of syncing: hand the server what we have, then take what it has, and
with both done publish this device's manifest and check everyone's. The server is
whatever answers: a state of its own and functions for a pull, a push, the
start-over flag and the time. A pass that fails keeps what its store calls had
committed by then, so every function returns the pass beside its result.
-/
namespace UwuSsh

/-- What the client needs from a server, and the wall clock it reads meanwhile. -/
structure Transport (σ : Type) where
  pull : σ → ℕ → ℕ → Except TransportError PullResponse × σ
  push : σ → List Envelope → Except TransportError PushResponse × σ
  /-- Whether the last pull was answered with "start over". -/
  takeReset : σ → Bool × σ
  manifests : σ → Bool
  writes : σ → Bool
  nowMs : σ → UInt64 × σ

/-- The memory server as a transport, with a wall clock that is read time by time. -/
def MemoryServer.transport (clock : ℕ → UInt64) : Transport (MemoryServer × ℕ) where
  pull net since limit := (.ok (net.1.pull since limit), net)
  push net envelopes := ((net.1.push envelopes).2, ((net.1.push envelopes).1, net.2))
  takeReset net := (false, net)
  manifests _ := true
  writes _ := true
  nowMs net := (clock net.2, (net.1, net.2 + 1))

/-- A transport that counts the pages it is asked for. -/
def Transport.counted {σ : Type} (T : Transport σ) : Transport (σ × ℕ) where
  pull net since limit :=
    ((T.pull net.1 since limit).1, ((T.pull net.1 since limit).2, net.2 + 1))
  push net envelopes := ((T.push net.1 envelopes).1, ((T.push net.1 envelopes).2, net.2))
  takeReset net := ((T.takeReset net.1).1, ((T.takeReset net.1).2, net.2))
  manifests net := T.manifests net.1
  writes net := T.writes net.1
  nowMs net := ((T.nowMs net.1).1, ((T.nowMs net.1).2, net.2))

inductive SyncError
  | vaultLocked
  | store (e : StoreError)
  | transport (e : TransportError)
  | conflictLoop (rounds : ℕ)
deriving DecidableEq, Repr

def SyncError.ofStore : StoreError → SyncError
  | .vaultLocked => .vaultLocked
  | e => .store e

/-- What one pass did. -/
structure SyncReport where
  pulled : ℕ := 0
  pushed : ℕ := 0
  conflicts : ℕ := 0
  rounds : ℕ := 0
  oversized : ℕ := 0
  apply : ApplyReport := {}
  cursor : ℕ := 0
  withheld : Withheld := {}
  complete : Bool := false
deriving DecidableEq, Repr

def maxRounds : ℕ := 3

/-- The most pages one pull asks for. -/
def maxPages : ℕ := 1000

/-- A pass under way: the store, the server's end, and the report so far. -/
structure Pass (σ : Type) where
  store : Store
  net : σ
  report : SyncReport

abbrev Outcome (σ α : Type) := Except SyncError α × Pass σ

variable {σ : Type} (T : Transport σ)

def Pass.setCursor (p : Pass σ) (cursor : ℕ) : Pass σ :=
  { p with store := { p.store with cursor } }

/-- Apply records in the middle of a pass, at the time the clock reads now. -/
def Pass.applyEnvelopes (p : Pass σ) (envelopes : List Envelope) :
    Except SyncError ApplyReport × Pass σ :=
  let (now, net) := T.nowMs p.net
  match p.store.applyEnvelopes envelopes now with
  | .error e => (.error (.ofStore e), { p with net })
  | .ok (store, applied) =>
      (.ok applied, { store, net, report := { p.report with apply := p.report.apply.add applied } })

/-- Move the cursor forward over a page and go on if there is more; a page that
leads nowhere ends the pull. -/
def Pass.advance (p : Pass σ) (cursor : ℕ) (page : PullResponse) : Outcome σ Bool ⊕ Pass σ :=
  if cursor < page.cursor then
    let p := p.setCursor page.cursor
    if page.hasMore then .inr p else .inl (.ok true, p)
  else .inl (.ok true, p)

/-- One page of a pull: asked for from the cursor, applied, and only then moved past. -/
def pullTurn (p : Pass σ) : Outcome σ Bool ⊕ Pass σ :=
  let cursor := p.store.cursor
  match T.pull p.net cursor maxBatch with
  | (.error e, net) => .inl (.error (.transport e), { p with net })
  | (.ok page, net) =>
      let (reset, net) := T.takeReset net
      let p := { p with net }
      if reset then
        if cursor = 0 then .inl (.ok false, p) else .inr (p.setCursor 0)
      else if page.envelopes.isEmpty then p.advance cursor page
      else
        let pulled := (page.envelopes.filter fun env => env.kind ≠ .manifest).length
        let p := { p with report := { p.report with pulled := p.report.pulled + pulled } }
        match p.applyEnvelopes T page.envelopes with
        | (.error e, p) => .inl (.error e, p)
        | (.ok applied, p) =>
            if applied.rejected = page.envelopes.length then .inl (.ok true, p)
            else p.advance cursor page

/-- Everything the server has that we have not seen. Returns whether the pull got to the end. -/
def pullAll (p : Pass σ) : Outcome σ Bool :=
  match Loop.turns (pullTurn T) maxPages p with
  | .inl outcome => outcome
  | .inr p => (.ok false, p)

/-- What the server took, matched with what was sent. -/
def acceptedOf (envelopes : List Envelope) (response : PushResponse) : List Pushed :=
  response.accepted.filterMap fun taken =>
    (envelopes.find? fun env => env.id = taken.id).map fun sent =>
      { id := taken.id, kind := sent.kind, updatedAt := sent.updatedAt, seq := taken.seq }

/-- The server's answer to one batch: clear what it took, merge what it holds
instead, and go on only if something moved. -/
def takeAnswer (conflicts : ℕ) (p : Pass σ) (envelopes : List Envelope) (response : PushResponse) :
    Outcome σ ℕ ⊕ ℕ × Pass σ :=
  let accepted := acceptedOf envelopes response
  let (store, cleared) := p.store.markPushed accepted
  let p : Pass σ :=
    { p with store, report := { p.report with pushed := p.report.pushed + accepted.length } }
  let stop := accepted.isEmpty || cleared == 0
  if response.conflicts.isEmpty then
    if stop then .inl (.ok conflicts, p) else .inr (conflicts, p)
  else
    let count := response.conflicts.length
    let p := { p with report := { p.report with conflicts := p.report.conflicts + count } }
    match p.applyEnvelopes T response.conflicts with
    | (.error e, p) => .inl (.error e, p)
    | (.ok _, p) =>
        if stop then .inl (.ok (conflicts + count), p) else .inr (conflicts + count, p)

/-- One batch of everything that waits here. -/
def pushTurn (s : ℕ × Pass σ) : Outcome σ ℕ ⊕ ℕ × Pass σ :=
  let (conflicts, p) := s
  match p.store.pendingEnvelopes maxBatch with
  | .error e => .inl (.error (.ofStore e), p)
  | .ok (envelopes, oversized) =>
      let p := { p with report := { p.report with oversized } }
      if envelopes.isEmpty then .inl (.ok conflicts, p)
      else
        match T.push p.net envelopes with
        | (.error e, net) => .inl (.error (.transport e), { p with net })
        | (.ok response, net) => takeAnswer T conflicts { p with net } envelopes response

/-- One batch of the kinds that travel apart; a server that refuses them is left alone. -/
def pushApartTurn (s : ℕ × Pass σ) : Outcome σ ℕ ⊕ ℕ × Pass σ :=
  let (conflicts, p) := s
  match p.store.pendingApartEnvelopes maxBatch with
  | .error e => .inl (.error (.ofStore e), p)
  | .ok (envelopes, oversized) =>
      let p := { p with report := { p.report with oversized := p.report.oversized + oversized } }
      if envelopes.isEmpty then .inl (.ok conflicts, p)
      else
        match T.push p.net envelopes with
        | (.error .refused, net) => .inl (.ok conflicts, { p with net })
        | (.error e, net) => .inl (.error (.transport e), { p with net })
        | (.ok response, net) => takeAnswer T conflicts { p with net } envelopes response

namespace Store

def dirtyCountOf (s : Store) (kind : EntityKind) : ℕ :=
  (s.tables kind).entries.countP fun e => e.2.dirty

/-- How many rows wait to be pushed. -/
def dirtyCount (s : Store) : ℕ := (EntityKind.all.map s.dirtyCountOf).sum

end Store

/-- A push loop. The source's loop has no bound of its own; the one here is never reached. -/
def pushLoop (body : ℕ × Pass σ → Outcome σ ℕ ⊕ ℕ × Pass σ) (p : Pass σ) : Outcome σ ℕ :=
  match Loop.turns body (p.store.dirtyCount + 1) (0, p) with
  | .inl outcome => outcome
  | .inr (conflicts, p) => (.ok conflicts, p)

/-- Everything waiting here, in batches. Returns how many records were refused as conflicts. -/
def pushAll (p : Pass σ) : Outcome σ ℕ := pushLoop (pushTurn T) p

def pushApart (p : Pass σ) : Outcome σ ℕ := pushLoop (pushApartTurn T) p

/-- Write this device's manifest if what it holds changed, and push it on its own. -/
def publishManifest (p : Pass σ) : Outcome σ Bool :=
  let (now, net) := T.nowMs p.net
  let p := { p with net, store := (p.store.refreshManifest now).1 }
  match p.store.pendingManifest with
  | .error e => (.error (.ofStore e), p)
  | .ok none => (.ok true, p)
  | .ok (some manifest) =>
      match T.push p.net [manifest] with
      | (.error _, net) => (.ok true, { p with net })
      | (.ok response, net) =>
          let accepted := (response.accepted.filter fun taken => taken.id = manifest.id).map
            fun taken =>
              ({ id := taken.id, kind := manifest.kind, updatedAt := manifest.updatedAt
                 seq := taken.seq } : Pushed)
          let p := { p with net, store := (p.store.markPushed accepted).1 }
          if response.conflicts.isEmpty then pullAll T p
          else
            match p.applyEnvelopes T response.conflicts with
            | (.error e, p) => (.error e, p)
            | (.ok _, p) => pullAll T p

/-- Hold the manifests against what is here; before the alarm goes up for the first
time, everything is pulled once more from the start. -/
def check (complete : Bool) (p : Pass σ) : Outcome σ Withheld :=
  if !complete then
    let (store, found) := p.store.noteIncompletePull
    (.ok found, { p with store })
  else
    let alarmed := p.store.violations.any fun v => v.problem == .missing || v.problem == .older
    let (store, found) := p.store.checkManifests
    let p := { p with store }
    if found.records = 0 ∨ alarmed then (.ok found, p)
    else
      match pullAll T (p.setCursor 0) with
      | (.error e, p) => (.error e, p)
      | (.ok true, p) =>
          let (store, found) := p.store.checkManifests
          (.ok found, { p with store })
      | (.ok false, p) =>
          let (store, found) := p.store.noteIncompletePull
          (.ok found, { p with store, report := { p.report with complete := false } })

/-- What is pushed at the start of a round: the conflicts of both loops. -/
def pushRound (p : Pass σ) : Outcome σ ℕ :=
  if T.writes p.net then
    match pushAll T p with
    | (.error e, p) => (.error e, p)
    | (.ok conflicts, p) =>
        match pushApart T p with
        | (.error e, p) => (.error e, p)
        | (.ok more, p) => (.ok (conflicts + more), p)
  else (.ok 0, p)

/-- The end of a pass whose last round met no conflict. -/
def finish (complete : Bool) (p : Pass σ) : Outcome σ SyncReport :=
  if !T.manifests p.net then
    let report := { p.report with complete, cursor := p.store.cursor }
    (.ok report, { p with report })
  else
    match (if complete then publishManifest T p else (.ok false, p)) with
    | (.error e, p) => (.error e, p)
    | (.ok complete, p) =>
        match check T complete { p with report := { p.report with complete } } with
        | (.error e, p) => (.error e, p)
        | (.ok withheld, p) =>
            let report := { p.report with withheld, cursor := p.store.cursor }
            (.ok report, { p with report })

/-- The rounds of a pass from the given one on. -/
def syncRounds : ℕ → ℕ → Pass σ → Outcome σ SyncReport
  | 0, _, p => (.error (.conflictLoop maxRounds), p)
  | left + 1, round, p =>
      match pushRound T { p with report := { p.report with rounds := round } } with
      | (.error e, p) => (.error e, p)
      | (.ok conflicts, p) =>
          match pullAll T p with
          | (.error e, p) => (.error e, p)
          | (.ok complete, p) =>
              if conflicts = 0 then finish T complete p else syncRounds left (round + 1) p

/-- Sync once: everything we have, then everything the server has. -/
def syncOnce (store : Store) (net : σ) : Outcome σ SyncReport :=
  syncRounds T maxRounds 1 { store, net, report := {} }

end UwuSsh

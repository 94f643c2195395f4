import UwuSsh.Store.Pending

/-!
The sync server: sequence numbers, the newest version of each record, pages from
a cursor, and a refusal of every write whose base is not the version it holds. It
can also keep records back or hand out old versions, which no seal catches; an
honest server does neither.
-/
namespace UwuSsh

inductive TransportError
  | refused
  | unreachable
  | signIn
  | switchedOff
deriving DecidableEq, Repr

structure MemoryServer where
  /-- The last sequence number handed out. -/
  seq : ℕ
  /-- The newest version of every record, by id. -/
  records : AList fun _ : Uuid => Envelope
  vaultId : Option Uuid
  /-- Records it pretends not to have, and old versions it hands out instead of the newest. -/
  withheld : List Uuid
  stale : AList fun _ : Uuid => Envelope

namespace MemoryServer

def new : MemoryServer where
  seq := 0
  records := ∅
  vaultId := none
  withheld := []
  stale := ∅

def Honest (server : MemoryServer) : Prop := server.withheld = [] ∧ server.stale = ∅

def envelopes (server : MemoryServer) : List Envelope := server.records.entries.map (·.2)

/-- A record as it is handed out. -/
def shown (server : MemoryServer) (env : Envelope) : Envelope :=
  match server.stale.lookup env.id with
  | some old => { old with seq := env.seq }
  | none => env

def seqBefore (a b : Envelope) : Prop := a.seq.getD 0 ≤ b.seq.getD 0

instance : DecidableRel seqBefore := fun _ _ => inferInstanceAs (Decidable (_ ≤ _))

/-- What is waiting past a cursor, in sequence order. -/
def waiting (server : MemoryServer) (since : ℕ) : List Envelope :=
  (((server.envelopes.filter fun env => since < env.seq.getD 0).filter
    fun env => env.id ∉ server.withheld).map server.shown).insertionSort seqBefore

/-- How many records fit: those whose sizes stay within the byte budget. -/
def fitting (budget : ℕ) : List Envelope → ℕ
  | [] => 0
  | env :: rest =>
      if env.blob.length ≤ budget then fitting (budget - env.blob.length) rest + 1 else 0

/-- A page: at least one record if any waits, at most `limit`, and within the byte budget. -/
def pull (server : MemoryServer) (since limit : ℕ) : PullResponse :=
  let all := server.waiting since
  let fits := min (max (fitting maxBatchBytes (all.take (min limit maxBatch))) 1) all.length
  let page := all.take fits
  { envelopes := page
    cursor := (page.getLast?.bind (·.seq)).getD since
    hasMore := fits < all.length }

/-- Take one record, or answer with the version that is held. -/
def pushOne (server : MemoryServer) (env : Envelope) : MemoryServer × (Accepted ⊕ Envelope) :=
  let take :=
    ({ server with
      seq := server.seq + 1
      records := server.records.insert env.id { env with seq := some (server.seq + 1) } },
      Sum.inl { id := env.id, seq := server.seq + 1 })
  match server.records.lookup env.id with
  | some current => if current.seq.getD 0 ≠ env.baseSeq then (server, .inr current) else take
  | none => take

/-- Whether a record may be in a request at all. -/
def admits (server : MemoryServer) (env : Envelope) : Bool :=
  env.nonce.length == 24 && env.blob.length ≤ maxBlobBytes &&
    (server.vaultId.isNone || server.vaultId == some env.vaultId)

/-- One record after the other; a record the protocol does not allow refuses the
rest of the request, and what came before it stays. -/
def pushAll : List Envelope → MemoryServer → PushResponse →
    MemoryServer × Except TransportError PushResponse
  | [], server, response => (server, .ok { response with cursor := server.seq })
  | env :: rest, server, response =>
      if server.admits env then
        let server := { server with vaultId := some env.vaultId }
        match server.pushOne env with
        | (server', .inl accepted) =>
            pushAll rest server' { response with accepted := response.accepted ++ [accepted] }
        | (server', .inr current) =>
            pushAll rest server' { response with conflicts := response.conflicts ++ [current] }
      else (server, .error .refused)

def push (server : MemoryServer) (envelopes : List Envelope) :
    MemoryServer × Except TransportError PushResponse :=
  if maxBatch < envelopes.length then (server, .error .refused)
  else if 1 < envelopes.length ∧ maxBatchBytes < (envelopes.map (·.blob.length)).sum then
    (server, .error .refused)
  else pushAll envelopes server { accepted := [], conflicts := [], cursor := 0 }

end MemoryServer

end UwuSsh

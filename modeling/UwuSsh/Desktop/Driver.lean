import Mathlib.Algebra.Group.Nat.Defs
import UwuSsh.Lib.Run

/-!
A terminal and the session attached to it. Attaching closes what is attached, waits for that, spawns and waits for
the session; any number of such calls may be on their way, and each of their waits may end at any time. Bytes come
in over the channel a spawn was given, are acknowledged once they are parsed, and an acknowledgement that fails is
made again. Every call begins with a detach, so the generation its detach sets is its number. A spawn gives a
session of its own, named here by the number of its attach, and a count of bytes is the list of the sessions they
came from.
-/
namespace UwuSsh.Desktop

def ackChunk : ℕ := 64 * 1024

def ackRetries : ℕ := 8

/-- A chunk the terminal has not parsed yet, with what its callback remembers. -/
structure Write where
  bytes : List ℕ
  generation : ℕ
  deriving DecidableEq

/-- An acknowledgement on its way, and whether the engine has it. -/
structure AckCall where
  session : ℕ
  bytes : List ℕ
  generation : ℕ
  reached : Bool
  deriving DecidableEq

structure TerminalDriver where
  sessionId : Option ℕ
  generation : ℕ
  pendingAck : List ℕ
  ackFailures : ℕ
  /-- Whether a timer is set; it is the idle timer or the one of a retry. -/
  ackTimer : Bool
  received : ℕ
  written : ℕ
  discarded : ℕ
  disposed : Bool
  deriving DecidableEq

namespace TerminalDriver

def new : TerminalDriver :=
  { sessionId := none, generation := 0, pendingAck := [], ackFailures := 0, ackTimer := false, received := 0,
    written := 0, discarded := 0, disposed := false }

/-- What `detach` does before it waits for the session's close. -/
def detach (d : TerminalDriver) : TerminalDriver :=
  { d with generation := d.generation + 1, sessionId := none, pendingAck := [], ackFailures := 0, ackTimer := false }

def flushAck (d : TerminalDriver) : TerminalDriver × Option AckCall :=
  match d.sessionId with
  | none => ({ d with ackTimer := false }, none)
  | some session =>
    if d.pendingAck = [] then ({ d with ackTimer := false }, none)
    else
      ({ d with ackTimer := false, pendingAck := [] },
        some { session, bytes := d.pendingAck, generation := d.generation, reached := false })

/-- Acknowledge a partial chunk once output goes quiet. -/
def scheduleAckFlush (d : TerminalDriver) : TerminalDriver := { d with ackTimer := true }

/-- A chunk from the channel of a spawn; the terminal takes it or refuses it. -/
def onData (d : TerminalDriver) (generation : ℕ) (bytes : List ℕ) (refused : Bool) : TerminalDriver × Option Write :=
  if generation ≠ d.generation then (d, none)
  else
    let d := { d with received := d.received + bytes.length }
    if refused then
      ({ d with discarded := d.discarded + bytes.length, pendingAck := d.pendingAck ++ bytes }.scheduleAckFlush, none)
    else (d, some { bytes, generation })

/-- The terminal has parsed a chunk. -/
def parsed (d : TerminalDriver) (write : Write) : TerminalDriver × Option AckCall :=
  if write.generation ≠ d.generation then (d, none)
  else
    let d := { d with written := d.written + write.bytes.length, pendingAck := d.pendingAck ++ write.bytes }
    if ackChunk ≤ d.pendingAck.length then d.flushAck else (d.scheduleAckFlush, none)

/-- An acknowledgement has come back. One that got lost is made again, after a while. -/
def ackSettled (d : TerminalDriver) (call : AckCall) (ok : Bool) : TerminalDriver :=
  if ok then { d with ackFailures := 0 }
  else if call.generation ≠ d.generation ∨ some call.session ≠ d.sessionId then d
  else
    let d := { d with ackFailures := d.ackFailures + 1 }
    if ackRetries < d.ackFailures then d else { d with pendingAck := d.pendingAck ++ call.bytes, ackTimer := true }

end TerminalDriver

/-- A call that has not come back: it waits for a close, or an attach for its spawn, with the generation it read
after the close. -/
inductive Call
  | closing (number : ℕ) (attaches : Bool)
  | spawning (number generation : ℕ)
  deriving DecidableEq

def Call.number : Call → ℕ
  | .closing number _ => number
  | .spawning number _ => number

/-- How an attach ended: the call that had begun last, and whether the attach has its session. -/
structure Outcome where
  number : ℕ
  last : ℕ
  resolved : Bool
  deriving DecidableEq

structure World where
  driver : TerminalDriver
  calls : List Call
  /-- The spawns that may send data, with the generation their callbacks remember. -/
  channels : List (ℕ × ℕ)
  writes : List Write
  acks : List AckCall
  /-- The sessions that spawns returned, and those that were closed. -/
  returned : List ℕ
  closed : List ℕ
  outcomes : List Outcome
  /-- The sessions whose data went to the terminal, each with the call that had begun last. -/
  shown : List (ℕ × ℕ)
  /-- Every byte that came in. -/
  arrived : List ℕ
  /-- The bytes that were acknowledged to each session. -/
  acked : List (ℕ × List ℕ)
  /-- How many acknowledgements of this generation have failed in a row. -/
  row : ℕ
  deriving DecidableEq

namespace World

def new : World :=
  { driver := .new, calls := [], channels := [], writes := [], acks := [], returned := [], closed := [], outcomes := [],
    shown := [], arrived := [], acked := [], row := 0 }

def without (w : World) (number : ℕ) : List Call := w.calls.filter fun call => call.number != number

/-- A call begins: what is attached is closed. -/
def start (w : World) (attaches disposes : Bool) : World :=
  { w with
    driver := { w.driver.detach with disposed := w.driver.disposed || disposes }
    calls := w.calls ++ [.closing (w.driver.generation + 1) attaches]
    closed := w.closed ++ w.driver.sessionId.toList
    row := 0 }

/-- The driver after one of its functions, with the acknowledgement this made. -/
def acts (w : World) (result : TerminalDriver × Option AckCall) : World :=
  { w with driver := result.1, acks := w.acks ++ result.2.toList }

end World

inductive Event
  | attach
  | detach
  | dispose
  /-- The close is over that a detach waited for: the one of an attach, or a plain one. -/
  | resume (number : ℕ)
  | ended (number : ℕ)
  | spawned (number generation : ℕ)
  | spawnFailed (number generation : ℕ)
  | data (number generation size : ℕ) (refused : Bool)
  /-- The callback of the oldest chunk. -/
  | parsed
  | ackReached (index : ℕ)
  | ackSettled (index : ℕ) (ok : Bool)
  | timer

/-- What an event makes of the world, where it can happen. -/
def step (w : World) : Event → Option World
  | .attach => some (w.start true false)
  | .detach => some (w.start false false)
  | .dispose => some (w.start false true)
  | .resume number =>
    if .closing number true ∈ w.calls then
      some { w with
        calls := w.without number ++ [.spawning number w.driver.generation]
        channels := w.channels ++ [(number, w.driver.generation)] }
    else none
  | .ended number => if .closing number false ∈ w.calls then some { w with calls := w.without number } else none
  | .spawned number generation =>
    if .spawning number generation ∈ w.calls then
      let w : World := { w with calls := w.without number, returned := w.returned ++ [number] }
      if generation ≠ w.driver.generation then
        some { w with
          closed := w.closed ++ [number]
          outcomes := w.outcomes ++ [{ number, last := w.driver.generation, resolved := false }] }
      else
        let w : World := { w with outcomes := w.outcomes ++ [{ number, last := w.driver.generation, resolved := true }] }
        let driver : TerminalDriver := { w.driver with sessionId := some number }
        some (w.acts driver.flushAck)
    else none
  | .spawnFailed number generation =>
    if .spawning number generation ∈ w.calls then
      some { w with
        calls := w.without number
        outcomes := w.outcomes ++ [{ number, last := w.driver.generation, resolved := false }] }
    else none
  | .data number generation size refused =>
    if (number, generation) ∈ w.channels then
      let bytes := List.replicate size number
      let result := w.driver.onData generation bytes refused
      some { w with
        driver := result.1
        writes := w.writes ++ result.2.toList
        shown := w.shown ++ if generation = w.driver.generation then [(number, w.driver.generation)] else []
        arrived := w.arrived ++ bytes }
    else none
  | .parsed =>
    match w.writes with
    | [] => none
    | write :: writes => some ({ w with writes }.acts (w.driver.parsed write))
  | .ackReached index =>
    match w.acks[index]? with
    | none => none
    | some call =>
      if call.reached then none
      else
        some { w with
          acks := w.acks.set index { call with reached := true }
          acked := w.acked ++ [(call.session, call.bytes)] }
  | .ackSettled index ok =>
    match w.acks[index]? with
    | none => none
    | some call =>
      if ok ∧ !call.reached then none
      else
        some { w with
          driver := w.driver.ackSettled call ok
          acks := w.acks.eraseIdx index
          row := if call.generation ≠ w.driver.generation then w.row else if ok then 0 else w.row + 1 }
  | .timer => if w.driver.ackTimer then some (w.acts w.driver.flushAck) else none

/-- One step by an event that a condition on the world before it lets through. -/
def Step (allowed : World → Event → Bool) (w w' : World) : Prop := ∃ event, allowed w event = true ∧ step w event = some w'

/-- These events one after the other. -/
def run (allowed : World → Event → Bool) (w : World) : List Event → Option World
  | [] => some w
  | event :: events => if allowed w event then (step w event).bind fun w' => run allowed w' events else none

theorem steps_of_run {allowed : World → Event → Bool} {w w' : World} {events : List Event}
    (h : run allowed w events = some w') : Run.Steps (Step allowed) w w' := by
  induction events generalizing w with
  | nil =>
    obtain rfl := Option.some.inj h
    exact .refl
  | cons event events ih =>
    rw [run] at h
    split at h
    · rename_i hallowed
      obtain ⟨next, hnext, hrest⟩ := Option.bind_eq_some_iff.mp h
      exact .head ⟨event, hallowed, hnext⟩ (ih hrest)
    · simp at h

end UwuSsh.Desktop

import Mathlib.Algebra.Group.Nat.Defs
import UwuSsh.Lib.Run

/-!
From a byte stream to frames a renderer can keep up with. The batcher takes chunks from a queue,
collects them into frames and hands these on; the renderer acknowledges what it has processed, and the
batcher pauses while too much is outstanding. A pause registers for a wake-up before it looks once
more, and an acknowledgement changes the counter before it wakes, so the two may interleave anywhere.
Loads and stores of the counter are taken to be in one order that everyone sees.
-/
namespace UwuSsh

/-- Outstanding bytes at which the batcher pauses. -/
def highWatermark : ℕ := 512 * 1024

/-- Outstanding bytes at which a paused batcher resumes. -/
def lowWatermark : ℕ := 128 * 1024

/-- How much the renderer processes before it acknowledges. -/
def ackChunk : ℕ := 64 * 1024

/-- What a frame may hold before it has to go. -/
def maxFrameBytes : ℕ := 256 * 1024

/-- Queue depth between reader and batcher. -/
def channelCapacity : ℕ := 64

/-- No vector is longer. -/
def vecLimit : ℕ := 2 ^ 63 - 1

structure FlowControl where
  enabled : Bool
  unacked : UInt64
  peakUnacked : UInt64
  closed : Bool
deriving DecidableEq

namespace FlowControl

def new (enabled : Bool) : FlowControl := { enabled, unacked := 0, peakUnacked := 0, closed := false }

/-- Counted before a frame is handed on, so an acknowledgement never comes for bytes not counted yet. -/
def onSent (flow : FlowControl) (bytes : UInt64) : FlowControl :=
  let now := flow.unacked + bytes
  { flow with unacked := now, peakUnacked := max flow.peakUnacked now }

/-- A renderer that acknowledges twice does not wrap the counter around. -/
def ack (flow : FlowControl) (bytes : UInt64) : FlowControl :=
  { flow with unacked := if bytes ≤ flow.unacked then flow.unacked - bytes else 0 }

def close (flow : FlowControl) : FlowControl := { flow with closed := true }

/-- Whether the batcher need not pause at all. -/
def hasRoom (flow : FlowControl) : Bool := !flow.enabled || flow.unacked.toNat ≤ highWatermark

end FlowControl

/-- Why the batcher returned. -/
inductive Ending
  | sourceEnded
  | closed
  /-- The sink refused a frame of this many bytes. -/
  | sinkFailed (bytes : ℕ)
deriving DecidableEq

/-- Where the batcher is; while it is registered, whether it was woken since. -/
inductive Phase
  | checking
  | registering
  | registered (woken : Bool)
  /-- Registered, and not closed when it looked. -/
  | looked (woken : Bool)
  | parked (woken : Bool)
  | resumed
  | receiving
  | collecting (frame : List UInt8)
  /-- A frame that is counted and not handed on yet; whether the source had ended. -/
  | counted (frame : List UInt8) (last : Bool)
  | finished (ending : Ending)
deriving DecidableEq

namespace Phase

/-- Everybody who registered is woken. -/
def wake : Phase → Phase
  | registered _ => registered true
  | looked _ => looked true
  | parked _ => parked true
  | phase => phase

/-- What was taken from the queue and is not handed on. -/
def taken : Phase → List UInt8
  | collecting frame | counted frame _ => frame
  | _ => []

/-- Bytes that are counted and no frame of which reached the renderer. -/
def counting : Phase → ℕ
  | counted frame _ => frame.length
  | finished (.sinkFailed bytes) => bytes
  | _ => 0

end Phase

/-- The batcher with its source, its sink and the renderer behind that. -/
structure Batcher where
  flow : FlowControl
  phase : Phase
  queue : List (List UInt8)
  sourceClosed : Bool
  /-- Acknowledgements and closes that changed something and have not woken anyone yet. -/
  notifying : ℕ
  /-- Frames the renderer has not processed. -/
  unprocessed : List (List UInt8)
  /-- What the renderer processed and has not acknowledged. -/
  held : ℕ
  /-- Every chunk the source gave, every frame that was counted and every frame the sink took. -/
  fed : List (List UInt8)
  frames : List (List UInt8)
  sent : List (List UInt8)
  /-- Somebody acknowledged what was not theirs to acknowledge. -/
  strayed : Bool

namespace Batcher

def start (enabled : Bool) : Batcher where
  flow := .new enabled
  phase := .checking
  queue := []
  sourceClosed := false
  notifying := 0
  unprocessed := []
  held := 0
  fed := []
  frames := []
  sent := []
  strayed := false

/-- A frame is counted before the sink gets it. -/
def count (s : Batcher) (frame : List UInt8) (last : Bool) : Batcher :=
  { s with
    flow := s.flow.onSent frame.length.toUInt64
    phase := .counted frame last
    frames := s.frames ++ [frame] }

/-- The counter goes down at once, and who waits is woken later. -/
def acked (s : Batcher) (bytes : UInt64) : Batcher :=
  { s with flow := s.flow.ack bytes, notifying := s.notifying + 1 }

inductive Step : Batcher → Batcher → Prop
  /-- The source gives a chunk, if there is room for it in the queue. -/
  | feed {s : Batcher} (chunk : List UInt8) : s.queue.length < channelCapacity → s.sourceClosed = false →
      chunk.length ≤ vecLimit → Step s { s with queue := s.queue ++ [chunk], fed := s.fed ++ [chunk] }
  | endSource {s : Batcher} : Step s { s with sourceClosed := true }
  | goOn {s : Batcher} : s.phase = .checking → s.flow.hasRoom = true → Step s { s with phase := .resumed }
  | pause {s : Batcher} : s.phase = .checking → s.flow.hasRoom = false → Step s { s with phase := .registering }
  | register {s : Batcher} : s.phase = .registering → Step s { s with phase := .registered false }
  | lookClosed {s : Batcher} {woken : Bool} : s.phase = .registered woken →
      Step s { s with phase := if s.flow.closed then .resumed else .looked woken }
  | lookUnacked {s : Batcher} {woken : Bool} : s.phase = .looked woken →
      Step s { s with phase := if s.flow.unacked.toNat ≤ lowWatermark then .resumed else .parked woken }
  | wakeUp {s : Batcher} : s.phase = .parked true → Step s { s with phase := .registering }
  | leave {s : Batcher} : s.phase = .resumed → s.flow.closed = true → Step s { s with phase := .finished .closed }
  | stay {s : Batcher} : s.phase = .resumed → s.flow.closed = false → Step s { s with phase := .receiving }
  | receive {s : Batcher} {chunk : List UInt8} {rest : List (List UInt8)} : s.phase = .receiving →
      s.queue = chunk :: rest → Step s { s with phase := .collecting chunk, queue := rest }
  | receiveEnd {s : Batcher} : s.phase = .receiving → s.queue = [] → s.sourceClosed = true →
      Step s { s with phase := .finished .sourceEnded }
  /-- One more chunk comes while the window is open and the frame is not big enough. -/
  | absorb {s : Batcher} {frame chunk : List UInt8} {rest : List (List UInt8)} : s.phase = .collecting frame →
      frame.length < maxFrameBytes → s.queue = chunk :: rest → (frame ++ chunk).length ≤ vecLimit →
      Step s { s with phase := .collecting (frame ++ chunk), queue := rest }
  /-- The window closed, or the frame is big enough. -/
  | emit {s : Batcher} {frame : List UInt8} : s.phase = .collecting frame → Step s (s.count frame false)
  | emitLast {s : Batcher} {frame : List UInt8} : s.phase = .collecting frame → frame.length < maxFrameBytes →
      s.queue = [] → s.sourceClosed = true → Step s (s.count frame true)
  | send {s : Batcher} {frame : List UInt8} {last : Bool} : s.phase = .counted frame last →
      Step s { s with
        phase := if last then .finished .sourceEnded else .checking
        unprocessed := s.unprocessed ++ [frame]
        sent := s.sent ++ [frame] }
  | sendFails {s : Batcher} {frame : List UInt8} {last : Bool} : s.phase = .counted frame last →
      Step s { s with phase := .finished (.sinkFailed frame.length) }
  /-- The renderer processes a frame, when it holds back less than a chunk. -/
  | process {s : Batcher} {frame : List UInt8} {rest : List (List UInt8)} : s.held < ackChunk →
      s.unprocessed = frame :: rest → Step s { s with unprocessed := rest, held := s.held + frame.length }
  | acknowledge {s : Batcher} (bytes : UInt64) : bytes.toNat ≤ s.held →
      Step s { s.acked bytes with held := s.held - bytes.toNat }
  /-- An acknowledgement that is repeated, or that nobody owes. -/
  | stray {s : Batcher} (bytes : UInt64) : Step s { s.acked bytes with strayed := true }
  | closing {s : Batcher} : Step s { s with flow := s.flow.close, notifying := s.notifying + 1 }
  | notify {s : Batcher} {n : ℕ} : s.notifying = n + 1 →
      Step s { s with phase := s.phase.wake, notifying := n }

/-- Paused, and nothing is under way that would wake it. -/
def Paused (s : Batcher) : Prop := s.phase = .parked false ∧ s.notifying = 0

/-- The renderer is through with every frame, and holds back no more than it may. -/
def Processed (s : Batcher) : Prop := s.unprocessed = [] ∧ s.held < ackChunk

/-- What is counted and not acknowledged by the renderer. -/
def outstanding (s : Batcher) : ℕ := s.phase.counting + s.unprocessed.flatten.length + s.held

end Batcher

end UwuSsh

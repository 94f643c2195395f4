import UwuSsh.Lib.Relay
import UwuSsh.Pairing.Flow

/-!
Adding a device through a relay. Both sides agree on a key from a short code, the joining side
proves that it has the key, and only then is anything worth having sent. The agreement is
an ideal one: two elements made with one password lead to one key, any others to keys of their
own; and a box opens only under its key and its label. The relay makes elements of its own with
passwords it knows, and boxes under keys it can work out.
-/
namespace UwuSsh

/-- What the joining device says back, once it is in. -/
structure Joined where
  deviceName : String
  deviceId : Uuid

namespace Handshake

inductive Side
  | a
  | b
deriving DecidableEq

/-- Where the randomness of an element comes from: a run of the handshake, or the relay. -/
inductive Secret
  | run (i : ℕ)
  | relay (n : ℕ)
deriving DecidableEq

/-- One side's first message; the relay may also send one that no password was used for. -/
structure Element where
  side : Side
  secret : Secret
  password : Option String
deriving DecidableEq

inductive SessionKey
  | shared (a b : Secret) (password : String)
  | apart (own theirs : Element)
deriving DecidableEq

/-- One label per direction, so a message cannot be put back to the side that sent it. -/
inductive Label
  | aToB
  | bToA
deriving DecidableEq

inductive Wire
  | element (e : Element)
  | box (key : SessionKey) (label : Label) (plain : List UInt8)
  | junk (bytes : List UInt8)
deriving DecidableEq

/-- How a side's key comes of the other side's message. -/
def finish (side : Side) (secret : Secret) (password : String) : Wire → Option SessionKey
  | .element e =>
      if e.side = side then none
      else if e.password = some password then
        match side with
        | .a => some (.shared secret e.secret password)
        | .b => some (.shared e.secret secret password)
      else some (.apart { side, secret, password := some password } e)
  | _ => none

def openBox (key : SessionKey) (label : Label) : Wire → Option (List UInt8)
  | .box key' label' plain => if key' = key ∧ label' = label then some plain else none
  | _ => none

/-- What the joining device sends to prove it derived the same key: `uwussh/pairing/confirm`. -/
def confirm : List UInt8 :=
  [117, 119, 117, 115, 115, 104, 47, 112, 97, 105, 114, 105, 110, 103, 47, 99, 111, 110, 102, 105, 114, 109]

/-- Texts as the crates below handle them: letter case, and the JSON of the two answers. -/
structure Texts where
  uppercase : String → String
  lowercase : String → String
  handoverText : Handover → List UInt8
  readHandover : List UInt8 → Option Handover
  joinedText : Joined → List UInt8
  readJoined : List UInt8 → Option Joined

section runs

variable (t : Texts)

/-- The words, bound to the session they belong to. -/
def password (id words : String) : String :=
  t.uppercase (Text.trim id) ++ "|" ++ t.lowercase (Text.trim words)

/-- What a run does: hand an account over, or take one and say who it is. -/
inductive Role
  | handOver (id words : String) (handover : Handover)
  | takeOver (id words : String) (joined : Joined)

namespace Role

def side : Role → Side
  | handOver .. => .a
  | takeOver .. => .b

def password : Role → String
  | handOver id words _ => Handshake.password t id words
  | takeOver id words _ => Handshake.password t id words

/-- The element a run of a number sends. -/
def element (role : Role) (i : ℕ) : Element :=
  { side := role.side, secret := .run i, password := some (role.password t) }

/-- The key a run gets from the other side's message. -/
def finish (role : Role) (i : ℕ) (theirs : Wire) : Option SessionKey :=
  Handshake.finish role.side (.run i) (role.password t) theirs

end Role

/-- How far a run is. -/
inductive Phase
  /-- For the other side's element. -/
  | waiting
  /-- The joining side has put its own element and not looked at the other one yet. -/
  | answered (theirs : Wire)
  | keyed (key : SessionKey)
  /-- The handover is out. -/
  | handed (key : SessionKey)
  /-- `take_over` came back with this. -/
  | taken (handover : Handover) (key : SessionKey)
  /-- `hand_over` came back with this. -/
  | joined (joined : Joined)
  | failed

def Phase.returned : Phase → Bool
  | taken .. => true
  | joined _ => true
  | _ => false

/-- What a run makes of the next message it waits for. -/
def Role.take (i : ℕ) : Role → Phase → Wire → Option (Phase × Option Wire)
  | handOver id words handover, .waiting, m =>
      match (handOver id words handover).finish t i m with
      | none => some (.failed, none)
      | some key => some (.keyed key, none)
  -- Nothing worth having goes out until the other side has shown it derived the same key.
  | handOver _ _ handover, .keyed key, m =>
      if openBox key .bToA m = some confirm then
        some (.handed key, some (.box key .aToB (t.handoverText handover)))
      else some (.failed, none)
  | handOver .., .handed key, m =>
      match (openBox key .bToA m).bind t.readJoined with
      | none => some (.failed, none)
      | some joined => some (.joined joined, none)
  | takeOver id words joined, .waiting, m =>
      some (.answered m, some (.element ((takeOver id words joined).element t i)))
  | takeOver .., .keyed key, m =>
      match (openBox key .aToB m).bind t.readHandover with
      | none => some (.failed, none)
      | some handover => some (.taken handover key, none)
  | _, _, _ => none

/-- What a run does by itself: the joining side's confirmation, what it says once it is in, and
giving up, as on a deadline or a refusal of the relay. -/
inductive Acts (role : Role) (i : ℕ) : Phase → Phase → Option Wire → Prop
  | confirm {theirs : Wire} {key : SessionKey} : role.finish t i theirs = some key →
      Acts role i (.answered theirs) (.keyed key) (some (.box key .bToA Handshake.confirm))
  | sayJoined {id words : String} {joined : Joined} {handover : Handover} {key : SessionKey} :
      role = .takeOver id words joined → Acts role i (.taken handover key) (.taken handover key)
        (some (.box key .bToA (t.joinedText joined)))
  | giveUp {phase : Phase} : phase.returned = false → Acts role i phase .failed none

/-- How a run starts. -/
def Role.opens (i : ℕ) : Role → Option Wire
  | handOver id words handover => some (.element ((handOver id words handover).element t i))
  | takeOver .. => none

/-- Keys the relay can work out: it needs the password and a secret of its own. -/
def KnowsKey (knows : String → Prop) : SessionKey → Prop
  | .shared a b password => knows password ∧ ((∃ n, a = .relay n) ∨ ∃ n, b = .relay n)
  | .apart own _ => ∃ n, own.secret = .relay n

/-- What the relay can hand out. -/
inductive Derives (knows : String → Prop) (seen : Wire → Prop) : Wire → Prop
  | seen {m : Wire} : seen m → Derives knows seen m
  | element (side : Side) (n : ℕ) {password : Option String} : (∀ p, password = some p → knows p) →
      Derives knows seen (.element { side, secret := .relay n, password })
  | box {key : SessionKey} (label : Label) (plain : List UInt8) : KnowsKey knows key →
      Derives knows seen (.box key label plain)
  | junk (bytes : List UInt8) : Derives knows seen (.junk bytes)

/-- Any number of runs side by side, against a relay that knows some passwords. -/
def protocol (roles : ℕ → Role) (knows : String → Prop) : Relay.Protocol Phase Wire where
  opens i phase out := phase = .waiting ∧ out = (roles i).opens t i
  takes i phase m phase' out := (roles i).take t i phase m = some (phase', out)
  acts i := Acts t (roles i) i
  derives := Derives knows

/-- What the runs write reads back as what it was, and the confirmation is no JSON. -/
structure Legible (roles : ℕ → Role) : Prop where
  handover : ∀ i id words handover, roles i = .handOver id words handover →
    t.readHandover (t.handoverText handover) = some handover
  joined : ∀ i id words joined, roles i = .takeOver id words joined →
    t.readJoined (t.joinedText joined) = some joined
  confirm : t.readJoined confirm = none

end runs

end Handshake

end UwuSsh

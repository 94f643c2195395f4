import Mathlib.Data.List.Basic
import Mathlib.Logic.Function.Basic

/-!
Parties that talk through a relay nobody trusts. The relay sees every message put, and hands a
party whatever it can make of what it saw, when it likes. The log keeps what was put and
what was taken, in order. A local invariant of the parties and a fact about each event, given
the events before it, hold on every run once single steps keep to them.
-/
namespace Relay

variable {Party Msg : Type}

inductive Event (Msg : Type)
  | put (i : ℕ) (m : Msg)
  | took (i : ℕ) (m : Msg)

/-- The parties that have started, and everything that happened so far. -/
structure Net (Party Msg : Type) where
  parties : ℕ → Option Party
  log : List (Event Msg)

/-- How each party starts, takes a message and goes on by itself, putting at most one message
at a time, and what the relay can make of messages it saw. -/
structure Protocol (Party Msg : Type) where
  opens : ℕ → Party → Option Msg → Prop
  takes : ℕ → Party → Msg → Party → Option Msg → Prop
  acts : ℕ → Party → Party → Option Msg → Prop
  derives : (Msg → Prop) → Msg → Prop

def Seen (log : List (Event Msg)) (m : Msg) : Prop := ∃ i, .put i m ∈ log

def puts (i : ℕ) (out : Option Msg) : List (Event Msg) := out.toList.map (.put i)

def Net.set (net : Net Party Msg) (i : ℕ) (p : Party) (events : List (Event Msg)) : Net Party Msg where
  parties := Function.update net.parties i (some p)
  log := net.log ++ events

def Net.start : Net Party Msg := { parties := fun _ => none, log := [] }

@[simp] theorem Net.parties_set_self (net : Net Party Msg) (i : ℕ) (p : Party)
    (events : List (Event Msg)) : (net.set i p events).parties i = some p := Function.update_self ..

theorem Net.parties_set_of_ne (net : Net Party Msg) {i j : ℕ} (h : j ≠ i) (p : Party)
    (events : List (Event Msg)) : (net.set i p events).parties j = net.parties j :=
  Function.update_of_ne h ..

variable (proto : Protocol Party Msg)

inductive Reaches : Net Party Msg → Prop
  | start : Reaches .start
  | opens {net : Net Party Msg} {i : ℕ} {p : Party} {out : Option Msg} : Reaches net →
      net.parties i = none → proto.opens i p out → Reaches (net.set i p (puts i out))
  | takes {net : Net Party Msg} {i : ℕ} {p p' : Party} {m : Msg} {out : Option Msg} : Reaches net →
      net.parties i = some p → proto.derives (Seen net.log) m → proto.takes i p m p' out →
        Reaches (net.set i p' (.took i m :: puts i out))
  | acts {net : Net Party Msg} {i : ℕ} {p p' : Party} {out : Option Msg} : Reaches net →
      net.parties i = some p → proto.acts i p p' out → Reaches (net.set i p' (puts i out))

/-- What parties keep to by themselves, and what that makes true of each event when it happens. -/
structure Keeps (Q : ℕ → Party → List (Event Msg) → Prop) (R : List (Event Msg) → Event Msg → Prop) :
    Prop where
  mono : ∀ i p log more, Q i p log → Q i p (log ++ more)
  opens : ∀ i p out log, proto.opens i p out →
    Q i p (log ++ puts i out) ∧ ∀ m ∈ out, R log (.put i m)
  takes : ∀ i p m p' out log, Q i p log → proto.derives (Seen log) m → proto.takes i p m p' out →
    Q i p' (log ++ .took i m :: puts i out) ∧ R log (.took i m) ∧
      ∀ m' ∈ out, R (log ++ [.took i m]) (.put i m')
  acts : ∀ i p p' out log, Q i p log → proto.acts i p p' out →
    Q i p' (log ++ puts i out) ∧ ∀ m ∈ out, R log (.put i m)

/-- Every event was as it should be, given what had happened before it. -/
def Ordered (R : List (Event Msg) → Event Msg → Prop) (log : List (Event Msg)) : Prop :=
  ∀ before e after, log = before ++ e :: after → R before e

section ordered

variable {R : List (Event Msg) → Event Msg → Prop} {log : List (Event Msg)}

theorem Ordered.concat {e : Event Msg} (h : Ordered R log) (he : R log e) : Ordered R (log ++ [e]) := by
  intro before e' after hsplit
  rcases List.eq_nil_or_concat after with rfl | ⟨init, last, rfl⟩
  · obtain ⟨rfl, hlast⟩ := List.append_inj' hsplit rfl
    cases hlast
    exact he
  · have hsame : log ++ [e] = (before ++ e' :: init) ++ [last] := by simpa using hsplit
    exact h before e' init (List.append_inj' hsame rfl).1

theorem Ordered.append_puts {i : ℕ} {out : Option Msg} (h : Ordered R log)
    (hout : ∀ m ∈ out, R log (.put i m)) : Ordered R (log ++ puts i out) := by
  cases out with
  | none => simpa [puts] using h
  | some m => exact h.concat (hout m rfl)

end ordered

variable {proto} {Q : ℕ → Party → List (Event Msg) → Prop} {R : List (Event Msg) → Event Msg → Prop}

theorem Net.forall_set {net : Net Party Msg} {i : ℕ} {p : Party} {events : List (Event Msg)}
    (hmono : ∀ i p log more, Q i p log → Q i p (log ++ more))
    (h : ∀ j q, net.parties j = some q → Q j q net.log) (hp : Q i p (net.log ++ events)) :
    ∀ j q, (net.set i p events).parties j = some q → Q j q (net.set i p events).log := by
  intro j q hq
  by_cases hj : j = i
  · subst hj
    rw [Net.parties_set_self] at hq
    cases hq
    exact hp
  · rw [Net.parties_set_of_ne net hj] at hq
    exact hmono _ _ _ _ (h j q hq)

theorem Reaches.sound (hkeeps : Keeps proto Q R) {net : Net Party Msg} (h : Reaches proto net) :
    (∀ i p, net.parties i = some p → Q i p net.log) ∧ Ordered R net.log := by
  induction h with
  | start => exact ⟨nofun, fun before e after hsplit => by simp [Net.start] at hsplit⟩
  | opens _ _ hopens ih =>
    obtain ⟨hq, hr⟩ := hkeeps.opens _ _ _ _ hopens
    exact ⟨Net.forall_set hkeeps.mono ih.1 hq, ih.2.append_puts hr⟩
  | takes _ hp hderives htakes ih =>
    obtain ⟨hq, htook, hr⟩ := hkeeps.takes _ _ _ _ _ _ (ih.1 _ _ hp) hderives htakes
    refine ⟨Net.forall_set hkeeps.mono ih.1 hq, ?_⟩
    have hordered := (ih.2.concat htook).append_puts hr
    rw [List.append_assoc] at hordered
    exact hordered
  | acts _ hp hacts ih =>
    obtain ⟨hq, hr⟩ := hkeeps.acts _ _ _ _ _ (ih.1 _ _ hp) hacts
    exact ⟨Net.forall_set hkeeps.mono ih.1 hq, ih.2.append_puts hr⟩

theorem Seen.append {log : List (Event Msg)} {m : Msg} (h : Seen log m) (more : List (Event Msg)) :
    Seen (log ++ more) m := by
  obtain ⟨i, hput⟩ := h
  exact ⟨i, List.mem_append_left _ hput⟩

theorem seen_puts {log : List (Event Msg)} {i : ℕ} {m : Msg} : Seen (log ++ puts i (some m)) m :=
  ⟨i, List.mem_append_right _ (by simp [puts])⟩

/-- A net that goes on from another by one step of a party. -/
structure Follows (net net' : Net Party Msg) (i : ℕ) (p : Party) (out : Option Msg) : Prop where
  self : net'.parties i = some p
  others : ∀ j ≠ i, net'.parties j = net.parties j
  seen : ∀ m, Seen net.log m → Seen net'.log m
  out : ∀ m ∈ out, Seen net'.log m

theorem Net.follows_set {net : Net Party Msg} {i : ℕ} {p : Party} {out : Option Msg}
    (events : List (Event Msg)) : Follows net (net.set i p (events ++ puts i out)) i p out where
  self := Net.parties_set_self ..
  others := fun _ hj => Net.parties_set_of_ne net hj ..
  seen := fun _ h => h.append _
  out := fun m hm => by
    cases hm
    change Seen (net.log ++ (events ++ puts i (some m))) m
    rw [← List.append_assoc]
    exact seen_puts

theorem Reaches.open_follows {net : Net Party Msg} {i : ℕ} {p : Party} {out : Option Msg}
    (h : Reaches proto net) (hi : net.parties i = none) (hopens : proto.opens i p out) :
    ∃ net', Reaches proto net' ∧ Follows net net' i p out :=
  ⟨_, h.opens hi hopens, Net.follows_set []⟩

theorem Reaches.take_follows {net : Net Party Msg} {i : ℕ} {p p' : Party} {m : Msg} {out : Option Msg}
    (h : Reaches proto net) (hi : net.parties i = some p) (hm : proto.derives (Seen net.log) m)
    (htakes : proto.takes i p m p' out) : ∃ net', Reaches proto net' ∧ Follows net net' i p' out :=
  ⟨_, h.takes hi hm htakes, Net.follows_set [.took i m]⟩

theorem Reaches.act_follows {net : Net Party Msg} {i : ℕ} {p p' : Party} {out : Option Msg}
    (h : Reaches proto net) (hi : net.parties i = some p) (hacts : proto.acts i p p' out) :
    ∃ net', Reaches proto net' ∧ Follows net net' i p' out :=
  ⟨_, h.acts hi hacts, Net.follows_set []⟩

/-- An event and everything before it. -/
theorem Ordered.of_mem {log : List (Event Msg)} (h : Ordered R log) {e : Event Msg} (he : e ∈ log) :
    ∃ before after, log = before ++ e :: after ∧ R before e := by
  obtain ⟨before, after, rfl⟩ := List.append_of_mem he
  exact ⟨before, after, rfl, h before e after rfl⟩

end Relay

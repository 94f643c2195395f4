import Mathlib.Logic.Relation

/-!
Runs of a transition relation, and the rules every system below is argued with: a
predicate that one step preserves holds along a run, and a simulation that matches
one step by a run matches whole runs. A trace is a run whose steps have labels; it
keeps them, the newest first.
-/
namespace Run

variable {α β : Type*}

/-- Zero or more steps. -/
abbrev Steps (step : α → α → Prop) : α → α → Prop := Relation.ReflTransGen step

theorem invariant {step : α → α → Prop} {inv : α → Prop}
    (hstep : ∀ s t, inv s → step s t → inv t) {s t : α} (hrun : Steps step s t)
    (hs : inv s) : inv t := by
  induction hrun with
  | refl => exact hs
  | tail _ hlast ih => exact hstep _ _ ih hlast

/-- A run of the concrete system is a run of the abstract one, as long as an
invariant holds and every concrete step from it is matched. A predicate that holds
at the end and was true before whenever it is true after may be used on the way. -/
theorem simulate {step : α → α → Prop} {abstractStep : β → β → Prop} {inv good : α → Prop}
    (abstraction : α → β) (hinv : ∀ s t, inv s → step s t → inv t)
    (hback : ∀ s t, step s t → good t → good s)
    (hmatch : ∀ s t, inv s → step s t → good t →
      Steps abstractStep (abstraction s) (abstraction t))
    {s t : α} (hrun : Steps step s t) (hs : inv s) (ht : good t) :
    Steps abstractStep (abstraction s) (abstraction t) := by
  induction hrun with
  | refl => exact Relation.ReflTransGen.refl
  | @tail u v hbefore hlast ih =>
    have hu := hback u v hlast ht
    exact (ih hu).trans (hmatch u v (invariant hinv hbefore hs) hlast ht)

inductive Trace {ε : Type*} (step : α → ε → α → Prop) (s : α) : List ε → α → Prop
  | start : Trace step s [] s
  | step {log : List ε} {e : ε} {t u : α} : Trace step s log t → step t e u →
      Trace step s (e :: log) u

namespace Trace

variable {ε : Type*} {step : α → ε → α → Prop} {s t : α} {log : List ε}

/-- What may be said of a state may speak of the labels before it. -/
theorem invariant (inv : List ε → α → Prop)
    (hstep : ∀ log e t u, inv log t → step t e u → inv (e :: log) u) (hs : inv [] s)
    (h : Trace step s log t) : inv log t := by
  induction h with
  | start => exact hs
  | step _ hlast ih => exact hstep _ _ _ _ ih hlast

/-- A trace can be cut in two anywhere. -/
theorem split {after before : List ε} (h : Trace step s (after ++ before) t) :
    ∃ u, Trace step s before u ∧ Trace step u after t := by
  induction after generalizing t with
  | nil => exact ⟨t, h, .start⟩
  | cons e after ih =>
    cases h with
    | step hbefore hlast =>
      obtain ⟨u, hfirst, hsecond⟩ := ih hbefore
      exact ⟨u, hfirst, hsecond.step hlast⟩

end Trace

end Run

import Mathlib.Data.List.Basic

/-!
Readers that take what they want from the front of a byte string. `Takes r text x` says that `r` takes just `text`
and returns `x`, whatever comes after: such facts go together as the readers do, and one text that is read in two
ways is read as the same.
-/

abbrev Reader (α : Type) := StateT (List UInt8) Option α

namespace Reader

variable {α β : Type}

def Takes (r : Reader α) (text : List UInt8) (x : α) : Prop := ∀ rest, r.run (text ++ rest) = some (x, rest)

theorem Takes.pure (x : α) : Takes (Pure.pure x) [] x := fun _ => rfl

theorem Takes.bind {r : Reader α} {f : α → Reader β} {text more : List UInt8} {x : α} {y : β} (hr : Takes r text x)
    (hf : Takes (f x) more y) : Takes (r >>= f) (text ++ more) y := by
  intro rest
  rw [StateT.run_bind, List.append_assoc, hr (more ++ rest)]
  exact hf rest

/-- A reader that takes nothing and one that goes on from there. -/
theorem Takes.bind_nil {r : Reader α} {f : α → Reader β} {text : List UInt8} {x : α} {y : β} (hr : Takes r [] x)
    (hf : Takes (f x) text y) : Takes (r >>= f) text y := hr.bind hf

/-- What is left of two texts that begin alike is the same too. -/
theorem Takes.unique {r : Reader α} {text text' rest rest' : List UInt8} {x y : α} (h : Takes r text x)
    (h' : Takes r text' y) (heq : text ++ rest = text' ++ rest') : x = y ∧ rest = rest' := by
  have hboth := (h rest).symm.trans ((congrArg r.run heq).trans (h' rest'))
  exact Prod.mk.inj (Option.some.inj hboth)

/-- Goes on only where there is a value. -/
def lift (value : Option α) : Reader α := fun text => value.map fun x => (x, text)

theorem takes_lift (x : α) : Takes (lift (some x)) [] x := fun _ => rfl

theorem Takes.map {r : Reader α} {f : α → β} {text : List UInt8} {x : α} (hr : Takes r text x) :
    Takes (r >>= fun v => Pure.pure (f v)) text (f x) := by
  have hboth := @Takes.bind _ _ r (fun v => Pure.pure (f v)) text [] x (f x) hr (Takes.pure (f x))
  rwa [List.append_nil] at hboth

theorem Takes.lift {r : Reader α} {f : α → Option β} {text : List UInt8} {x : α} {y : β} (hr : Takes r text x)
    (hf : f x = some y) : Takes (r >>= fun v => Reader.lift (f v)) text y := by
  have htail : Takes (Reader.lift (f x)) [] y := by
    rw [hf]
    exact takes_lift y
  have hboth := @Takes.bind _ _ r (fun v => Reader.lift (f v)) text [] x y hr htail
  rwa [List.append_nil] at hboth

def check (p : Bool) : Reader Unit := fun text => if p then some ((), text) else none

theorem takes_check {p : Bool} (h : p = true) : Takes (check p) [] () := by
  intro rest
  exact if_pos h

/-- So many bytes. -/
def bytes (n : ℕ) : Reader (List UInt8) := fun text => if n ≤ text.length then some (text.take n, text.drop n) else none

theorem takes_bytes {n : ℕ} {text : List UInt8} (h : text.length = n) : Takes (bytes n) text text := by
  intro rest
  have hle : n ≤ (text ++ rest).length := by
    rw [List.length_append]
    omega
  have hrun : (bytes n).run (text ++ rest) = some ((text ++ rest).take n, (text ++ rest).drop n) := if_pos hle
  rw [hrun, ← h, List.take_left, List.drop_left]

/-- Up to the end byte, which is taken too. -/
def upTo (ending : UInt8) : Reader (List UInt8)
  | [] => none
  | byte :: text => if byte = ending then some ([], text) else (upTo ending text).map fun r => (byte :: r.1, r.2)

theorem takes_upTo {ending : UInt8} {text : List UInt8} (h : ending ∉ text) :
    Takes (upTo ending) (text ++ [ending]) text := by
  intro rest
  induction text with
  | nil => exact if_pos rfl
  | cons byte text ih =>
    obtain ⟨hbyte, htext⟩ : ending ≠ byte ∧ ending ∉ text := by simpa using h
    have hrest : upTo ending (text ++ [ending] ++ rest) = some (text, rest) := ih htext
    have hrun : (upTo ending).run (byte :: text ++ [ending] ++ rest) =
        (upTo ending (text ++ [ending] ++ rest)).map fun r => (byte :: r.1, r.2) := if_neg (Ne.symm hbyte)
    rw [hrun, hrest]
    rfl

/-- One after the other, their texts joined. -/
def joined (r : Reader (List UInt8)) : ℕ → Reader (List UInt8)
  | 0 => Pure.pure []
  | n + 1 => do
    let text ← r
    let more ← joined r n
    Pure.pure (text ++ more)

end Reader

import Mathlib.Algebra.Group.Nat.Defs
import Mathlib.Data.List.Chain
import Mathlib.Data.Prod.Lex
import Mathlib.Order.Lattice

/-!
The hybrid logical clock of `uwussh-proto`. A timestamp is a wall reading, a
counter that separates events of one millisecond, and the device that made it.
All three are machine integers, so the next timestamp saturates at the end of
the wall clock; `Stamp` names the two parts a device's own clock advances, and
every dominance fact below is about them.
-/
namespace UwuSsh

/-- How far ahead of this device another clock may push the local one. -/
def maxDriftMs : UInt64 := 24 * 60 * 60 * 1000

/-- `u64::saturating_add`. -/
def saturatingAdd (a b : UInt64) : UInt64 :=
  if a.toNat + b.toNat < 2 ^ 64 then a + b else UInt64.ofNat (2 ^ 64 - 1)

structure Hlc where
  wallMs : UInt64
  counter : UInt32
  device : UInt32
deriving DecidableEq, Repr

/-- The part of a timestamp that a device's own clock advances. -/
abbrev Stamp := ℕ ×ₗ ℕ

theorem toNat_saturatingAdd (a b : UInt64) :
    (saturatingAdd a b).toNat = min (a.toNat + b.toNat) (2 ^ 64 - 1) := by
  unfold saturatingAdd
  have ha := a.toNat_lt
  have hb := b.toNat_lt
  split
  · rw [UInt64.toNat_add]
    omega
  · rw [UInt64.toNat_ofNat']
    omega

namespace Hlc

/-- The moment right after `(wallMs, counter)`: a counter at its end moves on
to the next millisecond instead of wrapping. -/
def step (wallMs : UInt64) (counter : UInt32) : UInt64 × UInt32 :=
  if counter.toNat + 1 < 2 ^ 32 then (wallMs, counter + 1) else (saturatingAdd wallMs 1, 0)

def tick (self : Hlc) (nowMs : UInt64) : Hlc :=
  if self.wallMs < nowMs then
    { wallMs := nowMs, counter := 0, device := self.device }
  else
    let next := step self.wallMs self.counter
    { wallMs := next.1, counter := next.2, device := self.device }

/-- Merge a remote timestamp into the local clock; its wall is capped at the
local wall clock plus `maxDriftMs`. -/
def merge (self remote : Hlc) (nowMs : UInt64) : Hlc :=
  let remoteWall := min remote.wallMs (saturatingAdd nowMs maxDriftMs)
  let maxWall := max (max nowMs self.wallMs) remoteWall
  let next :=
    if maxWall = self.wallMs ∧ maxWall = remoteWall then
      step maxWall (max self.counter remote.counter)
    else if maxWall = self.wallMs then
      step maxWall self.counter
    else if maxWall = remoteWall then
      step maxWall remote.counter
    else
      (maxWall, 0)
  { wallMs := next.1, counter := next.2, device := self.device }

def stamp (c : Hlc) : Stamp := toLex (c.wallMs.toNat, c.counter.toNat)

def key (c : Hlc) : ℕ ×ₗ ℕ ×ₗ ℕ :=
  toLex (c.wallMs.toNat, toLex (c.counter.toNat, c.device.toNat))

theorem key_injective : Function.Injective key := by
  intro a b h
  obtain ⟨w, c, d⟩ := a
  obtain ⟨w', c', d'⟩ := b
  simp only [key, EmbeddingLike.apply_eq_iff_eq, Prod.mk.injEq] at h
  obtain ⟨hw, hc, hd⟩ := h
  simp only [mk.injEq]
  exact ⟨UInt64.toNat_inj.mp hw, UInt32.toNat_inj.mp hc, UInt32.toNat_inj.mp hd⟩

instance : LinearOrder Hlc := LinearOrder.lift' key key_injective

theorem lt_iff {a b : Hlc} :
    a < b ↔ a.wallMs.toNat < b.wallMs.toNat ∨ (a.wallMs.toNat = b.wallMs.toNat ∧
      (a.counter.toNat < b.counter.toNat ∨
        (a.counter.toNat = b.counter.toNat ∧ a.device.toNat < b.device.toNat))) := by
  change key a < key b ↔ _
  simp [key, Prod.Lex.toLex_lt_toLex]

theorem stamp_lt_iff {a b : Hlc} :
    a.stamp < b.stamp ↔ a.wallMs.toNat < b.wallMs.toNat ∨
      (a.wallMs.toNat = b.wallMs.toNat ∧ a.counter.toNat < b.counter.toNat) := by
  simp [stamp, Prod.Lex.toLex_lt_toLex]

/-- A greater stamp is a greater timestamp, whoever made either. -/
theorem lt_of_stamp_lt {a b : Hlc} (h : a.stamp < b.stamp) : a < b := by
  rw [stamp_lt_iff] at h
  rw [lt_iff]
  omega

/-- The last timestamp there is: no clock can move past it. -/
def AtEnd (c : Hlc) : Prop := c.wallMs.toNat = 2 ^ 64 - 1 ∧ c.counter.toNat = 2 ^ 32 - 1

instance (c : Hlc) : Decidable c.AtEnd := inferInstanceAs (Decidable (_ ∧ _))

/-- A remote timestamp no further ahead than the drift bound. -/
def WithinDrift (remote : Hlc) (nowMs : UInt64) : Prop :=
  remote.wallMs ≤ saturatingAdd nowMs maxDriftMs

instance (remote : Hlc) (nowMs : UInt64) : Decidable (remote.WithinDrift nowMs) :=
  inferInstanceAs (Decidable (_ ≤ _))

@[simp] theorem tick_device (c : Hlc) (nowMs : UInt64) : (c.tick nowMs).device = c.device := by
  unfold tick
  split <;> rfl

@[simp] theorem merge_device (c remote : Hlc) (nowMs : UInt64) :
    (c.merge remote nowMs).device = c.device := rfl

private def pairStamp (p : UInt64 × UInt32) : Stamp := toLex (p.1.toNat, p.2.toNat)

private theorem pairStamp_lt_iff {p q : UInt64 × UInt32} :
    pairStamp p < pairStamp q ↔ p.1.toNat < q.1.toNat ∨
      (p.1.toNat = q.1.toNat ∧ p.2.toNat < q.2.toNat) := by
  simp [pairStamp, Prod.Lex.toLex_lt_toLex]

private theorem lt_step {wallMs : UInt64} {counter : UInt32}
    (h : ¬ (wallMs.toNat = 2 ^ 64 - 1 ∧ counter.toNat = 2 ^ 32 - 1)) :
    pairStamp (wallMs, counter) < pairStamp (step wallMs counter) := by
  have hw := wallMs.toNat_lt
  have hc := counter.toNat_lt
  rw [pairStamp_lt_iff]
  unfold step
  split
  next hroom =>
    right
    simp only [UInt32.toNat_add, UInt32.reduceToNat, true_and]
    omega
  next =>
    left
    simp only [toNat_saturatingAdd, UInt64.reduceToNat]
    omega

theorem stamp_lt_tick {c : Hlc} (nowMs : UInt64) (h : ¬ c.AtEnd) :
    c.stamp < (c.tick nowMs).stamp := by
  unfold tick
  split
  next hnow =>
    rw [stamp_lt_iff]
    exact Or.inl (UInt64.lt_iff_toNat_lt.mp hnow)
  next => exact lt_step h

private theorem toNat_max (a b : UInt64) : (max a b).toNat = max a.toNat b.toNat := by
  change (if a ≤ b then b else a).toNat = _
  split
  next h => exact (max_eq_right (UInt64.le_iff_toNat_le.mp h)).symm
  next h => exact (max_eq_left (by rw [UInt64.le_iff_toNat_le] at h; omega)).symm

private theorem toNat_max32 (a b : UInt32) : (max a b).toNat = max a.toNat b.toNat := by
  change (if a ≤ b then b else a).toNat = _
  split
  next h => exact (max_eq_right (UInt32.le_iff_toNat_le.mp h)).symm
  next h => exact (max_eq_left (by rw [UInt32.le_iff_toNat_le] at h; omega)).symm

private theorem toNat_min (a b : UInt64) : (min a b).toNat = min a.toNat b.toNat := by
  change (if a ≤ b then a else b).toNat = _
  split
  next h => exact (min_eq_left (UInt64.le_iff_toNat_le.mp h)).symm
  next h => exact (min_eq_right (by rw [UInt64.le_iff_toNat_le] at h; omega)).symm

private theorem le_step_wall (wallMs : UInt64) (counter : UInt32) :
    wallMs.toNat ≤ (step wallMs counter).1.toNat := by
  have hw := wallMs.toNat_lt
  unfold step
  split
  · exact le_rfl
  · simp only [toNat_saturatingAdd, UInt64.reduceToNat]
    omega

/-- The wall `merge` computes, with the remote wall already capped. -/
private theorem merged_wall {wall nowMs remoteWall : UInt64} {counter remoteCounter : UInt32}
    {maxWall : UInt64} (hmax : maxWall = max (max nowMs wall) remoteWall)
    {next : UInt64 × UInt32}
    (hnext : next =
      if maxWall = wall ∧ maxWall = remoteWall then step maxWall (max counter remoteCounter)
      else if maxWall = wall then step maxWall counter
      else if maxWall = remoteWall then step maxWall remoteCounter
      else (maxWall, 0)) :
    wall.toNat ≤ next.1.toNat ∧ remoteWall.toNat ≤ next.1.toNat := by
  have hle : wall.toNat ≤ maxWall.toNat ∧ remoteWall.toNat ≤ maxWall.toNat := by
    rw [hmax, toNat_max, toNat_max]
    omega
  have hstep : ∀ c, maxWall.toNat ≤ (step maxWall c).1.toNat := le_step_wall maxWall
  subst hnext
  split_ifs
  · exact ⟨hle.1.trans (hstep _), hle.2.trans (hstep _)⟩
  · exact ⟨hle.1.trans (hstep _), hle.2.trans (hstep _)⟩
  · exact ⟨hle.1.trans (hstep _), hle.2.trans (hstep _)⟩
  · exact hle

/-- The wall and counter `merge` computes, with the remote wall already capped. -/
private theorem lt_merged {wall nowMs remoteWall : UInt64} {counter remoteCounter : UInt32}
    (hc : ¬ (wall.toNat = 2 ^ 64 - 1 ∧ counter.toNat = 2 ^ 32 - 1))
    (hr : ¬ (remoteWall.toNat = 2 ^ 64 - 1 ∧ remoteCounter.toNat = 2 ^ 32 - 1))
    {maxWall : UInt64} (hmax : maxWall = max (max nowMs wall) remoteWall)
    {next : UInt64 × UInt32}
    (hnext : next =
      if maxWall = wall ∧ maxWall = remoteWall then step maxWall (max counter remoteCounter)
      else if maxWall = wall then step maxWall counter
      else if maxWall = remoteWall then step maxWall remoteCounter
      else (maxWall, 0)) :
    pairStamp (wall, counter) < pairStamp next ∧
      pairStamp (remoteWall, remoteCounter) < pairStamp next := by
  have hwall : wall.toNat ≤ maxWall.toNat := by
    rw [hmax, toNat_max, toNat_max]
    omega
  have hremote : remoteWall.toNat ≤ maxWall.toNat := by
    rw [hmax, toNat_max, toNat_max]
    omega
  have below : ∀ {w : UInt64} {c : UInt32} {p : UInt64 × UInt32}, w.toNat ≤ maxWall.toNat →
      maxWall ≠ w → maxWall.toNat ≤ p.1.toNat → pairStamp (w, c) < pairStamp p := by
    intro w c p hle hne hp
    rw [ne_eq, ← UInt64.toNat_inj] at hne
    exact pairStamp_lt_iff.mpr (Or.inl (by change w.toNat < _; omega))
  subst hnext
  split_ifs with both atWall atRemote
  · obtain ⟨rfl, rfl⟩ := both
    have hcounter := toNat_max32 counter remoteCounter
    have hstep := @lt_step maxWall (max counter remoteCounter) (by omega)
    simp only [pairStamp_lt_iff] at hstep ⊢
    omega
  · subst atWall
    exact ⟨lt_step hc, below hremote (fun h => both ⟨rfl, h⟩) (le_step_wall _ _)⟩
  · subst atRemote
    exact ⟨below hwall atWall (le_step_wall _ _), lt_step hr⟩
  · exact ⟨below hwall atWall le_rfl, below hremote atRemote le_rfl⟩

theorem stamp_lt_merge {c remote : Hlc} (nowMs : UInt64) (hc : ¬ c.AtEnd)
    (hr : ¬ remote.AtEnd) (hdrift : remote.WithinDrift nowMs) :
    c.stamp < (c.merge remote nowMs).stamp ∧
      remote.stamp < (c.merge remote nowMs).stamp := by
  have hcap : min remote.wallMs (saturatingAdd nowMs maxDriftMs) = remote.wallMs :=
    if_pos hdrift
  have hmerged := @lt_merged _ nowMs _ _ _ hc hr _ rfl _ rfl
  unfold merge
  rw [hcap]
  exact hmerged

theorem le_merge_wall (c remote : Hlc) (nowMs : UInt64) :
    c.wallMs.toNat ≤ (c.merge remote nowMs).wallMs.toNat ∧
      (min remote.wallMs (saturatingAdd nowMs maxDriftMs)).toNat ≤
        (c.merge remote nowMs).wallMs.toNat := by
  have hwall := @merged_wall c.wallMs nowMs (min remote.wallMs (saturatingAdd nowMs maxDriftMs))
    c.counter remote.counter _ rfl _ rfl
  exact hwall

theorem le_tick_wall (c : Hlc) (nowMs : UInt64) : c.wallMs.toNat ≤ (c.tick nowMs).wallMs.toNat := by
  unfold tick
  split
  next hnow => exact (UInt64.lt_iff_toNat_lt.mp hnow).le
  next => exact le_step_wall c.wallMs c.counter

/-- A merge that does not reach the last millisecond moved the clock on. -/
theorem stamp_lt_merge_of_lt {c remote : Hlc} {nowMs : UInt64}
    (h : (c.merge remote nowMs).wallMs.toNat + 1 < 2 ^ 64) :
    c.stamp < (c.merge remote nowMs).stamp := by
  obtain ⟨hlocal, hremote⟩ := le_merge_wall c remote nowMs
  have hmerged := @lt_merged c.wallMs nowMs (min remote.wallMs (saturatingAdd nowMs maxDriftMs))
    c.counter remote.counter (by omega) (by omega) _ rfl _ rfl
  exact hmerged.1

/-- What happens to a device's clock: it stamps an edit, or learns of a timestamp. -/
inductive Event
  | tick (nowMs : UInt64)
  | merge (remote : Hlc) (nowMs : UInt64)

def Event.nowMs : Event → UInt64
  | .tick nowMs => nowMs
  | .merge _ nowMs => nowMs

def advance (c : Hlc) : Event → Hlc
  | .tick nowMs => c.tick nowMs
  | .merge remote nowMs => c.merge remote nowMs

/-- The timestamps one clock returns, in order. -/
def returned (c : Hlc) : List Event → List Hlc
  | [] => []
  | e :: es => c.advance e :: (c.advance e).returned es

/-- A remote timestamp as `merge` reads it. -/
def capped (remote : Hlc) (nowMs : UInt64) : Hlc :=
  { remote with wallMs := min remote.wallMs (saturatingAdd nowMs maxDriftMs) }

/-- The event asks for a moment after the last timestamp there is. -/
def Spent (c : Hlc) : Event → Prop
  | .tick _ => c.AtEnd
  | .merge remote nowMs => c.AtEnd ∨ (c.wallMs.toNat = 2 ^ 64 - 1 ∧ (remote.capped nowMs).AtEnd)

instance (c : Hlc) : (e : Event) → Decidable (c.Spent e)
  | .tick _ => inferInstanceAs (Decidable c.AtEnd)
  | .merge _ _ => inferInstanceAs (Decidable (_ ∨ _))

/-- No event asks the clock for a moment after the last one. -/
def Lasts (c : Hlc) : List Event → Prop
  | [] => True
  | e :: es => ¬ c.Spent e ∧ (c.advance e).Lasts es

/-- Two timestamps of one device compare as their stamps do. -/
theorem lt_iff_stamp_lt {a b : Hlc} (h : a.device = b.device) : a < b ↔ a.stamp < b.stamp := by
  rw [lt_iff, stamp_lt_iff, h]
  omega

@[simp] theorem advance_device (c : Hlc) (e : Event) : (c.advance e).device = c.device := by
  cases e with
  | tick nowMs => exact tick_device c nowMs
  | merge remote nowMs => exact merge_device c remote nowMs

theorem not_lt_of_atEnd {a b : Hlc} (h : a.device = b.device) (hend : a.AtEnd) : ¬ a < b := by
  have hw := b.wallMs.toNat_lt
  have hc := b.counter.toNat_lt
  obtain ⟨hwall, hcounter⟩ := hend
  rw [lt_iff_stamp_lt h, stamp_lt_iff]
  omega

/-- A clock does not move past the last timestamp. -/
theorem merge_counter_of_atEnd {c remote : Hlc} {nowMs : UInt64} (hc : c.wallMs.toNat = 2 ^ 64 - 1)
    (hr : (remote.capped nowMs).AtEnd) : (c.merge remote nowMs).counter = 0 := by
  obtain ⟨hwall, hcounter⟩ := hr
  have hnow := nowMs.toNat_lt
  have hmax : max (max nowMs c.wallMs) (remote.capped nowMs).wallMs = c.wallMs := by
    rw [← UInt64.toNat_inj, toNat_max, toNat_max, hwall, hc]
    omega
  have hsame : c.wallMs = (remote.capped nowMs).wallMs := by
    rw [← UInt64.toNat_inj, hwall, hc]
  have hfull : ¬ (max c.counter remote.counter).toNat + 1 < 2 ^ 32 := by
    have hcounter : remote.counter.toNat = 2 ^ 32 - 1 := hcounter
    rw [toNat_max32]
    omega
  unfold capped at hmax hsame
  unfold merge
  dsimp only at hmax hsame ⊢
  rw [hmax, if_pos ⟨rfl, hsame⟩, step, if_neg hfull]

theorem lt_merge_iff (c remote : Hlc) (nowMs : UInt64) :
    c < c.merge remote nowMs ↔ ¬ c.Spent (.merge remote nowMs) := by
  constructor
  · intro hlt hspent
    rcases hspent with hend | ⟨hc, hr⟩
    · exact not_lt_of_atEnd (merge_device c remote nowMs).symm hend hlt
    · have hzero := merge_counter_of_atEnd hc hr
      have hwall := (c.merge remote nowMs).wallMs.toNat_lt
      rw [lt_iff_stamp_lt (merge_device c remote nowMs).symm, stamp_lt_iff, hzero, hc] at hlt
      simp only [UInt32.toNat_zero] at hlt
      omega
  · intro hspent
    obtain ⟨hend, hboth⟩ := not_or.mp hspent
    obtain ⟨hlocal, hremote⟩ := le_merge_wall c remote nowMs
    rw [lt_iff_stamp_lt (merge_device c remote nowMs).symm]
    by_cases hr : (remote.capped nowMs).AtEnd
    · -- Only the wall of the remote is at its end, and the clock takes it over.
      have hhigh : (min remote.wallMs (saturatingAdd nowMs maxDriftMs)).toNat = 2 ^ 64 - 1 := hr.1
      have hlow := c.wallMs.toNat_lt
      have hne : c.wallMs.toNat ≠ 2 ^ 64 - 1 := fun h => hboth ⟨h, hr⟩
      rw [stamp_lt_iff]
      omega
    · have hmerged := @lt_merged c.wallMs nowMs _ c.counter remote.counter hend hr _ rfl _ rfl
      exact hmerged.1

theorem lt_advance_iff (c : Hlc) (e : Event) : c < c.advance e ↔ ¬ c.Spent e := by
  cases e with
  | tick nowMs =>
    constructor
    · exact fun hlt hend => not_lt_of_atEnd (tick_device c nowMs).symm hend hlt
    · exact fun hend => lt_of_stamp_lt (stamp_lt_tick nowMs hend)
  | merge remote nowMs => exact lt_merge_iff c remote nowMs

theorem withinDrift_iff {remote : Hlc} {nowMs : UInt64} : remote.WithinDrift nowMs ↔
    remote.wallMs.toNat ≤ nowMs.toNat + maxDriftMs.toNat := by
  have hw := remote.wallMs.toNat_lt
  unfold WithinDrift
  rw [UInt64.le_iff_toNat_le, toNat_saturatingAdd]
  omega

/-- A merge passes a remote timestamp within the drift bound, unless that or this
clock has no moment after it. -/
theorem remote_lt_merge {c remote : Hlc} {nowMs : UInt64} (hdrift : remote.WithinDrift nowMs)
    (hr : ¬ remote.AtEnd) (hboth : ¬ (c.AtEnd ∧ remote.wallMs.toNat = 2 ^ 64 - 1)) :
    remote < c.merge remote nowMs := by
  by_cases hc : c.AtEnd
  · have hhigh := (le_merge_wall c remote nowMs).1
    have hlow := remote.wallMs.toNat_lt
    have hne : remote.wallMs.toNat ≠ 2 ^ 64 - 1 := fun h => hboth ⟨hc, h⟩
    rw [hc.1] at hhigh
    exact lt_iff.mpr (Or.inl (by omega))
  · exact lt_of_stamp_lt (stamp_lt_merge nowMs hc hr hdrift).2

private theorem step_wall_le (wallMs : UInt64) (counter : UInt32) :
    (step wallMs counter).1.toNat ≤ wallMs.toNat + 1 := by
  unfold step
  split
  · exact Nat.le_succ _
  · simp only [toNat_saturatingAdd, UInt64.reduceToNat]
    omega

/-- How far one event can move the wall. -/
theorem advance_wall_le (c : Hlc) (e : Event) : (c.advance e).wallMs.toNat ≤
    max c.wallMs.toNat (e.nowMs.toNat + maxDriftMs.toNat) + 1 := by
  cases e with
  | tick nowMs =>
    have hstep := step_wall_le c.wallMs c.counter
    change (c.tick nowMs).wallMs.toNat ≤ max c.wallMs.toNat (nowMs.toNat + maxDriftMs.toNat) + 1
    unfold tick
    split
    · change nowMs.toNat ≤ _
      omega
    · change (step c.wallMs c.counter).1.toNat ≤ _
      omega
  | merge remote nowMs =>
    have hwall : (max (max nowMs c.wallMs) (min remote.wallMs (saturatingAdd nowMs maxDriftMs))).toNat ≤
        max c.wallMs.toNat (nowMs.toNat + maxDriftMs.toNat) := by
      rw [toNat_max, toNat_max, toNat_min, toNat_saturatingAdd]
      omega
    have hstep : ∀ counter, (step (max (max nowMs c.wallMs)
        (min remote.wallMs (saturatingAdd nowMs maxDriftMs))) counter).1.toNat ≤
        max c.wallMs.toNat (nowMs.toNat + maxDriftMs.toNat) + 1 :=
      fun counter => (step_wall_le _ counter).trans (Nat.add_le_add_right hwall 1)
    unfold advance merge Event.nowMs
    dsimp only
    split_ifs
    · exact hstep _
    · exact hstep _
    · exact hstep _
    · exact hwall.trans (Nat.le_succ _)

/-- Every timestamp a clock returns is past all it returned before, as long as there are any. -/
theorem returned_increasing_iff (c : Hlc) (es : List Event) :
    (c :: c.returned es).Pairwise (· < ·) ↔ c.Lasts es := by
  rw [← List.isChain_iff_pairwise]
  induction es generalizing c with
  | nil => exact ⟨fun _ => trivial, fun _ => .singleton c⟩
  | cons e es ih =>
    unfold returned Lasts
    rw [List.isChain_cons_cons, lt_advance_iff, ih]

/-- A clock is strictly monotone until it has reached the last timestamp there is: whatever
the wall readings and the remote clocks, what it returns is greater than all it returned
before and than a remote within the drift bound, and its wall stays within that bound. -/
theorem clock_monotone (c : Hlc) :
    (∀ es, (c :: c.returned es).Pairwise (· < ·) ↔ c.Lasts es) ∧
    (∀ remote nowMs, remote.wallMs.toNat ≤ nowMs.toNat + maxDriftMs.toNat → ¬ remote.AtEnd →
      ¬ (c.AtEnd ∧ remote.wallMs.toNat = 2 ^ 64 - 1) → remote < c.merge remote nowMs) ∧
    ∀ e, (c.advance e).wallMs.toNat ≤
      max c.wallMs.toNat (e.nowMs.toNat + maxDriftMs.toNat) + 1 :=
  ⟨c.returned_increasing_iff, fun _ _ hdrift => remote_lt_merge (withinDrift_iff.mpr hdrift),
    c.advance_wall_le⟩

/-- A full counter carries into the wall, and a clock that is set back does not go back. -/
theorem clock_monotone_carry :
    let c : Hlc := { wallMs := 1000, counter := 4294967295, device := 1 }
    let remote : Hlc := { wallMs := 1500, counter := 3, device := 2 }
    (c :: c.returned [.tick 10, .merge remote 20, .tick 5]).Pairwise (· < ·) ∧
      remote < c.merge remote 20 ∧ (c.merge remote 20).wallMs.toNat ≤ 86400021 := by
  intro c remote
  obtain ⟨hrun, hremote, hwall⟩ := clock_monotone c
  exact ⟨(hrun _).mpr (by simp only [Lasts]; decide),
    hremote remote 20 (by decide) (by decide) (by decide), (hwall (.merge remote 20)).trans (by decide)⟩

/-- At the end of the wall clock a full counter starts again at zero. -/
theorem clock_stands_still : ¬ ∀ (c : Hlc) (es : List Event), (c.returned es).Pairwise (· < ·) := by
  intro h
  have hrun := h { wallMs := 0, counter := 0, device := 1 }
    [.tick 18446744073709551615,
      .merge { wallMs := 18446744073709551615, counter := 4294967295, device := 2 }
        18446744073709551615]
  exact absurd hrun (by decide)

end Hlc

end UwuSsh

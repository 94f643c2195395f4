import Mathlib.Data.List.Chain
import Mathlib.Data.List.Infix
import Mathlib.Data.List.Induction

/-!
Putting together what was cut into pieces: a stream of wholes, first, middle and last pieces, and losses.
A piece is joined to the first one before it that nothing has closed; a loss drops what is half assembled.
-/
namespace Fragments

inductive Role
  | whole
  | first
  | middle
  | last
  | loss
deriving DecidableEq

structure State (α : Type*) where
  opened : Option (List α)
  groups : List (List α)

variable {α : Type*} (role : α → Role)

def State.take (state : State α) (x : α) : State α :=
  match role x with
  | .whole => { state with groups := state.groups ++ [[x]] }
  | .first => { state with opened := some [x] }
  | .middle => { state with opened := state.opened.map (· ++ [x]) }
  | .last =>
    match state.opened with
    | some group => { opened := none, groups := state.groups ++ [group ++ [x]] }
    | none => state
  | .loss => { state with opened := none }

def gather (xs : List α) : State α := xs.foldl (State.take role) { opened := none, groups := [] }

theorem gather_concat (xs : List α) (x : α) : gather role (xs ++ [x]) = (gather role xs).take role x := by
  simp [gather]

/-- Nothing that opens, closes or drops a group. -/
def Calm (xs : List α) : Prop := ∀ x ∈ xs, role x = .whole ∨ role x = .middle

def middles (xs : List α) : List α := xs.filter fun x => role x = .middle

/-- Where a group that is still open began. -/
def OpenedAt (xs : List α) (group : List α) : Prop :=
  ∃ before first mid, xs = before ++ first :: mid ∧ role first = .first ∧ Calm role mid ∧
    group = first :: middles role mid

/-- A first and a last piece that were put together, with the middle ones between them. -/
def Joined (xs : List α) (group : List α) : Prop :=
  ∃ before first mid last after, xs = before ++ first :: mid ++ last :: after ∧ role first = .first ∧
    Calm role mid ∧ role last = .last ∧ group = first :: middles role mid ++ [last]

variable {role}

theorem openedAt_concat {xs : List α} {x : α} {group : List α} :
    OpenedAt role (xs ++ [x]) group ↔
      (role x = .first ∧ group = [x]) ∨
      (role x = .whole ∧ OpenedAt role xs group) ∨
      (role x = .middle ∧ ∃ open_, OpenedAt role xs open_ ∧ group = open_ ++ [x]) := by
  constructor
  · rintro ⟨before, first, mid, heq, hfirst, hcalm, rfl⟩
    rcases List.eq_nil_or_concat mid with rfl | ⟨init, last, rfl⟩
    · obtain ⟨-, hlast⟩ := List.append_inj' heq rfl
      obtain rfl : x = first := by simpa using hlast
      exact .inl ⟨hfirst, rfl⟩
    · rw [List.concat_eq_append, ← List.cons_append, ← List.append_assoc] at heq
      obtain ⟨rfl, hlast⟩ := List.append_inj' heq rfl
      obtain rfl : x = last := by simpa using hlast
      have hinit : Calm role init := fun y hy => hcalm y (by simp [hy])
      rcases hcalm x (by simp) with hwhole | hmiddle
      · refine .inr (.inl ⟨hwhole, before, first, init, rfl, hfirst, hinit, ?_⟩)
        simp [middles, hwhole]
      · refine .inr (.inr ⟨hmiddle, _, ⟨before, first, init, rfl, hfirst, hinit, rfl⟩, ?_⟩)
        simp [middles, hmiddle]
  · rintro (⟨hfirst, rfl⟩ | ⟨hwhole, before, first, mid, rfl, hfirst, hcalm, rfl⟩ |
      ⟨hmiddle, open_, ⟨before, first, mid, rfl, hfirst, hcalm, rfl⟩, rfl⟩)
    · exact ⟨xs, x, [], rfl, hfirst, by simp [Calm], rfl⟩
    · refine ⟨before, first, mid ++ [x], by simp, hfirst, fun y hy => ?_, by simp [middles, hwhole]⟩
      rcases List.mem_append.mp hy with hold | hnew
      · exact hcalm y hold
      · exact .inl (by rw [List.mem_singleton.mp hnew, hwhole])
    · refine ⟨before, first, mid ++ [x], by simp, hfirst, fun y hy => ?_, by simp [middles, hmiddle]⟩
      rcases List.mem_append.mp hy with hold | hnew
      · exact hcalm y hold
      · exact .inr (by rw [List.mem_singleton.mp hnew, hmiddle])

theorem opened_iff {xs : List α} {group : List α} :
    (gather role xs).opened = some group ↔ OpenedAt role xs group := by
  induction xs using List.reverseRecOn generalizing group with
  | nil => simp [gather, OpenedAt]
  | append_singleton xs x ih =>
    rw [gather_concat, openedAt_concat, State.take]
    cases hrole : role x with
    | whole => simp [ih]
    | first => simp [eq_comm]
    | middle => simp [Option.map_eq_some_iff, ih, eq_comm (a := group)]
    | last => cases hopen : (gather role xs).opened <;> simp [hopen]
    | loss => simp

theorem joined_concat {xs : List α} {x : α} {group : List α} :
    Joined role (xs ++ [x]) group ↔
      Joined role xs group ∨ (role x = .last ∧ ∃ open_, OpenedAt role xs open_ ∧ group = open_ ++ [x]) := by
  constructor
  · rintro ⟨before, first, mid, last, after, heq, hfirst, hcalm, hlast, rfl⟩
    rcases List.eq_nil_or_concat after with rfl | ⟨init, final, rfl⟩
    · obtain ⟨rfl, hx⟩ := List.append_inj' heq rfl
      obtain rfl : x = last := by simpa using hx
      exact .inr ⟨hlast, _, ⟨before, first, mid, rfl, hfirst, hcalm, rfl⟩, rfl⟩
    · rw [List.concat_eq_append, ← List.cons_append, ← List.append_assoc] at heq
      obtain ⟨rfl, -⟩ := List.append_inj' heq rfl
      exact .inl ⟨before, first, mid, last, init, rfl, hfirst, hcalm, hlast, rfl⟩
  · rintro (⟨before, first, mid, last, after, rfl, hfirst, hcalm, hlast, rfl⟩ |
      ⟨hlast, open_, ⟨before, first, mid, rfl, hfirst, hcalm, rfl⟩, rfl⟩)
    · exact ⟨before, first, mid, last, after ++ [x], by simp, hfirst, hcalm, hlast, rfl⟩
    · exact ⟨before, first, mid, x, [], rfl, hfirst, hcalm, hlast, rfl⟩

/-- Every group is a whole, or was joined from a first piece to a last one. -/
theorem mem_groups_iff {xs : List α} {group : List α} :
    group ∈ (gather role xs).groups ↔
      (∃ x ∈ xs, role x = .whole ∧ group = [x]) ∨ Joined role xs group := by
  induction xs using List.reverseRecOn with
  | nil => simp [gather, Joined]
  | append_singleton xs x ih =>
    have hwhole : (∃ y ∈ xs ++ [x], role y = .whole ∧ group = [y]) ↔
        (∃ y ∈ xs, role y = .whole ∧ group = [y]) ∨ (role x = .whole ∧ group = [x]) := by
      simp [or_and_right, exists_or]
    rw [gather_concat, joined_concat, hwhole, State.take]
    cases hrole : role x with
    | whole => simp [ih, or_right_comm]
    | first => simp [ih]
    | middle => simp [ih]
    | last =>
      cases hopen : (gather role xs).opened with
      | none =>
        have hnone : ∀ open_, ¬ OpenedAt role xs open_ := fun open_ h => by
          rw [← opened_iff, hopen] at h
          exact Option.some_ne_none _ h.symm
        simp [ih, hnone]
      | some open_ =>
        have hsome : ∀ other, OpenedAt role xs other ↔ other = open_ := fun other => by
          rw [← opened_iff, hopen, Option.some_inj, eq_comm]
        simp only [List.mem_append, ih, List.mem_singleton, hsome]
        simp [or_assoc]
    | loss => simp [ih]

/-- What is put together of neighbours, none of which comes twice, is a stretch. -/
theorem infix_of_neighbours {xs ys : List α} (hxs : xs.Nodup) (hsub : ∀ y ∈ ys, y ∈ xs)
    (hchain : ys.IsChain fun a b => [a, b] <:+: xs) : ys <:+: xs := by
  induction hchain with
  | nil => exact List.nil_infix
  | singleton a =>
    obtain ⟨init, rest, rfl⟩ := List.append_of_mem (hsub a List.mem_cons_self)
    exact ⟨init, rest, by simp⟩
  | @cons_cons a b ys hab hchain ih =>
    obtain ⟨init, rest, heq⟩ := ih fun y hy => hsub y (List.mem_cons_of_mem _ hy)
    obtain ⟨init', rest', heq'⟩ := hab
    have hsame : init ++ b :: (ys ++ rest) = (init' ++ [a]) ++ b :: rest' := by
      rw [← List.cons_append, ← List.append_assoc, heq, ← heq']
      simp
    -- the second of the two stands at one place only
    have hinit : b ∉ init ∧ b ∉ ys ++ rest := by
      rw [← heq, List.append_assoc, List.cons_append, List.nodup_append] at hxs
      exact ⟨fun hin => hxs.2.2 b hin b List.mem_cons_self rfl, (List.nodup_cons.mp hxs.2.1).1⟩
    obtain ⟨rfl, -⟩ := (List.append_cons_inj_of_notMem hinit.1 hinit.2).mp hsame
    exact ⟨init', rest, by rw [← heq]; simp⟩

section Order

variable {before : α → α → Prop} [IsTrans α before] [Std.Irrefl before]

/-- A part of a sorted list that leaves nothing out below its members stands at the list's start. -/
theorem start_of_below {xs ys : List α} (hxs : xs.Pairwise before) (hys : ys.Pairwise before)
    (hsub : ∀ y ∈ ys, y ∈ xs) (hbelow : ∀ y ∈ ys, ∀ x ∈ xs, before x y → x ∈ ys) : ys <+: xs := by
  induction xs generalizing ys with
  | nil =>
    rw [List.eq_nil_iff_forall_not_mem.mpr fun y hy => absurd (hsub y hy) List.not_mem_nil]
  | cons x xs ih =>
    cases ys with
    | nil => exact List.nil_prefix
    | cons y ys =>
      rw [List.pairwise_cons] at hxs hys
      obtain rfl : y = x := by
        rcases List.mem_cons.mp (hsub y List.mem_cons_self) with heq | hlater
        · exact heq
        · have hxy := hxs.1 y hlater
          rcases List.mem_cons.mp (hbelow y List.mem_cons_self x List.mem_cons_self hxy) with heq | hin
          · exact heq.symm
          · exact absurd (trans_of before hxy (hys.1 x hin)) (irrefl_of before x)
      rw [List.cons_prefix_cons]
      refine ⟨rfl, ih hxs.2 hys.2 (fun z hz => ?_) fun z hz x hx hxz => ?_⟩
      · rcases List.mem_cons.mp (hsub z (List.mem_cons_of_mem _ hz)) with heq | hin
        · subst heq
          exact absurd (hys.1 z hz) (irrefl_of before z)
        · exact hin
      · rcases List.mem_cons.mp (hbelow z (List.mem_cons_of_mem _ hz) x (List.mem_cons_of_mem _ hx) hxz)
          with heq | hin
        · subst heq
          exact absurd (hxs.1 x hx) (irrefl_of before x)
        · exact hin

/-- A part of a sorted list that leaves nothing out between its members is a stretch of it. -/
theorem infix_of_between {xs ys : List α} (hxs : xs.Pairwise before) (hys : ys.Pairwise before)
    (hsub : ∀ y ∈ ys, y ∈ xs)
    (hbetween : ∀ a ∈ ys, ∀ b ∈ ys, ∀ x ∈ xs, before a x → before x b → x ∈ ys) : ys <:+: xs := by
  induction xs with
  | nil =>
    rw [List.eq_nil_iff_forall_not_mem.mpr fun y hy => absurd (hsub y hy) List.not_mem_nil]
  | cons x xs ih =>
    by_cases hx : x ∈ ys
    · refine (start_of_below hxs hys hsub fun y hy z hz hzy => ?_).isInfix
      rcases List.mem_cons.mp hz with rfl | hlater
      · exact hx
      · exact hbetween x hx y hy z hz ((List.pairwise_cons.mp hxs).1 z hlater) hzy
    · have hlater : ∀ y ∈ ys, y ∈ xs := by
        intro y hy
        rcases List.mem_cons.mp (hsub y hy) with rfl | hin
        · exact absurd hy hx
        · exact hin
      exact (ih (List.pairwise_cons.mp hxs).2 hlater fun a ha b hb z hz =>
        hbetween a ha b hb z (List.mem_cons_of_mem _ hz)).trans (List.suffix_cons x xs).isInfix

/-- A stretch of a sorted list leaves nothing out between its members. -/
theorem mem_of_between {xs ys : List α} (hxs : xs.Pairwise before) (h : ys <:+: xs) {a b x : α} (ha : a ∈ ys)
    (hb : b ∈ ys) (hx : x ∈ xs) (hax : before a x) (hxb : before x b) : x ∈ ys := by
  obtain ⟨init, rest, rfl⟩ := h
  rw [List.pairwise_append, List.pairwise_append] at hxs
  obtain ⟨⟨-, -, hinit⟩, -, hrest⟩ := hxs
  rcases List.mem_append.mp hx with hx | hx
  · rcases List.mem_append.mp hx with hx | hx
    · exact absurd (trans_of before hax (hinit x hx a ha)) (irrefl_of before a)
    · exact hx
  · exact absurd (trans_of before hxb (hrest b (List.mem_append_right _ hb) x hx)) (irrefl_of before x)

end Order

end Fragments

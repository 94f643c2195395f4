import Mathlib.Data.List.Forall2
import Mathlib.Data.List.Nodup
import Mathlib.Order.Lattice

/-!
Names in items become entries of a table that the items point at. Each name has its turn once: the first entry
that goes by it is taken, or one is made and put at the end, and every item of the name is pointed at it. An
entry that is out of use goes by no name.
-/
namespace Intern

variable {K E I ε : Type}

/-- What names entries go by, and how one is made for a name that has none. -/
structure Desk (K E ε : Type) where
  key : E → Option K
  make : K → List E → Except ε E
  key_make : ∀ {k table e}, make k table = .ok e → key e = some k

variable [DecidableEq K] (desk : Desk K E ε)

/-- The entry of a name, and the table it is in. -/
def Desk.entry (k : K) (table : List E) : Except ε (List E × E) :=
  match table.find? fun e => desk.key e = some k with
  | some e => .ok (table, e)
  | none => (desk.make k table).map fun e => (table ++ [e], e)

/-- How many entries go by a name. -/
def Desk.count (k : K) (table : List E) : ℕ := table.countP fun e => desk.key e = some k

/-- Every item of a name is pointed at an entry. -/
def pointAt (want : I → Option K) (set : E → I → I) (k : K) (e : E) (items : List I) : List I :=
  items.map fun i => if want i = some k then set e i else i

/-- Each name in its turn. -/
def Desk.assign (want : I → Option K) (set : E → I → I) : List K → List E → List I → Except ε (List E × List I)
  | [], table, items => .ok (table, items)
  | k :: ks, table, items => do
    let (table, e) ← desk.entry k table
    assign want set ks table (pointAt want set k e items)

variable {desk} {k : K} {ks : List K} {table table' : List E} {e : E}

/-- The entry goes by the name. It was in the table, or it is new and nothing went by the name before. -/
theorem entry_spec (h : desk.entry k table = .ok (table', e)) :
    desk.key e = some k ∧ e ∈ table' ∧
      (table' = table ∨ (table' = table ++ [e] ∧ desk.make k table = .ok e ∧ desk.count k table = 0)) := by
  unfold Desk.entry at h
  split at h
  next found hfound =>
    cases h
    have hkey := List.find?_some hfound
    exact ⟨of_decide_eq_true hkey, List.mem_of_find?_eq_some hfound, .inl rfl⟩
  next hnone =>
    cases hmake : desk.make k table with
    | error _ =>
      rw [hmake] at h
      cases h
    | ok new =>
      rw [hmake] at h
      cases h
      refine ⟨desk.key_make hmake, List.mem_append_right _ List.mem_cons_self, .inr ⟨rfl, rfl, ?_⟩⟩
      rw [Desk.count, List.countP_eq_zero]
      exact List.find?_eq_none.mp hnone

theorem count_concat (k : K) (table : List E) (e : E) :
    desk.count k (table ++ [e]) = desk.count k table + if desk.key e = some k then 1 else 0 := by
  rw [Desk.count, List.countP_append, List.countP_singleton, Desk.count]
  simp only [decide_eq_true_eq]

/-- The name has an entry now, and no name that had one has got another. -/
theorem count_entry (h : desk.entry k table = .ok (table', e)) (other : K) :
    desk.count other table' = if other = k then max 1 (desk.count k table) else desk.count other table := by
  obtain ⟨hkey, hin, rfl | ⟨rfl, -, hzero⟩⟩ := entry_spec h
  · split_ifs with hother
    · subst hother
      have hpos : 0 < desk.count other table' := List.countP_pos_iff.mpr ⟨e, hin, decide_eq_true hkey⟩
      omega
    · rfl
  · rw [count_concat]
    by_cases hother : other = k
    · rw [if_pos hother, hother, if_pos hkey, hzero]
      rfl
    · have hne : desk.key e ≠ some other := by
        rw [hkey, Ne, Option.some_inj]
        exact fun heq => hother heq.symm
      rw [if_neg hother, if_neg hne]
      rfl

section assign

variable {want : I → Option K} {set : E → I → I} {items items' : List I}

theorem assign_cons (h : desk.assign want set (k :: ks) table items = .ok (table', items')) :
    ∃ between e, desk.entry k table = .ok (between, e) ∧
      desk.assign want set ks between (pointAt want set k e items) = .ok (table', items') := by
  rw [Desk.assign] at h
  cases hentry : desk.entry k table with
  | error _ =>
    rw [hentry] at h
    cases h
  | ok r =>
    rw [hentry] at h
    exact ⟨r.1, r.2, rfl, h⟩

/-- What was in the table stays in front, and what is new passed for a new entry. -/
theorem assign_table (h : desk.assign want set ks table items = .ok (table', items')) (Stays : List E → Prop)
    (hstart : Stays table)
    (hmade : ∀ {k table e}, Stays table → desk.make k table = .ok e → Stays (table ++ [e])) :
    table <+: table' ∧ Stays table' := by
  induction ks generalizing table items with
  | nil =>
    cases h
    exact ⟨List.prefix_rfl, hstart⟩
  | cons k ks ih =>
    obtain ⟨between, e, hentry, hrest⟩ := assign_cons h
    obtain ⟨-, -, rfl | ⟨rfl, hmake, -⟩⟩ := entry_spec hentry
    · exact ih hrest hstart
    · obtain ⟨hfront, hstays⟩ := ih hrest (hmade hstart hmake)
      exact ⟨(List.prefix_append _ _).trans hfront, hstays⟩

/-- Each name has an entry, and only those that had none have got one. -/
theorem count_assign (h : desk.assign want set ks table items = .ok (table', items')) (other : K) :
    (other ∈ ks → desk.count other table' = max 1 (desk.count other table)) ∧
      (other ∉ ks → desk.count other table' = desk.count other table) := by
  induction ks generalizing table items with
  | nil =>
    cases h
    exact ⟨fun hin => absurd hin List.not_mem_nil, fun _ => rfl⟩
  | cons k ks ih =>
    obtain ⟨between, e, hentry, hrest⟩ := assign_cons h
    obtain ⟨hin, hout⟩ := ih hrest
    rw [count_entry hentry] at hin hout
    by_cases hother : other = k
    · rw [if_pos hother, hother] at hin hout
      rw [hother]
      refine ⟨fun _ => ?_, fun hnot => absurd List.mem_cons_self hnot⟩
      by_cases hlater : k ∈ ks
      · rw [hin hlater, Nat.max_eq_right (Nat.le_max_left _ _)]
      · exact hout hlater
    · rw [if_neg hother] at hin hout
      rw [List.mem_cons, or_iff_right hother]
      exact ⟨hin, hout⟩

/-- Each item points at an entry of its name, the rest of it as it was. -/
theorem assign_items (h : desk.assign want set ks table items = .ok (table', items')) (hnodup : ks.Nodup)
    (hwant : ∀ e i, want (set e i) = want i) :
    List.Forall₂ (fun i i' => (∀ k ∈ ks, want i = some k → ∃ e ∈ table', desk.key e = some k ∧ i' = set e i) ∧
      ((∀ k ∈ ks, want i ≠ some k) → i' = i)) items items' := by
  induction ks generalizing table items with
  | nil =>
    cases h
    simp
  | cons k ks ih =>
    obtain ⟨between, e, hentry, hrest⟩ := assign_cons h
    obtain ⟨hnot, hnodup⟩ := List.nodup_cons.mp hnodup
    obtain ⟨hkey, hin, -⟩ := entry_spec hentry
    have hfront : between <+: table' := (assign_table hrest (fun _ => True) trivial fun _ _ => trivial).1
    refine ((List.forall₂_map_left_iff).mp (ih hrest hnodup)).imp fun i i' => ?_
    by_cases hi : want i = some k
    · rw [if_pos hi]
      intro ⟨_, hleft⟩
      have hset : i' = set e i := by
        refine hleft fun k' hk' heq => ?_
        rw [hwant, hi, Option.some_inj] at heq
        exact hnot (heq ▸ hk')
      refine ⟨fun k' _ hk' => ⟨e, hfront.subset hin, ?_, hset⟩, fun hnone => ?_⟩
      · rw [hkey, ← hi, hk']
      · exact absurd hi (hnone k List.mem_cons_self)
    · rw [if_neg hi]
      intro ⟨hpointed, hleft⟩
      refine ⟨fun k' hk' heq => ?_, fun hnone => hleft fun k' hk' => hnone k' (List.mem_cons_of_mem _ hk')⟩
      rcases List.mem_cons.mp hk' with rfl | hk'
      · exact absurd heq hi
      · exact hpointed k' hk' heq

/-- The names all have their turn if no entry that has to be made is refused. -/
theorem assign_ok {Ready : List K → List E → Prop} (hready : Ready ks table)
    (hfound : ∀ {k ks table}, Ready (k :: ks) table → 0 < desk.count k table → Ready ks table)
    (hmade : ∀ {k ks table}, Ready (k :: ks) table → desk.count k table = 0 →
      ∃ e, desk.make k table = .ok e ∧ Ready ks (table ++ [e])) :
    ∃ r, desk.assign want set ks table items = .ok r := by
  induction ks generalizing table items with
  | nil => exact ⟨_, rfl⟩
  | cons k ks ih =>
    rw [Desk.assign, Desk.entry]
    cases hfind : table.find? fun e => desk.key e = some k with
    | some e =>
      have hkey := List.find?_some hfind
      have hpos : 0 < desk.count k table := List.countP_pos_iff.mpr ⟨e, List.mem_of_find?_eq_some hfind, hkey⟩
      exact ih (hfound hready hpos)
    | none =>
      have hzero : desk.count k table = 0 := List.countP_eq_zero.mpr (List.find?_eq_none.mp hfind)
      obtain ⟨e, hmake, hrest⟩ := hmade hready hzero
      simp only [hmake]
      exact ih hrest

/-- Where every name has an entry none is made. -/
theorem assign_ok_of_found (h : ∀ k ∈ ks, 0 < desk.count k table) :
    ∃ r, desk.assign want set ks table items = .ok r := by
  let Found (ks : List K) (table : List E) : Prop := ∀ k ∈ ks, 0 < desk.count k table
  have hfound : Found ks table := h
  refine assign_ok hfound (fun hready _ k hk => hready k (List.mem_cons_of_mem _ hk)) fun hready hzero => ?_
  have hpos := hready _ List.mem_cons_self
  omega

end assign

end Intern

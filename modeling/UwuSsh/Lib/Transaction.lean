import Mathlib.Data.List.Basic

/-!
Transactions. One is a list of statements that run in order on a state. Any of them
may fail, by itself or because the machine under it does, and then nothing of the
transaction stays. If it goes through, its result is that of the statements alone.
-/
namespace Transaction

variable {σ ε : Type*}

abbrev Statement (σ ε : Type*) := σ → Except ε σ

/-- What statements make of a state when nothing goes wrong under them. -/
def play : List (Statement σ ε) → σ → Except ε σ
  | [], s => .ok s
  | stmt :: rest, s => (stmt s).bind (play rest)

/-- The same, with what goes wrong under the statement of a number. -/
def run (fault : ℕ → Option ε) : ℕ → List (Statement σ ε) → σ → Except ε σ
  | _, [], s => .ok s
  | n, stmt :: rest, s =>
      match fault n with
      | some e => .error e
      | none => (stmt s).bind (run fault (n + 1) rest)

/-- A whole transaction; the commit is its last statement. -/
def commit (fault : ℕ → Option ε) (stmts : List (Statement σ ε)) (s : σ) : σ × Except ε Unit :=
  match run fault 0 (stmts ++ [.ok]) s with
  | .ok t => (t, .ok ())
  | .error e => (s, .error e)

section play

variable {stmt : Statement σ ε} {rest : List (Statement σ ε)} {s t : σ}

theorem play_cons : play (stmt :: rest) s = .ok t ↔ ∃ u, stmt s = .ok u ∧ play rest u = .ok t := by
  cases h : stmt s with
  | error e => simp [play, h, Except.bind]
  | ok u => simp [play, h, Except.bind]

theorem play_append {before after : List (Statement σ ε)} :
    play (before ++ after) s = .ok t ↔ ∃ u, play before s = .ok u ∧ play after u = .ok t := by
  induction before generalizing s with
  | nil => simp [play]
  | cons stmt rest ih =>
    rw [List.cons_append, play_cons]
    constructor
    · rintro ⟨u, hstmt, hrest⟩
      obtain ⟨v, hv, hafter⟩ := ih.mp hrest
      exact ⟨v, play_cons.mpr ⟨u, hstmt, hv⟩, hafter⟩
    · rintro ⟨v, hbefore, hafter⟩
      obtain ⟨u, hstmt, hv⟩ := play_cons.mp hbefore
      exact ⟨u, hstmt, ih.mpr ⟨v, hv, hafter⟩⟩

/-- What every statement relates the states around it by relates those around all of them. -/
theorem play_preserves {related : σ → σ → Prop} (hrefl : ∀ s, related s s)
    (htrans : ∀ s t u, related s t → related t u → related s u) {stmts : List (Statement σ ε)}
    (hstep : ∀ stmt ∈ stmts, ∀ s t, stmt s = .ok t → related s t) (h : play stmts s = .ok t) :
    related s t := by
  induction stmts generalizing s with
  | nil =>
    cases h
    exact hrefl _
  | cons stmt rest ih =>
    obtain ⟨u, hu, hrest⟩ := play_cons.mp h
    exact htrans s u t (hstep stmt List.mem_cons_self s u hu)
      (ih (fun stmt' hmem => hstep stmt' (List.mem_cons_of_mem _ hmem)) hrest)

/-- What is done for one item of many, with what is done for those before it and after it. -/
theorem play_split {α : Type*} {stmt : α → Statement σ ε} {items : List α} {a : α}
    (h : play (items.map stmt) s = .ok t) (ha : a ∈ items) : ∃ before after u v,
      items = before ++ a :: after ∧ play (before.map stmt) s = .ok u ∧ stmt a u = .ok v ∧
        play (after.map stmt) v = .ok t := by
  obtain ⟨before, after, rfl⟩ := List.append_of_mem ha
  rw [List.map_append, List.map_cons] at h
  obtain ⟨u, hbefore, hrest⟩ := play_append.mp h
  obtain ⟨v, hstmt, hafter⟩ := play_cons.mp hrest
  exact ⟨before, after, u, v, rfl, hbefore, hstmt, hafter⟩

/-- Statements that cannot fail by themselves do what their effects do in order. -/
theorem play_pure {α : Type*} (effect : α → σ → σ) {items : List α}
    (h : play (items.map fun a s => .ok (effect a s) : List (Statement σ ε)) s = .ok t) :
    t = items.foldl (fun s a => effect a s) s := by
  induction items generalizing s with
  | nil =>
    cases h
    rfl
  | cons a rest ih =>
    obtain ⟨u, hu, hrest⟩ := play_cons.mp h
    cases hu
    exact ih hrest

end play

variable {fault : ℕ → Option ε} {stmts : List (Statement σ ε)} {s t : σ}

theorem play_of_run {n : ℕ} (h : run fault n stmts s = .ok t) : play stmts s = .ok t := by
  induction stmts generalizing n s with
  | nil => exact h
  | cons stmt rest ih =>
    unfold run at h
    split at h
    · cases h
    · cases hstmt : stmt s with
      | error e => simp [hstmt, Except.bind] at h
      | ok u =>
        rw [hstmt] at h
        exact play_cons.mpr ⟨u, hstmt, ih h⟩

/-- Statements run to their end if nothing goes wrong under any of them. -/
theorem run_eq_play {n : ℕ} (h : ∀ i < stmts.length, fault (n + i) = none) :
    run fault n stmts s = play stmts s := by
  induction stmts generalizing n s with
  | nil => rfl
  | cons stmt rest ih =>
    have hzero : fault n = none := h 0 (by simp)
    have hrest : ∀ u, run fault (n + 1) rest u = play rest u := by
      intro u
      refine ih fun i hi => ?_
      have hnext := h (i + 1) (by simpa using hi)
      rwa [show n + (i + 1) = n + 1 + i by omega] at hnext
    rw [run, hzero]
    cases hstmt : stmt s with
    | error e => simp [play, hstmt, Except.bind]
    | ok u => simp [play, hstmt, Except.bind, hrest u]

theorem fault_of_run {n : ℕ} (h : run fault n stmts s = .ok t) :
    ∀ i < stmts.length, fault (n + i) = none := by
  induction stmts generalizing n s with
  | nil => simp
  | cons stmt rest ih =>
    unfold run at h
    split at h
    · cases h
    next hzero =>
    cases hstmt : stmt s with
    | error e => simp [hstmt, Except.bind] at h
    | ok u =>
      rw [hstmt] at h
      intro i hi
      cases i with
      | zero => exact hzero
      | succ i =>
        have hnext := ih h i (by simpa using hi)
        rwa [show n + (i + 1) = n + 1 + i by omega]

/-- A transaction goes through if and only if its statements do and nothing goes wrong
under them or under the commit. -/
theorem commit_ok_iff : commit fault stmts s = (t, .ok ()) ↔
    (∀ i ≤ stmts.length, fault i = none) ∧ play stmts s = .ok t := by
  have hlength : (stmts ++ [(.ok : Statement σ ε)]).length = stmts.length + 1 := by simp
  have hplay : ∀ t, play (stmts ++ [(.ok : Statement σ ε)]) s = .ok t ↔ play stmts s = .ok t := by
    intro t
    rw [play_append]
    constructor
    · rintro ⟨u, hu, hlast⟩
      cases hlast
      exact hu
    · exact fun h => ⟨t, h, rfl⟩
  unfold commit
  constructor
  · intro h
    split at h
    · next u hrun =>
      cases h
      refine ⟨fun i hi => ?_, (hplay t).mp (play_of_run hrun)⟩
      have hfault := fault_of_run hrun i (by omega)
      rwa [Nat.zero_add] at hfault
    · cases h
  · rintro ⟨hfault, h⟩
    have hrun : run fault 0 (stmts ++ [(.ok : Statement σ ε)]) s = .ok t := by
      rw [run_eq_play fun i hi => by rw [Nat.zero_add]; exact hfault i (by omega)]
      exact (hplay t).mpr h
    rw [hrun]

/-- A transaction that went through did what its statements do. -/
theorem play_of_commit (h : commit fault stmts s = (t, .ok ())) : play stmts s = .ok t :=
  (commit_ok_iff.mp h).2

/-- A transaction that failed did nothing. -/
theorem commit_error {e : ε} (h : (commit fault stmts s).2 = .error e) :
    (commit fault stmts s).1 = s := by
  unfold commit at h ⊢
  split
  · next u hrun =>
    rw [hrun] at h
    cases h
  · rfl

end Transaction

import UwuSsh.Store.ApplyFacts

/-!
Which superseded version is kept. The database compares the clocks with signed walls, so of all versions that an
id was given up at, the one kept is the newest in the signed order, and that is the newest one exactly when all of
their walls lie on one side of 2^63.
-/
namespace UwuSsh

namespace Hlc

theorem sqlAfter_iff {a b : Hlc} : a.sqlAfter b = true ↔ b.signedWall < a.signedWall ∨
    (a.signedWall = b.signedWall ∧ (b.counter.toNat < a.counter.toNat ∨
      (a.counter.toNat = b.counter.toNat ∧ b.device.toNat < a.device.toNat))) := by
  simp only [sqlAfter, Bool.or_eq_true, Bool.and_eq_true, decide_eq_true_eq, beq_iff_eq, UInt32.lt_iff_toNat_lt,
    UInt32.toNat_inj]

theorem not_sqlAfter_trans {a b c : Hlc} (hab : ¬ a.sqlAfter b = true) (hbc : ¬ b.sqlAfter c = true) :
    ¬ a.sqlAfter c = true := by
  rw [sqlAfter_iff] at *
  omega

theorem not_sqlAfter_self {a : Hlc} : ¬ a.sqlAfter a = true := by
  rw [sqlAfter_iff]
  omega

theorem not_sqlAfter_of_sqlAfter {a b : Hlc} (h : a.sqlAfter b = true) : ¬ b.sqlAfter a = true := by
  rw [sqlAfter_iff] at *
  omega

/-- With their walls on one side the database's order is that of the clocks. -/
theorem sqlAfter_iff_lt {a b : Hlc} (h : a.wallMs.toNat < 2 ^ 63 ↔ b.wallMs.toNat < 2 ^ 63) :
    a.sqlAfter b = true ↔ b < a := by
  rw [sqlAfter_iff, lt_iff, signedWall, signedWall]
  split <;> split <;> omega

/-- With their walls on two sides it is the other way round. -/
theorem sqlAfter_of_sides {a b : Hlc} (ha : a.wallMs.toNat < 2 ^ 63) (hb : 2 ^ 63 ≤ b.wallMs.toNat) :
    a.sqlAfter b = true ∧ a < b := by
  have hwall := b.wallMs.toNat_lt
  rw [sqlAfter_iff, lt_iff, signedWall, signedWall, if_pos ha, if_neg (by omega)]
  omega

end Hlc

namespace Store

/-- The superseded version that is kept of an id. -/
def supersededAt (s : Store) (id : Uuid) : Option Hlc := (s.superseded.lookup id).map Prod.snd

/-- A run of versions given up, of any ids. -/
def supersedeAll (s : Store) (calls : List (EntityKind × Uuid × Hlc)) : Store :=
  calls.foldl (fun s call => s.supersede call.1 call.2.1 call.2.2) s

/-- The versions an id was given up at: the one from before, and those of the run. -/
def versionsOf (s : Store) (calls : List (EntityKind × Uuid × Hlc)) (id : Uuid) : List Hlc :=
  (s.supersededAt id).toList ++ (calls.filter fun call => call.2.1 = id).map fun call => call.2.2

/-- What is kept is one of the versions, and the database orders none behind it. -/
def Keeps (kept : Option Hlc) (versions : List Hlc) : Prop :=
  match kept with
  | none => versions = []
  | some clock => clock ∈ versions ∧ ∀ c ∈ versions, ¬ c.sqlAfter clock = true

theorem supersededAt_supersede {s : Store} {kind : EntityKind} {id : Uuid} {clock : Hlc} {versions : List Hlc}
    (h : Keeps (s.supersededAt id) versions) :
    Keeps ((s.supersede kind id clock).supersededAt id) (versions ++ [clock]) := by
  unfold supersede
  cases hold : s.superseded.lookup id with
  | none =>
    rw [supersededAt, hold] at h
    obtain rfl : versions = [] := h
    simp [supersededAt, Keeps, Hlc.not_sqlAfter_self]
  | some kept =>
    obtain ⟨oldKind, old⟩ := kept
    rw [supersededAt, hold] at h
    obtain ⟨hmem, hlast⟩ : old ∈ versions ∧ ∀ c ∈ versions, ¬ c.sqlAfter old = true := h
    dsimp only
    split
    · next hafter =>
      have hkept : ({ s with superseded := s.superseded.insert id (oldKind, clock) } : Store).supersededAt id =
          some clock := by
        rw [supersededAt, AList.lookup_insert]
        rfl
      rw [hkept]
      refine ⟨List.mem_append_right _ (List.mem_singleton_self _), fun c hc => ?_⟩
      rcases List.mem_append.mp hc with hc | hc
      · exact Hlc.not_sqlAfter_trans (hlast c hc) (Hlc.not_sqlAfter_of_sqlAfter hafter)
      · rw [List.mem_singleton.mp hc]
        exact Hlc.not_sqlAfter_self
    · next hafter =>
      rw [supersededAt, hold]
      refine ⟨List.mem_append_left _ hmem, fun c hc => ?_⟩
      rcases List.mem_append.mp hc with hc | hc
      · exact hlast c hc
      · rw [List.mem_singleton.mp hc]
        exact hafter

theorem supersededAt_supersedeAll (s : Store) (calls : List (EntityKind × Uuid × Hlc)) (id : Uuid) :
    Keeps ((s.supersedeAll calls).supersededAt id) (s.versionsOf calls id) := by
  induction calls using List.reverseRecOn with
  | nil =>
    rw [versionsOf, List.filter_nil, List.map_nil, List.append_nil]
    change Keeps (s.supersededAt id) (s.supersededAt id).toList
    cases s.supersededAt id with
    | none => rfl
    | some clock => simp [Keeps, Hlc.not_sqlAfter_self]
  | append_singleton calls call ih =>
    obtain ⟨kind, id', clock⟩ := call
    have hrun : s.supersedeAll (calls ++ [(kind, id', clock)]) = (s.supersedeAll calls).supersede kind id' clock := by
      rw [supersedeAll, List.foldl_append]
      rfl
    rw [hrun, versionsOf, List.filter_append, List.map_append, ← List.append_assoc]
    by_cases hid : id' = id
    · subst hid
      have hstep := @supersededAt_supersede _ kind _ clock _ ih
      simpa [versionsOf] using hstep
    · have hsame : ((s.supersedeAll calls).supersede kind id' clock).supersededAt id =
          (s.supersedeAll calls).supersededAt id := by
        rw [supersededAt, lookup_supersede_of_ne _ _ _ _ (Ne.symm hid)]
        rfl
      rw [hsame]
      simpa [hid, versionsOf] using ih

/-- The newest version is kept exactly when the walls are all on one side of 2^63. -/
theorem newest_superseded_iff (s : Store) (calls : List (EntityKind × Uuid × Hlc)) (id : Uuid) :
    (s.supersedeAll calls).supersededAt id = (s.versionsOf calls id).max? ↔
      (∀ c ∈ s.versionsOf calls id, c.wallMs.toNat < 2 ^ 63) ∨
        ∀ c ∈ s.versionsOf calls id, 2 ^ 63 ≤ c.wallMs.toNat := by
  have hkeeps := supersededAt_supersedeAll s calls id
  cases hkept : (s.supersedeAll calls).supersededAt id with
  | none =>
    rw [hkept] at hkeeps
    have hnone : s.versionsOf calls id = [] := hkeeps
    simp [hnone]
  | some clock =>
    rw [hkept] at hkeeps
    obtain ⟨hmem, hlast⟩ : clock ∈ s.versionsOf calls id ∧
      ∀ c ∈ s.versionsOf calls id, ¬ c.sqlAfter clock = true := hkeeps
    rw [eq_comm, List.max?_eq_some_iff]
    constructor
    · rintro ⟨-, hmax⟩
      by_cases hclock : clock.wallMs.toNat < 2 ^ 63
      · refine .inl fun c hc => ?_
        have hle := hmax c hc
        by_contra hwall
        exact absurd (Hlc.sqlAfter_of_sides hclock (by omega)).2 (not_lt.mpr hle)
      · refine .inr fun c hc => ?_
        by_contra hwall
        exact hlast c hc (Hlc.sqlAfter_of_sides (by omega) (by omega)).1
    · intro hside
      refine ⟨hmem, fun c hc => not_lt.mp fun hlt => hlast c hc ((Hlc.sqlAfter_iff_lt ?_).mpr hlt)⟩
      obtain hlow | hhigh := hside
      · exact iff_of_true (hlow c hc) (hlow clock hmem)
      · exact iff_of_false (not_lt.mpr (hhigh c hc)) (not_lt.mpr (hhigh clock hmem))

/-- A wall of 2^63 is put behind a wall of 1. -/
theorem newest_not_always_kept : ¬ ∀ (s : Store) (calls : List (EntityKind × Uuid × Hlc)) (id : Uuid),
    (s.supersedeAll calls).supersededAt id = (s.versionsOf calls id).max? := by
  intro h
  have hkept := h (Store.empty 1 0 none) [(.knownHost, 7, { wallMs := 2 ^ 63, counter := 0, device := 1 }),
    (.knownHost, 7, { wallMs := 1, counter := 0, device := 1 })] 7
  exact absurd hkept (by decide +kernel)

end Store

end UwuSsh

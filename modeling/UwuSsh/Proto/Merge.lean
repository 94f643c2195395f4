import UwuSsh.Proto.Clock
import Mathlib.Order.Bounds.Basic
import Mathlib.Order.BoundedOrder.Basic
import Mathlib.Order.Lattice
import Mathlib.Order.MinMax

/-!
Which of two versions of one record wins. A delete beats a concurrent edit, and
otherwise the later clock wins, so `resolve` compares in one linear order: first
the tombstone flag, then the clock. `Version` carries that order, and the three
answers of `resolve` are its trichotomy. The least version is a live record
with the zero clock, which is what a placeholder row holds.
-/
namespace UwuSsh

inductive Resolution
  | keepLocal
  | takeRemote
  | identical
deriving DecidableEq, Repr

/-- One side of the comparison. -/
structure Version where
  updatedAt : Hlc
  deleted : Bool
deriving DecidableEq, Repr

def resolve (ours theirs : Version) : Resolution :=
  if ours = theirs then .identical
  else
    match ours.deleted, theirs.deleted with
    | true, false => .keepLocal
    | false, true => .takeRemote
    | _, _ => if theirs.updatedAt < ours.updatedAt then .keepLocal else .takeRemote

def Hlc.zero : Hlc := { wallMs := 0, counter := 0, device := 0 }

theorem Hlc.zero_le (c : Hlc) : Hlc.zero ≤ c := by
  by_contra h
  rw [not_le, Hlc.lt_iff] at h
  simp [Hlc.zero] at h

namespace Version

def key (v : Version) : Bool ×ₗ Hlc := toLex (v.deleted, v.updatedAt)

theorem key_injective : Function.Injective key := by
  rintro ⟨c, d⟩ ⟨c', d'⟩ h
  simp only [key, EmbeddingLike.apply_eq_iff_eq, Prod.mk.injEq] at h
  obtain ⟨rfl, rfl⟩ := h
  rfl

instance : LinearOrder Version := LinearOrder.lift' key key_injective

theorem lt_iff {v w : Version} :
    v < w ↔ v.deleted < w.deleted ∨ (v.deleted = w.deleted ∧ v.updatedAt < w.updatedAt) := by
  change key v < key w ↔ _
  simp [key, Prod.Lex.toLex_lt_toLex]

/-- The live version with the zero clock: what a placeholder row carries. -/
def blank : Version := { updatedAt := Hlc.zero, deleted := false }

theorem blank_le (v : Version) : blank ≤ v := by
  by_contra h
  rw [not_le, lt_iff] at h
  rcases h with h | ⟨-, h⟩
  · exact absurd h (by simp [blank])
  · exact absurd h (not_lt.mpr (Hlc.zero_le _))

instance : OrderBot Version where
  bot := blank
  bot_le := blank_le

theorem bot_eq_blank : (⊥ : Version) = blank := rfl

/-- A later edit of a record whose tombstone flag does not fall is a greater version. -/
theorem lt_of_clock_lt {v w : Version} (hc : v.updatedAt < w.updatedAt)
    (hd : v.deleted = true → w.deleted = true) : v < w := by
  rw [lt_iff]
  cases hv : v.deleted with
  | false =>
    cases hw : w.deleted with
    | false => exact Or.inr ⟨rfl, hc⟩
    | true => exact Or.inl (by decide)
  | true => exact Or.inr ⟨(hd hv).symm, hc⟩

end Version

@[simp] theorem resolve_self (v : Version) : resolve v v = .identical := if_pos rfl

theorem resolve_of_lt {ours theirs : Version} (h : ours < theirs) :
    resolve ours theirs = .takeRemote := by
  obtain ⟨c, d⟩ := ours
  obtain ⟨c', d'⟩ := theirs
  have hlt := Version.lt_iff.mp h
  unfold resolve
  rw [if_neg h.ne]
  cases d <;> cases d'
  · exact if_neg (not_lt.mpr (by simpa using hlt : c < c').le)
  · rfl
  · exact absurd (by simpa using hlt : true < false) (by decide)
  · exact if_neg (not_lt.mpr (by simpa using hlt : c < c').le)

theorem resolve_of_gt {ours theirs : Version} (h : theirs < ours) :
    resolve ours theirs = .keepLocal := by
  obtain ⟨c, d⟩ := ours
  obtain ⟨c', d'⟩ := theirs
  have hlt := Version.lt_iff.mp h
  unfold resolve
  rw [if_neg h.ne']
  cases d <;> cases d'
  · exact if_pos (by simpa using hlt)
  · exact absurd (by simpa using hlt : true < false) (by decide)
  · rfl
  · exact if_pos (by simpa using hlt)

theorem resolve_eq_identical_iff {ours theirs : Version} :
    resolve ours theirs = .identical ↔ ours = theirs := by
  rcases lt_trichotomy ours theirs with h | rfl | h
  · simp [resolve_of_lt h, h.ne]
  · simp
  · simp [resolve_of_gt h, h.ne']

theorem resolve_eq_keepLocal_iff {ours theirs : Version} :
    resolve ours theirs = .keepLocal ↔ theirs < ours := by
  rcases lt_trichotomy ours theirs with h | rfl | h
  · simp [resolve_of_lt h, h.le]
  · simp
  · simp [resolve_of_gt h, h]

theorem resolve_eq_takeRemote_iff {ours theirs : Version} :
    resolve ours theirs = .takeRemote ↔ ours < theirs := by
  rcases lt_trichotomy ours theirs with h | rfl | h
  · simp [resolve_of_lt h, h]
  · simp
  · simp [resolve_of_gt h, h.le]

/-- The version that is left after both sides have met. -/
def winner (ours theirs : Version) : Version :=
  match resolve ours theirs with
  | .keepLocal => ours
  | .takeRemote => theirs
  | .identical => ours

theorem winner_eq_max (ours theirs : Version) : winner ours theirs = max ours theirs := by
  unfold winner
  rcases lt_trichotomy ours theirs with h | rfl | h
  · rw [resolve_of_lt h, max_eq_right h.le]
  · rw [resolve_self, max_self]
  · rw [resolve_of_gt h, max_eq_left h.le]

/-- What is left after versions have met one after the other is the greatest of them. -/
theorem foldl_winner_isGreatest (v : Version) (vs : List Version) :
    IsGreatest {u | u ∈ v :: vs} (vs.foldl winner v) := by
  induction vs generalizing v with
  | nil =>
    constructor
    · exact List.mem_singleton_self v
    · intro u hu
      exact (List.mem_singleton.mp hu).le
  | cons w vs ih =>
    obtain ⟨hmem, hbound⟩ := ih (winner v w)
    have hmax := winner_eq_max v w
    constructor
    · rcases List.mem_cons.mp hmem with heq | hmem
      · rcases max_choice v w with h | h
        · exact List.mem_cons.mpr (Or.inl (heq.trans (hmax.trans h)))
        · exact List.mem_cons_of_mem _ (List.mem_cons.mpr (Or.inl (heq.trans (hmax.trans h))))
      · exact List.mem_cons_of_mem _ (List.mem_cons_of_mem _ hmem)
    · intro u hu
      have hfirst : max v w ≤ vs.foldl winner (winner v w) := hmax ▸ hbound List.mem_cons_self
      rcases List.mem_cons.mp hu with rfl | hu
      · exact (le_max_left _ _).trans hfirst
      · rcases List.mem_cons.mp hu with rfl | hu
        · exact (le_max_right _ _).trans hfirst
        · exact hbound (List.mem_cons_of_mem _ hu)

/-- `resolve` picks one winner whichever side it is asked from, and that choice is a join:
versions of one record leave the same one in whatever order and however often they meet,
and a tombstone beats an edit. -/
theorem resolve_join :
    (∀ v w, winner v w = winner w v) ∧
    (∀ v w, (resolve v w = .keepLocal ↔ resolve w v = .takeRemote) ∧
      (resolve v w = .identical ↔ v = w)) ∧
    (∀ u v w, winner (winner u v) w = winner u (winner v w)) ∧
    (∀ v, winner v v = v) ∧
    (∀ v vs w ws, (∀ u, u ∈ v :: vs ↔ u ∈ w :: ws) → vs.foldl winner v = ws.foldl winner w) ∧
    ∀ v w, v.deleted = true → w.deleted = false → winner v w = v ∧ winner w v = v := by
  refine ⟨?_, ?_, ?_, ?_, ?_, ?_⟩
  · intro v w
    rw [winner_eq_max, winner_eq_max, max_comm]
  · intro v w
    exact ⟨resolve_eq_keepLocal_iff.trans resolve_eq_takeRemote_iff.symm, resolve_eq_identical_iff⟩
  · intro u v w
    simp only [winner_eq_max, max_assoc]
  · intro v
    rw [winner_eq_max, max_self]
  · intro v vs w ws hsame
    have hset : {u | u ∈ v :: vs} = {u | u ∈ w :: ws} := Set.ext hsame
    exact (foldl_winner_isGreatest v vs).unique (hset ▸ foldl_winner_isGreatest w ws)
  · intro v w hv hw
    have hlt : w < v := Version.lt_iff.mpr (Or.inl (by rw [hv, hw]; decide))
    rw [winner_eq_max, winner_eq_max, max_eq_left hlt.le, max_eq_right hlt.le]
    exact ⟨rfl, rfl⟩

/-- A delete, a newer edit, and the delete once more. -/
theorem resolve_join_deleted :
    let gone : Version := { updatedAt := { wallMs := 100, counter := 0, device := 1 }, deleted := true }
    let edit : Version := { updatedAt := { wallMs := 900, counter := 0, device := 2 }, deleted := false }
    [gone, gone].foldl winner edit = [edit].foldl winner gone ∧ winner edit gone = gone := by
  intro gone edit
  obtain ⟨-, -, -, -, hfold, htomb⟩ := resolve_join
  exact ⟨hfold edit [gone, gone] gone [edit] (by simp [or_comm]), (htomb gone edit rfl rfl).2⟩

end UwuSsh

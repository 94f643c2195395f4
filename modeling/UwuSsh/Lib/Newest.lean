import Mathlib.Order.Lattice
import Mathlib.Logic.Function.Basic
import Mathlib.Data.List.Basic
import Mathlib.Data.List.Induction

/-!
For each key the write with the highest stamp. As long as two writes of a key with one stamp are one write,
neither the order of the writes nor writes that are met again decide which one is kept.
-/
namespace Newest

structure Write (K S V : Type*) where
  key : K
  stamp : S
  value : V

variable {K S V : Type*} [DecidableEq K] [LinearOrder S]

/-- A write replaces an older one. -/
def put (latest : K → Option (S × V)) (write : Write K S V) : K → Option (S × V) :=
  match latest write.key with
  | some (seen, _) =>
    if write.stamp ≤ seen then latest
    else Function.update latest write.key (some (write.stamp, write.value))
  | none => Function.update latest write.key (some (write.stamp, write.value))

def collect (writes : List (Write K S V)) : K → Option (S × V) := writes.foldl put fun _ => none

/-- A write of this key, and none of it is newer. -/
def IsNewest (writes : List (Write K S V)) (key : K) (stamp : S) (value : V) : Prop :=
  ⟨key, stamp, value⟩ ∈ writes ∧ ∀ write ∈ writes, write.key = key → write.stamp ≤ stamp

/-- Two writes of a key with one stamp are one write. -/
def Consistent (writes : List (Write K S V)) : Prop :=
  ∀ a ∈ writes, ∀ b ∈ writes, a.key = b.key → a.stamp = b.stamp → a.value = b.value

theorem collect_concat (writes : List (Write K S V)) (write : Write K S V) :
    collect (writes ++ [write]) = put (collect writes) write := by
  simp [collect]

theorem put_other {latest : K → Option (S × V)} {write : Write K S V} {key : K} (h : key ≠ write.key) :
    put latest write key = latest key := by
  rw [put]
  cases latest write.key with
  | none => exact Function.update_of_ne h _ _
  | some kept =>
    simp only
    split_ifs
    · rfl
    · exact Function.update_of_ne h _ _

theorem put_same (latest : K → Option (S × V)) (write : Write K S V) :
    put latest write write.key = some (write.stamp, write.value) ∨
      ∃ seen value, latest write.key = some (seen, value) ∧ write.stamp ≤ seen ∧
        put latest write write.key = some (seen, value) := by
  rw [put]
  cases hseen : latest write.key with
  | none => exact .inl (Function.update_self _ _ _)
  | some kept =>
    simp only
    split_ifs with hle
    · exact .inr ⟨kept.1, kept.2, rfl, hle, hseen⟩
    · exact .inl (Function.update_self _ _ _)

theorem collect_eq_none_iff {writes : List (Write K S V)} {key : K} :
    collect writes key = none ↔ ∀ write ∈ writes, write.key ≠ key := by
  induction writes using List.reverseRecOn with
  | nil => simp [collect]
  | append_singleton writes write ih =>
    rw [collect_concat]
    by_cases hkey : key = write.key
    · subst hkey
      have hsome : put (collect writes) write write.key ≠ none := by
        rcases put_same (collect writes) write with hput | ⟨seen, value, -, -, hput⟩ <;> simp [hput]
      simp [hsome]
    · have hne : write.key ≠ key := Ne.symm hkey
      simp only [put_other hkey, ih, List.mem_append, List.mem_singleton, or_imp, forall_and, forall_eq]
      exact ⟨fun h => ⟨h, hne⟩, fun h => h.1⟩

/-- What is kept is a newest write. -/
theorem isNewest_of_collect {writes : List (Write K S V)} {key : K} {stamp : S} {value : V}
    (h : collect writes key = some (stamp, value)) : IsNewest writes key stamp value := by
  induction writes using List.reverseRecOn generalizing stamp value with
  | nil => simp [collect] at h
  | append_singleton writes write ih =>
    rw [collect_concat] at h
    by_cases hkey : key = write.key
    · subst hkey
      rcases put_same (collect writes) write with hput | ⟨seen, other, hseen, hle, hput⟩
      · rw [hput] at h
        obtain ⟨rfl, rfl⟩ := Prod.mk.inj (Option.some_inj.mp h)
        refine ⟨by simp, fun later hlater hsame => ?_⟩
        rcases List.mem_append.mp hlater with hold | hnew
        · -- nothing that was kept before is as new
          cases hbefore : collect writes write.key with
          | none => exact absurd hsame (collect_eq_none_iff.mp hbefore later hold)
          | some kept =>
            obtain ⟨-, hmax⟩ := ih hbefore
            refine le_trans (hmax later hold hsame) ?_
            by_contra hnewer
            rw [put, hbefore] at hput
            simp only [if_pos (le_of_lt (not_le.mp hnewer)), hbefore, Option.some_inj] at hput
            rw [hput] at hnewer
            exact hnewer (le_refl _)
        · rw [List.mem_singleton.mp hnew]
      · rw [hput] at h
        obtain ⟨rfl, rfl⟩ := Prod.mk.inj (Option.some_inj.mp h)
        obtain ⟨hin, hmax⟩ := ih hseen
        refine ⟨List.mem_append_left _ hin, fun later hlater hsame => ?_⟩
        rcases List.mem_append.mp hlater with hold | hnew
        · exact hmax later hold hsame
        · rw [List.mem_singleton.mp hnew]
          exact hle
    · rw [put_other hkey] at h
      obtain ⟨hin, hmax⟩ := ih h
      refine ⟨List.mem_append_left _ hin, fun later hlater hsame => ?_⟩
      rcases List.mem_append.mp hlater with hold | hnew
      · exact hmax later hold hsame
      · rw [List.mem_singleton.mp hnew] at hsame
        exact absurd hsame.symm hkey

theorem collect_iff {writes : List (Write K S V)} (hwrites : Consistent writes) {key : K} {stamp : S} {value : V} :
    collect writes key = some (stamp, value) ↔ IsNewest writes key stamp value := by
  refine ⟨isNewest_of_collect, fun ⟨hin, hmax⟩ => ?_⟩
  cases hkept : collect writes key with
  | none => exact absurd rfl (collect_eq_none_iff.mp hkept _ hin)
  | some kept =>
    obtain ⟨seen, other⟩ := kept
    obtain ⟨hkeptin, hkeptmax⟩ := isNewest_of_collect hkept
    have hstamp : seen = stamp := le_antisymm (hmax _ hkeptin rfl) (hkeptmax _ hin rfl)
    have hvalue : other = value := hwrites _ hkeptin _ hin rfl hstamp
    rw [hstamp, hvalue]

/-- The writes in the order they were made. -/
theorem collect_of_increasing {writes : List (Write K S V)}
    (h : writes.Pairwise fun a b => a.stamp < b.stamp) :
    collect writes = writes.foldl (fun (latest : K → Option (S × V)) write =>
      Function.update latest write.key (some (write.stamp, write.value))) fun _ => none := by
  induction writes using List.reverseRecOn with
  | nil => rfl
  | append_singleton writes write ih =>
    rw [List.pairwise_append] at h
    obtain ⟨hwrites, -, hlast⟩ := h
    rw [collect_concat, List.foldl_concat, ← ih hwrites, put]
    cases hkept : collect writes write.key with
    | none => rfl
    | some kept =>
      obtain ⟨seen, other⟩ := kept
      obtain ⟨hin, -⟩ := isNewest_of_collect hkept
      have hnewer := hlast _ hin write (List.mem_singleton_self write)
      simp only [if_neg (not_le.mpr hnewer)]

end Newest

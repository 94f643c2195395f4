import Mathlib.Data.List.Basic
import Mathlib.Data.List.Nodup

/-!
A dictionary that keeps the order its keys came in: a value set for a key that is there takes the old one's place,
any other goes to the end. A key has one entry.
-/

structure Dictionary (κ ν : Type*) where
  entries : List (κ × ν)
  nodup : (entries.map Prod.fst).Nodup

namespace Dictionary

variable {κ ν : Type*}

def empty : Dictionary κ ν := ⟨[], List.nodup_nil⟩

def keys (d : Dictionary κ ν) : List κ := d.entries.map Prod.fst

def values (d : Dictionary κ ν) : List ν := d.entries.map Prod.snd

/-- The entries that a test lets through. -/
def filter (d : Dictionary κ ν) (keep : κ → Bool) : Dictionary κ ν where
  entries := d.entries.filter fun entry => keep entry.1
  nodup := d.nodup.sublist (List.filter_sublist.map Prod.fst)

theorem mem_filter {d : Dictionary κ ν} {keep : κ → Bool} {key : κ} {value : ν} :
    (key, value) ∈ (d.filter keep).entries ↔ (key, value) ∈ d.entries ∧ keep key = true :=
  List.mem_filter

variable [DecidableEq κ]

def get (d : Dictionary κ ν) (key : κ) : Option ν := d.entries.lookup key

theorem get_eq_some_iff {d : Dictionary κ ν} {key : κ} {value : ν} :
    d.get key = some value ↔ (key, value) ∈ d.entries := by
  obtain ⟨entries, hnodup⟩ := d
  unfold get
  induction entries with
  | nil => simp
  | cons entry entries ih =>
    obtain ⟨k, v⟩ := entry
    obtain ⟨hk, hrest⟩ := List.nodup_cons.mp hnodup
    by_cases hkey : key = k
    · subst hkey
      have habsent : (key, value) ∉ entries := fun hmem => hk (List.mem_map.mpr ⟨_, hmem, rfl⟩)
      simp [eq_comm, habsent]
    · have hlookup : List.lookup key ((k, v) :: entries) = List.lookup key entries := by
        rw [List.lookup_cons, beq_eq_false_iff_ne.mpr hkey]
      have hmem : (key, value) ∈ (k, v) :: entries ↔ (key, value) ∈ entries := by simp [hkey]
      exact (hlookup ▸ ih hrest).trans hmem.symm

theorem mem_keys_iff {d : Dictionary κ ν} {key : κ} : key ∈ d.keys ↔ ∃ value, d.get key = some value := by
  unfold keys
  rw [List.mem_map]
  constructor
  · rintro ⟨⟨k, value⟩, hmem, rfl⟩
    exact ⟨value, get_eq_some_iff.mpr hmem⟩
  · rintro ⟨value, hget⟩
    exact ⟨(key, value), get_eq_some_iff.mp hget, rfl⟩

theorem mem_values_iff {d : Dictionary κ ν} {value : ν} : value ∈ d.values ↔ ∃ key, d.get key = some value := by
  unfold values
  rw [List.mem_map]
  constructor
  · rintro ⟨⟨key, v⟩, hmem, rfl⟩
    exact ⟨key, get_eq_some_iff.mpr hmem⟩
  · rintro ⟨key, hget⟩
    exact ⟨(key, value), get_eq_some_iff.mp hget, rfl⟩

theorem get_filter_eq_some_iff {d : Dictionary κ ν} {keep : κ → Bool} {key : κ} {value : ν} :
    (d.filter keep).get key = some value ↔ d.get key = some value ∧ keep key = true := by
  rw [get_eq_some_iff, get_eq_some_iff, mem_filter]

def erase (d : Dictionary κ ν) (key : κ) : Dictionary κ ν := d.filter fun k => k != key

theorem get_erase_self (d : Dictionary κ ν) (key : κ) : (d.erase key).get key = none := by
  rw [Option.eq_none_iff_forall_ne_some]
  intro value h
  have hkeep := (get_filter_eq_some_iff.mp h).2
  simp at hkeep

theorem get_erase_ne {d : Dictionary κ ν} {key other : κ} (h : other ≠ key) : (d.erase key).get other = d.get other := by
  apply Option.ext
  intro value
  rw [erase, get_filter_eq_some_iff]
  simp [h]

def set (d : Dictionary κ ν) (key : κ) (value : ν) : Dictionary κ ν :=
  if h : key ∈ d.keys then
    { entries := d.entries.map fun entry => if entry.1 = key then (key, value) else entry
      nodup := by
        have hkeys : (d.entries.map fun entry => if entry.1 = key then (key, value) else entry).map Prod.fst =
            d.entries.map Prod.fst := by
          rw [List.map_map]
          apply List.map_congr_left
          intro entry _
          by_cases hentry : entry.1 = key
          · simp [hentry]
          · simp [hentry]
        rw [hkeys]
        exact d.nodup }
  else
    { entries := d.entries ++ [(key, value)]
      nodup := by
        rw [List.map_append]
        exact List.nodup_append.mpr ⟨d.nodup, List.nodup_singleton _, by
          intro k hk other hother
          obtain rfl := List.mem_singleton.mp hother
          rintro rfl
          exact h hk⟩ }

theorem mem_set {d : Dictionary κ ν} {key k : κ} {value v : ν} :
    (k, v) ∈ (d.set key value).entries ↔ if k = key then v = value else (k, v) ∈ d.entries := by
  unfold set
  by_cases hmem : key ∈ d.keys
  · rw [dif_pos hmem]
    obtain ⟨⟨k₀, old⟩, hentry, hk₀⟩ := List.mem_map.mp hmem
    obtain rfl : k₀ = key := hk₀
    constructor
    · intro h
      obtain ⟨entry, hold, heq⟩ := List.mem_map.mp h
      by_cases hkey : entry.1 = k₀
      · rw [if_pos hkey] at heq
        cases heq
        exact (if_pos rfl).mpr rfl
      · rw [if_neg hkey] at heq
        subst heq
        exact (if_neg hkey).mpr hold
    · intro h
      by_cases hkey : k = k₀
      · subst hkey
        obtain rfl : v = value := (if_pos rfl).mp h
        exact List.mem_map.mpr ⟨(k, old), hentry, if_pos rfl⟩
      · rw [if_neg hkey] at h
        exact List.mem_map.mpr ⟨(k, v), h, if_neg hkey⟩
  · rw [dif_neg hmem]
    have hnot : ∀ old, (key, old) ∉ d.entries := fun old hold => hmem (List.mem_map.mpr ⟨_, hold, rfl⟩)
    dsimp only
    rw [List.mem_append, List.mem_singleton, Prod.mk.injEq]
    by_cases hkey : k = key
    · subst hkey
      simp [hnot]
    · simp [hkey]

theorem get_set_self (d : Dictionary κ ν) (key : κ) (value : ν) : (d.set key value).get key = some value :=
  get_eq_some_iff.mpr (mem_set.mpr ((if_pos rfl).mpr rfl))

theorem get_set_ne {d : Dictionary κ ν} {key other : κ} (h : other ≠ key) (value : ν) :
    (d.set key value).get other = d.get other := by
  apply Option.ext
  intro v
  rw [get_eq_some_iff, get_eq_some_iff, mem_set, if_neg h]

end Dictionary

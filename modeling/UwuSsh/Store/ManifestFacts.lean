import UwuSsh.Store.Manifests

/-!
What a check of the manifests finds. Over all manifests held, the entry kept for a
record is the greatest one listed, by clock and at the same clock the tombstone. A check
writes down exactly the records whose kept entry nothing here accounts for, so that a
listed version that did not arrive is reported unless a later listed tombstone stands
for it.
-/
namespace UwuSsh

namespace ManifestEntry

def key (entry : ManifestEntry) : UInt8 × Uuid := (entry.kind, entry.id)

/-- What entries of one record are ordered by. -/
def rank (entry : ManifestEntry) : Hlc ×ₗ Bool := toLex (entry.updatedAt, entry.deleted)

theorem rank_lt_iff {a b : ManifestEntry} :
    a.rank < b.rank ↔ a.updatedAt < b.updatedAt ∨
      (a.updatedAt = b.updatedAt ∧ a.deleted = false ∧ b.deleted = true) := by
  simp [rank, Prod.Lex.toLex_lt_toLex, Bool.lt_iff]

theorem updatedAt_le_of_rank_le {a b : ManifestEntry} (h : a.rank ≤ b.rank) :
    a.updatedAt ≤ b.updatedAt := by
  rw [rank, rank, Prod.Lex.toLex_le_toLex] at h
  rcases h with hlt | ⟨heq, -⟩
  · exact hlt.le
  · exact heq.le

theorem eq_of_rank_eq {a b : ManifestEntry} (hkey : a.key = b.key) (hrank : a.rank = b.rank) :
    a = b := by
  obtain ⟨kind, id, clock, deleted⟩ := a
  obtain ⟨kind', id', clock', deleted'⟩ := b
  simp only [key, Prod.mk.injEq] at hkey
  simp only [rank, EmbeddingLike.apply_eq_iff_eq, Prod.mk.injEq] at hrank
  obtain ⟨rfl, rfl⟩ := hkey
  obtain ⟨rfl, rfl⟩ := hrank
  rfl

theorem newer_spec (kept entry : ManifestEntry) :
    (kept.newer entry = kept ∨ kept.newer entry = entry) ∧
      kept.rank ≤ (kept.newer entry).rank ∧ entry.rank ≤ (kept.newer entry).rank := by
  unfold newer
  by_cases h : kept.rank < entry.rank
  · rw [if_pos (rank_lt_iff.mp h)]
    exact ⟨Or.inr rfl, h.le, le_rfl⟩
  · rw [if_neg fun h' => h (rank_lt_iff.mpr h')]
    exact ⟨Or.inl rfl, le_rfl, not_lt.mp h⟩

end ManifestEntry

namespace Store

/-- The entry kept for a record is the greatest one that is listed. -/
def Greatest (entries : List ManifestEntry) (key : UInt8 × Uuid) : Option ManifestEntry → Prop
  | none => ∀ e ∈ entries, e.key ≠ key
  | some kept => kept ∈ entries ∧ kept.key = key ∧
      ∀ e ∈ entries, e.key = key → e.rank ≤ kept.rank

theorem newestEntries_append (entries : List ManifestEntry) (entry : ManifestEntry) :
    newestEntries (entries ++ [entry]) = (newestEntries entries).insert entry.key
      (((newestEntries entries).lookup entry.key).elim entry fun old => old.newer entry) := by
  simp only [newestEntries, List.foldl_append, List.foldl_cons, List.foldl_nil]
  rfl

theorem lookup_newestEntries (entries : List ManifestEntry) (key : UInt8 × Uuid) :
    Greatest entries key ((newestEntries entries).lookup key) := by
  induction entries using List.reverseRecOn with
  | nil => simp [newestEntries, Greatest]
  | append_singleton entries entry ih =>
    rw [newestEntries_append]
    by_cases hkey : key = entry.key
    · subst hkey
      rw [AList.lookup_insert]
      cases hold : (newestEntries entries).lookup entry.key with
      | none =>
        rw [hold] at ih
        rw [Option.elim_none]
        refine ⟨by simp, rfl, ?_⟩
        intro e he heq
        rcases List.mem_append.mp he with he | he
        · exact absurd heq (ih e he)
        · rw [List.mem_singleton.mp he]
      | some kept =>
        rw [hold] at ih
        rw [Option.elim_some]
        obtain ⟨hmem, hkept, hle⟩ := ih
        obtain ⟨hwhich, hkeptle, hentryle⟩ := kept.newer_spec entry
        refine ⟨?_, ?_, ?_⟩
        · rcases hwhich with h | h
          · rw [h]
            exact List.mem_append_left _ hmem
          · rw [h]
            exact List.mem_append_right _ (List.mem_singleton_self entry)
        · rcases hwhich with h | h
          · exact (congrArg ManifestEntry.key h).trans hkept
          · exact congrArg ManifestEntry.key h
        · intro e he heq
          rcases List.mem_append.mp he with he | he
          · exact (hle e he heq).trans hkeptle
          · rw [List.mem_singleton.mp he]
            exact hentryle
    · rw [AList.lookup_insert_ne hkey]
      cases hold : (newestEntries entries).lookup key with
      | none =>
        rw [hold] at ih
        intro e he
        rcases List.mem_append.mp he with he | he
        · exact ih e he
        · rw [List.mem_singleton.mp he]
          exact Ne.symm hkey
      | some kept =>
        rw [hold] at ih
        obtain ⟨hmem, hkept, hle⟩ := ih
        refine ⟨List.mem_append.mpr (Or.inl hmem), hkept, ?_⟩
        intro e he heq
        rcases List.mem_append.mp he with he | he
        · exact hle e he heq
        · rw [List.mem_singleton.mp he] at heq
          exact absurd heq.symm hkey

/-- A superseded version of a record that is at least as new. -/
def Excused (s : Store) (id : Uuid) (clock : Hlc) : Prop :=
  ∃ gone, s.superseded.lookup id = some gone ∧ clock ≤ gone.2

/-- Nothing here accounts for a listed version. -/
def Unmet (s : Store) (kind : EntityKind) (entry : ManifestEntry) : Prop :=
  ¬ s.Excused entry.id entry.updatedAt ∧
    match s.row? kind entry.id with
    | none => entry.deleted = false
    | some row => row.deleted = false ∧ row.updatedAt < entry.updatedAt

theorem any_superseded_iff (s : Store) (id : Uuid) (clock : Hlc) :
    ((s.superseded.lookup id).any fun g => clock ≤ g.2) = true ↔ s.Excused id clock := by
  cases h : s.superseded.lookup id <;> simp [Excused, h]

theorem checkEntry_isSome_iff (s : Store) (kind : EntityKind) (entry : ManifestEntry) :
    (∃ problem, s.checkEntry kind entry = some problem) ↔ s.Unmet kind entry := by
  unfold checkEntry Unmet
  rw [← any_superseded_iff]
  dsimp only
  cases hrow : s.row? kind entry.id with
  | none =>
    cases hdeleted : entry.deleted <;>
      cases hexcused : (s.superseded.lookup entry.id).any fun g => entry.updatedAt ≤ g.2 <;> simp
  | some row =>
    by_cases hle : entry.updatedAt ≤ row.updatedAt
    · cases hdeleted : row.deleted <;> simp [hle, not_lt.mpr hle]
    · cases hdeleted : row.deleted <;>
        cases hexcused : (s.superseded.lookup entry.id).any fun g => entry.updatedAt ≤ g.2 <;>
          simp [hle, not_le.mp hle]

theorem entityKind_of_key {a b : ManifestEntry} (h : a.key = b.key) :
    a.entityKind = b.entityKind ∧ a.id = b.id := by
  obtain ⟨hkind, hid⟩ := Prod.mk.inj h
  exact ⟨by rw [ManifestEntry.entityKind, hkind, ManifestEntry.entityKind], hid⟩

/-- A record the last check reported. -/
def Reported (s : Store) (kind : EntityKind) (id : Uuid) : Prop :=
  ∃ v ∈ s.violations, v.kind = kind ∧ v.id = id

theorem entryViolation_eq_some_iff {s : Store} {entry : ManifestEntry} {v : Violation} :
    s.entryViolation entry = some v ↔ entry.entityKind = some v.kind ∧ v.kind ∈ syncedKinds ∧
      v.id = entry.id ∧ s.checkEntry v.kind entry = some v.problem := by
  unfold entryViolation
  cases hkind : entry.entityKind with
  | none => simp
  | some kind =>
    by_cases hsynced : kind ∈ syncedKinds
    · simp only [Option.filter, List.contains_eq_mem, hsynced, decide_true, ↓reduceIte,
        Option.map_eq_some_iff, Option.some.injEq]
      constructor
      · rintro ⟨problem, hproblem, rfl⟩
        exact ⟨rfl, hsynced, rfl, hproblem⟩
      · rintro ⟨rfl, -, hid, hproblem⟩
        refine ⟨v.problem, hproblem, ?_⟩
        rw [← hid]
    · simp only [Option.filter, List.contains_eq_mem, hsynced, decide_false, Bool.false_eq_true,
        ↓reduceIte, reduceCtorEq, Option.some.injEq, false_iff]
      rintro ⟨rfl, hmem, -⟩
      exact hsynced hmem

theorem kind_of_floorViolation {s : Store} {v : Violation} (h : s.floorViolation = some v) :
    v.kind = .manifest := by
  unfold floorViolation at h
  split at h
  · cases h
  · obtain ⟨problem, -, rfl⟩ := Option.map_eq_some_iff.mp h
    rfl

/-- Whatever is found for an entry or for the floor is reported. -/
theorem reported_of_found {s : Store} {kind : EntityKind} {id : Uuid}
    (h : ∃ v ∈ ((newestEntries s.heldEntries).entries.map (·.2)).filterMap s.entryViolation,
      v.kind = kind ∧ v.id = id) : s.checkManifests.1.Reported kind id := by
  obtain ⟨v, hv, rfl, rfl⟩ := h
  show ∃ w ∈ s.foundViolations, _
  unfold foundViolations
  cases s.floorViolation with
  | none => exact ⟨v, hv, rfl, rfl⟩
  | some f =>
    by_cases hsame : v.kind = f.kind ∧ v.id = f.id
    · exact ⟨f, by simp, hsame.1.symm, hsame.2.symm⟩
    · refine ⟨v, List.mem_append.mpr (Or.inl (List.mem_filter.mpr ⟨hv, ?_⟩)), rfl, rfl⟩
      simpa [Classical.or_iff_not_imp_left] using hsame

/-- The kept entry of a record is reported when nothing here accounts for it. -/
theorem reported_of_kept {s : Store} {kind : EntityKind} {kept : ManifestEntry}
    (hlookup : (newestEntries s.heldEntries).lookup kept.key = some kept)
    (hkind : kept.entityKind = some kind) (hsynced : kind ∈ syncedKinds)
    (hunmet : s.Unmet kind kept) : s.checkManifests.1.Reported kind kept.id := by
  obtain ⟨problem, hproblem⟩ := (checkEntry_isSome_iff s kind kept).mpr hunmet
  refine reported_of_found ⟨{ kind, id := kept.id, problem }, ?_, rfl, rfl⟩
  refine List.mem_filterMap.mpr ⟨kept, ?_, ?_⟩
  · exact List.mem_map.mpr ⟨⟨kept.key, kept⟩, AList.mem_lookup_iff.mp hlookup, rfl⟩
  · exact entryViolation_eq_some_iff.mpr ⟨hkind, hsynced, rfl, hproblem⟩

/-- The records other than manifests that a check reports are those whose greatest listed
version is unmet. -/
theorem reported_iff {s : Store} {kind : EntityKind} {id : Uuid} (hkind : kind ≠ .manifest) :
    s.checkManifests.1.Reported kind id ↔ kind ∈ syncedKinds ∧
      ∃ entry, Greatest s.heldEntries entry.key (some entry) ∧ entry.entityKind = some kind ∧
        entry.id = id ∧ s.Unmet kind entry := by
  constructor
  · rintro ⟨v, hv, rfl, rfl⟩
    have hfound : v ∈ ((newestEntries s.heldEntries).entries.map (·.2)).filterMap
        s.entryViolation := by
      change v ∈ s.foundViolations at hv
      unfold foundViolations at hv
      cases hfloor : s.floorViolation with
      | none =>
        rw [hfloor] at hv
        exact hv
      | some f =>
        rw [hfloor] at hv
        rcases List.mem_append.mp hv with hv | hv
        · exact List.mem_of_mem_filter hv
        · rw [List.mem_singleton.mp hv] at hkind
          exact absurd (kind_of_floorViolation hfloor) hkind
    obtain ⟨entry, hentry, hviolation⟩ := List.mem_filterMap.mp hfound
    obtain ⟨⟨key, kept⟩, hmem, rfl⟩ := List.mem_map.mp hentry
    obtain ⟨hentryKind, hsynced, hid, hproblem⟩ := entryViolation_eq_some_iff.mp hviolation
    have hgreatest := lookup_newestEntries s.heldEntries key
    rw [AList.mem_lookup_iff.mpr hmem] at hgreatest
    have hkey := hgreatest.2.1
    subst hkey
    exact ⟨hsynced, kept, hgreatest, hentryKind, hid.symm,
      (checkEntry_isSome_iff s v.kind kept).mp ⟨_, hproblem⟩⟩
  · rintro ⟨hsynced, entry, hgreatest, hentryKind, rfl, hunmet⟩
    obtain ⟨hmem, -, hle⟩ := hgreatest
    have hkept := lookup_newestEntries s.heldEntries entry.key
    cases hlookup : (newestEntries s.heldEntries).lookup entry.key with
    | none =>
      rw [hlookup] at hkept
      exact absurd rfl (hkept entry hmem)
    | some kept =>
      rw [hlookup] at hkept
      obtain ⟨hkeptmem, hkey, hkeptle⟩ := hkept
      have hsame : kept = entry := ManifestEntry.eq_of_rank_eq hkey
        (le_antisymm (hle kept hkeptmem hkey) (hkeptle entry hmem rfl))
      subst hsame
      exact reported_of_kept hlookup hentryKind hsynced hunmet

/-- A listed version that nothing here accounts for is reported, or a tombstone listed since
stands for a record that is not here. -/
theorem reported_of_unmet {s : Store} {kind : EntityKind} {entry : ManifestEntry}
    (hlisted : entry ∈ s.heldEntries) (hkind : entry.entityKind = some kind)
    (hsynced : kind ∈ syncedKinds) (hexcused : ¬ s.Excused entry.id entry.updatedAt)
    (hrow : ∀ row, s.row? kind entry.id = some row →
      row.deleted = false ∧ row.updatedAt < entry.updatedAt) :
    s.checkManifests.1.Reported kind entry.id ∨
      (s.row? kind entry.id = none ∧ ∃ later ∈ s.heldEntries, later.key = entry.key ∧
        later.deleted = true ∧ entry.updatedAt ≤ later.updatedAt) := by
  have hkept := lookup_newestEntries s.heldEntries entry.key
  cases hlookup : (newestEntries s.heldEntries).lookup entry.key with
  | none =>
    rw [hlookup] at hkept
    exact absurd rfl (hkept entry hlisted)
  | some kept =>
    rw [hlookup] at hkept
    obtain ⟨hmem, hkey, hle⟩ := hkept
    have hclock := ManifestEntry.updatedAt_le_of_rank_le (hle entry hlisted rfl)
    obtain ⟨hkindEq, hid⟩ := entityKind_of_key hkey
    have hexcused' : ¬ s.Excused kept.id kept.updatedAt := by
      rintro ⟨gone, hgone, hgonele⟩
      exact hexcused ⟨gone, hid ▸ hgone, hclock.trans hgonele⟩
    have hfound : s.Unmet kind kept → s.checkManifests.1.Reported kind entry.id := by
      intro hunmet
      rw [← hid]
      exact reported_of_kept (hkey ▸ hlookup) (hkindEq.trans hkind) hsynced hunmet
    cases hlocal : s.row? kind entry.id with
    | none =>
      by_cases hdeleted : kept.deleted = true
      · exact Or.inr ⟨rfl, kept, hmem, hkey, hdeleted, hclock⟩
      · refine Or.inl (hfound ⟨hexcused', ?_⟩)
        rw [hid, hlocal]
        simpa using hdeleted
    | some row =>
      obtain ⟨hlive, holder⟩ := hrow row hlocal
      refine Or.inl (hfound ⟨hexcused', ?_⟩)
      rw [hid, hlocal]
      exact ⟨hlive, holder.trans_le hclock⟩

end Store

end UwuSsh

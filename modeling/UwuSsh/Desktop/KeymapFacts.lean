import UwuSsh.Desktop.Keymap

/-!
One chord is one action's. The lists in the overrides have no chord in common, and neither have the defaults, so
what an action holds is what is left to it by the others: the effect of every change to the keymap is told by
what its action holds afterwards, and by the keymap without the action's entry.
-/
namespace UwuSsh.Shortcut

variable {family : Family}

/-! ### The table -/

theorem sameChords_iff {a b : List Chord} : sameChords a b = true ↔ a.map chordKey = b.map chordKey := by
  induction a generalizing b with
  | nil =>
    cases b with
    | nil => simp [sameChords]
    | cons y b => simp [sameChords]
  | cons x a ih =>
    cases b with
    | nil => simp [sameChords]
    | cons y b =>
      rw [List.map_cons, List.map_cons, List.cons.injEq, ← ih]
      simp only [sameChords, List.length_cons, List.zip_cons_cons, List.all_cons, Bool.and_eq_true, beq_iff_eq,
        Nat.succ.injEq]
      exact and_left_comm

theorem mem_of_lookup {α β : Type*} [BEq α] [LawfulBEq α] {entries : List (α × β)} {key : α} {value : β}
    (h : entries.lookup key = some value) : (key, value) ∈ entries := by
  obtain ⟨front, back, rfl, -⟩ := List.lookup_eq_some_iff.mp h
  exact List.mem_append_right _ List.mem_cons_self

/-- No chord is the default of two actions. -/
theorem defaultChords_apart {a b : String} (hne : a ≠ b) {k : String} (ha : k ∈ (defaultChords a family).map chordKey)
    (hb : k ∈ (defaultChords b family).map chordKey) : False := by
  have htable : ∀ family ∈ [Family.mac, .other], ∀ x ∈ defaults, ∀ y ∈ defaults, x.1 ≠ y.1 →
      ∀ k ∈ (x.2.of family).map chordKey, k ∉ (y.2.of family).map chordKey := by decide +kernel
  have hfamily : family ∈ [Family.mac, .other] := by cases family <;> decide
  unfold defaultChords at ha hb
  cases hx : defaults.lookup a with
  | none => simp [hx] at ha
  | some x =>
    cases hy : defaults.lookup b with
    | none => simp [hy] at hb
    | some y =>
      rw [hx] at ha
      rw [hy] at hb
      exact htable family hfamily _ (mem_of_lookup hx) _ (mem_of_lookup hy) hne k ha hb

theorem mem_builtIn_of_default {id : String} {chord : Chord} (h : chord ∈ defaultChords id family) : id ∈ builtIn := by
  have htable : ∀ x ∈ defaults, x.1 ∈ builtIn := by decide +kernel
  unfold defaultChords at h
  cases hx : defaults.lookup id with
  | none => simp [hx] at h
  | some x => exact htable _ (mem_of_lookup hx)

/-- An id that stands for an action, a host or a text. -/
def Known (id : String) : Prop := (actionOf id).isSome = true

instance (id : String) : Decidable (Known id) := by
  unfold Known
  infer_instance

theorem known_of_builtIn {id : String} (h : id ∈ builtIn) : Known id := by
  have htable : ∀ id ∈ builtIn, (actionOf id).isSome = true := by decide +kernel
  exact htable id h

theorem Known.ne_empty {id : String} (h : Known id) : id ≠ "" := by
  rintro rfl
  have hempty : (actionOf "").isSome = false := by decide +kernel
  exact Bool.false_ne_true (hempty.symm.trans h)

/-! ### What an action holds -/

/-- The action has this chord. -/
def Holds (family : Family) (overrides : Overrides) (id k : String) : Prop :=
  k ∈ (chordsFor id family overrides).map chordKey

/-- A list of the user's has it. -/
def Overridden (overrides : Overrides) (k : String) : Prop :=
  ∃ id own, overrides.get id = some own ∧ k ∈ own.map chordKey

theorem mem_held_iff {overrides : Overrides} {k : String} :
    k ∈ overrides.values.flatten.map chordKey ↔ Overridden overrides k := by
  constructor
  · intro h
    obtain ⟨chord, hchord, rfl⟩ := List.mem_map.mp h
    obtain ⟨own, hown, hmem⟩ := List.mem_flatten.mp hchord
    obtain ⟨id, hget⟩ := Dictionary.mem_values_iff.mp hown
    exact ⟨id, own, hget, List.mem_map_of_mem hmem⟩
  · rintro ⟨id, own, hget, hk⟩
    obtain ⟨chord, hmem, rfl⟩ := List.mem_map.mp hk
    exact List.mem_map_of_mem (List.mem_flatten.mpr ⟨own, Dictionary.mem_values_iff.mpr ⟨id, hget⟩, hmem⟩)

theorem holds_own {overrides : Overrides} {id k : String} {own : List Chord} (h : overrides.get id = some own) :
    Holds family overrides id k ↔ k ∈ own.map chordKey := by
  rw [Holds, chordsFor, h]

theorem holds_default {overrides : Overrides} {id k : String} (h : overrides.get id = none) :
    Holds family overrides id k ↔ k ∈ (defaultChords id family).map chordKey ∧ ¬ Overridden overrides k := by
  rw [Holds, chordsFor, h, ← mem_held_iff]
  dsimp only
  constructor
  · intro hk
    obtain ⟨chord, hmem, rfl⟩ := List.mem_map.mp hk
    obtain ⟨hdefault, hfree⟩ := List.mem_filter.mp hmem
    exact ⟨List.mem_map_of_mem hdefault, by simpa using hfree⟩
  · rintro ⟨hk, hfree⟩
    obtain ⟨chord, hdefault, rfl⟩ := List.mem_map.mp hk
    exact List.mem_map_of_mem (List.mem_filter.mpr ⟨hdefault, by simpa using hfree⟩)

/-- The lists are of known actions, name no other characters and share no chord. -/
structure Sound (overrides : Overrides) : Prop where
  known : ∀ {id own}, overrides.get id = some own → Known id
  bare : ∀ {id own}, overrides.get id = some own → ∀ chord ∈ own, chord.keys = []
  apart : ∀ {a b own other}, overrides.get a = some own → overrides.get b = some other → a ≠ b →
    ∀ k ∈ own.map chordKey, k ∉ other.map chordKey

theorem sound_empty : Sound Dictionary.empty := by
  constructor <;> intros <;> contradiction

theorem Sound.holds_unique {overrides : Overrides} (h : Sound overrides) {a b k : String}
    (ha : Holds family overrides a k) (hb : Holds family overrides b k) : a = b := by
  by_contra hne
  cases hown : overrides.get a with
  | some own =>
    have hk := (holds_own hown).mp ha
    cases hother : overrides.get b with
    | some other => exact h.apart hown hother hne k hk ((holds_own hother).mp hb)
    | none => exact ((holds_default hother).mp hb).2 ⟨a, own, hown, hk⟩
  | none =>
    obtain ⟨hk, hfree⟩ := (holds_default hown).mp ha
    cases hother : overrides.get b with
    | some other => exact hfree ⟨b, other, hother, (holds_own hother).mp hb⟩
    | none => exact defaultChords_apart hne hk ((holds_default hother).mp hb).1

theorem mem_boundIds_of_holds {overrides : Overrides} {id k : String} (h : Holds family overrides id k) :
    id ∈ boundIds overrides := by
  unfold boundIds
  by_cases hown : id ∈ overrides.keys
  · exact List.mem_append_left _ hown
  · have hnone : overrides.get id = none := by
      by_contra hsome
      exact hown (Dictionary.mem_keys_iff.mpr (Option.ne_none_iff_exists'.mp hsome))
    obtain ⟨chord, hdefault, -⟩ := List.mem_map.mp ((holds_default hnone).mp h).1
    exact List.mem_append_right _ (List.mem_filter.mpr ⟨mem_builtIn_of_default hdefault, by simpa using hown⟩)

theorem Sound.known_of_bound {overrides : Overrides} (h : Sound overrides) {id : String}
    (hid : id ∈ boundIds overrides) : Known id := by
  obtain hown | hbuiltIn := List.mem_append.mp hid
  · obtain ⟨own, hget⟩ := Dictionary.mem_keys_iff.mp hown
    exact h.known hget
  · exact known_of_builtIn (List.mem_filter.mp hbuiltIn).1

/-! ### One action's list is changed -/

theorem overridden_erase_iff {overrides : Overrides} {id k : String} : Overridden (overrides.erase id) k ↔
    ∃ other own, other ≠ id ∧ overrides.get other = some own ∧ k ∈ own.map chordKey := by
  constructor
  · rintro ⟨other, own, hget, hk⟩
    have hne : other ≠ id := by
      rintro rfl
      simp [Dictionary.get_erase_self] at hget
    exact ⟨other, own, hne, Dictionary.get_erase_ne hne ▸ hget, hk⟩
  · rintro ⟨other, own, hne, hget, hk⟩
    exact ⟨other, own, (Dictionary.get_erase_ne hne).trans hget, hk⟩

theorem Overridden.of_erase {overrides : Overrides} {id k : String} (h : Overridden (overrides.erase id) k) :
    Overridden overrides k := by
  obtain ⟨other, own, -, hget, hk⟩ := overridden_erase_iff.mp h
  exact ⟨other, own, hget, hk⟩

/-- No other action's list has what an action holds. -/
theorem Sound.free_of_holds {overrides : Overrides} (h : Sound overrides) {id k : String}
    (hk : Holds family overrides id k) : ¬ Overridden (overrides.erase id) k := by
  intro hoverridden
  obtain ⟨other, own, hne, hget, hmem⟩ := overridden_erase_iff.mp hoverridden
  exact hne (h.holds_unique ((holds_own hget).mpr hmem) hk)

/-- What the others hold is theirs without the action's list, but for what the action holds. -/
theorem Sound.holds_other_iff {overrides : Overrides} (h : Sound overrides) {id other k : String} (hne : other ≠ id) :
    Holds family overrides other k ↔ Holds family (overrides.erase id) other k ∧ ¬ Holds family overrides id k := by
  have hsame := @Dictionary.get_erase_ne _ _ _ overrides id other hne
  cases hother : overrides.get other with
  | some own =>
    rw [holds_own hother, holds_own (hsame.trans hother)]
    refine ⟨fun hk => ⟨hk, ?_⟩, And.left⟩
    intro hid
    exact hne (h.holds_unique ((holds_own hother).mpr hk) hid)
  | none =>
    rw [holds_default hother, holds_default (hsame.trans hother), and_assoc, and_congr_right_iff]
    intro hdefault
    constructor
    · intro hfree
      refine ⟨fun herased => hfree herased.of_erase, ?_⟩
      intro hid
      exact hne (h.holds_unique ((holds_default hother).mpr ⟨hdefault, hfree⟩) hid)
    · rintro ⟨hfree, hid⟩ ⟨a, own, hget, hk⟩
      by_cases ha : a = id
      · subst ha
        exact hid ((holds_own hget).mpr hk)
      · exact hfree (overridden_erase_iff.mpr ⟨a, own, ha, hget, hk⟩)

theorem map_plain (chords : List Chord) : (chords.map plain).map chordKey = chords.map chordKey := by
  rw [List.map_map]
  exact List.map_congr_left fun _ _ => rfl

theorem withChords_get_ne {overrides : Overrides} {id other : String} (chords : List Chord) (hne : other ≠ id) :
    (withChords overrides family id chords).get other = overrides.get other := by
  unfold withChords
  dsimp only
  split
  · exact Dictionary.get_erase_ne hne
  · exact Dictionary.get_set_ne hne _

theorem withChords_get_self (overrides : Overrides) (id : String) (chords : List Chord) :
    ((withChords overrides family id chords).get id = none ∧
      chords.map chordKey = (defaultChords id family).map chordKey) ∨
    (withChords overrides family id chords).get id = some (chords.map plain) := by
  unfold withChords
  dsimp only
  split
  · rename_i hsame
    exact .inl ⟨Dictionary.get_erase_self _ _, sameChords_iff.mp hsame.1⟩
  · exact .inr (Dictionary.get_set_self _ _ _)

section WithChords

variable {overrides : Overrides} {id : String} {chords : List Chord}

theorem overridden_withChords {k : String} (h : Overridden (withChords overrides family id chords) k) :
    Overridden (overrides.erase id) k ∨ k ∈ chords.map chordKey := by
  obtain ⟨other, own, hget, hk⟩ := h
  by_cases hother : other = id
  · subst hother
    obtain ⟨hnone, -⟩ | hsome := @withChords_get_self family overrides other chords
    · simp [hnone] at hget
    · obtain rfl : chords.map plain = own := Option.some.inj (hsome.symm.trans hget)
      exact .inr (map_plain chords ▸ hk)
  · rw [withChords_get_ne chords hother] at hget
    exact .inl (overridden_erase_iff.mpr ⟨other, own, hother, hget, hk⟩)

theorem overridden_withChords_of_erase {k : String} (h : Overridden (overrides.erase id) k) :
    Overridden (withChords overrides family id chords) k := by
  obtain ⟨other, own, hne, hget, hk⟩ := overridden_erase_iff.mp h
  exact ⟨other, own, (withChords_get_ne chords hne).trans hget, hk⟩

/-- The action holds just the chords it was given, where no other list has them. -/
theorem holds_withChords_self (hfree : ∀ k ∈ chords.map chordKey, ¬ Overridden (overrides.erase id) k) {k : String} :
    Holds family (withChords overrides family id chords) id k ↔ k ∈ chords.map chordKey := by
  obtain ⟨hnone, hsame⟩ | hsome := @withChords_get_self family overrides id chords
  · rw [holds_default hnone, ← hsame]
    refine ⟨And.left, fun hk => ⟨hk, ?_⟩⟩
    rintro ⟨other, own, hget, hmem⟩
    have hne : other ≠ id := by
      rintro rfl
      simp [hnone] at hget
    rw [withChords_get_ne chords hne] at hget
    exact hfree k hk (overridden_erase_iff.mpr ⟨other, own, hne, hget, hmem⟩)
  · rw [holds_own hsome, map_plain]

/-- Any other holds what it would without the action's list, but for the chords given. -/
theorem holds_withChords_other (hfree : ∀ k ∈ chords.map chordKey, ¬ Overridden (overrides.erase id) k)
    {other k : String} (hne : other ≠ id) : Holds family (withChords overrides family id chords) other k ↔
      Holds family (overrides.erase id) other k ∧ k ∉ chords.map chordKey := by
  have hget := @withChords_get_ne family overrides id other chords hne
  have herased := @Dictionary.get_erase_ne _ _ _ overrides id other hne
  cases hother : overrides.get other with
  | some own =>
    rw [holds_own (hget.trans hother), holds_own (herased.trans hother)]
    refine ⟨fun hk => ⟨hk, ?_⟩, And.left⟩
    intro hmem
    exact hfree k hmem (overridden_erase_iff.mpr ⟨other, own, hne, hother, hk⟩)
  | none =>
    rw [holds_default (hget.trans hother), holds_default (herased.trans hother), and_assoc, and_congr_right_iff]
    intro hdefault
    constructor
    · intro hnot
      refine ⟨fun h => hnot (overridden_withChords_of_erase h), ?_⟩
      intro hmem
      -- Given back as defaults they are the action's own, and so not the other's.
      obtain ⟨-, hsame⟩ | hsome := @withChords_get_self family overrides id chords
      · exact defaultChords_apart hne hdefault (hsame ▸ hmem)
      · exact hnot ⟨id, _, hsome, (map_plain chords).symm ▸ hmem⟩
    · rintro ⟨herase, hmem⟩ hnot
      exact (overridden_withChords hnot).elim herase hmem

theorem Sound.withChords (h : Sound overrides) (hid : Known id)
    (hfree : ∀ k ∈ chords.map chordKey, ¬ Overridden (overrides.erase id) k) :
    Sound (withChords overrides family id chords) := by
  have hself : ∀ {own}, (Shortcut.withChords overrides family id chords).get id = some own → own = chords.map plain := by
    intro own hget
    obtain ⟨hnone, -⟩ | hsome := @withChords_get_self family overrides id chords
    · simp [hnone] at hget
    · exact Option.some.inj (hget.symm.trans hsome)
  refine ⟨?_, ?_, ?_⟩
  · intro other own hget
    by_cases hother : other = id
    · exact hother ▸ hid
    · exact h.known (withChords_get_ne chords hother ▸ hget)
  · intro other own hget
    by_cases hother : other = id
    · subst hother
      rw [hself hget]
      intro chord hchord
      obtain ⟨c, -, rfl⟩ := List.mem_map.mp hchord
      rfl
    · exact h.bare (withChords_get_ne chords hother ▸ hget)
  · intro a b own other hown hother hne k hk hmem
    by_cases ha : a = id
    · subst ha
      rw [hself hown, map_plain] at hk
      rw [withChords_get_ne chords (Ne.symm hne)] at hother
      exact hfree k hk (overridden_erase_iff.mpr ⟨b, other, Ne.symm hne, hother, hmem⟩)
    · rw [withChords_get_ne chords ha] at hown
      by_cases hb : b = id
      · subst hb
        rw [hself hother, map_plain] at hmem
        exact hfree k hmem (overridden_erase_iff.mpr ⟨a, own, ha, hown, hk⟩)
      · rw [withChords_get_ne chords hb] at hother
        exact h.apart hown hother hne k hk hmem

end WithChords

/-! ### Taking a chord away and giving it -/

section Bind

variable {overrides : Overrides} {id : String} {chord : Chord}

theorem mem_left_iff {k : String} :
    k ∈ ((chordsFor id family overrides).filter fun held => chordKey held != chordKey chord).map chordKey ↔
      Holds family overrides id k ∧ k ≠ chordKey chord := by
  unfold Holds
  simp only [List.mem_map, List.mem_filter, bne_iff_ne]
  constructor
  · rintro ⟨held, ⟨hmem, hne⟩, rfl⟩
    exact ⟨⟨held, hmem, rfl⟩, hne⟩
  · rintro ⟨⟨held, hmem, rfl⟩, hne⟩
    exact ⟨held, ⟨hmem, hne⟩, rfl⟩

theorem Sound.left_free (h : Sound overrides) : ∀ k ∈ ((chordsFor id family overrides).filter fun held =>
    chordKey held != chordKey chord).map chordKey, ¬ Overridden (overrides.erase id) k :=
  fun _ hk => h.free_of_holds (mem_left_iff.mp hk).1

theorem Sound.unbind (h : Sound overrides) (hid : Known id) : Sound (unbind overrides family id chord) :=
  h.withChords hid h.left_free

theorem Sound.holds_unbind_self (h : Sound overrides) {k : String} :
    Holds family (Shortcut.unbind overrides family id chord) id k ↔
      Holds family overrides id k ∧ k ≠ chordKey chord :=
  (holds_withChords_self h.left_free).trans mem_left_iff

/-- The chord that is freed is another's again where it is one of its defaults. -/
theorem Sound.holds_unbind_other (h : Sound overrides) {other k : String} (hne : other ≠ id) :
    Holds family (Shortcut.unbind overrides family id chord) other k ↔
      Holds family (overrides.erase id) other k ∧ ¬ (Holds family overrides id k ∧ k ≠ chordKey chord) :=
  (holds_withChords_other h.left_free hne).trans (and_congr_right fun _ => not_congr mem_left_iff)

/-- Nothing else changes. -/
theorem Sound.holds_unbind_iff (h : Sound overrides) {other k : String} (hk : k ≠ chordKey chord) :
    Holds family (Shortcut.unbind overrides family id chord) other k ↔ Holds family overrides other k := by
  by_cases hother : other = id
  · subst hother
    rw [h.holds_unbind_self, and_iff_left hk]
  · rw [h.holds_unbind_other hother, h.holds_other_iff hother, and_iff_left hk]

/-- Taken from its holder, a chord is in no list. -/
theorem Sound.not_overridden_unbind (h : Sound overrides) (hholds : Holds family overrides id (chordKey chord)) :
    ¬ Overridden (Shortcut.unbind overrides family id chord) (chordKey chord) := by
  intro hoverridden
  obtain herase | hleft := overridden_withChords hoverridden
  · exact h.free_of_holds hholds herase
  · exact (mem_left_iff.mp hleft).2 rfl

/-- Taken from the action whose default it is, it is nobody's. -/
theorem Sound.not_holds_unbind (h : Sound overrides) (hfree : ¬ Overridden overrides (chordKey chord))
    (hholds : Holds family overrides id (chordKey chord)) (other : String) :
    ¬ Holds family (Shortcut.unbind overrides family id chord) other (chordKey chord) := by
  intro hother
  by_cases hne : other = id
  · subst hne
    exact (h.holds_unbind_self.mp hother).2 rfl
  · have herased := ((h.holds_unbind_other hne).mp hother).1
    cases hown : overrides.get id with
    | some own => exact hfree ⟨id, own, hown, (holds_own hown).mp hholds⟩
    | none =>
      have hdefault := ((holds_default hown).mp hholds).1
      cases hlist : (overrides.erase id).get other with
      | some own => exact hfree (Overridden.of_erase ⟨other, own, hlist, (holds_own hlist).mp herased⟩)
      | none => exact defaultChords_apart hne ((holds_default hlist).mp herased).1 hdefault

theorem holderOf_eq_some {except : Option String} {holder : String}
    (h : holderOf chord family overrides except = some holder) :
    some holder ≠ except ∧ Holds family overrides holder (chordKey chord) := by
  have hfound := List.find?_some h
  obtain ⟨hexcept, hany⟩ := Bool.and_eq_true_iff.mp hfound
  obtain ⟨held, hmem, hkey⟩ := List.any_eq_true.mp hany
  exact ⟨bne_iff_ne.mp hexcept, List.mem_map.mpr ⟨held, hmem, beq_iff_eq.mp hkey⟩⟩

theorem holderOf_eq_none {except : Option String} (h : holderOf chord family overrides except = none) {holder : String}
    (hholder : some holder ≠ except) : ¬ Holds family overrides holder (chordKey chord) := by
  intro hholds
  have hnot := List.find?_eq_none.mp h holder (mem_boundIds_of_holds hholds)
  obtain ⟨held, hmem, hkey⟩ := List.mem_map.mp hholds
  have hany : ((chordsFor holder family overrides).any fun held => chordKey held == chordKey chord) = true :=
    List.any_eq_true.mpr ⟨held, hmem, beq_iff_eq.mpr hkey⟩
  exact hnot (Bool.and_eq_true_iff.mpr ⟨bne_iff_ne.mpr hholder, hany⟩)

theorem truthy_eq {id : Option String} (h : ∀ s, id = some s → s ≠ "") : truthy id = id := by
  unfold truthy
  split
  · exact absurd rfl (h "" rfl)
  · rfl

/-- Every holder is one that counts where the lists are sound. -/
theorem Sound.truthy_holderOf (h : Sound overrides) {except : Option String} :
    truthy (holderOf chord family overrides except) = holderOf chord family overrides except := by
  apply truthy_eq
  intro holder hholder
  exact (h.known_of_bound (mem_boundIds_of_holds (holderOf_eq_some hholder).2)).ne_empty

theorem Sound.freeTurn_cases (h : Sound overrides) :
    (freeTurn family id chord overrides = .inl overrides ∧
      ∀ other ≠ id, ¬ Holds family overrides other (chordKey chord)) ∨
    ∃ holder ≠ id, Known holder ∧ Holds family overrides holder (chordKey chord) ∧
      freeTurn family id chord overrides = .inr (Shortcut.unbind overrides family holder chord) := by
  unfold freeTurn
  rw [h.truthy_holderOf]
  cases hholder : holderOf chord family overrides (some id) with
  | none =>
    refine .inl ⟨rfl, fun other hother => holderOf_eq_none hholder ?_⟩
    simpa using hother
  | some holder =>
    obtain ⟨hexcept, hholds⟩ := holderOf_eq_some hholder
    have hne : holder ≠ id := by simpa using hexcept
    exact .inr ⟨holder, hne, h.known_of_bound (mem_boundIds_of_holds hholds), hholds, rfl⟩

/-- The loop of `bind` takes the chord from its holder, and then from the action whose default came back with that:
three turns are enough. -/
theorem Sound.freeTurns (h : Sound overrides) (id : String) (chord : Chord) : ∃ next, Sound next ∧
    (∀ other ≠ id, ¬ Holds family next other (chordKey chord)) ∧
    (∀ other k, k ≠ chordKey chord → (Holds family next other k ↔ Holds family overrides other k)) ∧
    ∀ n, Loop.turns (freeTurn family id chord) (n + 3) overrides = .inl next := by
  obtain ⟨hend, hnone⟩ | ⟨a, -, ha, hfirst, hturn⟩ := @Sound.freeTurn_cases family _ id chord h
  · exact ⟨overrides, h, hnone, fun _ _ _ => Iff.rfl, fun n => Loop.turns_of_inl hend (n + 2)⟩
  · have hsound := @Sound.unbind family _ _ chord h ha
    have hfree := h.not_overridden_unbind hfirst
    have hkept := fun other k hk => @Sound.holds_unbind_iff family _ a chord h other k hk
    obtain ⟨hend, hnone⟩ | ⟨b, -, hb, hsecond, hturn'⟩ := @Sound.freeTurn_cases family _ id chord hsound
    · refine ⟨_, hsound, hnone, hkept, fun n => ?_⟩
      rw [Loop.turns_of_inr hturn, Loop.turns_of_inl hend (n + 1)]
    · have hsound' := @Sound.unbind family _ _ chord hsound hb
      have hnobody := hsound.not_holds_unbind hfree hsecond
      obtain ⟨hend, hnone⟩ | ⟨c, -, -, hthird, -⟩ := @Sound.freeTurn_cases family _ id chord hsound'
      · refine ⟨_, hsound', hnone, ?_, fun n => ?_⟩
        · intro other k hk
          exact (hsound.holds_unbind_iff hk).trans (hkept other k hk)
        · rw [Loop.turns_of_inr hturn, Loop.turns_of_inr hturn', Loop.turns_of_inl hend n]
      · exact absurd hthird (hnobody c)

/-- Afterwards the action holds the chord and nobody else does; every other chord is where it was. -/
theorem Sound.bind (h : Sound overrides) (hid : Known id) (chord : Chord) : ∃ next, Sound next ∧
    (∀ other k, Holds family next other k ↔ if k = chordKey chord then other = id else Holds family overrides other k) ∧
    ∀ n, Shortcut.bind (n + 3) overrides family id chord = some next := by
  obtain ⟨freed, hsound, hnone, hkept, hturns⟩ := @Sound.freeTurns family overrides h id chord
  have hbind : ∀ n, Shortcut.bind (n + 3) overrides family id chord =
      if ((chordsFor id family freed).any fun one => chordKey one == chordKey chord) = true then some freed
      else some (Shortcut.withChords freed family id (chordsFor id family freed ++ [plain chord])) := by
    intro n
    rw [Shortcut.bind, hturns n]
  by_cases hheld : ((chordsFor id family freed).any fun one => chordKey one == chordKey chord) = true
  · refine ⟨freed, hsound, ?_, fun n => (hbind n).trans (if_pos hheld)⟩
    obtain ⟨one, hmem, hkey⟩ := List.any_eq_true.mp hheld
    have hholds : Holds family freed id (chordKey chord) := List.mem_map.mpr ⟨one, hmem, beq_iff_eq.mp hkey⟩
    intro other k
    split
    · rename_i hk
      subst hk
      refine ⟨fun hother => hsound.holds_unique hother hholds, ?_⟩
      rintro rfl
      exact hholds
    · rename_i hk
      exact hkept other k hk
  · have hkeys : ∀ k, k ∈ (chordsFor id family freed ++ [plain chord]).map chordKey ↔
        Holds family freed id k ∨ k = chordKey chord := by
      intro k
      rw [List.map_append, List.mem_append, List.map_singleton, List.mem_singleton]
      exact Iff.rfl
    have hfree : ∀ k ∈ (chordsFor id family freed ++ [plain chord]).map chordKey, ¬ Overridden (freed.erase id) k := by
      intro k hk
      obtain hholds | rfl := (hkeys k).mp hk
      · exact hsound.free_of_holds hholds
      · intro hoverridden
        obtain ⟨other, own, hne, hget, hmem⟩ := overridden_erase_iff.mp hoverridden
        exact hnone other hne ((holds_own hget).mpr hmem)
    refine ⟨_, hsound.withChords hid hfree, ?_, fun n => (hbind n).trans (if_neg hheld)⟩
    intro other k
    by_cases hother : other = id
    · subst hother
      rw [holds_withChords_self hfree, hkeys]
      split
      · rename_i hk
        exact iff_of_true (.inr hk) rfl
      · rename_i hk
        rw [or_iff_left hk]
        exact hkept other k hk
    · rw [holds_withChords_other hfree hother, hkeys]
      split
      · rename_i hk
        exact iff_of_false (fun hand => hand.2 (.inr hk)) hother
      · rename_i hk
        rw [or_iff_left hk, ← hsound.holds_other_iff hother]
        exact hkept other k hk

theorem Sound.filter (h : Sound overrides) (keep : String → Bool) : Sound (Dictionary.filter overrides keep) := by
  refine ⟨?_, ?_, ?_⟩
  · exact fun hget => h.known (Dictionary.get_filter_eq_some_iff.mp hget).1
  · exact fun hget => h.bare (Dictionary.get_filter_eq_some_iff.mp hget).1
  · exact fun hown hother => h.apart (Dictionary.get_filter_eq_some_iff.mp hown).1
      (Dictionary.get_filter_eq_some_iff.mp hother).1

theorem Sound.resetAction (h : Sound overrides) (hid : Known id) : Sound (resetAction overrides family id) := by
  have herased : Sound (overrides.erase id) := h.filter _
  apply herased.withChords hid
  intro k hk hoverridden
  obtain ⟨chord, hmem, rfl⟩ := List.mem_map.mp hk
  have hfree := (List.mem_filter.mp hmem).2
  rw [herased.truthy_holderOf, Option.isNone_iff_eq_none] at hfree
  obtain ⟨other, own, hne, hget, hkey⟩ := overridden_erase_iff.mp hoverridden
  exact holderOf_eq_none hfree (by simpa using hne) ((holds_own hget).mpr hkey)

end Bind

/-! ### Every keymap that can come about -/

/-- The overrides that come of the empty ones by any changes, with chords that may be given. -/
inductive Reached (family : Family) (allowed : Chord → Prop) : Overrides → Prop
  | empty : Reached family allowed Dictionary.empty
  | bind {overrides next : Overrides} {turns : ℕ} {id : String} {chord : Chord} : Reached family allowed overrides →
      Known id → allowed chord → bind turns overrides family id chord = some next → Reached family allowed next
  | unbind {overrides : Overrides} {id : String} (chord : Chord) : Reached family allowed overrides → Known id →
      Reached family allowed (unbind overrides family id chord)
  | resetAction {overrides : Overrides} {id : String} : Reached family allowed overrides → Known id →
      Reached family allowed (resetAction overrides family id)
  | pruneOverrides {overrides : Overrides} (known : String → Bool) : Reached family allowed overrides →
      Reached family allowed (pruneOverrides overrides known)

/-- However many turns it was given, what `bind` returns is the same. -/
theorem bind_result {turns : ℕ} {overrides next : Overrides} {id : String} {chord : Chord}
    (h : bind turns overrides family id chord = some next) (n : ℕ) :
    bind (turns + n) overrides family id chord = some next := by
  unfold bind at h ⊢
  cases hturns : Loop.turns (freeTurn family id chord) turns overrides with
  | inr _ => simp [hturns] at h
  | inl freed =>
    rw [Loop.turns_mono (Nat.le_add_right turns n) hturns]
    rwa [hturns] at h

theorem Reached.sound {allowed : Chord → Prop} {overrides : Overrides} (h : Reached family allowed overrides) :
    Sound overrides := by
  induction h with
  | empty => exact sound_empty
  | @bind overrides next turns id chord _ hid _ hbind ih =>
    obtain ⟨result, hsound, -, hresult⟩ := @Sound.bind family _ _ ih hid chord
    have hsame : some next = some result := by
      rw [← bind_result hbind 3, hresult turns]
    obtain rfl := Option.some.inj hsame
    exact hsound
  | unbind chord _ hid ih => exact ih.unbind hid
  | resetAction _ hid ih => exact ih.resetAction hid
  | pruneOverrides known _ ih => exact ih.filter _

/-! ### The key event of a chord -/

/-- The code of a key names it without a plus sign, as the codes of all keyboard events do. -/
def PlainCode (chord : Chord) : Prop := '+' ∉ chord.code.toList

instance (chord : Chord) : Decidable (PlainCode chord) := by
  unfold PlainCode
  infer_instance

/-- What stands before the code in a chord's key. -/
def modifiers (chord : Chord) : List Char :=
  (if chord.ctrl then "ctrl+".toList else []) ++ (if chord.alt then "alt+".toList else []) ++
    (if chord.shift then "shift+".toList else []) ++ (if chord.metaMod then "meta+".toList else [])

theorem chordKey_toList (chord : Chord) : (chordKey chord).toList = modifiers chord ++ chord.code.toList := by
  have hif : ∀ (b : Bool) (s : String), (if b then s else "").toList = if b then s.toList else [] := by
    intro b s
    cases b <;> rfl
  simp only [chordKey, modifiers, String.toList_append, hif]

theorem modifiers_end (chord : Chord) : modifiers chord = [] ∨ ∃ front, modifiers chord = front ++ ['+'] := by
  obtain ⟨c, s, a, m, code, keys⟩ := chord
  unfold modifiers
  have hctrl : "ctrl+".toList = "ctrl".toList ++ ['+'] := by decide +kernel
  have halt : "alt+".toList = "alt".toList ++ ['+'] := by decide +kernel
  have hshift : "shift+".toList = "shift".toList ++ ['+'] := by decide +kernel
  have hmeta : "meta+".toList = "meta".toList ++ ['+'] := by decide +kernel
  dsimp only
  rw [hctrl, halt, hshift, hmeta]
  cases m with
  | true => exact .inr ⟨_, (List.append_assoc _ _ _).symm⟩
  | false =>
    rw [if_neg Bool.false_ne_true, List.append_nil]
    cases s with
    | true => exact .inr ⟨_, (List.append_assoc _ _ _).symm⟩
    | false =>
      rw [if_neg Bool.false_ne_true, List.append_nil]
      cases a with
      | true => exact .inr ⟨_, (List.append_assoc _ _ _).symm⟩
      | false =>
        rw [if_neg Bool.false_ne_true, List.append_nil]
        cases c with
        | true => exact .inr ⟨_, rfl⟩
        | false => exact .inl rfl

/-- Behind the last plus sign the text is the code. -/
theorem takeWhile_chordKey {chord : Chord} (h : PlainCode chord) :
    (chordKey chord).toList.reverse.takeWhile (· != '+') = chord.code.toList.reverse := by
  have hall : ∀ c ∈ chord.code.toList.reverse, (c != '+') = true := by
    intro c hc
    have hmem := List.mem_reverse.mp hc
    rw [bne_iff_ne]
    rintro rfl
    exact h hmem
  rw [chordKey_toList, List.reverse_append, List.takeWhile_append_of_pos hall]
  obtain hnil | ⟨front, hfront⟩ := modifiers_end chord
  · rw [hnil, List.reverse_nil, List.takeWhile_nil, List.append_nil]
  · rw [hfront, List.reverse_append, List.reverse_singleton, List.singleton_append, List.takeWhile_cons_of_neg (by decide),
      List.append_nil]

/-- Two such chords with one key are the same keys to hold and to press. -/
theorem chordKey_injective {a b : Chord} (ha : PlainCode a) (hb : PlainCode b) (h : chordKey a = chordKey b) :
    a.ctrl = b.ctrl ∧ a.alt = b.alt ∧ a.shift = b.shift ∧ a.metaMod = b.metaMod ∧ a.code = b.code := by
  have hcode : a.code = b.code := by
    have hreverse : a.code.toList.reverse = b.code.toList.reverse := by
      rw [← takeWhile_chordKey ha, h, takeWhile_chordKey hb]
    exact String.toList_inj.mp (List.reverse_injective hreverse)
  have hmodifiers : modifiers a = modifiers b := by
    have hlists := congrArg String.toList h
    rw [chordKey_toList, chordKey_toList, hcode] at hlists
    exact List.append_cancel_right hlists
  have hall : ∀ c s t m c' s' t' m' : Bool, modifiers ⟨c, s, t, m, "", []⟩ = modifiers ⟨c', s', t', m', "", []⟩ →
      c = c' ∧ t = t' ∧ s = s' ∧ m = m' := by decide +kernel
  obtain ⟨hc, ht, hs, hm⟩ := hall a.ctrl a.shift a.alt a.metaMod b.ctrl b.shift b.alt b.metaMod hmodifiers
  exact ⟨hc, ht, hs, hm, hcode⟩

/-- Every chord in a list has such a code. -/
def Spelled (overrides : Overrides) : Prop :=
  ∀ id own, overrides.get id = some own → ∀ chord ∈ own, PlainCode chord

theorem plainCode_of_default {id : String} {chord : Chord} (h : chord ∈ defaultChords id family) : PlainCode chord := by
  have htable : ∀ x ∈ defaults, ∀ chord ∈ x.2.mac ++ x.2.other, '+' ∉ chord.code.toList := by decide +kernel
  unfold defaultChords at h
  cases hx : defaults.lookup id with
  | none => simp [hx] at h
  | some x =>
    rw [hx] at h
    apply htable _ (mem_of_lookup hx)
    cases family with
    | mac => exact List.mem_append_left _ h
    | other => exact List.mem_append_right _ h

theorem mem_chordsFor {overrides : Overrides} {id : String} {chord : Chord} (h : chord ∈ chordsFor id family overrides) :
    (∃ own, overrides.get id = some own ∧ chord ∈ own) ∨ chord ∈ defaultChords id family := by
  unfold chordsFor at h
  cases hown : overrides.get id with
  | some own =>
    rw [hown] at h
    exact .inl ⟨own, rfl, h⟩
  | none =>
    rw [hown] at h
    exact .inr (List.mem_filter.mp h).1

theorem Spelled.chordsFor {overrides : Overrides} (h : Spelled overrides) {id : String} :
    ∀ chord ∈ chordsFor id family overrides, PlainCode chord := by
  intro chord hmem
  obtain ⟨own, hget, hown⟩ | hdefault := mem_chordsFor hmem
  · exact h id own hget chord hown
  · exact plainCode_of_default hdefault

theorem Spelled.withChords {overrides : Overrides} (h : Spelled overrides) {id : String} {chords : List Chord}
    (hchords : ∀ chord ∈ chords, PlainCode chord) : Spelled (withChords overrides family id chords) := by
  intro other own hget
  by_cases hother : other = id
  · subst hother
    obtain ⟨hnone, -⟩ | hsome := @withChords_get_self family overrides other chords
    · simp [hnone] at hget
    · obtain rfl : chords.map plain = own := Option.some.inj (hsome.symm.trans hget)
      intro chord hchord
      obtain ⟨c, hc, rfl⟩ := List.mem_map.mp hchord
      exact hchords c hc
  · exact h other own (withChords_get_ne chords hother ▸ hget)

theorem Spelled.unbind {overrides : Overrides} (h : Spelled overrides) {id : String} {chord : Chord} :
    Spelled (unbind overrides family id chord) :=
  h.withChords fun c hc => h.chordsFor c (List.mem_of_mem_filter hc)

theorem Spelled.filter {overrides : Overrides} (h : Spelled overrides) (keep : String → Bool) :
    Spelled (Dictionary.filter overrides keep) :=
  fun id own hget => h id own (Dictionary.get_filter_eq_some_iff.mp hget).1

theorem Spelled.bind {turns : ℕ} {overrides next : Overrides} (h : Spelled overrides) {id : String} {chord : Chord}
    (hchord : PlainCode chord) (hbind : bind turns overrides family id chord = some next) : Spelled next := by
  unfold Shortcut.bind at hbind
  have hloop := @Loop.turns_keep _ _ (freeTurn family id chord) Spelled Spelled (by
    intro s hs
    unfold freeTurn
    split
    · exact hs
    · exact hs.unbind) turns overrides h
  cases hturns : Loop.turns (freeTurn family id chord) turns overrides with
  | inr _ => simp [hturns] at hbind
  | inl freed =>
    rw [hturns] at hbind hloop
    have hfreed : Spelled freed := hloop
    dsimp only at hbind
    split at hbind
    · obtain rfl := Option.some.inj hbind
      exact hfreed
    · obtain rfl := Option.some.inj hbind
      apply hfreed.withChords
      exact List.forall_mem_append.mpr ⟨hfreed.chordsFor, List.forall_mem_singleton.mpr hchord⟩

theorem Reached.spelled {allowed : Chord → Prop} (hallowed : ∀ chord, allowed chord → PlainCode chord)
    {overrides : Overrides} (h : Reached family allowed overrides) : Spelled overrides := by
  induction h with
  | empty =>
    intro id own hget
    cases hget
  | bind _ _ hchord hbind ih => exact ih.bind (hallowed _ hchord) hbind
  | unbind chord _ _ ih => exact ih.unbind
  | resetAction _ _ ih =>
    exact Spelled.withChords (ih.filter _) fun c hc => plainCode_of_default (List.mem_of_mem_filter hc)
  | pruneOverrides known _ ih => exact ih.filter _

/-- The event of just this chord: no modifier's own key, no input method at work, and a character that is not one
of those that count as a default's key. -/
structure Strikes (event : KeyLike) (chord : Chord) : Prop where
  ctrl : event.ctrlKey = chord.ctrl
  alt : event.altKey = chord.alt
  shift : event.shiftKey = chord.shift
  metaMod : event.metaKey = chord.metaMod
  code : event.code = chord.code
  notComposing : composing event = false
  notModifier : isModifierCode event.code = false
  noAlias : ∀ x ∈ defaults, ∀ chord ∈ x.2.mac ++ x.2.other, event.key ∉ chord.keys

theorem isMatch_iff {event : KeyLike} {chord : Chord} (h : event.key ∉ chord.keys) : isMatch event chord = true ↔
    event.ctrlKey = chord.ctrl ∧ event.altKey = chord.alt ∧ event.shiftKey = chord.shift ∧
      event.metaKey = chord.metaMod ∧ event.code = chord.code := by
  have hkeys : chord.keys.contains event.key = false := by simpa using h
  unfold isMatch
  simp only [hkeys, bne_iff_ne, ne_eq, Bool.false_eq_true, if_false]
  by_cases hctrl : event.ctrlKey = chord.ctrl <;> by_cases halt : event.altKey = chord.alt <;>
    by_cases hshift : event.shiftKey = chord.shift <;> by_cases hmeta : event.metaKey = chord.metaMod <;>
      simp [hctrl, halt, hshift, hmeta]

/-- The event matches an action's chords just where the action has the chord. -/
theorem Strikes.any_iff {event : KeyLike} {chord : Chord} (h : Strikes event chord) (hplain : PlainCode chord)
    {overrides : Overrides} (hsound : Sound overrides) (hspelled : Spelled overrides) {id : String} :
    (chordsFor id family overrides).any (isMatch event) = true ↔ Holds family overrides id (chordKey chord) := by
  have hkeys : ∀ held ∈ chordsFor id family overrides, event.key ∉ held.keys := by
    intro held hmem
    obtain ⟨own, hget, hown⟩ | hdefault := mem_chordsFor hmem
    · rw [hsound.bare hget held hown]
      exact List.not_mem_nil
    · unfold defaultChords at hdefault
      cases hx : defaults.lookup id with
      | none => simp [hx] at hdefault
      | some x =>
        rw [hx] at hdefault
        apply h.noAlias _ (mem_of_lookup hx)
        cases family with
        | mac => exact List.mem_append_left _ hdefault
        | other => exact List.mem_append_right _ hdefault
  rw [List.any_eq_true, Holds, List.mem_map]
  constructor
  · rintro ⟨held, hmem, hmatch⟩
    obtain ⟨hctrl, halt, hshift, hmeta, hcode⟩ := (isMatch_iff (hkeys held hmem)).mp hmatch
    refine ⟨held, hmem, ?_⟩
    rw [chordKey, chordKey, ← hctrl, ← halt, ← hshift, ← hmeta, ← hcode, h.ctrl, h.alt, h.shift, h.metaMod, h.code]
  · rintro ⟨held, hmem, hkey⟩
    obtain ⟨hctrl, halt, hshift, hmeta, hcode⟩ := chordKey_injective (hspelled.chordsFor held hmem) hplain hkey
    refine ⟨held, hmem, (isMatch_iff (hkeys held hmem)).mpr ⟨?_, ?_, ?_, ?_, ?_⟩⟩
    · exact h.ctrl.trans hctrl.symm
    · exact h.alt.trans halt.symm
    · exact h.shift.trans hshift.symm
    · exact h.metaMod.trans hmeta.symm
    · exact h.code.trans hcode.symm

/-- The one action that matches is what the loop finds. -/
theorem firstAction_eq {event : KeyLike} {hasSelection : Bool} {overrides : Overrides} {id : String}
    {action : ShortcutAction} (hmatch : ∀ other,
      (chordsFor other family overrides).any (isMatch event) = true ↔ other = id)
    (haction : actionOf id = some action) (hcopy : id = "copy" → hasSelection = true) {ids : List String}
    (hmem : id ∈ ids) : firstAction event hasSelection family overrides ids = some (some action) := by
  induction ids with
  | nil => simp at hmem
  | cons other ids ih =>
    rw [firstAction]
    by_cases hother : other = id
    · subst hother
      have hselected : ¬ (other = "copy" ∧ hasSelection = false) := by
        rintro ⟨hid, hnone⟩
        exact Bool.false_ne_true (hnone.symm.trans (hcopy hid))
      rw [(hmatch other).mpr rfl, if_neg (by decide), if_neg hselected, haction]
    · have hnot := Bool.eq_false_iff.mpr fun hany => hother ((hmatch other).mp hany)
      rw [if_pos hnot]
      exact ih ((List.mem_cons.mp hmem).resolve_left fun heq => hother heq.symm)

/-- The event of a chord that an action holds is that action's shortcut. -/
theorem shortcutFor_of_holds {overrides : Overrides} (hsound : Sound overrides) (hspelled : Spelled overrides)
    {system : Platform} {id : String} {chord : Chord} (hplain : PlainCode chord)
    (hholds : Holds (familyOf system) overrides id (chordKey chord)) {event : KeyLike} (h : Strikes event chord)
    (ctrlCCopies : Bool) {hasSelection : Bool} (hcopy : id = "copy" → hasSelection = true) :
    shortcutFor event ctrlCCopies hasSelection system overrides = actionOf id := by
  have hmem := mem_boundIds_of_holds hholds
  obtain ⟨action, haction⟩ := Option.isSome_iff_exists.mp (hsound.known_of_bound hmem)
  have hmatch : ∀ other, (chordsFor other (familyOf system) overrides).any (isMatch event) = true ↔ other = id := by
    intro other
    rw [h.any_iff hplain hsound hspelled]
    refine ⟨fun hother => hsound.holds_unique hother hholds, ?_⟩
    rintro rfl
    exact hholds
  have hstart : ¬ (composing event = true ∨ isModifierCode event.code = true) := by
    rw [h.notComposing, h.notModifier]
    decide
  rw [shortcutFor, if_neg hstart, firstAction_eq hmatch haction hcopy hmem, haction]

/-- One chord is one action's, in every keymap that can come about. Giving it ends, and gives it to that action and
to no other, with every other chord where it was; where codes are plain, the chord's event is then the action's. -/
theorem one_chord_one_action {allowed : Chord → Prop} {overrides : Overrides} (h : Reached family allowed overrides) :
    (∀ a b chord, chord ∈ chordsFor a family overrides → ∀ other ∈ chordsFor b family overrides,
      chordKey chord = chordKey other → a = b) ∧
    ∀ id chord, Known id → ∃ next,
      (∀ n, bind (n + 3) overrides family id chord = some next) ∧
      (∀ other k, Holds family next other k ↔ if k = chordKey chord then other = id else Holds family overrides other k) ∧
      ((∀ c, allowed c → PlainCode c) → PlainCode chord → ∀ system, familyOf system = family → ∀ event,
        Strikes event chord → ∀ ctrlCCopies hasSelection, (id = "copy" → hasSelection = true) →
          shortcutFor event ctrlCCopies hasSelection system next = actionOf id) := by
  have hsound := h.sound
  refine ⟨?_, ?_⟩
  · intro a b chord hchord other hother hkey
    apply hsound.holds_unique (List.mem_map_of_mem hchord)
    exact hkey ▸ List.mem_map_of_mem hother
  · intro id chord hid
    obtain ⟨next, hnext, hholds, hbind⟩ := @Sound.bind family _ _ hsound hid chord
    refine ⟨next, hbind, hholds, ?_⟩
    intro hallowed hplain system hsystem event hstrikes ctrlCCopies hasSelection hcopy
    subst hsystem
    have hspelled := (h.spelled hallowed).bind hplain (hbind 0)
    exact shortcutFor_of_holds hnext hspelled hplain ((hholds id _).mpr (by rw [if_pos rfl])) hstrikes ctrlCCopies hcopy

def ctrlPageDown : KeyLike :=
  { key := "PageDown", code := "PageDown", ctrlKey := true, shiftKey := false, altKey := false, metaKey := false }

/-- A default that another action has taken and given up again comes back when its own action is reset, and is
taken once more. -/
theorem one_chord_one_action_taken : ∃ taken next,
    chordsFor "next-tab" .other taken = [ctrl "Tab"] ∧
      chordsFor "next-tab" .other (resetAction taken .other "next-tab") = [ctrl "Tab", ctrl "PageDown"] ∧
      (∀ n, bind (n + 3) (resetAction taken .other "next-tab") .other "settings" (ctrl "PageDown") = some next) ∧
      (∀ other, Holds .other next other (chordKey (ctrl "PageDown")) ↔ other = "settings") ∧
      shortcutFor ctrlPageDown true false .windows next = some (.bound .settings) := by
  have htunnels : Known "tunnels" := by decide +kernel
  have hsettings : Known "settings" := by decide +kernel
  have hplain : PlainCode (ctrl "PageDown") := by decide +kernel
  obtain ⟨first, hfirst, -⟩ := (@one_chord_one_action .other PlainCode _ .empty).2 "tunnels" (ctrl "PageDown") htunnels
  let taken := unbind first .other "tunnels" (ctrl "PageDown")
  have hreached : Reached .other PlainCode (resetAction taken .other "next-tab") :=
    .resetAction (.unbind _ (.bind .empty htunnels hplain (hfirst 0)) htunnels) (by decide +kernel)
  have hrun : (bind 3 Dictionary.empty .other "tunnels" (ctrl "PageDown")).map (fun first =>
      (chordsFor "next-tab" .other (unbind first .other "tunnels" (ctrl "PageDown")),
        chordsFor "next-tab" .other
          (resetAction (unbind first .other "tunnels" (ctrl "PageDown")) .other "next-tab"))) =
      some ([ctrl "Tab"], [ctrl "Tab", ctrl "PageDown"]) := by decide +kernel
  have hfirst' : bind 3 Dictionary.empty .other "tunnels" (ctrl "PageDown") = some first := hfirst 0
  rw [hfirst', Option.map_some] at hrun
  obtain ⟨hwithout, hback⟩ := Prod.mk.inj (Option.some.inj hrun)
  obtain ⟨next, hbind, hholds, hshortcut⟩ :=
    (one_chord_one_action hreached).2 "settings" (ctrl "PageDown") hsettings
  have hstrikes : Strikes ctrlPageDown (ctrl "PageDown") :=
    ⟨rfl, rfl, rfl, rfl, rfl, rfl, by decide +kernel, by decide +kernel⟩
  have hkey := hshortcut (fun _ => id) hplain .windows rfl ctrlPageDown hstrikes true false
    (fun hcopy => absurd hcopy (by decide))
  have haction : actionOf "settings" = some (.bound .settings) := by decide +kernel
  refine ⟨taken, next, hwithout, hback, hbind, fun other => ?_, hkey.trans haction⟩
  rw [hholds, if_pos rfl]

/-- A code that is written like another chord's key: given the chord it stands for, the action keeps the code it
has, and the chord's event is nobody's. -/
theorem chord_not_always_action : ¬ ∀ (family : Family) (overrides : Overrides),
    Reached family (fun _ => True) overrides → ∀ id chord, Known id → ∃ next,
      (∀ n, bind (n + 3) overrides family id chord = some next) ∧
      ∀ system, familyOf system = family → ∀ event, Strikes event chord → ∀ ctrlCCopies hasSelection,
        (id = "copy" → hasSelection = true) → shortcutFor event ctrlCCopies hasSelection system next = actionOf id := by
  intro hclaim
  let event : KeyLike := { key := "t", code := "KeyT", ctrlKey := true, shiftKey := false, altKey := false, metaKey := false }
  have hknown : Known "settings" := by decide +kernel
  obtain ⟨first, -, -, hfirst⟩ := @Sound.bind .other _ _ sound_empty hknown { code := "ctrl+KeyT" }
  obtain ⟨next, hsecond, hshortcut⟩ := hclaim .other first (.bind .empty hknown trivial (hfirst 0)) "settings" (ctrl "KeyT") hknown
  have hstrikes : Strikes event (ctrl "KeyT") := ⟨rfl, rfl, rfl, rfl, rfl, rfl, by decide +kernel, by decide +kernel⟩
  have haction := hshortcut .windows rfl event hstrikes false false (fun hcopy => absurd hcopy (by decide))
  have hrun : ((bind 3 Dictionary.empty .other "settings" { code := "ctrl+KeyT" }).bind fun first =>
      (bind 3 first .other "settings" (ctrl "KeyT")).map fun next => shortcutFor event false false .windows next) =
      some none := by decide +kernel
  have hnone : shortcutFor event false false .windows next = none := by
    have hfirst' : bind 3 Dictionary.empty .other "settings" { code := "ctrl+KeyT" } = some first := hfirst 0
    have hsecond' : bind 3 first .other "settings" (ctrl "KeyT") = some next := hsecond 0
    rw [hfirst', Option.bind_some, hsecond', Option.map_some] at hrun
    exact Option.some.inj hrun
  have hsettings : actionOf "settings" ≠ none := by decide +kernel
  exact hsettings (haction.symm.trans hnone)

end UwuSsh.Shortcut

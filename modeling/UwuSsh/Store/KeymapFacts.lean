import UwuSsh.Store.Keymaps

/-!
What a keymap that arrived by sync is cut down to is what the form accepts, and what the form writes is not
cut down.
-/
namespace UwuSsh

open Text Fallible InTx

section ids

/-- An id reads back from the text it has. -/
theorem parseUuid_uuidText (id : Uuid) : parseUuid (uuidText id) = some id := by
  have hlen := length_hexChars 32 id.toNat
  have hvalue : hexValue (hexChars 32 id.toNat) = some id.toNat := by
    have hbound : id.toNat < 16 ^ 32 := id.isLt
    rw [hexValue_hexChars, Nat.mod_eq_of_lt hbound]
  rw [parseUuid, uuidText, String.toList_ofList]
  simp only [List.append_assoc, List.cons_append]
  generalize hexChars 32 id.toNat = digits at hlen hvalue
  have h8 : (digits.take 8).length = 8 := by simp [hlen]
  have h4 : ((digits.drop 8).take 4).length = 4 := by simp [hlen]
  have h4' : ((digits.drop 12).take 4).length = 4 := by simp [hlen]
  have h4'' : ((digits.drop 16).take 4).length = 4 := by simp [hlen]
  have hcut : digits.take 8 ++ ((digits.drop 8).take 4 ++ ((digits.drop 12).take 4 ++
      ((digits.drop 16).take 4 ++ digits.drop 20))) = digits := by
    have hjoin : ∀ m n, (digits.drop m).take n ++ digits.drop (m + n) = digits.drop m := by
      intro m n
      rw [← List.drop_drop, List.take_append_drop]
    rw [hjoin 16 4, hjoin 12 4, hjoin 8 4, List.take_append_drop]
  have hlast : (digits.drop 20).length = 12 := by simp [hlen]
  generalize digits.take 8 = a at h8 hcut
  generalize (digits.drop 8).take 4 = b at h4 hcut
  generalize (digits.drop 12).take 4 = c at h4' hcut
  generalize (digits.drop 16).take 4 = d at h4'' hcut
  generalize digits.drop 20 = e at hlast hcut
  generalize hcs : a ++ '-' :: (b ++ '-' :: (c ++ '-' :: (d ++ '-' :: e))) = cs
  have hsize : cs.length = 36 := by
    rw [← hcs]
    simp only [List.length_append, List.length_cons]
    omega
  have hdrop8 : cs.drop 8 = '-' :: (b ++ '-' :: (c ++ '-' :: (d ++ '-' :: e))) := by
    rw [← hcs, List.drop_left' h8]
  have hdrop9 : cs.drop 9 = b ++ '-' :: (c ++ '-' :: (d ++ '-' :: e)) := by
    rw [← List.tail_drop, hdrop8, List.tail_cons]
  have hdrop13 : cs.drop 13 = '-' :: (c ++ '-' :: (d ++ '-' :: e)) := by
    have hstep : cs.drop 13 = (cs.drop 9).drop 4 := by rw [List.drop_drop]
    rw [hstep, hdrop9, List.drop_left' h4]
  have hdrop14 : cs.drop 14 = c ++ '-' :: (d ++ '-' :: e) := by
    rw [← List.tail_drop, hdrop13, List.tail_cons]
  have hdrop18 : cs.drop 18 = '-' :: (d ++ '-' :: e) := by
    have hstep : cs.drop 18 = (cs.drop 14).drop 4 := by rw [List.drop_drop]
    rw [hstep, hdrop14, List.drop_left' h4']
  have hdrop19 : cs.drop 19 = d ++ '-' :: e := by
    rw [← List.tail_drop, hdrop18, List.tail_cons]
  have hdrop23 : cs.drop 23 = '-' :: e := by
    have hstep : cs.drop 23 = (cs.drop 19).drop 4 := by rw [List.drop_drop]
    rw [hstep, hdrop19, List.drop_left' h4'']
  have hdrop24 : cs.drop 24 = e := by
    rw [← List.tail_drop, hdrop23, List.tail_cons]
  have hat : ∀ {n : ℕ} {rest : List Char}, cs.drop n = '-' :: rest → cs[n]? = some '-' := by
    intro n rest h
    rw [← List.head?_drop, h]
    rfl
  have htake : cs.take 8 = a := by rw [← hcs, List.take_left' h8]
  have hhyphens : cs[8]? = some '-' ∧ cs[13]? = some '-' ∧ cs[18]? = some '-' ∧ cs[23]? = some '-' :=
    ⟨hat hdrop8, hat hdrop13, hat hdrop18, hat hdrop23⟩
  rw [if_neg (by omega), if_pos hsize, parseHyphenated, if_pos ⟨hsize, hhyphens⟩, htake, hdrop9, List.take_left' h4,
    hdrop14, List.take_left' h4', hdrop19, List.take_left' h4'', hdrop24]
  simp only [List.append_assoc]
  rw [hcut, hvalue, Option.map_some, BitVec.ofNat_toNat, BitVec.setWidth_eq]

end ids

section fits

/-- A keymap that the form would have written. -/
structure KeymapPayload.Fits (keymap : KeymapPayload) : Prop where
  ids : ∀ t ∈ keymap.texts, ∃ id, t.1 = uuidText id
  texts : keymap.texts.length ≤ maxTexts
  labels : ∀ t ∈ keymap.texts, trim t.2.label = t.2.label ∧ labelProblem t.2.label = none
  bindings : ∀ b ∈ keymap.bindings, bindingProblem b.1 b.2 = none ∧ bindingHasItsText b.1 keymap.texts = true
  actions : keymap.bindings.length ≤ maxActions

theorem labelProblem_eq_none_iff {label : String} :
    labelProblem label = none ↔ label.toList.length ≤ maxLabelChars ∧ ∀ c ∈ label.toList, isControl c = false := by
  rw [labelProblem]
  split_ifs with hlong hcontrol
  · simp only [false_iff]
    omega
  · simp only [false_iff, not_and]
    intro _ hnone
    rw [List.any_eq_true] at hcontrol
    obtain ⟨c, hc, hcontrol⟩ := hcontrol
    rw [hnone c hc] at hcontrol
    exact Bool.false_ne_true hcontrol
  · simp only [true_iff]
    refine ⟨by omega, fun c hc => ?_⟩
    rw [Bool.not_eq_true, List.any_eq_false] at hcontrol
    simpa using hcontrol c hc

/-- What a label is cut to is a label, and a label is not cut. -/
theorem sanitiseLabel_fits (label : String) :
    trim (sanitiseLabel label) = sanitiseLabel label ∧ labelProblem (sanitiseLabel label) = none := by
  rw [sanitiseLabel]
  simp only
  split_ifs with hbad
  · generalize hfiltered : String.ofList (label.toList.filter fun c => !isControl c) = filtered
    have hstart : trimStart (trim filtered).toList = (trim filtered).toList := by
      rw [trim, String.toList_ofList]
      exact trimStart_trimEnd (List.dropWhile_idempotent isWhite _)
    have hcut := trimStart_take hstart maxLabelChars
    constructor
    · have hend : trimEnd (trimEnd ((trim filtered).toList.take maxLabelChars)) =
          trimEnd ((trim filtered).toList.take maxLabelChars) := List.rdropWhile_idempotent isWhite _
      rw [trim, String.toList_ofList, trimStart_trimEnd hcut, hend]
    · have hshorter : trimEnd ((trim filtered).toList.take maxLabelChars) <+: (trim filtered).toList.take maxLabelChars :=
        List.rdropWhile_prefix isWhite _
      rw [labelProblem_eq_none_iff, String.toList_ofList]
      constructor
      · exact hshorter.length_le.trans (List.length_take_le _ _)
      · intro c hc
        have hkept := (trim_sublist filtered).subset (List.mem_of_mem_take (hshorter.subset hc))
        rw [← hfiltered, String.toList_ofList, List.mem_filter] at hkept
        simpa using hkept.2
  · rw [not_or, Option.not_isSome_iff_eq_none, not_not] at hbad
    have hsame := trim_of_size hbad.1
    rw [hsame] at hbad
    exact ⟨hsame, hbad.2⟩

theorem sanitiseLabel_of_fits {label : String} (h : trim label = label ∧ labelProblem label = none) :
    sanitiseLabel label = label := by
  rw [sanitiseLabel]
  simp only [h.1, h.2]
  simp

theorem canonical_iff {name : String} :
    ((parseUuid name).any fun id => uuidText id == name) = true ↔ ∃ id, name = uuidText id := by
  constructor
  · intro h
    cases hparse : parseUuid name with
    | none =>
      rw [hparse] at h
      exact absurd h Bool.false_ne_true
    | some id =>
      rw [hparse, Option.any_some] at h
      exact ⟨id, (beq_iff_eq.mp h).symm⟩
  · rintro ⟨id, rfl⟩
    rw [parseUuid_uuidText]
    exact beq_self_eq_true _

/-- What fits is not cut down. -/
theorem sanitiseSynced_of_fits {keymap : KeymapPayload} (h : keymap.Fits) : sanitiseSynced keymap = keymap := by
  have hcanonical : (keymap.texts.filter fun t => (parseUuid t.1).any fun id => uuidText id == t.1) = keymap.texts :=
    List.filter_eq_self.mpr fun t ht => canonical_iff.mpr (h.ids t ht)
  have hnone : (((keymap.texts.map fun t => (t.2.position, t.1)).insertionSort fun a b =>
      a.1 < b.1 ∨ (a.1 = b.1 ∧ a.2 ≤ b.2)).drop maxTexts) = [] := by
    apply List.drop_eq_nil_of_le
    rw [List.length_insertionSort, List.length_map]
    exact h.texts
  have hlabels : (keymap.texts.map fun t => (t.1, { t.2 with label := sanitiseLabel t.2.label })) = keymap.texts := by
    refine List.map_congr_left (fun t ht => ?_) |>.trans (List.map_id _)
    rw [sanitiseLabel_of_fits (h.labels t ht)]
    rfl
  have hbindings : (keymap.bindings.filter fun b =>
      (bindingProblem b.1 b.2).isNone && bindingHasItsText b.1 keymap.texts) = keymap.bindings := by
    refine List.filter_eq_self.mpr fun b hb => ?_
    obtain ⟨hproblem, htext⟩ := h.bindings b hb
    rw [hproblem, htext]
    rfl
  rw [sanitiseSynced]
  simp only [hcanonical, hnone, List.map_nil, List.contains_nil, Bool.not_false, List.filter_true, hlabels, hbindings,
    List.take_of_length_le h.actions]

/-- What is kept of too many texts is no more than there may be. -/
theorem length_kept_le {texts : List (String × KeymapTextPayload)} {le : UInt32 × String → UInt32 × String → Prop}
    [DecidableRel le] :
    (texts.filter fun t => !((((texts.map fun t => (t.2.position, t.1)).insertionSort le).drop maxTexts).map
      (·.2)).contains t.1).length ≤ maxTexts := by
  generalize horder : (texts.map fun t => (t.2.position, t.1)).insertionSort le = order
  have hperm : order.Perm (texts.map fun t => (t.2.position, t.1)) := by
    rw [← horder]
    exact List.perm_insertionSort le _
  generalize hgone : (order.drop maxTexts).map (·.2) = gone
  have hkept : (texts.filter fun t => !gone.contains t.1).length = (order.filter fun e => !gone.contains e.2).length := by
    rw [(hperm.filter _).length_eq, List.filter_map, List.length_map]
    rfl
  have hdropped : (order.drop maxTexts).filter (fun e => !gone.contains e.2) = [] := by
    rw [List.filter_eq_nil_iff]
    intro e he
    have hmem : e.2 ∈ gone := by
      rw [← hgone]
      exact List.mem_map_of_mem he
    simp [hmem]
  rw [hkept, ← List.take_append_drop maxTexts order, List.filter_append, hdropped, List.append_nil]
  exact (List.length_filter_le _ _).trans (List.length_take_le _ _)

/-- What a keymap is cut down to fits. -/
theorem fits_sanitiseSynced (keymap : KeymapPayload) : (sanitiseSynced keymap).Fits := by
  have htext : ∀ t ∈ (sanitiseSynced keymap).texts, ∃ t' ∈ keymap.texts,
      ((parseUuid t'.1).any fun id => uuidText id == t'.1) = true ∧
        t = (t'.1, { t'.2 with label := sanitiseLabel t'.2.label }) := by
    intro t ht
    obtain ⟨t', ht', rfl⟩ := List.mem_map.mp ht
    obtain ⟨hin, hcanonical⟩ := List.mem_filter.mp (List.mem_of_mem_filter ht')
    exact ⟨t', hin, hcanonical, rfl⟩
  refine ⟨fun t ht => ?_, ?_, fun t ht => ?_, fun b hb => ?_, List.length_take_le _ _⟩
  · obtain ⟨t', -, hcanonical, rfl⟩ := htext t ht
    exact canonical_iff.mp hcanonical
  · rw [sanitiseSynced]
    simp only [List.length_map]
    exact length_kept_le
  · obtain ⟨t', -, -, rfl⟩ := htext t ht
    exact sanitiseLabel_fits _
  · have hkept := (List.mem_filter.mp (List.mem_of_mem_take hb)).2
    rw [Bool.and_eq_true, Option.isNone_iff_eq_none] at hkept
    exact hkept

theorem KeymapBody.taken_taken (arrived : KeymapBody) : arrived.taken.taken = arrived.taken := by
  by_cases hsame : sanitiseSynced arrived.read = arrived.read
  · have htaken : arrived.taken = arrived := if_pos hsame
    rw [htaken, htaken]
  · have htaken : arrived.taken = (sanitiseSynced arrived.read).written := if_neg hsame
    rw [htaken]
    refine if_pos ?_
    rw [KeymapPayload.read_written]
    exact sanitiseSynced_of_fits (fits_sanitiseSynced _)

end fits

section form

theorem refuse_eq_ok_iff {problem : Option (String × String)} : refuse problem = .ok () ↔ problem = none := by
  cases problem <;> simp [refuse]

theorem forM_refuse {α : Type} {f : α → Option (String × String)} {l : List α} :
    (l.forM fun x => refuse (f x)) = .ok () ↔ ∀ x ∈ l, f x = none := by
  induction l with
  | nil => exact ⟨fun _ _ hx => absurd hx List.not_mem_nil, fun _ => rfl⟩
  | cons x l ih =>
    change (refuse (f x) >>= fun _ => l.forM fun x => refuse (f x)) = .ok () ↔ _
    rw [List.forall_mem_cons, ← ih]
    cases f x with
    | none => exact ⟨fun h => ⟨rfl, h⟩, fun h => h.2⟩
    | some problem =>
      constructor
      · intro h
        cases h
      · rintro ⟨h, -⟩
        cases h

theorem label_validated {text text' : KeymapTextDraft} (h : text.validated = .ok text') :
    trim text'.label = text'.label ∧ labelProblem text'.label = none := by
  unfold KeymapTextDraft.validated at h
  dsimp only at h
  cases hlabel : refuse (labelProblem (trim text.label)) with
  | error e =>
    rw [hlabel] at h
    cases h
  | ok u =>
    cases htext : validatedText text.text with
    | error e =>
      rw [hlabel, htext] at h
      cases h
    | ok change =>
      rw [hlabel, htext] at h
      cases h
      exact ⟨trim_trim text.label, refuse_eq_ok_iff.mp hlabel⟩

theorem validatedTexts_labels {seen : List Uuid} {texts texts' : List KeymapTextDraft}
    (h : validatedTexts seen texts = .ok texts') :
    ∀ text ∈ texts', trim text.label = text.label ∧ labelProblem text.label = none := by
  induction texts generalizing seen texts' with
  | nil =>
    cases h
    simp
  | cons text rest ih =>
    unfold validatedTexts at h
    split at h
    · cases h
    cases htext : text.validated with
    | error e =>
      rw [htext] at h
      cases h
    | ok text' =>
      cases hrest : validatedTexts (text.id :: seen) rest with
      | error e =>
        rw [htext, hrest] at h
        cases h
      | ok rest' =>
        rw [htext, hrest] at h
        cases h
        exact List.forall_mem_cons.mpr ⟨label_validated htext, ih hrest⟩

/-- What the form checks of a keymap. -/
theorem validated_spec {draft : KeymapDraft} {texts : List KeymapTextDraft} (h : draft.validated = .ok texts) :
    draft.bindings.length ≤ maxActions ∧ (∀ b ∈ draft.bindings, bindingProblem b.1 b.2 = none) ∧
      texts.length ≤ maxTexts ∧ ∀ text ∈ texts, trim text.label = text.label ∧ labelProblem text.label = none := by
  obtain ⟨hids, -⟩ := validated_ids h
  have hlen : texts.length = draft.texts.length := by simpa using congrArg List.length hids
  unfold KeymapDraft.validated at h
  split at h
  · cases h
  next hactions =>
  cases hbindings : draft.bindings.forM fun b => refuse (bindingProblem b.1 b.2) with
  | error e =>
    rw [hbindings] at h
    cases h
  | ok u =>
    rw [hbindings] at h
    change (if maxTexts < draft.texts.length then _ else _) = Except.ok texts at h
    split at h
    · cases h
    next htexts =>
    exact ⟨Nat.not_lt.mp hactions, forM_refuse.mp hbindings, by omega, validatedTexts_labels h⟩

theorem length_putEntry_le {α : Type} (name : String) (value : α) (map : List (String × α)) :
    (putEntry name value map).length ≤ map.length + 1 := by
  induction map with
  | nil => exact Nat.le_refl _
  | cons e rest ih =>
    rw [putEntry]
    split_ifs
    · exact Nat.le_succ _
    · exact Nat.le_refl _
    · exact Nat.succ_le_succ ih

theorem mem_putEntry {α : Type} {name : String} {value : α} {map : List (String × α)} {e : String × α}
    (h : e ∈ putEntry name value map) : e = (name, value) ∨ e ∈ map := by
  induction map with
  | nil => exact .inl (List.mem_singleton.mp h)
  | cons first rest ih =>
    rw [putEntry] at h
    split_ifs at h
    · exact (List.mem_cons.mp h).imp_right (List.mem_cons_of_mem _)
    · exact List.mem_cons.mp h
    · rcases List.mem_cons.mp h with rfl | hin
      · exact .inr List.mem_cons_self
      · exact (ih hin).imp_right (List.mem_cons_of_mem _)

variable {draws : Draws} {tx : Tx}

/-- The texts that are written are those of the page. -/
theorem writeTexts_fit {position : ℕ} {texts : List KeymapTextDraft} {kept previous : List (String × KeymapTextPayload)}
    (hlabels : ∀ text ∈ texts, trim text.label = text.label ∧ labelProblem text.label = none)
    (hkept : ∀ t ∈ kept, (∃ id, t.1 = uuidText id) ∧ trim t.2.label = t.2.label ∧ labelProblem t.2.label = none) :
    Ends (writeTexts draws position texts kept previous) tx fun r _ =>
      r.1.length ≤ kept.length + texts.length ∧
        ∀ t ∈ r.1, (∃ id, t.1 = uuidText id) ∧ trim t.2.label = t.2.label ∧ labelProblem t.2.label = none := by
  induction texts generalizing position kept previous tx with
  | nil => exact ends_pure.mpr ⟨Nat.le_refl _, hkept⟩
  | cons text rest ih =>
    obtain ⟨htext, hrest⟩ := List.forall_mem_cons.mp hlabels
    rw [writeTexts]
    refine ends_bind.mpr (fun secretId u _ => (ih hrest fun t ht => ?_).mono fun r _ hr => ⟨?_, hr.2⟩)
    · rcases mem_putEntry ht with rfl | hin
      · exact ⟨⟨text.id, rfl⟩, htext⟩
      · exact hkept t hin
    · refine hr.1.trans ?_
      have hput := length_putEntry_le (uuidText text.id)
        ({ label := text.label, enter := text.enter, secretId, position := UInt32.ofNat position
           extra := ((entryOf (uuidText text.id) previous).getD {}).extra } : KeymapTextPayload) kept
      rw [List.length_cons]
      omega

/-- What the form writes fits. -/
theorem saveKeymap_fits {family : String} {draft : KeymapDraft} :
    Ends (saveKeymap draws family draft) tx fun _ u => ∀ id, keymapId family = some id →
      ∃ row, u.store.row? .keymap id = some row ∧ ∃ keymap : KeymapPayload, row.cols = keymap.written ∧ keymap.Fits := by
  unfold saveKeymap
  cases hfamily : keymapId family with
  | none => exact ends_throw
  | some id =>
    refine ends_bind.mpr (ends_lift.mpr fun texts hvalid => ?_)
    obtain ⟨hactions, hproblems, hcount, hlabels⟩ := validated_spec hvalid
    refine ends_bind.mpr (fun _ u _ => ?_)
    refine ends_bind.mpr (ends_read.mpr (ends_bind.mpr ?_))
    refine (writeTexts_fit hlabels (fun t ht => absurd ht List.not_mem_nil)).mono fun r v hr => ?_
    obtain ⟨hlen, hkept⟩ := hr
    refine ends_bind.mpr fun _ w _ => ends_bind.mpr (ends_tick.mpr (ends_bind.mpr (ends_upsert.mpr
      (ends_read.mpr fun other hother => ?_))))
    obtain rfl : id = other := Option.some_inj.mp hother
    have hfits : ({ u.store.loadKeymap id with
        bindings := draft.bindings.filter fun b => bindingHasItsText b.1 r.1, texts := r.1 } : KeymapPayload).Fits := by
      refine ⟨fun t ht => (hkept t ht).1, ?_, fun t ht => (hkept t ht).2, fun b hb => ?_, ?_⟩
      · rw [List.length_nil, Nat.zero_add] at hlen
        exact hlen.trans hcount
      · obtain ⟨hin, htext⟩ := List.mem_filter.mp hb
        exact ⟨hproblems b hin, htext⟩
      · exact (List.length_filter_le _ _).trans hactions
    rw [store_onStore]
    split
    · exact ⟨_, Store.row?_putRow_self _ _, _, rfl, hfits⟩
    · exact ⟨_, Store.row?_putRow_self _ _, _, rfl, hfits⟩

end form

section kept

/-- What the page sends back of a keymap whose texts are left as they are. -/
def KeymapView.draft (view : KeymapView) : KeymapDraft where
  bindings := view.bindings
  texts := view.texts.map fun t => { id := t.id, label := t.label, enter := t.enter, text := .keep }

theorem validatedTexts_keep {seen : List Uuid} {texts : List KeymapTextDraft}
    (hlabels : ∀ text ∈ texts, trim text.label = text.label ∧ labelProblem text.label = none)
    (hkeep : ∀ text ∈ texts, text.text = .keep) (hnodup : (texts.map (·.id)).Nodup)
    (hseen : ∀ id ∈ seen, id ∉ texts.map (·.id)) : validatedTexts seen texts = .ok texts := by
  induction texts generalizing seen with
  | nil => rfl
  | cons text rest ih =>
    obtain ⟨⟨htrim, hproblem⟩, hlabels⟩ := List.forall_mem_cons.mp hlabels
    obtain ⟨htext, hkeep⟩ := List.forall_mem_cons.mp hkeep
    obtain ⟨hnot, hnodup⟩ := List.nodup_cons.mp hnodup
    have hnew : ¬ seen.contains text.id := by
      intro hin
      exact hseen text.id (List.contains_iff_mem.mp hin) List.mem_cons_self
    have hone : text.validated = .ok text := by
      unfold KeymapTextDraft.validated
      dsimp only
      rw [htrim, hproblem, htext]
      change Except.ok { text with label := text.label, text := .keep } = _
      rw [← htext]
    have hrest : validatedTexts (text.id :: seen) rest = .ok rest := by
      refine ih hlabels hkeep hnodup fun id hid hin => ?_
      rcases List.mem_cons.mp hid with rfl | hid
      · exact hnot hin
      · exact hseen id hid (List.mem_cons_of_mem _ hin)
    rw [validatedTexts, if_neg hnew, hone, hrest]
    rfl

theorem mem_viewOf_texts {s : Store} {keymap : KeymapPayload} {text : KeymapText} :
    text ∈ (s.viewOf keymap).texts ↔ ∃ t ∈ keymap.texts, ∃ id, parseUuid t.1 = some id ∧
      text = { id, label := t.2.label, enter := t.2.enter, hasText := t.2.secretId.any s.secretAlive } := by
  rw [Store.viewOf]
  simp only [List.mem_map, List.mem_insertionSort, List.mem_filterMap, Option.map_eq_some_iff]
  constructor
  · rintro ⟨e, ⟨t, ht, id, hid, rfl⟩, rfl⟩
    exact ⟨t, ht, id, hid, rfl⟩
  · rintro ⟨t, ht, id, hid, rfl⟩
    exact ⟨_, ⟨t, ht, id, hid, rfl⟩, rfl⟩

theorem length_viewOf_texts_le (s : Store) (keymap : KeymapPayload) :
    (s.viewOf keymap).texts.length ≤ keymap.texts.length := by
  rw [Store.viewOf]
  simp only [List.length_map, List.length_insertionSort]
  exact List.length_filterMap_le _ _

/-- Texts under ids of their own are shown under ids of their own. -/
theorem nodup_viewOf_ids {s : Store} {keymap : KeymapPayload} (hfits : keymap.Fits)
    (hkeys : (keymap.texts.map Prod.fst).Nodup) : ((s.viewOf keymap).texts.map (·.id)).Nodup := by
  rw [Store.viewOf]
  simp only [List.map_map]
  rw [((List.perm_insertionSort _ _).map _).nodup_iff, List.map_filterMap]
  have hnames : (keymap.texts.filterMap fun t => (parseUuid t.1).map fun id => uuidText id) =
      keymap.texts.map Prod.fst := by
    rw [← List.filterMap_eq_map]
    refine List.filterMap_congr fun t ht => ?_
    obtain ⟨id, hid⟩ := hfits.ids t ht
    rw [Function.comp_apply, hid, parseUuid_uuidText]
    rfl
  have hshown : (keymap.texts.filterMap fun t => parseUuid t.1).map uuidText = keymap.texts.map Prod.fst := by
    rw [List.map_filterMap]
    exact hnames
  have hids : (keymap.texts.filterMap fun t => parseUuid t.1).Nodup := by
    apply List.Nodup.of_map uuidText
    rw [hshown]
    exact hkeys
  have hsame : (keymap.texts.filterMap fun t => ((parseUuid t.1).map fun id =>
      (t.2.position, ({ id, label := t.2.label, enter := t.2.enter
                        hasText := t.2.secretId.any s.secretAlive } : KeymapText))).map
        ((fun text => text.id) ∘ fun e => e.2)) = keymap.texts.filterMap fun t => parseUuid t.1 := by
    refine List.filterMap_congr fun t _ => ?_
    cases parseUuid t.1 <;> rfl
  exact hsame ▸ hids

/-- What fits is accepted by the form as it is shown. -/
theorem validated_of_fits {s : Store} {keymap : KeymapPayload} (hfits : keymap.Fits)
    (hkeys : (keymap.texts.map Prod.fst).Nodup) :
    (s.viewOf keymap).draft.validated = .ok (s.viewOf keymap).draft.texts := by
  have hbindings : ((s.viewOf keymap).draft.bindings.forM fun b => refuse (bindingProblem b.1 b.2)) = .ok () :=
    forM_refuse.mpr fun b hb => (hfits.bindings b hb).1
  have hactions : ¬ maxActions < (s.viewOf keymap).draft.bindings.length := Nat.not_lt.mpr hfits.actions
  have htexts : ¬ maxTexts < (s.viewOf keymap).draft.texts.length := by
    rw [KeymapView.draft, List.length_map]
    exact Nat.not_lt.mpr ((length_viewOf_texts_le s keymap).trans hfits.texts)
  rw [KeymapDraft.validated, if_neg hactions, hbindings]
  change (if maxTexts < _ then _ else _) = _
  rw [if_neg htexts]
  refine validatedTexts_keep (fun text htext => ?_) (fun text htext => ?_) ?_ (fun _ h => absurd h List.not_mem_nil)
  · obtain ⟨shown, hshown, rfl⟩ := List.mem_map.mp htext
    obtain ⟨t, ht, id, -, rfl⟩ := mem_viewOf_texts.mp hshown
    exact hfits.labels t ht
  · obtain ⟨shown, -, rfl⟩ := List.mem_map.mp htext
    rfl
  · rw [KeymapView.draft, List.map_map]
    exact nodup_viewOf_ids hfits hkeys

variable {draws : Draws} {tx : Tx}

theorem completes_forgetAny {secret : Option Uuid} : Completes (forgetAny draws secret) := by
  cases secret with
  | none => exact completes_pure
  | some secret => exact completes_alter

theorem completes_forgetTexts {texts : List (String × KeymapTextPayload)} : Completes (forgetTexts draws texts) := by
  induction texts with
  | nil => exact completes_pure
  | cons gone rest ih => exact completes_forgetAny.bind fun _ => ih

theorem completes_writeTexts {position : ℕ} {texts : List KeymapTextDraft}
    {kept previous : List (String × KeymapTextPayload)} (hkeep : ∀ text ∈ texts, text.text = .keep) :
    Completes (writeTexts draws position texts kept previous) := by
  induction texts generalizing position kept previous with
  | nil => exact completes_pure
  | cons text rest ih =>
    obtain ⟨htext, hrest⟩ := List.forall_mem_cons.mp hkeep
    rw [writeTexts, htext]
    exact completes_pure.bind fun _ => ih hrest

theorem mem_keys_putEntry {α : Type} {name other : String} {value : α} {map : List (String × α)}
    (h : other = name ∨ other ∈ map.map Prod.fst) : other ∈ (putEntry name value map).map Prod.fst := by
  induction map with
  | nil =>
    rw [putEntry, List.map_singleton, List.mem_singleton]
    exact h.resolve_right List.not_mem_nil
  | cons e rest ih =>
    rw [putEntry]
    rw [List.map_cons, List.mem_cons] at h
    split_ifs <;> simp only [List.map_cons, List.mem_cons] <;> grind

/-- Every text of the page is written under its id. -/
theorem writeTexts_keys {position : ℕ} {texts : List KeymapTextDraft} {kept previous : List (String × KeymapTextPayload)} :
    Ends (writeTexts draws position texts kept previous) tx fun r _ => ∀ name,
      (name ∈ kept.map Prod.fst ∨ ∃ text ∈ texts, uuidText text.id = name) → name ∈ r.1.map Prod.fst := by
  induction texts generalizing position kept previous tx with
  | nil =>
    refine ends_pure.mpr fun name hname => ?_
    rcases hname with hname | ⟨_, hin, _⟩
    · exact hname
    · exact absurd hin List.not_mem_nil
  | cons text rest ih =>
    rw [writeTexts]
    refine ends_bind.mpr fun secretId u _ => ih.mono fun r _ hr name hname => hr name ?_
    rcases hname with hname | ⟨other, hin, rfl⟩
    · exact .inl (mem_keys_putEntry (.inr hname))
    · rcases List.mem_cons.mp hin with rfl | hin
      · exact .inl (mem_keys_putEntry (.inl rfl))
      · exact .inr ⟨other, hin, rfl⟩

theorem bindingHasItsText_mono {action : String} {texts texts' : List (String × KeymapTextPayload)}
    (h : ∀ name ∈ texts.map Prod.fst, name ∈ texts'.map Prod.fst) (hhas : bindingHasItsText action texts = true) :
    bindingHasItsText action texts' = true := by
  unfold bindingHasItsText at hhas ⊢
  split at hhas
  · rfl
  · obtain ⟨t, ht, hname⟩ := List.any_eq_true.mp hhas
    obtain ⟨t', ht', hsame⟩ := List.mem_map.mp (h t.1 (List.mem_map_of_mem ht))
    rw [List.any_eq_true]
    exact ⟨t', ht', by rw [hsame]; exact hname⟩
  · exact hhas

theorem keymapId_of_mem {family : String} (h : family ∈ keymapFamilies) : ∃ id, keymapId family = some id := by
  simp only [keymapFamilies, List.mem_cons, List.not_mem_nil, or_false] at h
  rcases h with rfl | rfl
  · exact ⟨_, rfl⟩
  · exact ⟨_, rfl⟩

/-- What fits can be saved as it is shown, and no binding of it is left out. -/
theorem saveKeymap_shown {family : String} (hfamily : family ∈ keymapFamilies) {keymap : KeymapPayload}
    (hfits : keymap.Fits) (hkeys : (keymap.texts.map Prod.fst).Nodup) :
    ∃ view u, (saveKeymap draws family (tx.store.viewOf keymap).draft).run tx = .ok (view, u) ∧
      view.bindings = keymap.bindings := by
  generalize hdraft : (tx.store.viewOf keymap).draft = draft
  have hbindings : draft.bindings = keymap.bindings := by
    rw [← hdraft]
    rfl
  have hvalid : draft.validated = .ok draft.texts := by
    rw [← hdraft]
    exact validated_of_fits hfits hkeys
  have hkeep : ∀ text ∈ draft.texts, text.text = .keep := by
    intro text htext
    rw [← hdraft] at htext
    obtain ⟨shown, -, rfl⟩ := List.mem_map.mp htext
    rfl
  have hall : ∀ name ∈ keymap.texts.map Prod.fst, ∃ text ∈ draft.texts, uuidText text.id = name := by
    intro name hname
    obtain ⟨t, ht, rfl⟩ := List.mem_map.mp hname
    obtain ⟨id, hid⟩ := hfits.ids t ht
    rw [← hdraft]
    refine ⟨_, List.mem_map_of_mem (mem_viewOf_texts.mpr ⟨t, ht, id, ?_, rfl⟩), hid.symm⟩
    rw [hid, parseUuid_uuidText]
  obtain ⟨id, hid⟩ := keymapId_of_mem hfamily
  have hruns : ∃ view u, (saveKeymap draws family draft).run tx = .ok (view, u) := by
    have hneeds : Completes (needsVaultForTexts draft.texts) := by
      rw [needsVaultForTexts]
      refine completes_look.bind fun vault => ?_
      split_ifs with hsets
      · rw [Bool.and_eq_true, List.any_eq_true] at hsets
        obtain ⟨⟨text, htext, hset⟩, -⟩ := hsets
        rw [hkeep text htext] at hset
        exact absurd hset Bool.false_ne_true
      · exact completes_pure
    rw [saveKeymap, hid]
    dsimp only
    rw [hvalid, lift_ok_bind]
    refine (hneeds.bind fun _ => completes_look.bind fun _ => (completes_writeTexts hkeep).bind fun _ =>
      completes_forgetTexts.bind fun _ => ?_) tx
    exact Completes.bind (fun s => ⟨_, _, rfl⟩) fun _ => completes_alter.bind fun _ => completes_look
  have hkept : Ends (saveKeymap draws family draft) tx fun view _ => view.bindings = keymap.bindings := by
    rw [saveKeymap, hid]
    dsimp only
    rw [hvalid, lift_ok_bind]
    refine ends_bind.mpr fun _ u _ => ends_bind.mpr (ends_read.mpr (ends_bind.mpr ?_))
    refine writeTexts_keys.mono fun r v hr => ?_
    refine ends_bind.mpr fun _ w _ => ends_bind.mpr (ends_tick.mpr (ends_bind.mpr (ends_upsert.mpr
      (ends_read.mpr ?_))))
    have hkeys : ∀ name ∈ keymap.texts.map Prod.fst, name ∈ r.1.map Prod.fst :=
      fun name hname => hr name (.inr (hall name hname))
    have hfilter : (draft.bindings.filter fun b => bindingHasItsText b.1 r.1) = keymap.bindings := by
      rw [hbindings]
      exact List.filter_eq_self.mpr fun b hb => bindingHasItsText_mono hkeys (hfits.bindings b hb).2
    exact hfilter
  obtain ⟨view, u, hrun⟩ := hruns
  exact ⟨view, u, hrun, hkept view u hrun⟩

/-- A keymap that arrived by sync is cut down to one the form accepts as it is shown, all of its bindings kept; cutting
it down again changes nothing; and what the form writes is not cut down at all. -/
theorem sanitiseSynced_spec {family : String} (hfamily : family ∈ keymapFamilies) {keymap : KeymapPayload}
    (hkeys : (keymap.texts.map Prod.fst).Nodup) :
    (∃ view u, (saveKeymap draws family (tx.store.viewOf (sanitiseSynced keymap)).draft).run tx = .ok (view, u) ∧
      view.bindings = (sanitiseSynced keymap).bindings) ∧
    sanitiseSynced (sanitiseSynced keymap) = sanitiseSynced keymap ∧
    ∀ draft view u, (saveKeymap draws family draft).run tx = .ok (view, u) →
      ∃ id row, ∃ saved : KeymapPayload, keymapId family = some id ∧ u.store.row? .keymap id = some row ∧
        row.cols = saved.written ∧ sanitiseSynced saved = saved := by
  have hfits := fits_sanitiseSynced keymap
  have hsub : ((sanitiseSynced keymap).texts.map Prod.fst).Sublist (keymap.texts.map Prod.fst) := by
    rw [sanitiseSynced]
    simp only [List.map_map]
    exact ((List.filter_sublist).trans List.filter_sublist).map _
  refine ⟨saveKeymap_shown hfamily hfits (hsub.nodup hkeys), sanitiseSynced_of_fits hfits, ?_⟩
  intro draft view u hrun
  obtain ⟨id, hid⟩ := keymapId_of_mem hfamily
  obtain ⟨row, hrow, saved, hsaved, hrowFits⟩ := saveKeymap_fits view u hrun id hid
  exact ⟨id, row, saved, hid, hrow, hsaved, sanitiseSynced_of_fits hrowFits⟩

/-- A shortcut for a text under an id in capitals, and a label with blanks around it. -/
def strayKeymap : KeymapPayload where
  bindings := [("tab:new", [{ ctrl := true, code := "KeyT" }]), ("text:0000000A-0000-4000-8000-000000000000", [])]
  texts := [("0000000A-0000-4000-8000-000000000000", {}), ("0000000a-0000-4000-8000-000000000000", { label := " sudo " })]

/-- The text in capitals goes and its shortcut with it, as the page would have it. -/
theorem sanitise_stray :
    (∃ view u, (saveKeymap { id := fun _ => none, now := fun _ => 30 } "mac"
        ((Store.empty 1 7 none).viewOf (sanitiseSynced strayKeymap)).draft).run
          { store := .empty 1 7 none, drawn := 0 } = .ok (view, u) ∧
      view.bindings = (sanitiseSynced strayKeymap).bindings) ∧
    (sanitiseSynced strayKeymap).texts =
      [("0000000a-0000-4000-8000-000000000000", ({ label := "sudo" } : KeymapTextPayload))] :=
  ⟨(@sanitiseSynced_spec _ { store := .empty 1 7 none, drawn := 0 } _ (by decide : "mac" ∈ keymapFamilies) _
      (by decide : (strayKeymap.texts.map Prod.fst).Nodup)).1, by decide +kernel⟩

end kept

end UwuSsh

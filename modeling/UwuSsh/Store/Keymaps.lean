import UwuSsh.Store.Assist

/-!
The keymap form. A keymap is one record under a fixed id for each family of keyboards, and is
replaced with what the page holds. The texts its shortcuts type are secrets it points at; one
that is no longer on the page goes, and what it typed is forgotten with it.
-/
namespace UwuSsh

open Text Fallible InTx

/-- The families a keymap exists for. -/
def keymapFamilies : List String := ["mac", "other"]

def keymapBase : ℕ := 0x7577_7373_6802_8000_a000_0000_0000_0000

/-- The id the keymap of a family lives under, in every vault. -/
def keymapId (family : String) : Option Uuid :=
  (keymapFamilies.findIdx? fun known => known == family).map fun index =>
    BitVec.ofNat 128 (keymapBase + index)

structure KeymapText where
  id : Uuid
  label : String
  /-- Press Enter after typing it. -/
  enter : Bool
  /-- A text is kept in the vault for it. -/
  hasText : Bool
deriving DecidableEq

/-- What the settings page shows: every shortcut, and the texts without what they type. -/
structure KeymapView where
  bindings : List (String × List ChordPayload)
  texts : List KeymapText
deriving DecidableEq

structure KeymapTextDraft where
  id : Uuid
  label : String
  enter : Bool
  text : PasswordChange
deriving DecidableEq

/-- What the settings page saves: the whole keymap of one family. -/
structure KeymapDraft where
  bindings : List (String × List ChordPayload)
  texts : List KeymapTextDraft
deriving DecidableEq

def refuse (problem : Option (String × String)) : Except LocalError Unit :=
  match problem with
  | none => .ok ()
  | some (field, problem) => .error (.invalid field problem)

/-- The hyphens of an id's text can be taken out again. -/
theorem filter_hyphens (digits : List Char) (h : ∀ c ∈ digits, c ≠ '-') :
    (digits.take 8 ++ '-' :: (digits.drop 8).take 4 ++ '-' :: (digits.drop 12).take 4 ++
      '-' :: (digits.drop 16).take 4 ++ '-' :: digits.drop 20).filter (· != '-') = digits := by
  have hcut (m n : ℕ) : ((digits.drop m).take n).filter (· != '-') ++
      (digits.drop (m + n)).filter (· != '-') = (digits.drop m).filter (· != '-') := by
    rw [← List.filter_append, ← List.drop_drop, List.take_append_drop]
  have hall : digits.filter (· != '-') = digits := by
    apply List.filter_eq_self.mpr
    intro c hc
    simpa using h c hc
  have hskip (cs : List Char) : ('-' :: cs).filter (· != '-') = cs.filter (· != '-') := by
    rw [List.filter_cons_of_neg (by decide)]
  calc _ = (digits.take 8).filter (· != '-') ++ (((digits.drop 8).take 4).filter (· != '-') ++
        (((digits.drop 12).take 4).filter (· != '-') ++ (((digits.drop 16).take 4).filter (· != '-') ++
          (digits.drop 20).filter (· != '-')))) := by
        simp only [List.filter_append, hskip, List.append_assoc]
    _ = (digits.drop 0).filter (· != '-') := by
        rw [hcut 16 4, hcut 12 4, hcut 8 4]
        exact hcut 0 8
    _ = digits := hall

theorem uuidText_injective {a b : Uuid} (h : uuidText a = uuidText b) : a = b := by
  have hdigits (id : Uuid) : (uuidText id).toList.filter (· != '-') = hexChars 32 id.toNat := by
    rw [uuidText, String.toList_ofList]
    exact filter_hyphens _ fun c hc => ne_hyphen_of_mem_hexChars hc
  have htext : hexChars 32 a.toNat = hexChars 32 b.toNat := by rw [← hdigits a, ← hdigits b, h]
  have hpow : (16 : ℕ) ^ 32 = 2 ^ 128 := by rw [show (16 : ℕ) = 2 ^ 4 from rfl, ← pow_mul]
  have hsame := hexChars_injective htext
  rw [hpow, Nat.mod_eq_of_lt a.isLt, Nat.mod_eq_of_lt b.isLt] at hsame
  exact BitVec.eq_of_toNat_eq hsame
/-- Line ends as one character. -/
def unixLines : List Char → List Char
  | '\r' :: '\n' :: rest => '\n' :: unixLines rest
  | c :: rest => c :: unixLines rest
  | [] => []

/-- A text as it is kept: nothing in it a terminal would take for a control key. -/
def normalisedText (value : String) : Except LocalError String :=
  let text := unixLines value.toList
  if text.length = 0 then .error (.invalid "text" "empty")
  else if 4000 < text.length then .error (.invalid "text" "too-long")
  else if text.any fun c => isControl c && c != '\n' && c != '\t' then
    .error (.invalid "text" "invalid")
  else .ok (String.ofList text)

def validatedText : PasswordChange → Except LocalError PasswordChange
  | .set value => (normalisedText value).map .set
  | change => .ok change

def KeymapTextDraft.validated (draft : KeymapTextDraft) : Except LocalError KeymapTextDraft := do
  let label := trim draft.label
  refuse (labelProblem label)
  let text ← validatedText draft.text
  return { draft with label, text }

/-- Each text in its turn; a second one under an id is refused. -/
def validatedTexts (seen : List Uuid) : List KeymapTextDraft → Except LocalError (List KeymapTextDraft)
  | [] => .ok []
  | text :: rest =>
      if seen.contains text.id then .error (.invalid "texts" "duplicate")
      else do
        let text' ← text.validated
        let rest' ← validatedTexts (text.id :: seen) rest
        return text' :: rest'

def KeymapDraft.validated (draft : KeymapDraft) : Except LocalError (List KeymapTextDraft) := do
  if maxActions < draft.bindings.length then .error (.invalid "bindings" "too-many")
  else
  draft.bindings.forM fun b => refuse (bindingProblem b.1 b.2)
  if maxTexts < draft.texts.length then .error (.invalid "texts" "too-many")
  else validatedTexts [] draft.texts

namespace Store

/-- The keymap as stored, or the empty one. -/
def loadKeymap (s : Store) (id : Uuid) : KeymapPayload :=
  ((s.live? .keymap id).map fun row => KeymapBody.read row.cols).getD {}

/-- What the page shows of a keymap; an entry whose id does not read cannot be bound. -/
def viewOf (s : Store) (keymap : KeymapPayload) : KeymapView :=
  let texts := keymap.texts.filterMap fun e => (parseUuid e.1).map fun id =>
    (e.2.position, ({ id, label := e.2.label, enter := e.2.enter
                      hasText := e.2.secretId.any s.secretAlive } : KeymapText))
  { bindings := keymap.bindings
    texts := (texts.insertionSort fun a b =>
      a.1 < b.1 ∨ (a.1 = b.1 ∧ a.2.id.toNat ≤ b.2.id.toNat)).map (·.2) }

end Store

section operations

variable (draws : Draws)

/-- Write the texts of the page one after another, with what is left of those that were there. -/
def writeTexts : ℕ → List KeymapTextDraft → List (String × KeymapTextPayload) →
    List (String × KeymapTextPayload) →
    InTx (List (String × KeymapTextPayload) × List (String × KeymapTextPayload))
  | _, [], kept, previous => pure (kept, previous)
  | position, text :: rest, kept, previous => do
    let name := uuidText text.id
    let old := (entryOf name previous).getD {}
    let secretId ← replaceSecret draws text.text old.secretId
    let new : KeymapTextPayload :=
      { label := text.label, enter := text.enter, secretId, position := UInt32.ofNat position
        extra := old.extra }
    writeTexts (position + 1) rest (putEntry name new kept) (previous.filter fun e => e.1 != name)

/-- Whatever is left was removed on the page. -/
def forgetTexts : List (String × KeymapTextPayload) → InTx Unit
  | [] => pure ()
  | gone :: rest => do
    forgetAny draws gone.2.secretId
    forgetTexts rest

def needsVaultForTexts (texts : List KeymapTextDraft) : InTx Unit := do
  let sets := texts.any fun text =>
    match text.text with
    | .set _ => true
    | _ => false
  if sets && (← read (·.vault)).isNone then throw .vaultLocked else pure ()

/-- Replace the keymap of one family with what the page holds. -/
def saveKeymap (family : String) (draft : KeymapDraft) : InTx KeymapView := do
  match keymapId family with
  | none => throw (.invalid "family" "unknown")
  | some id =>
    let texts ← lift draft.validated
    needsVaultForTexts texts
    let keymap ← read (·.loadKeymap id)
    let (kept, removed) ← writeTexts draws 0 texts [] keymap.texts
    forgetTexts draws removed
    let bindings := draft.bindings.filter fun b => bindingHasItsText b.1 kept
    let clock ← InTx.tick draws
    let keymap : KeymapPayload := { keymap with bindings, texts := kept }
    upsert .keymap id keymap.written clock
    read (·.viewOf keymap)

end operations

section texts

/-- A text that is checked keeps its id. -/
theorem KeymapTextDraft.id_validated {text text' : KeymapTextDraft} (h : text.validated = .ok text') :
    text'.id = text.id := by
  unfold KeymapTextDraft.validated at h
  dsimp only at h
  cases hlabel : refuse (labelProblem (trim text.label)) with
  | error e =>
    rw [hlabel] at h
    cases h
  | ok u =>
    cases htext : validatedText text.text with
    | error e =>
      rw [hlabel, htext] at h
      cases h
    | ok change =>
      rw [hlabel, htext] at h
      cases h
      rfl

/-- The texts that are checked are those of the page, each under an id of its own. -/
theorem validatedTexts_ids {seen : List Uuid} {texts texts' : List KeymapTextDraft}
    (h : validatedTexts seen texts = .ok texts') : texts'.map (·.id) = texts.map (·.id) ∧
      (texts.map (·.id)).Nodup ∧ ∀ id ∈ seen, id ∉ texts.map (·.id) := by
  induction texts generalizing seen texts' with
  | nil =>
    cases h
    exact ⟨rfl, List.nodup_nil, fun _ _ => List.not_mem_nil⟩
  | cons text rest ih =>
    unfold validatedTexts at h
    split at h
    · cases h
    next hnew =>
    cases htext : text.validated with
    | error e =>
      rw [htext] at h
      cases h
    | ok text' =>
      cases hrest : validatedTexts (text.id :: seen) rest with
      | error e =>
        rw [htext, hrest] at h
        cases h
      | ok rest' =>
        rw [htext, hrest] at h
        cases h
        obtain ⟨hids, hnodup, hseen⟩ := ih hrest
        refine ⟨?_, ?_, ?_⟩
        · rw [List.map_cons, List.map_cons, hids, KeymapTextDraft.id_validated htext]
        · exact List.nodup_cons.mpr ⟨hseen text.id List.mem_cons_self, hnodup⟩
        · intro id hid hmem
          rcases List.mem_cons.mp hmem with rfl | hmem
          · exact hnew (List.contains_iff_mem.mpr hid)
          · exact hseen id (List.mem_cons_of_mem _ hid) hmem

theorem validated_ids {draft : KeymapDraft} {texts : List KeymapTextDraft}
    (h : draft.validated = .ok texts) :
    texts.map (·.id) = draft.texts.map (·.id) ∧ (draft.texts.map (·.id)).Nodup := by
  unfold KeymapDraft.validated at h
  split at h
  · cases h
  cases hbindings : draft.bindings.forM fun b => refuse (bindingProblem b.1 b.2) with
  | error e =>
    rw [hbindings] at h
    cases h
  | ok u =>
    rw [hbindings] at h
    change (if maxTexts < draft.texts.length then _ else _) = Except.ok texts at h
    split at h
    · cases h
    · obtain ⟨hids, hnodup, -⟩ := validatedTexts_ids h
      exact ⟨hids, hnodup⟩

/-- The unknown fields of the text of a name. -/
def textExtra (name : String) (texts : List (String × KeymapTextPayload)) : Extra :=
  ((entryOf name texts).map (·.extra)).getD []

theorem entryOf_filter_of_ne {α : Type} {name other : String} (h : other ≠ name)
    (map : List (String × α)) : entryOf other (map.filter fun e => e.1 != name) = entryOf other map := by
  have hsame : (fun e : String × α => decide ((e.1 != name) = true ∧ (e.1 == other) = true)) =
      fun e => e.1 == other := by
    funext e
    by_cases he : e.1 = other
    · simp [he, h]
    · simp [he]
  rw [entryOf, List.find?_filter, hsame, entryOf]

/-- The texts of the page have the unknown fields they had, and no other text is written. -/
theorem writeTexts_extra {draws : Draws} {position : ℕ} {texts : List KeymapTextDraft}
    {kept previous : List (String × KeymapTextPayload)} {tx : Tx}
    (hnodup : (texts.map (·.id)).Nodup) :
    Ends (writeTexts draws position texts kept previous) tx fun r _ =>
      (∀ text ∈ texts, textExtra (uuidText text.id) r.1 = textExtra (uuidText text.id) previous) ∧
        ∀ name, (∀ text ∈ texts, uuidText text.id ≠ name) → entryOf name r.1 = entryOf name kept := by
  induction texts generalizing position kept previous tx with
  | nil => exact ends_pure.mpr ⟨(by simp), fun _ _ => rfl⟩
  | cons text rest ih =>
    obtain ⟨hnot, hrest⟩ := List.nodup_cons.mp hnodup
    refine ends_bind.mpr (fun secretId u _ => (ih hrest).mono fun r _ hr => ?_)
    have hne (t : KeymapTextDraft) (ht : t ∈ rest) : uuidText t.id ≠ uuidText text.id := by
      intro heq
      exact hnot (List.mem_map.mpr ⟨t, ht, uuidText_injective heq⟩)
    refine ⟨fun t ht => ?_, fun name hname => ?_⟩
    · rcases List.mem_cons.mp ht with rfl | ht
      · rw [textExtra, hr.2 _ hne, entryOf_putEntry_self, textExtra]
        cases entryOf (uuidText t.id) previous with
        | none => rfl
        | some old => rfl
      · rw [hr.1 t ht, textExtra, entryOf_filter_of_ne (hne t ht), textExtra]
    · rw [hr.2 name fun t ht => hname t (List.mem_cons_of_mem _ ht)]
      exact entryOf_putEntry_of_ne (hname text List.mem_cons_self).symm _ _

end texts

end UwuSsh

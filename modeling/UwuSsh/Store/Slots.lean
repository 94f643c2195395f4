import UwuSsh.Lib.Seat
import UwuSsh.Store.ApplyFacts
import UwuSsh.Store.KnownHosts

/-!
Known hosts that come down, seen slot by slot. An address and port is a seat: an applied
host key is a claim to it, an applied tombstone a burial, and the row that has the slot
is who sits there. So the key that is trusted after a set of host keys was delivered
depends on the order exactly where it does for a seat.
-/
namespace UwuSsh

abbrev Slot := String × UInt16

def KnownHostCols.slot (cols : KnownHostCols) : Slot := (cols.address, cols.port)

/-- A row as the holder of its slot. -/
def Row.holder (id : Uuid) (row : Row (Cols .knownHost)) : Seat.Holder Uuid Hlc KnownHostRecord :=
  ⟨id, row.updatedAt, row.deleted, .ofCols row.cols⟩

namespace UnlockedVault

variable (vault : UnlockedVault)

/-- The host key a live envelope holds. -/
def hostCols (env : Envelope) : Option KnownHostCols :=
  (vault.openEnvelope env).bind (Cols.ofPlain .knownHost)

/-- What an envelope says about a slot, if anything. -/
def slotWord (slot : Slot) (env : Envelope) : Option (Seat.Word Uuid Hlc KnownHostRecord) :=
  if env.deleted then some (.gone env.id env.updatedAt)
  else
    match vault.hostCols env with
    | none => none
    | some cols => if cols.slot = slot then some (.live env.id env.updatedAt (.ofCols cols)) else none

def slotWords (slot : Slot) (envelopes : List Envelope) :
    List (Seat.Word Uuid Hlc KnownHostRecord) := envelopes.filterMap (vault.slotWord slot)

/-- Authentic host keys: each opens and can be read, and the live ones of one record name
one address and port. -/
structure HostKeys (envelopes : List Envelope) : Prop where
  sound : ∀ env ∈ envelopes, env.kind = .knownHost ∧ vault.Sound env
  slot : ∀ env ∈ envelopes, ∀ env' ∈ envelopes, env.id = env'.id → env.deleted = false →
    env'.deleted = false → ∀ cols cols', vault.hostCols env = some cols →
      vault.hostCols env' = some cols' → cols.slot = cols'.slot

variable {vault}

theorem hostCols_of_open {env : Envelope} {plain : Plain}
    (hopen : vault.openEnvelope env = some plain) :
    vault.hostCols env = Cols.ofPlain .knownHost plain := by
  rw [hostCols, hopen]
  rfl

/-- A live authentic host key names a slot. -/
theorem HostKeys.cols {envelopes : List Envelope} (h : vault.HostKeys envelopes) {env : Envelope}
    (henv : env ∈ envelopes) (hlive : env.deleted = false) :
    ∃ plain cols, vault.openEnvelope env = some plain ∧
      Cols.ofPlain .knownHost plain = some cols ∧ vault.hostCols env = some cols := by
  obtain ⟨hkind, -, -, plain, hopen, hread⟩ := h.sound env henv
  have hreadable := hread hlive
  unfold Envelope.Readable Plain.Readable at hreadable
  simp only [hkind] at hreadable
  obtain ⟨cols, hcols⟩ := Option.isSome_iff_exists.mp hreadable
  exact ⟨plain, cols, hopen, hcols, (hostCols_of_open hopen).trans hcols⟩

end UnlockedVault

namespace Store

/-- Who sits in a slot. -/
def holder (s : Store) (slot : Slot) : Option (Seat.Holder Uuid Hlc KnownHostRecord) :=
  (s.slotRow slot.1 slot.2).map fun e => e.2.holder e.1

/-- One row for each slot, as the table's second key has it. -/
def OneRow (s : Store) : Prop :=
  ∀ id row id' row', s.row? .knownHost id = some row → s.row? .knownHost id' = some row' →
    KnownHostCols.slot row.cols = KnownHostCols.slot row'.cols → id = id'

/-- Where a store's known hosts come from. -/
structure Seated (vault : UnlockedVault) (envelopes : List Envelope) (s : Store) : Prop where
  unlocked : s.vault = some vault
  named : ∀ id row, s.row? .knownHost id = some row → ∃ env ∈ envelopes, env.id = id ∧
    env.deleted = false ∧ ∃ cols, vault.hostCols env = some cols ∧
      cols.slot = KnownHostCols.slot row.cols
  one : s.OneRow

section holder

variable {s : Store} {slot : Slot}

theorem slotRow_spec {address : String} {port : UInt16} {id : Uuid} {row : Row (Cols .knownHost)}
    (h : s.slotRow address port = some (id, row)) :
    s.row? .knownHost id = some row ∧ KnownHostCols.slot row.cols = (address, port) := by
  have hrow := mem_knownHostRows.mp (List.mem_of_find?_eq_some h)
  have hprop := List.find?_some h
  simp only [decide_eq_true_eq] at hprop
  exact ⟨hrow, Prod.ext hprop.1 hprop.2⟩

theorem slotRow_none {address : String} {port : UInt16} (h : s.slotRow address port = none)
    {id : Uuid} {row : Row (Cols .knownHost)} (hrow : s.row? .knownHost id = some row) :
    KnownHostCols.slot row.cols ≠ (address, port) := by
  have hno := List.find?_eq_none.mp h (id, row) (mem_knownHostRows.mpr hrow)
  intro hslot
  injection hslot with haddress hport
  exact hno (by simp [haddress, hport])

theorem holder_of_row (hone : s.OneRow) {id : Uuid} {row : Row (Cols .knownHost)}
    (hrow : s.row? .knownHost id = some row) (hslot : KnownHostCols.slot row.cols = slot) :
    s.holder slot = some (row.holder id) := by
  cases hfind : s.slotRow slot.1 slot.2 with
  | none => exact absurd hslot (slotRow_none hfind hrow)
  | some found =>
    obtain ⟨id', row'⟩ := found
    obtain ⟨hrow', hslot'⟩ := slotRow_spec hfind
    obtain rfl : id = id' := hone id row id' row' hrow hrow' (hslot.trans hslot'.symm)
    rw [hrow] at hrow'
    cases hrow'
    simp [holder, hfind]

theorem holder_spec {h : Seat.Holder Uuid Hlc KnownHostRecord} (hholder : s.holder slot = some h) :
    ∃ row : Row (Cols .knownHost), s.row? .knownHost h.id = some row ∧ KnownHostCols.slot row.cols = slot ∧
      h = row.holder h.id := by
  obtain ⟨⟨id, row⟩, hfind, rfl⟩ := Option.map_eq_some_iff.mp hholder
  obtain ⟨hrow, hslot⟩ := slotRow_spec hfind
  exact ⟨row, hrow, hslot, rfl⟩

theorem holder_none (h : ∀ id (row : Row (Cols .knownHost)), s.row? .knownHost id = some row →
    KnownHostCols.slot row.cols ≠ slot) : s.holder slot = none := by
  cases hholder : s.holder slot with
  | none => rfl
  | some found =>
    obtain ⟨row, hrow, hslot, -⟩ := holder_spec hholder
    exact absurd hslot (h _ row hrow)

/-- Two stores in which the same rows have a slot. -/
theorem holder_congr {t : Store} (hs : s.OneRow) (ht : t.OneRow)
    (h : ∀ id (row : Row (Cols .knownHost)), KnownHostCols.slot row.cols = slot →
      (s.row? .knownHost id = some row → ∃ row' : Row (Cols .knownHost),
        t.row? .knownHost id = some row' ∧ KnownHostCols.slot row'.cols = slot ∧ row'.holder id = row.holder id) ∧
      (t.row? .knownHost id = some row → ∃ row' : Row (Cols .knownHost),
        s.row? .knownHost id = some row' ∧ KnownHostCols.slot row'.cols = slot)) :
    t.holder slot = s.holder slot := by
  cases hholder : s.holder slot with
  | none =>
    refine holder_none fun id row hrow hslot => ?_
    obtain ⟨row', hrow', hslot'⟩ := (h id row hslot).2 hrow
    rw [holder_of_row hs hrow' hslot'] at hholder
    cases hholder
  | some found =>
    obtain ⟨row, hrow, hslot, hfound⟩ := holder_spec hholder
    obtain ⟨row', hrow', hslot', heq⟩ := (h _ row hslot).1 hrow
    rw [holder_of_row ht hrow' hslot', heq]
    exact congrArg some hfound.symm

/-- While no host key is in doubt, the key that is answered with is the trusted one. -/
theorem knownHost_eq_trusted (hone : s.OneRow) (hcalm : s.hostKeysInDoubt = false)
    (address : String) (port : UInt16) :
    s.knownHost address port = Seat.trusted (s.holder (normalise address, port)) := by
  cases hknown : s.knownHost address port with
  | none =>
    cases hholder : s.holder (normalise address, port) with
    | none => rfl
    | some found =>
      obtain ⟨row, hrow, hslot, hfound⟩ := holder_spec hholder
      have hno := List.find?_eq_none.mp (Option.map_eq_none_iff.mp hknown) _
        (mem_knownHostRows.mpr hrow)
      injection hslot with haddress hport
      have hgone : row.deleted = true := by simpa [haddress, hport, hcalm] using hno
      rw [hfound]
      simp [Seat.trusted, Row.holder, hgone]
  | some record =>
    obtain ⟨id, row, hrow, rfl, haddress, hport, hlive, -⟩ := knownHost_spec hknown
    have hslot : KnownHostCols.slot row.cols = (normalise address, port) := by
      show (KnownHostCols.address row.cols, KnownHostCols.port row.cols) = _
      rw [haddress, hport]
    rw [holder_of_row hone hrow hslot]
    simp [Seat.trusted, Row.holder, hlive]

end holder

section step

variable {vault : UnlockedVault} {envelopes : List Envelope} {s t : Store}

/-- Every word is heard in its slot, and nothing else happens to a slot. -/
def Hears (vault : UnlockedVault) (env : Envelope) (s t : Store) : Prop :=
  ∀ slot, t.holder slot = (vault.slotWord slot env).elim (s.holder slot) (Seat.hear (s.holder slot))

/-- A step that leaves the known hosts as they are. -/
theorem Seated.of_rows (h : s.Seated vault envelopes) (hvault : t.vault = s.vault)
    (hrows : ∀ id, t.row? .knownHost id = s.row? .knownHost id) :
    t.Seated vault envelopes ∧ ∀ slot, t.holder slot = s.holder slot := by
  have ht : t.Seated vault envelopes := by
    refine ⟨hvault.trans h.unlocked, fun id row hrow => h.named id row (hrows id ▸ hrow), ?_⟩
    intro id row id' row' hrow hrow'
    exact h.one id row id' row' (hrows id ▸ hrow) (hrows id' ▸ hrow')
  refine ⟨ht, fun slot => holder_congr h.one ht.one fun id row hslot => ⟨fun hrow => ?_, fun hrow => ?_⟩⟩
  · exact ⟨row, (hrows id).trans hrow, hslot, rfl⟩
  · exact ⟨row, (hrows id).symm.trans hrow, hslot⟩

/-- A step that rewrites the header of one row and leaves its columns. -/
theorem Seated.of_header (h : s.Seated vault envelopes) {id : Uuid} {row : Row (Cols .knownHost)}
    (hrow : s.row? .knownHost id = some row) (f : Row (Cols .knownHost) → Row (Cols .knownHost))
    (hcols : (f row).cols = row.cols) :
    (s.updateRow .knownHost id f).Seated vault envelopes ∧
      ∀ slot, (s.updateRow .knownHost id f).holder slot =
        if KnownHostCols.slot row.cols = slot then some ((f row).holder id) else s.holder slot := by
  have hself : (s.updateRow .knownHost id f).row? .knownHost id = some (f row) := by
    rw [row?_updateRow_self, hrow]
    rfl
  have hother : ∀ id', id' ≠ id →
      (s.updateRow .knownHost id f).row? .knownHost id' = s.row? .knownHost id' :=
    fun id' hne => s.row?_updateRow_of_pair_ne _ _ f fun heq => hne heq.2
  -- Every row of the new store stands where a row of the old one stood.
  have hback : ∀ id' row', (s.updateRow .knownHost id f).row? .knownHost id' = some row' →
      ∃ old : Row (Cols .knownHost), s.row? .knownHost id' = some old ∧
        KnownHostCols.slot old.cols = KnownHostCols.slot row'.cols := by
    intro id' row' hrow'
    by_cases hid : id' = id
    · subst hid
      rw [hself] at hrow'
      cases hrow'
      exact ⟨row, hrow, by rw [hcols]⟩
    · exact ⟨row', (hother id' hid).symm.trans hrow', rfl⟩
  have ht : (s.updateRow .knownHost id f).Seated vault envelopes := by
    refine ⟨(s.frame_updateRow _ _ f).vault.trans h.unlocked, fun id' row' hrow' => ?_, ?_⟩
    · obtain ⟨old, hold, hslot⟩ := hback id' row' hrow'
      rw [← hslot]
      exact h.named id' old hold
    · intro id₁ row₁ id₂ row₂ h₁ h₂ heq
      obtain ⟨old₁, hold₁, hslot₁⟩ := hback id₁ row₁ h₁
      obtain ⟨old₂, hold₂, hslot₂⟩ := hback id₂ row₂ h₂
      exact h.one id₁ old₁ id₂ old₂ hold₁ hold₂ (hslot₁.trans (heq.trans hslot₂.symm))
  refine ⟨ht, fun slot => ?_⟩
  by_cases hslot : KnownHostCols.slot row.cols = slot
  · rw [if_pos hslot]
    exact holder_of_row ht.one hself (hcols ▸ hslot)
  · rw [if_neg hslot]
    have hne : ∀ id' (row' : Row (Cols .knownHost)), KnownHostCols.slot row'.cols = slot →
        (s.row? .knownHost id' = some row' ∨
          (s.updateRow .knownHost id f).row? .knownHost id' = some row') → id' ≠ id := by
      rintro id' row' hslot' hin rfl
      rcases hin with hin | hin
      · rw [hrow] at hin
        cases hin
        exact hslot hslot'
      · rw [hself] at hin
        cases hin
        exact hslot (hcols ▸ hslot')
    refine holder_congr h.one ht.one fun id' row' hslot' => ⟨fun hin => ?_, fun hin => ?_⟩
    · exact ⟨row', (hother id' (hne id' row' hslot' (Or.inl hin))).trans hin, hslot', rfl⟩
    · exact ⟨row', (hother id' (hne id' row' hslot' (Or.inr hin))).symm.trans hin, hslot'⟩

/-- The row of a host key is written and whoever sat in its slot leaves it. -/
theorem Seated.of_upsert (h : s.Seated vault envelopes) (hkeys : vault.HostKeys envelopes)
    {env : Envelope} (henv : env ∈ envelopes) (hlive : env.deleted = false) {cols : KnownHostCols}
    (hcols : vault.hostCols env = some cols) {new : Row (Cols .knownHost)}
    (hvault : t.vault = s.vault) (hnew : t.row? .knownHost env.id = some new)
    (hnewCols : new.cols = cols)
    (hother : ∀ id row, id ≠ env.id → (t.row? .knownHost id = some row ↔
      s.row? .knownHost id = some row ∧ KnownHostCols.slot row.cols ≠ cols.slot)) :
    t.Seated vault envelopes ∧
      ∀ slot, t.holder slot = if cols.slot = slot then some (new.holder env.id) else s.holder slot := by
  subst hnewCols
  have ht : t.Seated vault envelopes := by
    refine ⟨hvault.trans h.unlocked, fun id row hrow => ?_, ?_⟩
    · by_cases hid : id = env.id
      · subst hid
        rw [hnew] at hrow
        cases hrow
        exact ⟨env, henv, rfl, hlive, _, hcols, rfl⟩
      · exact h.named id row ((hother id row hid).mp hrow).1
    · intro id row id' row' hrow hrow' heq
      by_cases hid : id = env.id
      · by_cases hid' : id' = env.id
        · rw [hid, hid']
        · subst hid
          rw [hnew] at hrow
          cases hrow
          exact absurd heq.symm ((hother id' row' hid').mp hrow').2
      · by_cases hid' : id' = env.id
        · subst hid'
          rw [hnew] at hrow'
          cases hrow'
          exact absurd heq ((hother id row hid).mp hrow).2
        · exact h.one id row id' row' ((hother id row hid).mp hrow).1
            ((hother id' row' hid').mp hrow').1 heq
  refine ⟨ht, fun slot => ?_⟩
  by_cases hslot : KnownHostCols.slot new.cols = slot
  · rw [if_pos hslot]
    exact holder_of_row ht.one hnew hslot
  · rw [if_neg hslot]
    -- The record's own row can only stand in the slot its envelopes name.
    have hne : ∀ id (row : Row (Cols .knownHost)), KnownHostCols.slot row.cols = slot →
        s.row? .knownHost id = some row → id ≠ env.id := by
      rintro id row hslot' hrow rfl
      obtain ⟨env', henv', hid, hlive', cols', hcols', hnamed⟩ := h.named _ row hrow
      exact hslot ((hkeys.slot env henv env' henv' hid.symm hlive hlive' _ _ hcols hcols').trans
        (hnamed.trans hslot'))
    refine holder_congr h.one ht.one fun id row hslot' => ⟨fun hrow => ?_, fun hrow => ?_⟩
    · exact ⟨row, (hother id row (hne id row hslot' hrow)).mpr
        ⟨hrow, fun heq => hslot (heq.symm.trans hslot')⟩, hslot', rfl⟩
    · by_cases hid : id = env.id
      · subst hid
        rw [hnew] at hrow
        cases hrow
        exact absurd hslot' hslot
      · exact ⟨row, ((hother id row hid).mp hrow).1, hslot'⟩

theorem rivalOf_none {id : Uuid} {address : String} {port : UInt16}
    (h : s.rivalOf id address port = none) {id' : Uuid} {row : Row (Cols .knownHost)}
    (hrow : s.row? .knownHost id' = some row) (hne : id' ≠ id) :
    KnownHostCols.slot row.cols ≠ (address, port) := by
  have hno := List.find?_eq_none.mp h (id', row) (mem_knownHostRows.mpr hrow)
  intro hslot
  injection hslot with haddress hport
  exact hno (by simp [haddress, hport, hne])

/-- A host key that comes down claims its slot. -/
theorem Seated.applyKnownHost (h : s.Seated vault envelopes) (hkeys : vault.HostKeys envelopes)
    {env : Envelope} (henv : env ∈ envelopes) (hlive : env.deleted = false) {cols : KnownHostCols}
    (hcols : vault.hostCols env = some cols) (thisDevice : UInt32)
    (hnewer : ∀ row : Row (Cols .knownHost), s.row? .knownHost env.id = some row →
      row.deleted = false ∧ row.updatedAt < env.updatedAt) :
    (s.applyKnownHost env cols thisDevice).1.Seated vault envelopes ∧
      Hears vault env s (s.applyKnownHost env cols thisDevice).1 := by
  have hword : ∀ slot, vault.slotWord slot env =
      if cols.slot = slot then some (.live env.id env.updatedAt (.ofCols cols)) else none := by
    intro slot
    simp [UnlockedVault.slotWord, hlive, hcols]
  -- Whoever sits in the slot under the record's own id is alive and older.
  have hown : ∀ holder, s.holder cols.slot = some holder → holder.id = env.id →
      Seat.hear (some holder) (.live env.id env.updatedAt (.ofCols cols)) =
        some ⟨env.id, env.updatedAt, false, .ofCols cols⟩ := by
    intro holder hholder hid
    obtain ⟨row, hrow, -, heq⟩ := holder_spec hholder
    rw [hid] at hrow
    obtain ⟨hrowlive, hlt⟩ := hnewer row hrow
    rw [Seat.hear_live_own hid, if_pos (by rw [heq]; exact ⟨hrowlive, hlt⟩)]
  -- The row is written, and the words of the others are the same.
  have hwrite : ∀ u : Store, u.vault = s.vault →
      (∀ id row, id ≠ env.id → (u.row? .knownHost id = some row ↔
        s.row? .knownHost id = some row ∧ KnownHostCols.slot row.cols ≠ cols.slot)) →
      Seat.hear (s.holder cols.slot) (.live env.id env.updatedAt (.ofCols cols)) =
        some ⟨env.id, env.updatedAt, false, .ofCols cols⟩ →
      (u.upsertRecord .knownHost env cols).Seated vault envelopes ∧
        Hears vault env s (u.upsertRecord .knownHost env cols) := by
    intro u hvault hrows hhear
    obtain ⟨new, hnew, hclock, hdeleted, -, -, hnewcols⟩ :=
      u.row?_upsertRecord_self .knownHost env cols
    have hcolsEq : new.cols = cols := by
      rw [hnewcols]
      cases u.row? .knownHost env.id <;> rfl
    have hother : ∀ id row, id ≠ env.id →
        ((u.upsertRecord .knownHost env cols).row? .knownHost id = some row ↔
          s.row? .knownHost id = some row ∧ KnownHostCols.slot row.cols ≠ cols.slot) := by
      intro id row hid
      rw [u.row?_upsertRecord_of_pair_ne .knownHost env cols fun heq => hid heq.2]
      exact hrows id row hid
    obtain ⟨ht, hholder⟩ := h.of_upsert hkeys henv hlive hcols
      ((u.frame_upsertRecord .knownHost env cols).vault.trans hvault) hnew hcolsEq hother
    refine ⟨ht, fun slot => ?_⟩
    rw [hholder slot, hword slot]
    by_cases hslot : cols.slot = slot
    · subst hslot
      rw [if_pos rfl, if_pos rfl, Option.elim_some, hhear]
      show some (⟨env.id, new.updatedAt, new.deleted, KnownHostRecord.ofCols new.cols⟩ : Seat.Holder ..) = _
      rw [hclock, hdeleted, hcolsEq]
    · rw [if_neg hslot, if_neg hslot, Option.elim_none]
  unfold Store.applyKnownHost
  cases hrival : s.rivalOf env.id cols.address cols.port with
  | none =>
    refine hwrite s rfl (fun id row hid => ?_) ?_
    · exact ⟨fun hrow => ⟨hrow, rivalOf_none hrival hrow hid⟩, fun hrow => hrow.1⟩
    · cases hholder : s.holder cols.slot with
      | none => rfl
      | some holder =>
        obtain ⟨row, hrow, hslot, -⟩ := holder_spec hholder
        exact hown holder hholder (by_contra fun hid => rivalOf_none hrival hrow hid hslot)
  | some found =>
    obtain ⟨rivalId, rival⟩ := found
    obtain ⟨hrow, haddress, hport, hid⟩ := rivalOf_spec hrival
    have hslot : KnownHostCols.slot rival.cols = cols.slot := Prod.ext haddress hport
    have hholder : s.holder cols.slot = some (Row.holder rivalId rival) :=
      holder_of_row h.one hrow hslot
    have hhear : Seat.hear (s.holder cols.slot) (.live env.id env.updatedAt (.ofCols cols)) =
        if env.updatedAt < rival.updatedAt then s.holder cols.slot
        else some ⟨env.id, env.updatedAt, false, .ofCols cols⟩ := by
      rw [hholder, Seat.hear_live_other hid]
      rfl
    dsimp only
    by_cases hlt : env.updatedAt < rival.updatedAt
    · rw [if_pos hlt]
      rw [if_pos hlt] at hhear
      obtain ⟨ht, hsame⟩ := h.of_rows (s.frame_supersede .knownHost env.id env.updatedAt).vault
        fun id => s.row?_supersede _ _ _ .knownHost id
      refine ⟨ht, fun slot => ?_⟩
      rw [hword slot]
      by_cases hslot' : cols.slot = slot
      · subst hslot'
        rw [if_pos rfl, Option.elim_some, hhear]
        exact hsame cols.slot
      · rw [if_neg hslot', Option.elim_none]
        exact hsame slot
    · rw [if_neg hlt]
      rw [if_neg hlt] at hhear
      refine hwrite _ (s.frame_supersede .knownHost rivalId rival.updatedAt).vault
        (fun id row hne => ?_) hhear
      by_cases hrid : id = rivalId
      · subst hrid
        rw [row?_dropRow_self]
        constructor
        · intro hnone
          cases hnone
        · rintro ⟨hrow', hslot'⟩
          rw [hrow] at hrow'
          cases hrow'
          exact absurd hslot hslot'
      · rw [row?_dropRow_of_ne _ hrid, row?_supersede]
        refine ⟨fun hrow' => ⟨hrow', fun heq => hrid ?_⟩, fun hrow' => hrow'.1⟩
        exact h.one id row rivalId rival hrow' hrow (heq.trans hslot.symm)

/-- A holder of a record's own id is that record's row. -/
theorem holder_own {slot : Slot} {holder : Seat.Holder Uuid Hlc KnownHostRecord} {id : Uuid}
    {row : Row (Cols .knownHost)} (hrow : s.row? .knownHost id = some row)
    (hholder : s.holder slot = some holder) (hid : holder.id = id) :
    holder = Row.holder id row ∧ KnownHostCols.slot row.cols = slot := by
  obtain ⟨found, hfound, hslot, heq⟩ := holder_spec hholder
  subst hid
  rw [hrow] at hfound
  cases hfound
  exact ⟨heq, hslot⟩

/-- A version that is not newer than the row's says nothing to any slot. -/
theorem Seated.inert (h : s.Seated vault envelopes) (hkeys : vault.HostKeys envelopes)
    {env : Envelope} (henv : env ∈ envelopes) {row : Row (Cols .knownHost)}
    (hrow : s.row? .knownHost env.id = some row) (hle : env.version ≤ row.version) (slot : Slot) :
    (vault.slotWord slot env).elim (s.holder slot) (Seat.hear (s.holder slot)) = s.holder slot := by
  have hnot := not_lt.mpr hle
  rw [Version.lt_iff] at hnot
  cases hdeleted : env.deleted with
  | true =>
    have hword : vault.slotWord slot env = some (.gone env.id env.updatedAt) := by
      simp [UnlockedVault.slotWord, hdeleted]
    rw [hword, Option.elim_some]
    cases hholder : s.holder slot with
    | none => rfl
    | some holder =>
      by_cases hid : holder.id = env.id
      · obtain ⟨rfl, -⟩ := holder_own hrow hholder hid
        rw [Seat.hear_gone_own hid, if_neg]
        rintro (hlive | hlt)
        · exact hnot (Or.inl (by simp [Row.version, Envelope.version, hdeleted, show row.deleted = false from hlive]))
        · cases hbit : row.deleted with
          | false => exact hnot (Or.inl (by simp [Row.version, Envelope.version, hdeleted, hbit]))
          | true => exact hnot (Or.inr ⟨by simp [Row.version, Envelope.version, hdeleted, hbit], hlt⟩)
      · exact Seat.hear_gone_other hid _
  | false =>
    obtain ⟨plain, cols, -, -, hcols⟩ := hkeys.cols henv hdeleted
    have hword : vault.slotWord slot env =
        if cols.slot = slot then some (.live env.id env.updatedAt (.ofCols cols)) else none := by
      simp [UnlockedVault.slotWord, hdeleted, hcols]
    rw [hword]
    by_cases hslot : cols.slot = slot
    · obtain ⟨env', henv', hid, hlive', cols', hcols', hnamed⟩ := h.named _ row hrow
      have hrowSlot : KnownHostCols.slot row.cols = slot :=
        hnamed.symm.trans ((hkeys.slot env henv env' henv' hid.symm hdeleted hlive' _ _ hcols
          hcols').symm.trans hslot)
      rw [if_pos hslot, Option.elim_some, holder_of_row h.one hrow hrowSlot,
        Seat.hear_live_own (show (Row.holder env.id row).id = env.id from rfl), if_neg]
      rintro ⟨hlive, hlt⟩
      exact hnot (Or.inr ⟨hlive.trans hdeleted.symm, hlt⟩)
    · rw [if_neg hslot, Option.elim_none]

/-- One applied envelope: every slot hears its word. -/
theorem Seated.applyOne (h : s.Seated vault envelopes) (hkeys : vault.HostKeys envelopes)
    {env : Envelope} (henv : env ∈ envelopes) {thisDevice : UInt32} {outcome : ApplyReport}
    (hone : s.applyOne vault env thisDevice = .ok (t, outcome)) :
    t.Seated vault envelopes ∧ Hears vault env s t := by
  obtain ⟨hkind, hvault, htable, plain, hopen, -⟩ := hkeys.sound env henv
  obtain ⟨id, vaultId, kind, clock, baseSeq, deleted, nonce, blob, seq⟩ := env
  obtain rfl : kind = .knownHost := hkind
  unfold Store.applyOne at hone
  rw [if_neg (not_not.mpr hvault), if_neg (by simp [htable]), hopen] at hone
  dsimp only at hone
  have hgoneWord : deleted = true → ∀ slot, vault.slotWord slot
      ⟨id, vaultId, .knownHost, clock, baseSeq, deleted, nonce, blob, seq⟩ = some (.gone id clock) := by
    rintro rfl slot
    rfl
  -- A live record whose row may be written.
  have hinsert : deleted = false →
      (∀ row : Row (Cols .knownHost), s.row? .knownHost id = some row →
        row.deleted = false ∧ row.updatedAt < clock) →
      s.insertRecord vault ⟨id, vaultId, .knownHost, clock, baseSeq, deleted, nonce, blob, seq⟩ plain
        thisDevice = .ok (t, outcome) →
      t.Seated vault envelopes ∧
        Hears vault ⟨id, vaultId, .knownHost, clock, baseSeq, deleted, nonce, blob, seq⟩ s t := by
    intro hlive hnewer hins
    obtain ⟨plain', cols, hopen', hplain, hcols⟩ := hkeys.cols henv hlive
    rw [hopen] at hopen'
    cases hopen'
    simp only [insertRecord, hplain] at hins
    have happlied := h.applyKnownHost hkeys henv hlive hcols thisDevice hnewer
    injection hins with hins
    rw [hins] at happlied
    exact happlied
  cases hrow : s.row? .knownHost id with
  | none =>
    rw [hrow] at hone
    dsimp only at hone
    cases deleted with
    | false =>
      refine hinsert rfl (fun row hsome => ?_) hone
      rw [hrow] at hsome
      cases hsome
    | true =>
      cases hone
      refine ⟨h, fun slot => ?_⟩
      rw [hgoneWord rfl slot, Option.elim_some]
      cases hholder : s.holder slot with
      | none => rfl
      | some holder =>
        obtain ⟨row, hin, -, -⟩ := holder_spec hholder
        rw [Seat.hear_gone_other]
        rintro rfl
        rw [hrow] at hin
        cases hin
  | some row =>
    rw [hrow] at hone
    dsimp only at hone
    -- The header changes, and the version does not.
    have hheader : ∀ f : Row (Cols .knownHost) → Row (Cols .knownHost),
        (f row).cols = row.cols → (f row).holder id = Row.holder id row →
        (⟨id, vaultId, .knownHost, clock, baseSeq, deleted, nonce, blob, seq⟩ : Envelope).version ≤
          row.version → t = s.updateRow .knownHost id f →
        t.Seated vault envelopes ∧
          Hears vault ⟨id, vaultId, .knownHost, clock, baseSeq, deleted, nonce, blob, seq⟩ s t := by
      rintro f hcols hf hle rfl
      obtain ⟨ht, hholder⟩ := h.of_header hrow f hcols
      refine ⟨ht, fun slot => ?_⟩
      rw [h.inert hkeys henv hrow hle slot, hholder slot]
      by_cases hslot : KnownHostCols.slot row.cols = slot
      · rw [if_pos hslot, hf, holder_of_row h.one hrow hslot]
      · rw [if_neg hslot]
    split at hone
    · next hres =>
      cases hone
      exact hheader _ rfl rfl (resolve_eq_identical_iff.mp hres).symm.le rfl
    · next hres =>
      cases hone
      exact hheader _ rfl rfl (resolve_eq_keepLocal_iff.mp hres).le rfl
    · next hres =>
      have hlt := Version.lt_iff.mp (resolve_eq_takeRemote_iff.mp hres)
      cases deleted with
      | false =>
        refine hinsert rfl (fun row' hrow' => ?_) hone
        rw [hrow] at hrow'
        cases hrow'
        rcases hlt with hlt | ⟨hdeleted, hlt⟩
        · exact absurd hlt (by simp [Envelope.version])
        · exact ⟨hdeleted, hlt⟩
      | true =>
        cases hone
        obtain ⟨ht, hholder⟩ := h.of_header hrow (fun row => { row with
          updatedAt := clock, rev := row.rev + 1, deleted := true, dirty := false
          serverSeq := seq.getD 0 }) rfl
        refine ⟨ht, fun slot => ?_⟩
        rw [hgoneWord rfl slot, Option.elim_some]
        refine (hholder slot).trans ?_
        by_cases hslot : KnownHostCols.slot row.cols = slot
        · rw [if_pos hslot, holder_of_row h.one hrow hslot, Seat.hear_gone_own (show (Row.holder id row).id = id from rfl), if_pos]
          · rfl
          · show row.deleted = false ∨ row.updatedAt < clock
            cases hbit : row.deleted with
            | false => exact Or.inl rfl
            | true =>
              rcases hlt with hlt | ⟨-, hlt⟩
              · exact absurd hlt (by simp [Row.version, Envelope.version, hbit])
              · exact Or.inr hlt
        · rw [if_neg hslot]
          cases hholder' : s.holder slot with
          | none => rfl
          | some holder =>
            rw [Seat.hear_gone_other]
            intro hid
            exact hslot (holder_own hrow hholder' hid).2

theorem Seated.applyAll (h : s.Seated vault envelopes) (hkeys : vault.HostKeys envelopes)
    {batch : List Envelope} (hbatch : ∀ env ∈ batch, env ∈ envelopes) {thisDevice : UInt32}
    {report report' : ApplyReport} {newest newest' : Option Hlc}
    (hall : applyAll vault thisDevice batch s report newest = .ok (t, report', newest')) :
    t.Seated vault envelopes ∧
      ∀ slot, t.holder slot = (vault.slotWords slot batch).foldl Seat.hear (s.holder slot) := by
  induction batch generalizing s report newest with
  | nil =>
    cases hall
    exact ⟨h, fun _ => rfl⟩
  | cons env rest ih =>
    unfold Store.applyAll at hall
    split at hall
    · cases hall
    next u outcome hone =>
    obtain ⟨hu, hhears⟩ := h.applyOne hkeys (hbatch env (List.mem_cons_self ..)) hone
    obtain ⟨ht, hholder⟩ := ih hu (fun e he => hbatch e (List.mem_cons_of_mem _ he)) hall
    refine ⟨ht, fun slot => ?_⟩
    rw [hholder slot, hhears slot, UnlockedVault.slotWords, UnlockedVault.slotWords,
      List.filterMap_cons]
    cases vault.slotWord slot env <;> rfl

theorem Seated.applyEnvelopes (h : s.Seated vault envelopes) (hkeys : vault.HostKeys envelopes)
    {page : List Envelope} (hpage : ∀ env ∈ page, env ∈ envelopes) {nowMs : UInt64}
    {report : ApplyReport} (happly : s.applyEnvelopes page nowMs = .ok (t, report)) :
    t.Seated vault envelopes ∧ ∀ slot, t.holder slot =
      (vault.slotWords slot (page.insertionSort applyBefore)).foldl Seat.hear (s.holder slot) := by
  rcases applyEnvelopes_eq happly with ⟨rfl, rfl⟩ | ⟨vault', u, newest, hvault', hall, rfl⟩
  · exact ⟨h, fun _ => rfl⟩
  · rw [h.unlocked] at hvault'
    cases hvault'
    have hsorted : ∀ env ∈ page.insertionSort applyBefore, env ∈ envelopes :=
      fun env henv => hpage env ((page.perm_insertionSort applyBefore).mem_iff.mp henv)
    obtain ⟨hu, hholder⟩ := h.applyAll hkeys hsorted hall
    obtain ⟨ht, hsame⟩ := hu.of_rows (u.frame_setClock _).vault fun id => u.row?_setClock _ .knownHost id
    exact ⟨ht, fun slot => (hsame slot).trans (hholder slot)⟩

end step

/-- Pages applied one after the other, each at its own time. -/
def deliver : List (List Envelope × UInt64) → Store → Except StoreError Store
  | [], s => .ok s
  | (page, nowMs) :: rest, s =>
      match s.applyEnvelopes page nowMs with
      | .error e => .error e
      | .ok (t, _) => deliver rest t

/-- The order in which pages bring their records. -/
def arrivals (pages : List (List Envelope × UInt64)) : List Envelope :=
  pages.flatMap fun page => page.1.insertionSort applyBefore

theorem mem_arrivals {pages : List (List Envelope × UInt64)} {env : Envelope} :
    env ∈ arrivals pages ↔ ∃ page ∈ pages, env ∈ page.1 := by
  simp [arrivals, List.mem_flatMap, List.mem_insertionSort]

section pages

variable {vault : UnlockedVault} {envelopes : List Envelope} {s t : Store}
  {pages : List (List Envelope × UInt64)}

theorem deliver_spec (h : s.Seated vault envelopes) (hkeys : vault.HostKeys envelopes)
    (hpages : ∀ env ∈ arrivals pages, env ∈ envelopes) (hrun : s.deliver pages = .ok t) :
    t.Seated vault envelopes ∧ t.violations = s.violations ∧
      ∀ slot, t.holder slot =
        (vault.slotWords slot (arrivals pages)).foldl Seat.hear (s.holder slot) := by
  induction pages generalizing s with
  | nil =>
    cases hrun
    exact ⟨h, rfl, fun _ => rfl⟩
  | cons page rest ih =>
    obtain ⟨page, nowMs⟩ := page
    unfold deliver at hrun
    split at hrun
    · cases hrun
    next u report happly =>
    have hpage : ∀ env ∈ page, env ∈ envelopes := fun env henv =>
      hpages env (mem_arrivals.mpr ⟨_, List.mem_cons_self .., henv⟩)
    have hrest : ∀ env ∈ arrivals rest, env ∈ envelopes := fun env henv =>
      hpages env (List.mem_append_right _ henv)
    obtain ⟨hu, hholder⟩ := h.applyEnvelopes hkeys hpage happly
    obtain ⟨ht, hviolations, hholder'⟩ := ih hu hrest hrun
    refine ⟨ht, hviolations.trans (applyEnvelopes_touched happly).1.violations, fun slot => ?_⟩
    rw [hholder' slot, hholder slot]
    unfold arrivals UnlockedVault.slotWords
    rw [List.flatMap_cons, List.filterMap_append, List.foldl_append]

/-- Sound pages are delivered. -/
theorem deliver_of_sound (hvault : s.vault = some vault)
    (hpages : ∀ env ∈ arrivals pages, vault.Sound env) : ∃ t, s.deliver pages = .ok t := by
  induction pages generalizing s with
  | nil => exact ⟨s, rfl⟩
  | cons page rest ih =>
    obtain ⟨page, nowMs⟩ := page
    have hpage : ∀ env ∈ page, vault.Sound env := fun env henv =>
      hpages env (mem_arrivals.mpr ⟨_, List.mem_cons_self .., henv⟩)
    obtain ⟨u, report, happly, -⟩ := applyEnvelopes_of_sound hvault hpage nowMs
    obtain ⟨t, ht⟩ := ih ((applyEnvelopes_touched happly).1.vault.trans hvault) fun env henv =>
      hpages env (List.mem_append_right _ henv)
    refine ⟨t, ?_⟩
    unfold deliver
    rw [happly]
    exact ht

/-- An unlocked store with no host key yet and nothing kept back. -/
structure Fresh (vault : UnlockedVault) (s : Store) : Prop where
  unlocked : s.vault = some vault
  rows : ∀ id, s.row? .knownHost id = none
  calm : s.hostKeysInDoubt = false

theorem Fresh.seated (h : s.Fresh vault) : s.Seated vault envelopes where
  unlocked := h.unlocked
  named := fun id row hrow => by rw [h.rows id] at hrow; cases hrow
  one := fun id row id' row' hrow => by rw [h.rows id] at hrow; cases hrow

/-- A store to which every one of the envelopes was delivered and nothing else, in some
order, split into pages somehow and perhaps some of them more than once. -/
def Delivered (envelopes : List Envelope) (s t : Store) : Prop :=
  ∃ pages, (∀ env, env ∈ arrivals pages ↔ env ∈ envelopes) ∧ s.deliver pages = .ok t

theorem Delivered.words (hdel : Delivered envelopes s t) (hfresh : s.Fresh vault)
    (hkeys : vault.HostKeys envelopes) :
    ∃ order, (∀ env, env ∈ order ↔ env ∈ envelopes) ∧ ∀ address port,
      t.knownHost address port =
        Seat.trusted (Seat.run (vault.slotWords (normalise address, port) order)) := by
  obtain ⟨pages, hmem, hrun⟩ := hdel
  obtain ⟨ht, hviolations, hholder⟩ :=
    deliver_spec hfresh.seated hkeys (fun env => (hmem env).mp) hrun
  have hcalm : t.hostKeysInDoubt = false := by
    rw [hostKeysInDoubt, hviolations]
    exact hfresh.calm
  refine ⟨arrivals pages, hmem, fun address port => ?_⟩
  have hnone : s.holder (normalise address, port) = none :=
    holder_none fun id row hrow => by rw [hfresh.rows id] at hrow; cases hrow
  rw [knownHost_eq_trusted ht.one hcalm, hholder, hnone]
  rfl

theorem covers_slotWords {order : List Envelope} (h : ∀ env, env ∈ order ↔ env ∈ envelopes)
    (slot : Slot) :
    Seat.Covers (vault.slotWords slot envelopes) (vault.slotWords slot order) := by
  intro w
  simp only [UnlockedVault.slotWords, List.mem_filterMap, h]

/-- Pages of one record each bring the records in any order. -/
theorem exists_delivered {order : List Envelope} (hkeys : vault.HostKeys envelopes)
    (h : ∀ env, env ∈ order ↔ env ∈ envelopes) :
    ∃ s t, Fresh vault s ∧ Delivered envelopes s t ∧ ∀ address port,
      t.knownHost address port =
        Seat.trusted (Seat.run (vault.slotWords (normalise address, port) order)) := by
  have hfresh : Fresh vault (empty 1 vault.vaultId (some vault)) := ⟨rfl, fun _ => rfl, rfl⟩
  have horder : arrivals (order.map fun env => ([env], 0)) = order := by
    simp [arrivals, List.flatMap_map]
  obtain ⟨t, hrun⟩ := deliver_of_sound hfresh.unlocked fun env henv =>
    (hkeys.sound env ((h env).mp (horder ▸ henv))).2
  obtain ⟨ht, hviolations, hholder⟩ :=
    deliver_spec hfresh.seated hkeys (fun env henv => (h env).mp (horder ▸ henv)) hrun
  refine ⟨_, t, hfresh, ⟨_, fun env => by rw [horder]; exact h env, hrun⟩, fun address port => ?_⟩
  have hcalm : t.hostKeysInDoubt = false := by
    rw [hostKeysInDoubt, hviolations]
    exact hfresh.calm
  rw [knownHost_eq_trusted ht.one hcalm, hholder, horder]
  rfl

theorem ofPlain_knownHost (p : KnownHostPayload) :
    Cols.ofPlain .knownHost (.json (.knownHost p)) = some
      { address := normalise p.address, port := p.port, algorithm := p.algorithm
        fingerprintSha256 := p.fingerprintSha256, publicKey := p.publicKey
        firstSeenMs := p.firstSeenMs, syncExtra := p.extra : KnownHostCols } := by
  simp only [Cols.ofPlain]
  rfl

/-- The address of a host key that came down is written as the store writes addresses. -/
theorem normalised_of_plain {plain : Plain} {cols : KnownHostCols}
    (h : Cols.ofPlain .knownHost plain = some cols) : ∃ address, cols.address = normalise address := by
  cases plain with
  | bytes => exact absurd h (by simp [Cols.ofPlain])
  | json payload =>
    cases payload with
    | knownHost p =>
      rw [ofPlain_knownHost] at h
      have hcols := Option.some.inj h
      subst hcols
      exact ⟨p.address, by dsimp only⟩
    | _ => exact absurd h (by simp [Cols.ofPlain])

/-- A slot that a live host key names is some address's. -/
theorem slot_of_claim {slot : Slot} {i : Uuid} {c : Hlc} {v : KnownHostRecord}
    (h : .live i c v ∈ vault.slotWords slot envelopes) : ∃ address, slot = (normalise address, slot.2) := by
  obtain ⟨env, -, hword⟩ := List.mem_filterMap.mp h
  unfold UnlockedVault.slotWord at hword
  cases hdeleted : env.deleted with
  | true => simp [hdeleted] at hword
  | false =>
    cases hcols : vault.hostCols env with
    | none => simp [hdeleted, hcols] at hword
    | some cols =>
      by_cases hslot : cols.slot = slot
      · obtain ⟨plain, -, hplain⟩ := Option.bind_eq_some_iff.mp hcols
        obtain ⟨address, haddress⟩ := normalised_of_plain hplain
        refine ⟨address, ?_⟩
        rw [← hslot, ← haddress]
        rfl
      · simp [hdeleted, hcols, hslot] at hword

end pages

/-- The trusted keys do not depend on how a set of host keys arrives exactly if every slot's
words are settled: the newest live claim of each address and port has one key, its record
is never deleted, and no record that claimed the slot is deleted later than it. -/
theorem host_keys_agree_iff {vault : UnlockedVault} {envelopes : List Envelope}
    (hkeys : vault.HostKeys envelopes) :
    (∀ s t s' t', Fresh vault s → Fresh vault s' → Delivered envelopes s t →
        Delivered envelopes s' t' → ∀ address port,
          t.knownHost address port = t'.knownHost address port) ↔
      ∀ slot, Seat.Settled (vault.slotWords slot envelopes) := by
  constructor
  · intro hagree slot
    by_cases hclaim : ∃ i c v, Seat.Word.live i c v ∈ vault.slotWords slot envelopes
    · obtain ⟨i, c, v, hclaim⟩ := hclaim
      obtain ⟨address, hslot⟩ := slot_of_claim hclaim
      rw [← Seat.agree_iff_settled]
      intro words words' hcovers hcovers'
      obtain ⟨order, horder, hrun⟩ := Seat.exists_order (vault.slotWord slot) hcovers
      obtain ⟨order', horder', hrun'⟩ := Seat.exists_order (vault.slotWord slot) hcovers'
      obtain ⟨s, t, hs, hdel, ht⟩ := exists_delivered hkeys horder
      obtain ⟨s', t', hs', hdel', ht'⟩ := exists_delivered hkeys horder'
      have hsame := hagree s t s' t' hs hs' hdel hdel' address slot.2
      rw [ht, ht', ← hslot] at hsame
      rw [← hrun, ← hrun']
      exact hsame
    · exact Seat.settled_of_no_claim fun i c v hin => hclaim ⟨i, c, v, hin⟩
  · intro hsettled s t s' t' hs hs' hdel hdel' address port
    obtain ⟨order, horder, ht⟩ := hdel.words hs hkeys
    obtain ⟨order', horder', ht'⟩ := hdel'.words hs' hkeys
    rw [ht, ht']
    exact Seat.agree_iff_settled.mpr (hsettled _) _ _ (covers_slotWords horder _)
      (covers_slotWords horder' _)

section examples

def keyVault : UnlockedVault := { vaultId := 7, key := 0 }

/-- A host key record on its way: alive with its key, or its tombstone. -/
def keyEnvelope (id : Uuid) (wallMs : UInt64) (deleted : Bool) (key : String) : Envelope :=
  let box := keyVault.sealSynced id .knownHost ⟨wallMs, 0, 1⟩ deleted (.json (.knownHost
    { address := "h", port := 22, algorithm := "a", fingerprintSha256 := key, publicKey := key
      firstSeenMs := 0 }))
  { id, vaultId := 7, kind := .knownHost, updatedAt := ⟨wallMs, 0, 1⟩, baseSeq := 0, deleted
    nonce := box.nonce, blob := box.blob, seq := none }

theorem open_keyEnvelope (id : Uuid) (wallMs : UInt64) (deleted : Bool) (key : String) :
    keyVault.openEnvelope (keyEnvelope id wallMs deleted key) = some (.json (.knownHost
      { address := "h", port := 22, algorithm := "a", fingerprintSha256 := key, publicKey := key
        firstSeenMs := 0 })) := keyVault.openSynced_sealSynced ..

/-- A key that was trusted and forgotten, and one that another device trusted meanwhile. -/
def forgottenKeys : List Envelope :=
  [keyEnvelope 1 10 false "a", keyEnvelope 1 20 true "a", keyEnvelope 2 15 false "b"]

theorem hostKeys_of_keyEnvelopes {envelopes : List Envelope}
    (h : ∀ env ∈ envelopes, ∃ id wallMs deleted key, env = keyEnvelope id wallMs deleted key) :
    keyVault.HostKeys envelopes := by
  have hcols : ∀ env ∈ envelopes, ∀ cols, keyVault.hostCols env = some cols →
      cols.slot = ("h", 22) := by
    intro env henv cols hcols
    obtain ⟨id, wallMs, deleted, key, rfl⟩ := h env henv
    rw [UnlockedVault.hostCols_of_open (open_keyEnvelope ..), ofPlain_knownHost] at hcols
    have hcols := Option.some.inj hcols
    subst hcols
    show (normalise "h", (22 : UInt16)) = ("h", 22)
    rw [show normalise "h" = "h" by decide +kernel]
  refine ⟨fun env henv => ?_, fun env henv env' henv' _ _ _ cols cols' hc hc' => ?_⟩
  · obtain ⟨id, wallMs, deleted, key, rfl⟩ := h env henv
    exact ⟨rfl, rfl, rfl, _, open_keyEnvelope .., fun _ => rfl⟩
  · exact (hcols env henv cols hc).trans (hcols env' henv' cols' hc').symm

theorem hostKeys_forgottenKeys : keyVault.HostKeys forgottenKeys := by
  apply hostKeys_of_keyEnvelopes
  intro env henv
  simp only [forgottenKeys, List.mem_cons, List.not_mem_nil, or_false] at henv
  rcases henv with rfl | rfl | rfl
  · exact ⟨_, _, _, _, rfl⟩
  · exact ⟨_, _, _, _, rfl⟩
  · exact ⟨_, _, _, _, rfl⟩

theorem fresh_keyVault (device : UInt32) : Fresh keyVault (empty device 7 (some keyVault)) :=
  ⟨rfl, fun _ => rfl, rfl⟩

/-- A delivery that was run, with something seen to hold at its end. -/
theorem delivered_of_played {envelopes : List Envelope} {pages : List (List Envelope × UInt64)}
    {s : Store} (hpages : ∀ env, env ∈ arrivals pages ↔ env ∈ envelopes) {p : Store → Bool}
    (h : (s.deliver pages).toOption.any p = true) : ∃ t, Delivered envelopes s t ∧ p t = true := by
  cases hrun : s.deliver pages with
  | error e =>
    rw [hrun] at h
    cases h
  | ok t =>
    rw [hrun] at h
    exact ⟨t, ⟨pages, hpages, hrun⟩, h⟩

/-- A device that stored the first key keeps its tombstone in the slot; one that never
had it passes the tombstone over. -/
theorem forgotten_keys_differ :
    keyVault.HostKeys forgottenKeys ∧ ∃ s t s' t', Fresh keyVault s ∧ Fresh keyVault s' ∧
      Delivered forgottenKeys s t ∧ Delivered forgottenKeys s' t' ∧
        t.knownHost "h" 22 = none ∧ t'.knownHost "h" 22 ≠ none := by
  have hinOrder : ∀ env, env ∈ arrivals [(forgottenKeys, 30)] ↔ env ∈ forgottenKeys := by
    intro env
    simp [arrivals, List.mem_insertionSort]
  have hlater : ∀ env, env ∈ arrivals [([keyEnvelope 1 20 true "a"], 30),
      ([keyEnvelope 1 10 false "a"], 31), ([keyEnvelope 2 15 false "b"], 32)] ↔
        env ∈ forgottenKeys := by
    intro env
    simp only [arrivals, forgottenKeys, List.flatMap_cons, List.flatMap_nil, List.mem_append,
      List.insertionSort_cons, List.insertionSort_nil, List.orderedInsert_nil, List.mem_cons,
      List.not_mem_nil, or_false]
    exact or_left_comm
  have hnone : ((empty 1 7 (some keyVault)).deliver [(forgottenKeys, 30)]).toOption.any
      (fun t => t.knownHost "h" 22 = none) = true := by decide +kernel
  have hsome : ((empty 2 7 (some keyVault)).deliver [([keyEnvelope 1 20 true "a"], 30),
      ([keyEnvelope 1 10 false "a"], 31), ([keyEnvelope 2 15 false "b"], 32)]).toOption.any
        (fun t => t.knownHost "h" 22 ≠ none) = true := by decide +kernel
  obtain ⟨t, ht, hnone⟩ := delivered_of_played hinOrder hnone
  obtain ⟨t', ht', hsome⟩ := delivered_of_played hlater hsome
  exact ⟨hostKeys_forgottenKeys, _, t, _, t', fresh_keyVault 1, fresh_keyVault 2, ht, ht',
    of_decide_eq_true hnone, of_decide_eq_true hsome⟩

/-- Two devices that trusted different keys, and neither forgot its own. -/
def rivalKeys : List Envelope := [keyEnvelope 1 10 false "a", keyEnvelope 2 15 false "b"]

theorem slotWords_rivalKeys (slot : Slot) : keyVault.slotWords slot rivalKeys = [] ∨
    ∃ a b, keyVault.slotWords slot rivalKeys = [.live 1 ⟨10, 0, 1⟩ a, .live 2 ⟨15, 0, 1⟩ b] := by
  have hword : ∀ id wallMs key, keyVault.slotWord slot (keyEnvelope id wallMs false key) =
      if ("h", 22) = slot then some (.live id ⟨wallMs, 0, 1⟩ ⟨"h", 22, "a", key, key, 0⟩) else none := by
    intro id wallMs key
    unfold UnlockedVault.slotWord
    rw [UnlockedVault.hostCols_of_open (open_keyEnvelope ..), ofPlain_knownHost,
      show normalise "h" = "h" by decide +kernel]
    rfl
  by_cases hslot : ("h", 22) = slot
  · right
    refine ⟨⟨"h", 22, "a", "a", "a", 0⟩, ⟨"h", 22, "a", "b", "b", 0⟩, ?_⟩
    simp [UnlockedVault.slotWords, rivalKeys, hword, hslot]
  · left
    simp [UnlockedVault.slotWords, rivalKeys, hword, hslot]

/-- Two devices the two keys reach in either order end with the same one trusted. -/
theorem rival_keys_agree : ∃ s t s' t', Fresh keyVault s ∧ Fresh keyVault s' ∧
    Delivered rivalKeys s t ∧ Delivered rivalKeys s' t' ∧
      t.knownHost "h" 22 = t'.knownHost "h" 22 ∧ t.knownHost "h" 22 ≠ none := by
  have hkeys : keyVault.HostKeys rivalKeys := by
    apply hostKeys_of_keyEnvelopes
    intro env henv
    rcases List.mem_pair.mp henv with rfl | rfl
    · exact ⟨_, _, _, _, rfl⟩
    · exact ⟨_, _, _, _, rfl⟩
  have hsettled : ∀ slot, Seat.Settled (keyVault.slotWords slot rivalKeys) := by
    intro slot
    rcases slotWords_rivalKeys slot with hnone | ⟨a, b, hwords⟩
    · rw [hnone]
      exact Seat.settled_of_no_claim fun i c v hin => by cases hin
    · rw [hwords]
      -- The newer key is the only one at the newest clock.
      have hnewer : ∀ {i : Uuid} {c : Hlc} {v : KnownHostRecord},
          Seat.IsTop [.live 1 ⟨10, 0, 1⟩ a, .live 2 ⟨15, 0, 1⟩ b] i c v → v = b := by
        intro i c v htop
        rcases List.mem_pair.mp htop.1 with heq | heq
        · cases heq
          have hle := htop.2 2 ⟨15, 0, 1⟩ b (by simp)
          exact absurd hle (by decide)
        · cases heq
          rfl
      refine ⟨fun htop htop' => (hnewer htop).trans (hnewer htop').symm, ?_, ?_⟩
      · intro i c v d htop hgone
        simp at hgone
      · intro i c v j d u e htop hlive hgone
        simp at hgone
  have hfirst : ∀ env, env ∈ arrivals [(rivalKeys, 30)] ↔ env ∈ rivalKeys := by
    intro env
    simp [arrivals, List.mem_insertionSort]
  have hsecond : ∀ env, env ∈ arrivals [([keyEnvelope 2 15 false "b"], 30),
      ([keyEnvelope 1 10 false "a"], 31)] ↔ env ∈ rivalKeys := by
    intro env
    simp only [arrivals, rivalKeys, List.flatMap_cons, List.flatMap_nil, List.mem_append,
      List.insertionSort_cons, List.insertionSort_nil, List.orderedInsert_nil, List.mem_cons,
      List.not_mem_nil, or_false]
    exact or_comm
  have hsome : ((empty 1 7 (some keyVault)).deliver [(rivalKeys, 30)]).toOption.any
      (fun t => t.knownHost "h" 22 ≠ none) = true := by decide +kernel
  have hany : ((empty 2 7 (some keyVault)).deliver [([keyEnvelope 2 15 false "b"], 30),
      ([keyEnvelope 1 10 false "a"], 31)]).toOption.any (fun _ => true) = true := by decide +kernel
  obtain ⟨t, ht, hsome⟩ := delivered_of_played hfirst hsome
  obtain ⟨t', ht', -⟩ := delivered_of_played hsecond hany
  have hsame := (host_keys_agree_iff hkeys).mpr hsettled _ t _ t' (fresh_keyVault 1)
    (fresh_keyVault 2) ht ht' "h" 22
  exact ⟨_, t, _, t', fresh_keyVault 1, fresh_keyVault 2, ht, ht', hsame, of_decide_eq_true hsome⟩

end examples

end Store

end UwuSsh

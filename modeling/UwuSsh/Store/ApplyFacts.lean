import UwuSsh.Store.Apply

/-!
What applying a record can do to a store. One envelope writes at most the row of
its own id, may add placeholders for what that row points at, and may drop the row of
a rival host key, which is then remembered as superseded; every other row stays.
Seen as copies of a register, the row of the envelope's id absorbs its version and a
rival gives its copy up; a batch is digested record by record.
-/
namespace UwuSsh

/-- A live row with the oldest possible clock: it stands for a record that has
not arrived. -/
def Row.IsStub {α : Type} (row : Row α) : Prop :=
  row.updatedAt = Hlc.zero ∧ row.deleted = false ∧ row.dirty = false ∧ row.serverSeq = 0

/-- A placeholder is, as a copy, the same as no row at all. -/
theorem Row.IsStub.cell {α : Type} {row : Row α} (h : row.IsStub) (mark : Version) :
    row.cell mark = { Register.Cell.blank with mark } := by
  obtain ⟨hclock, hdeleted, hdirty, hseq⟩ := h
  simp [Row.cell, Row.version, Register.Cell.blank, hclock, hdeleted, hdirty, hseq,
    Version.bot_eq_blank, Version.blank]

/-- The version an envelope carries, with the number the server gave it. -/
def Envelope.numbered (env : Envelope) : Register.Numbered Version :=
  (env.version, env.seq.getD 0)

/-- A tombstone, which a device that never had the record passes over. -/
def Version.IsTomb (v : Version) : Prop := v.deleted = true

/-- A payload that is what records of a kind hold. -/
def Plain.Readable (plain : Plain) (vaultId id : Uuid) (kind : EntityKind) : Prop :=
  match kind with
  | .terminalProfile => False
  | .secret => True
  | .manifest => ∃ payload m, plain = .bytes payload ∧ Manifest.decode payload = some m ∧
      id = manifestId vaultId m.device
  | kind => (Cols.ofPlain kind plain).isSome = true

def Envelope.Readable (env : Envelope) (plain : Plain) : Prop :=
  plain.Readable env.vaultId env.id env.kind

/-- An envelope that names the vault, opens under its key and holds what it should. -/
def UnlockedVault.Sound (vault : UnlockedVault) (env : Envelope) : Prop :=
  env.vaultId = vault.vaultId ∧ env.kind.hasTable = true ∧
    ∃ plain, vault.openEnvelope env = some plain ∧ (env.deleted = false → env.Readable plain)

/-- Everything about a store that applying records leaves alone. -/
structure Store.Frame (s t : Store) : Prop where
  device : t.device = s.device
  vault : t.vault = s.vault
  vaultId : t.vaultId = s.vaultId
  cursor : t.cursor = s.cursor
  floor : t.floor = s.floor
  violations : t.violations = s.violations

namespace Store

theorem Frame.refl (s : Store) : Frame s s := ⟨rfl, rfl, rfl, rfl, rfl, rfl⟩

theorem Frame.trans {s t u : Store} (h : Frame s t) (h' : Frame t u) : Frame s u :=
  ⟨h'.device.trans h.device, h'.vault.trans h.vault, h'.vaultId.trans h.vaultId,
    h'.cursor.trans h.cursor, h'.floor.trans h.floor, h'.violations.trans h.violations⟩

def Superseded (s : Store) (id : Uuid) : Prop := (s.superseded.lookup id).isSome = true

/-- A row that nothing happened to, unless a placeholder took an empty place. -/
def Kept (s t : Store) (kind : EntityKind) (id : Uuid) : Prop :=
  t.row? kind id = s.row? kind id ∨
    (s.row? kind id = none ∧ ∃ row, t.row? kind id = some row ∧ row.IsStub)

theorem Kept.refl (s : Store) (kind : EntityKind) (id : Uuid) : Kept s s kind id := Or.inl rfl

theorem Kept.trans {s t u : Store} {kind : EntityKind} {id : Uuid} (h : Kept s t kind id)
    (h' : Kept t u kind id) : Kept s u kind id := by
  rcases h with h | ⟨hnone, row, hrow, hstub⟩
  · rcases h' with h' | ⟨hnone, hstub⟩
    · exact Or.inl (h'.trans h)
    · exact Or.inr ⟨h ▸ hnone, hstub⟩
  · rcases h' with h' | ⟨hnone', -⟩
    · exact Or.inr ⟨hnone, row, h'.trans hrow, hstub⟩
    · rw [hrow] at hnone'
      cases hnone'

theorem cell_of_none {s : Store} {kind : EntityKind} {id : Uuid} (h : s.row? kind id = none) :
    s.cell kind id = { Register.Cell.blank with mark := s.mark kind id } := by
  simp [cell, h]

theorem cell_of_some {s : Store} {kind : EntityKind} {id : Uuid} {row : Row (Cols kind)}
    (h : s.row? kind id = some row) : s.cell kind id = row.cell (s.mark kind id) := by
  simp [cell, h]

@[simp] theorem mark_cell (s : Store) (kind : EntityKind) (id : Uuid) :
    (s.cell kind id).mark = s.mark kind id := by
  cases h : s.row? kind id with
  | none => rw [cell_of_none h]
  | some row => rw [cell_of_some h]; rfl

/-- Whether a version of the record was given up for the slot of another one. -/
theorem mark_of_not_superseded {s : Store} {kind : EntityKind} {id : Uuid}
    (h : kind = .knownHost → ¬ s.Superseded id) : s.mark kind id = ⊥ := by
  by_cases hkind : kind = .knownHost
  · have hnone := h hkind
    rw [Superseded, Option.not_isSome_iff_eq_none] at hnone
    simp [mark, hnone]
  · simp [mark, hkind]

/-- A record that nothing happened to. -/
def Same (s t : Store) (kind : EntityKind) (id : Uuid) : Prop :=
  Kept s t kind id ∧ t.mark kind id = s.mark kind id

theorem Same.refl (s : Store) (kind : EntityKind) (id : Uuid) : Same s s kind id :=
  ⟨.refl s kind id, rfl⟩

theorem Same.trans {s t u : Store} {kind : EntityKind} {id : Uuid} (h : Same s t kind id)
    (h' : Same t u kind id) : Same s u kind id :=
  ⟨h.1.trans h'.1, h'.2.trans h.2⟩

theorem Same.cell_eq {s t : Store} {kind : EntityKind} {id : Uuid} (h : Same s t kind id) :
    t.cell kind id = s.cell kind id := by
  obtain ⟨hrow | ⟨hnone, row, hrow, hstub⟩, hmark⟩ := h
  · simp [cell, hrow, hmark]
  · rw [cell_of_none hnone, cell_of_some hrow, hstub.cell, hmark]

theorem mark_congr {s t : Store} {id : Uuid}
    (h : t.superseded.lookup id = s.superseded.lookup id) (kind : EntityKind) :
    t.mark kind id = s.mark kind id := by
  simp [mark, h]

section putRow

variable (s : Store) (kind : EntityKind) (id : Uuid)

theorem frame_putRow (row : Row (Cols kind)) : Frame s (s.putRow kind id row) :=
  ⟨rfl, rfl, rfl, rfl, rfl, rfl⟩

theorem frame_dropRow : Frame s (s.dropRow kind id) := ⟨rfl, rfl, rfl, rfl, rfl, rfl⟩

theorem frame_updateRow (f : Row (Cols kind) → Row (Cols kind)) :
    Frame s (s.updateRow kind id f) := by
  unfold updateRow
  split
  · exact .refl s
  · exact frame_putRow s kind id _

@[simp] theorem superseded_putRow (row : Row (Cols kind)) :
    (s.putRow kind id row).superseded = s.superseded := rfl

@[simp] theorem superseded_dropRow : (s.dropRow kind id).superseded = s.superseded := rfl

@[simp] theorem superseded_updateRow (f : Row (Cols kind) → Row (Cols kind)) :
    (s.updateRow kind id f).superseded = s.superseded := by
  unfold updateRow
  split <;> rfl

@[simp] theorem clock_putRow (row : Row (Cols kind)) : (s.putRow kind id row).clock = s.clock := rfl

@[simp] theorem clock_dropRow : (s.dropRow kind id).clock = s.clock := rfl

@[simp] theorem clock_updateRow (f : Row (Cols kind) → Row (Cols kind)) :
    (s.updateRow kind id f).clock = s.clock := by
  unfold updateRow
  split <;> rfl

theorem row?_putRow_of_pair_ne {kind' : EntityKind} {id' : Uuid} (row : Row (Cols kind))
    (h : ¬ (kind' = kind ∧ id' = id)) :
    (s.putRow kind id row).row? kind' id' = s.row? kind' id' := by
  by_cases hid : id' = id
  · exact s.row?_putRow_of_kind_ne row fun hk => h ⟨hk, hid⟩
  · exact s.row?_putRow_of_ne row hid

theorem row?_updateRow_of_pair_ne {kind' : EntityKind} {id' : Uuid}
    (f : Row (Cols kind) → Row (Cols kind)) (h : ¬ (kind' = kind ∧ id' = id)) :
    (s.updateRow kind id f).row? kind' id' = s.row? kind' id' := by
  unfold updateRow
  split
  · rfl
  · exact s.row?_putRow_of_pair_ne kind id _ h

theorem row?_updateRow_self (f : Row (Cols kind) → Row (Cols kind)) :
    (s.updateRow kind id f).row? kind id = (s.row? kind id).map f := by
  unfold updateRow
  cases h : s.row? kind id with
  | none => simp [h]
  | some row => simp

end putRow

section supersede

variable (s : Store) (kind : EntityKind) (id : Uuid) (clock : Hlc)

theorem frame_supersede : Frame s (s.supersede kind id clock) := by
  unfold supersede
  split
  · exact ⟨rfl, rfl, rfl, rfl, rfl, rfl⟩
  · split
    · exact ⟨rfl, rfl, rfl, rfl, rfl, rfl⟩
    · exact .refl s

@[simp] theorem clock_supersede : (s.supersede kind id clock).clock = s.clock := by
  unfold supersede
  split
  · rfl
  · split <;> rfl

@[simp] theorem tables_supersede : (s.supersede kind id clock).tables = s.tables := by
  unfold supersede
  split
  · rfl
  · split <;> rfl

@[simp] theorem row?_supersede (kind' : EntityKind) (id' : Uuid) :
    (s.supersede kind id clock).row? kind' id' = s.row? kind' id' := by
  simp [row?]

theorem lookup_supersede_of_ne {id' : Uuid} (h : id' ≠ id) :
    (s.supersede kind id clock).superseded.lookup id' = s.superseded.lookup id' := by
  unfold supersede
  split
  · exact AList.lookup_insert_ne h
  · split
    · exact AList.lookup_insert_ne h
    · rfl

theorem superseded_supersede_self : (s.supersede kind id clock).Superseded id := by
  unfold supersede Superseded
  split
  · simp
  · split
    · simp
    · next h _ => simp [h]

theorem Superseded.supersede {s : Store} {id' : Uuid} (h : s.Superseded id') (kind : EntityKind)
    (id : Uuid) (clock : Hlc) : (s.supersede kind id clock).Superseded id' := by
  by_cases hid : id' = id
  · subst hid
    exact superseded_supersede_self s kind id' clock
  · unfold Store.supersede Superseded at *
    split
    · simpa [AList.lookup_insert_ne hid] using h
    · split
      · simpa [AList.lookup_insert_ne hid] using h
      · exact h

end supersede

section stub

variable (s : Store) (vaultId : Uuid) (target : EntityKind × Uuid)

theorem frame_putStub : Frame s (s.putStub vaultId target) := by
  unfold putStub
  split
  · exact frame_putRow s _ _ _
  · exact .refl s

@[simp] theorem superseded_putStub :
    (s.putStub vaultId target).superseded = s.superseded := by
  unfold putStub
  split <;> rfl

@[simp] theorem clock_putStub : (s.putStub vaultId target).clock = s.clock := by
  unfold putStub
  split <;> rfl

theorem kept_putStub (kind : EntityKind) (id : Uuid) :
    Kept s (s.putStub vaultId target) kind id := by
  obtain ⟨targetKind, targetId⟩ := target
  unfold putStub
  split
  · next hnone _ =>
    by_cases h : kind = targetKind ∧ id = targetId
    · obtain ⟨rfl, rfl⟩ := h
      exact Or.inr ⟨hnone, _, s.row?_putRow_self _, rfl, rfl, rfl, rfl⟩
    · exact Or.inl (s.row?_putRow_of_pair_ne _ _ _ h)
  · exact .refl s kind id

/-- Placeholders for a list of targets. -/
theorem putStubs_spec (targets : List (EntityKind × Uuid)) :
    Frame s (targets.foldl (fun s target => s.putStub vaultId target) s) ∧
      (targets.foldl (fun s target => s.putStub vaultId target) s).superseded = s.superseded ∧
      (targets.foldl (fun s target => s.putStub vaultId target) s).clock = s.clock ∧
      ∀ kind id, Kept s (targets.foldl (fun s target => s.putStub vaultId target) s) kind id := by
  induction targets generalizing s with
  | nil => exact ⟨.refl s, rfl, rfl, fun kind id => .refl s kind id⟩
  | cons target targets ih =>
    obtain ⟨hframe, hsuper, hclock, hkept⟩ := ih (s.putStub vaultId target)
    exact ⟨(s.frame_putStub vaultId target).trans hframe,
      hsuper.trans (s.superseded_putStub vaultId target),
      hclock.trans (s.clock_putStub vaultId target),
      fun kind id => (s.kept_putStub vaultId target kind id).trans (hkept kind id)⟩

end stub

section upsert

variable (s : Store) (kind : EntityKind) (env : Envelope) (cols : Cols kind)

theorem frame_upsertRecord : Frame s (s.upsertRecord kind env cols) := by
  unfold upsertRecord
  split <;> exact frame_putRow s _ _ _

@[simp] theorem superseded_upsertRecord :
    (s.upsertRecord kind env cols).superseded = s.superseded := by
  unfold upsertRecord
  split <;> rfl

@[simp] theorem clock_upsertRecord : (s.upsertRecord kind env cols).clock = s.clock := by
  unfold upsertRecord
  split <;> rfl

theorem row?_upsertRecord_of_pair_ne {kind' : EntityKind} {id' : Uuid}
    (h : ¬ (kind' = kind ∧ id' = env.id)) :
    (s.upsertRecord kind env cols).row? kind' id' = s.row? kind' id' := by
  unfold upsertRecord
  split <;> exact s.row?_putRow_of_pair_ne _ _ _ h

/-- The row an upsert leaves: the envelope's version, clean, at the envelope's number. -/
theorem row?_upsertRecord_self :
    ∃ row, (s.upsertRecord kind env cols).row? kind env.id = some row ∧
      row.updatedAt = env.updatedAt ∧ row.deleted = false ∧ row.dirty = false ∧
      row.serverSeq = env.seq.getD 0 ∧
      row.cols = (s.row? kind env.id).elim cols fun old => Cols.keepLocal kind old.cols cols := by
  unfold upsertRecord
  split
  · next h => exact ⟨_, s.row?_putRow_self _, rfl, rfl, rfl, rfl, by rw [h]; rfl⟩
  · next row h => exact ⟨_, s.row?_putRow_self _, rfl, rfl, rfl, rfl, by rw [h]; rfl⟩

end upsert

/-- The row of a host key was dropped for one that is not older, and the version it had
is remembered. -/
def GaveUp (s t : Store) (env : Envelope) (kind : EntityKind) (id : Uuid) : Prop :=
  kind = .knownHost ∧ ∃ row, s.row? kind id = some row ∧ t.row? kind id = none ∧
    (env.kind = .knownHost ∧ env.deleted = false ∧ row.updatedAt ≤ env.updatedAt) ∧
    t.superseded.lookup id = (s.supersede kind id row.updatedAt).superseded.lookup id

/-- A host key that came down lost its slot: only its version is remembered. -/
def Yielded (s t : Store) (env : Envelope) : Prop :=
  env.kind = .knownHost ∧ env.deleted = false ∧
    t.row? env.kind env.id = s.row? env.kind env.id ∧
    t.superseded.lookup env.id =
      (s.supersede .knownHost env.id env.updatedAt).superseded.lookup env.id

theorem GaveUp.superseded {s t : Store} {env : Envelope} {kind : EntityKind} {id : Uuid}
    (h : GaveUp s t env kind id) : t.Superseded id := by
  obtain ⟨-, row, -, -, -, hlookup⟩ := h
  unfold Superseded
  rw [hlookup]
  exact s.superseded_supersede_self kind id row.updatedAt

theorem Yielded.superseded {s t : Store} {env : Envelope} (h : Yielded s t env) :
    t.Superseded env.id := by
  obtain ⟨-, -, -, hlookup⟩ := h
  unfold Superseded
  rw [hlookup]
  exact s.superseded_supersede_self .knownHost env.id env.updatedAt

/-- What one applied record does to the rest of the store. -/
structure Touched (s t : Store) (env : Envelope) : Prop where
  frame : Frame s t
  superseded : ∀ id, s.Superseded id → t.Superseded id
  clock : t.clock = s.clock
  others : ∀ kind id, ¬ (kind = env.kind ∧ id = env.id) →
    Same s t kind id ∨ GaveUp s t env kind id

theorem Touched.refl (s : Store) (env : Envelope) : Touched s s env :=
  ⟨.refl s, fun _ h => h, rfl, fun kind id _ => Or.inl (.refl s kind id)⟩

/-- A change that leaves the superseded versions and all rows but the envelope's. -/
theorem touched_of_rows {s t : Store} {env : Envelope} (hframe : Frame s t)
    (hsuper : t.superseded = s.superseded) (hclock : t.clock = s.clock)
    (hkept : ∀ kind id, ¬ (kind = env.kind ∧ id = env.id) → Kept s t kind id) :
    Touched s t env where
  frame := hframe
  clock := hclock
  superseded := fun id h => by
    unfold Superseded
    rw [hsuper]
    exact h
  others := fun kind id hne => Or.inl ⟨hkept kind id hne, mark_congr (by rw [hsuper]) kind⟩

theorem touched_updateRow (s : Store) (env : Envelope)
    (f : Row (Cols env.kind) → Row (Cols env.kind)) :
    Touched s (s.updateRow env.kind env.id f) env :=
  touched_of_rows (s.frame_updateRow _ _ f) (s.superseded_updateRow _ _ f) (s.clock_updateRow _ _ f)
    fun _ _ hne => Or.inl (s.row?_updateRow_of_pair_ne _ _ f hne)

theorem touched_upsertRecord (s : Store) {env : Envelope} {kind : EntityKind}
    (hkind : env.kind = kind) (cols : Cols kind) :
    Touched s (s.upsertRecord kind env cols) env :=
  touched_of_rows (s.frame_upsertRecord kind env cols) (s.superseded_upsertRecord kind env cols)
    (s.clock_upsertRecord kind env cols)
    fun _ _ hne => Or.inl (s.row?_upsertRecord_of_pair_ne kind env cols (hkind ▸ hne))

/-- The copy an insert leaves for a live envelope. -/
def taken (env : Envelope) (mark : Version) : Register.Cell Version :=
  { version := { updatedAt := env.updatedAt, deleted := false }, dirty := false
    base := env.seq.getD 0, mark }

theorem cell_upsertRecord_self (s : Store) (kind : EntityKind) (env : Envelope)
    (cols : Cols kind) :
    (s.upsertRecord kind env cols).cell kind env.id = taken env (s.mark kind env.id) := by
  obtain ⟨row, hrow, hclock, hdeleted, hdirty, hseq, -⟩ := s.row?_upsertRecord_self kind env cols
  have hmark : (s.upsertRecord kind env cols).mark kind env.id = s.mark kind env.id :=
    mark_congr (by simp) kind
  rw [cell_of_some hrow, hmark]
  simp [Row.cell, Row.version, taken, hclock, hdeleted, hdirty, hseq]

theorem rivalOf_spec {s : Store} {id rivalId : Uuid} {address : String} {port : UInt16}
    {rival : Row KnownHostCols} (h : s.rivalOf id address port = some (rivalId, rival)) :
    s.row? .knownHost rivalId = some rival ∧ rival.cols.address = address ∧
      rival.cols.port = port ∧ rivalId ≠ id := by
  have hmem := List.mem_of_find?_eq_some h
  have hp := List.find?_some h
  simp only [List.mem_map] at hmem
  obtain ⟨⟨k, r⟩, hentry, heq⟩ := hmem
  cases heq
  refine ⟨AList.mem_lookup_iff.mpr hentry, ?_⟩
  simpa using hp

/-- The store in which a rival has lost its slot. -/
theorem touched_dropRival (s : Store) {env : Envelope} {rivalId : Uuid}
    {rival : Row KnownHostCols} (hrival : s.row? .knownHost rivalId = some rival)
    (hkind : env.kind = .knownHost) (hlive : env.deleted = false)
    (hle : rival.updatedAt ≤ env.updatedAt) :
    Touched s ((s.supersede .knownHost rivalId rival.updatedAt).dropRow .knownHost rivalId) env where
  frame := (s.frame_supersede _ _ _).trans (frame_dropRow _ _ _)
  superseded := fun id h => h.supersede _ _ _
  clock := s.clock_supersede _ _ _
  others := by
    intro kind id _
    by_cases hid : id = rivalId
    · subst hid
      by_cases hkind : kind = .knownHost
      · subst hkind
        exact Or.inr ⟨rfl, rival, hrival, row?_dropRow_self _, ⟨hkind, hlive, hle⟩, rfl⟩
      · left
        refine ⟨Or.inl ?_, by simp [mark, hkind]⟩
        rw [row?_dropRow_of_kind_ne _ hkind, row?_supersede]
    · left
      refine ⟨Or.inl ?_, mark_congr (s.lookup_supersede_of_ne _ _ _ hid) kind⟩
      rw [row?_dropRow_of_ne _ hid, row?_supersede]

/-- A change of the envelope's own row on top of another change. -/
theorem Touched.upsertRecord {s t : Store} {env : Envelope} {kind : EntityKind}
    (h : Touched s t env) (hkind : env.kind = kind) (cols : Cols kind) :
    Touched s (t.upsertRecord kind env cols) env := by
  have hupsert := t.touched_upsertRecord hkind cols
  refine ⟨h.frame.trans hupsert.frame, fun id hs => hupsert.superseded id (h.superseded id hs),
    hupsert.clock.trans h.clock, ?_⟩
  intro kind' id hne
  have hrow := t.row?_upsertRecord_of_pair_ne kind env cols (hkind ▸ hne)
  rcases h.others kind' id hne with ⟨hkept, hmark⟩ | ⟨hhost, row, hrow', hnone, hrival, hlookup⟩
  · exact Or.inl ⟨hkept.trans (Or.inl hrow), (mark_congr (by simp) kind').trans hmark⟩
  · exact Or.inr ⟨hhost, row, hrow', hrow.trans hnone, hrival, by simpa using hlookup⟩

/-- A known host: its row takes the slot, unless a newer rival keeps it. -/
theorem applyKnownHost_spec (s : Store) (env : Envelope) (cols : KnownHostCols)
    (thisDevice : UInt32) (hkind : env.kind = .knownHost) (hlive : env.deleted = false) :
    Touched s (s.applyKnownHost env cols thisDevice).1 env ∧
      ((s.applyKnownHost env cols thisDevice).1.cell env.kind env.id =
          taken env (s.mark env.kind env.id) ∨
        Yielded s (s.applyKnownHost env cols thisDevice).1 env) := by
  unfold applyKnownHost
  cases hrival : s.rivalOf env.id cols.address cols.port with
  | none =>
    refine ⟨s.touched_upsertRecord hkind _, Or.inl ?_⟩
    rw [hkind]
    exact s.cell_upsertRecord_self _ env _
  | some found =>
    obtain ⟨rivalId, rival⟩ := found
    obtain ⟨hrow, -, -, hne⟩ := rivalOf_spec hrival
    by_cases hlt : env.updatedAt < rival.updatedAt
    · simp only [hlt, ↓reduceIte]
      refine ⟨⟨s.frame_supersede _ _ _, fun id h => h.supersede _ _ _, s.clock_supersede _ _ _, ?_⟩,
        Or.inr ⟨hkind, hlive, s.row?_supersede _ _ _ _ _, rfl⟩⟩
      intro kind id hother
      refine Or.inl ⟨Or.inl (s.row?_supersede _ _ _ kind id), ?_⟩
      by_cases hid : id = env.id
      · have hk : kind ≠ .knownHost := fun hk => hother ⟨hk.trans hkind.symm, hid⟩
        simp [mark, hk]
      · exact mark_congr (s.lookup_supersede_of_ne _ _ _ hid) kind
    · simp only [hlt, ↓reduceIte]
      have htouched := s.touched_dropRival hrow hkind hlive (not_lt.mp hlt)
      refine ⟨htouched.upsertRecord hkind _, Or.inl ?_⟩
      have hmark := mark_congr (s.lookup_supersede_of_ne .knownHost rivalId rival.updatedAt hne.symm)
      rw [hkind]
      exact (cell_upsertRecord_self _ _ env _).trans (congrArg (taken env) (hmark .knownHost))

theorem insertRecord_spec {s t : Store} {vault : UnlockedVault} {env : Envelope} {plain : Plain}
    {thisDevice : UInt32} {outcome : ApplyReport} (hlive : env.deleted = false)
    (h : s.insertRecord vault env plain thisDevice = .ok (t, outcome)) :
    Touched s t env ∧
      (t.cell env.kind env.id = taken env (s.mark env.kind env.id) ∨ Yielded s t env ∨
        (t = s ∧ ¬ env.Readable plain)) := by
  unfold insertRecord at h
  split at h
  · next hkind =>
    cases h
    exact ⟨.refl _ env, Or.inr (Or.inr ⟨rfl, by simp [Envelope.Readable, Plain.Readable, hkind]⟩)⟩
  · next hkind =>
    cases h
    refine ⟨s.touched_upsertRecord hkind _, Or.inl ?_⟩
    rw [hkind]
    exact s.cell_upsertRecord_self _ env _
  · next hkind =>
    split at h
    · cases h
      exact ⟨.refl _ env, Or.inr (Or.inr ⟨rfl, by simp [Envelope.Readable, Plain.Readable, hkind]⟩)⟩
    · next payload =>
      split at h
      · next hdecode =>
        cases h
        exact ⟨.refl _ env, Or.inr (Or.inr ⟨rfl, by simp [Envelope.Readable, Plain.Readable, hkind, hdecode]⟩)⟩
      · next manifest hdecode =>
        split at h
        · next hid =>
          cases h
          refine ⟨.refl _ env, Or.inr (Or.inr ⟨rfl, ?_⟩)⟩
          simp [Envelope.Readable, Plain.Readable, hkind, hdecode, hid]
        · cases h
          refine ⟨s.touched_upsertRecord hkind _, Or.inl ?_⟩
          rw [hkind]
          exact s.cell_upsertRecord_self _ env _
  · next hkind =>
    split at h
    · cases h
    · next cols _ =>
      obtain ⟨htouched, hcell⟩ := s.applyKnownHost_spec env cols thisDevice hkind hlive
      injection h with h
      rw [h] at htouched hcell
      exact ⟨htouched, hcell.imp_right Or.inl⟩
  · split at h
    · cases h
    · next cols _ =>
      cases h
      obtain ⟨hframe, hsuper, hclock, hkept⟩ :=
        s.putStubs_spec env.vaultId (Cols.pointsAt env.kind cols)
      have hstubs : Touched s _ env :=
        touched_of_rows hframe hsuper hclock fun kind id _ => hkept kind id
      refine ⟨hstubs.upsertRecord rfl cols, Or.inl ?_⟩
      rw [cell_upsertRecord_self]
      exact congrArg (taken env) (mark_congr (by rw [hsuper]) env.kind)

theorem taken_of_live {env : Envelope} (h : env.deleted = false) (mark : Version) :
    taken env mark = { version := env.version, dirty := false, base := env.seq.getD 0, mark } := by
  simp [taken, Envelope.version, h]

/-- One applied record: its id's copy absorbs it, unless the record lost its
slot or was not sound. -/
theorem applyOne_spec {s t : Store} {vault : UnlockedVault} {env : Envelope}
    {thisDevice : UInt32} {outcome : ApplyReport}
    (h : s.applyOne vault env thisDevice = .ok (t, outcome)) :
    Touched s t env ∧
      (Register.Absorb Version.IsTomb (s.cell env.kind env.id) env.numbered
          (t.cell env.kind env.id) ∨ Yielded s t env ∨ (t = s ∧ ¬ vault.Sound env)) := by
  unfold applyOne at h
  split at h
  · next hvault =>
    cases h
    exact ⟨.refl _ env, Or.inr (Or.inr ⟨rfl, fun ho => hvault ho.1⟩)⟩
  split at h
  · next htable =>
    cases h
    exact ⟨.refl _ env, Or.inr (Or.inr ⟨rfl, fun ho => by simp [ho.2.1] at htable⟩)⟩
  split at h
  · next hopen =>
    cases h
    refine ⟨.refl _ env, Or.inr (Or.inr ⟨rfl, ?_⟩)⟩
    rintro ⟨-, -, plain, hplain, -⟩
    rw [hopen] at hplain
    cases hplain
  next plain hopen =>
  have hread : ∀ {u : Store}, t = u → env.deleted = false → ¬ env.Readable plain →
      t = u ∧ ¬ vault.Sound env := by
    rintro u rfl hlive hbad
    refine ⟨rfl, ?_⟩
    rintro ⟨-, -, plain', hplain, hgood⟩
    rw [hopen] at hplain
    cases hplain
    exact hbad (hgood hlive)
  split at h
  · next hnone =>
    have hblank := cell_of_none hnone
    by_cases hdeleted : env.deleted = true
    · simp only [hdeleted, ↓reduceIte] at h
      cases h
      refine ⟨.refl _ env, Or.inl ?_⟩
      exact .pass _ _ (by rw [hblank]; rfl) (by rw [hblank]; rfl) hdeleted
    · simp only [hdeleted] at h
      rw [Bool.not_eq_true] at hdeleted
      obtain ⟨htouched, hcell⟩ := insertRecord_spec hdeleted h
      refine ⟨htouched, ?_⟩
      rcases hcell with hcell | hyield | ⟨heq, hbad⟩
      · left
        rw [hcell, taken_of_live hdeleted, ← mark_cell]
        exact .settle _ (by rw [hblank]; exact bot_le)
      · exact Or.inr (Or.inl hyield)
      · exact Or.inr (Or.inr (hread heq hdeleted hbad))
  · next row hrow =>
    have hversion : (s.cell env.kind env.id).version = row.version := by
      rw [cell_of_some hrow]
      rfl
    have hupdate : ∀ f : Row (Cols env.kind) → Row (Cols env.kind),
        (s.updateRow env.kind env.id f).cell env.kind env.id =
          (f row).cell (s.mark env.kind env.id) := by
      intro f
      have hnew := s.row?_updateRow_self env.kind env.id f
      have hmark : (s.updateRow env.kind env.id f).mark env.kind env.id = s.mark env.kind env.id :=
        mark_congr (by simp) env.kind
      rw [hrow] at hnew
      rw [cell_of_some hnew, hmark]
    split at h
    · next hres =>
      cases h
      refine ⟨s.touched_updateRow env _, Or.inl ?_⟩
      rw [hupdate, cell_of_some hrow, Envelope.numbered, ← resolve_eq_identical_iff.mp hres]
      exact .same (row.cell _) _
    · next hres =>
      cases h
      refine ⟨s.touched_updateRow env _, Or.inl ?_⟩
      rw [hupdate, cell_of_some hrow]
      exact .keep (row.cell _) _ (resolve_eq_keepLocal_iff.mp hres)
    · next hres =>
      have hlt := resolve_eq_takeRemote_iff.mp hres
      by_cases hdeleted : env.deleted = true
      · simp only [hdeleted, ↓reduceIte] at h
        cases h
        refine ⟨s.touched_updateRow env _, Or.inl ?_⟩
        have htomb : env.version = { updatedAt := env.updatedAt, deleted := true } := by
          simp [Envelope.version, hdeleted]
        unfold tombstoneRecord
        rw [hupdate, Envelope.numbered, htomb, ← mark_cell]
        exact .settle _ (htomb ▸ hversion.trans_le hlt.le)
      · simp only [hdeleted] at h
        rw [Bool.not_eq_true] at hdeleted
        obtain ⟨htouched, hcell⟩ := insertRecord_spec hdeleted h
        refine ⟨htouched, ?_⟩
        rcases hcell with hcell | hyield | ⟨heq, hbad⟩
        · left
          rw [hcell, taken_of_live hdeleted, ← mark_cell]
          exact .settle _ (hversion.trans_le hlt.le)
        · exact Or.inr (Or.inl hyield)
        · exact Or.inr (Or.inr (hread heq hdeleted hbad))

section sound

theorem applyKnownHost_rejected (s : Store) (env : Envelope) (cols : KnownHostCols)
    (thisDevice : UInt32) : (s.applyKnownHost env cols thisDevice).2.rejected = 0 := by
  unfold applyKnownHost
  split
  · rfl
  · next rivalId rival _ =>
    by_cases hlt : env.updatedAt < rival.updatedAt
    · rw [if_pos hlt]
    · rw [if_neg hlt]

/-- A live payload that can be read is written or kept out, but never rejected. -/
theorem insertRecord_of_readable (s : Store) (vault : UnlockedVault) {env : Envelope}
    {plain : Plain} (thisDevice : UInt32) (h : env.Readable plain) :
    ∃ t outcome, s.insertRecord vault env plain thisDevice = .ok (t, outcome) ∧
      outcome.rejected = 0 := by
  unfold Envelope.Readable Plain.Readable at h
  unfold insertRecord
  split
  · exact ⟨_, _, rfl, rfl⟩
  · exact ⟨_, _, rfl, rfl⟩
  · next hkind =>
    simp only [hkind] at h
    obtain ⟨payload, m, rfl, hdecode, hid⟩ := h
    simp only [hdecode, hid, ne_eq, not_true_eq_false, ↓reduceIte]
    exact ⟨_, _, rfl, rfl⟩
  · next hkind =>
    simp only [hkind] at h
    obtain ⟨cols, hcols⟩ := Option.isSome_iff_exists.mp h
    simp only [hcols]
    exact ⟨_, _, rfl, s.applyKnownHost_rejected env cols thisDevice⟩
  · next h₁ h₂ h₃ h₄ =>
    have hcols : (Cols.ofPlain env.kind plain).isSome = true := by
      cases hkind : env.kind <;> simp_all
    obtain ⟨cols, hcols⟩ := Option.isSome_iff_exists.mp hcols
    simp only [hcols]
    exact ⟨_, _, rfl, rfl⟩

theorem applyOne_of_sound (s : Store) {vault : UnlockedVault} {env : Envelope}
    (thisDevice : UInt32) (h : vault.Sound env) :
    ∃ t outcome, s.applyOne vault env thisDevice = .ok (t, outcome) ∧ outcome.rejected = 0 := by
  obtain ⟨hvault, htable, plain, hopen, hread⟩ := h
  unfold applyOne
  rw [if_neg (not_not.mpr hvault), if_neg (by simp [htable]), hopen]
  dsimp only
  split
  · by_cases hdeleted : env.deleted = true
    · rw [if_pos hdeleted]
      exact ⟨_, _, rfl, rfl⟩
    · rw [if_neg hdeleted]
      exact s.insertRecord_of_readable vault thisDevice (hread (by simpa using hdeleted))
  · split
    · exact ⟨_, _, rfl, rfl⟩
    · exact ⟨_, _, rfl, rfl⟩
    · by_cases hdeleted : env.deleted = true
      · rw [if_pos hdeleted]
        exact ⟨_, _, rfl, rfl⟩
      · rw [if_neg hdeleted]
        exact s.insertRecord_of_readable vault thisDevice (hread (by simpa using hdeleted))

theorem applyAll_of_sound {vault : UnlockedVault} (thisDevice : UInt32) {envelopes : List Envelope}
    (h : ∀ env ∈ envelopes, vault.Sound env) (s : Store) (report : ApplyReport)
    (newest : Option Hlc) :
    ∃ t report' newest', applyAll vault thisDevice envelopes s report newest =
      .ok (t, report', newest') ∧ report'.rejected = report.rejected := by
  induction envelopes generalizing s report newest with
  | nil => exact ⟨_, _, _, rfl, rfl⟩
  | cons env rest ih =>
    obtain ⟨t, outcome, hone, hrejected⟩ :=
      s.applyOne_of_sound thisDevice (h env (List.mem_cons_self ..))
    obtain ⟨u, report', newest', hrest, hsame⟩ :=
      ih (fun e he => h e (List.mem_cons_of_mem _ he)) t (countOutcome env report outcome)
        (if outcome.rejected = 0 then some (newest.elim env.updatedAt (max · env.updatedAt))
          else newest)
    refine ⟨u, report', newest', ?_, ?_⟩
    · unfold applyAll
      rw [hone]
      exact hrest
    · rw [hsame, countOutcome]
      split
      · rfl
      · rw [ApplyReport.add, hrejected, Nat.add_zero]

/-- Sound records are applied, none of them rejected. -/
theorem applyEnvelopes_of_sound {s : Store} {vault : UnlockedVault} (hvault : s.vault = some vault)
    {envelopes : List Envelope} (h : ∀ env ∈ envelopes, vault.Sound env) (nowMs : UInt64) :
    ∃ t report, s.applyEnvelopes envelopes nowMs = .ok (t, report) ∧ report.rejected = 0 := by
  unfold applyEnvelopes
  by_cases hempty : envelopes.isEmpty = true
  · rw [if_pos hempty]
    exact ⟨_, _, rfl, rfl⟩
  · rw [if_neg hempty, hvault]
    have hsorted : ∀ env ∈ envelopes.insertionSort applyBefore, vault.Sound env :=
      fun env henv => h env ((envelopes.perm_insertionSort applyBefore).mem_iff.mp henv)
    obtain ⟨t, report, newest, hall, hrejected⟩ :=
      applyAll_of_sound s.device hsorted s {} none
    dsimp only
    rw [hall]
    exact ⟨_, _, rfl, hrejected⟩

end sound

/-- The envelopes of a batch that are about one record. -/
def about (kind : EntityKind) (id : Uuid) (envelopes : List Envelope) : List Envelope :=
  envelopes.filter fun env => env.kind = kind ∧ env.id = id

theorem about_cons_of_ne {kind : EntityKind} {id : Uuid} {env : Envelope} {rest : List Envelope}
    (h : ¬ (env.kind = kind ∧ env.id = id)) : about kind id (env :: rest) = about kind id rest := by
  simp [about, h]

theorem about_cons_self (env : Envelope) (rest : List Envelope) :
    about env.kind env.id (env :: rest) = env :: about env.kind env.id rest := by
  simp [about]

/-- What a record lost by giving its slot away is what its mark has gained. -/
def Covered (s t : Store) (kind : EntityKind) (id : Uuid) (u : Version) : Prop :=
  t.mark kind id = s.mark kind id ⊔ u

theorem GaveUp.cell_eq {s t : Store} {env : Envelope} {kind : EntityKind} {id : Uuid}
    (h : GaveUp s t env kind id)
    (hcovered : Covered s t kind id (s.cell kind id).version) :
    t.cell kind id = (s.cell kind id).giveUp := by
  obtain ⟨-, row, -, hnone, -⟩ := h
  rw [cell_of_none hnone, hcovered]
  simp [Register.Cell.giveUp, Register.Cell.blank]

theorem Yielded.cell_eq {s t : Store} {env : Envelope} (h : Yielded s t env)
    (hcovered : Covered s t env.kind env.id env.version) :
    t.cell env.kind env.id =
      { s.cell env.kind env.id with mark := (s.cell env.kind env.id).mark ⊔ env.version } := by
  obtain ⟨-, -, hrow, -⟩ := h
  rw [mark_cell]
  cases hold : s.row? env.kind env.id with
  | none => rw [cell_of_none hold, cell_of_none (hrow.trans hold), hcovered]
  | some row =>
    rw [cell_of_some hold, cell_of_some (hrow.trans hold), hcovered]
    rfl

/-- Records applied one after the other. -/
theorem applyAll_touched {vault : UnlockedVault} {thisDevice : UInt32} {envelopes : List Envelope}
    {s t : Store} {report report' : ApplyReport} {newest newest' : Option Hlc}
    (h : applyAll vault thisDevice envelopes s report newest = .ok (t, report', newest')) :
    Frame s t ∧ t.clock = s.clock ∧ ∀ id, s.Superseded id → t.Superseded id := by
  induction envelopes generalizing s report newest with
  | nil =>
    cases h
    exact ⟨.refl _, rfl, fun _ h => h⟩
  | cons env rest ih =>
    unfold applyAll at h
    split at h
    · cases h
    next u outcome hone =>
    obtain ⟨htouched, -⟩ := applyOne_spec hone
    obtain ⟨hframe, hclock, hsuper⟩ := ih h
    exact ⟨htouched.frame.trans hframe, hclock.trans htouched.clock,
      fun id hs => hsuper id (htouched.superseded id hs)⟩

/-- The rule for a batch: if an invariant of the records still to come covers
what every one of them makes this record lose, the record's copy digests its envelopes. -/
theorem applyAll_digest {vault : UnlockedVault} {thisDevice : UInt32} {kind : EntityKind}
    {id : Uuid} (inv : List Envelope → Store → Prop)
    (hinv : ∀ env rest s t outcome, inv (env :: rest) s →
      s.applyOne vault env thisDevice = .ok (t, outcome) → inv rest t ∧
        (GaveUp s t env kind id → Covered s t kind id (s.cell kind id).version) ∧
        (env.kind = kind → env.id = id → Yielded s t env → Covered s t kind id env.version))
    {envelopes : List Envelope} {s t : Store} {report report' : ApplyReport}
    {newest newest' : Option Hlc} (hs : inv envelopes s)
    (hsound : ∀ env ∈ about kind id envelopes, vault.Sound env)
    (h : applyAll vault thisDevice envelopes s report newest = .ok (t, report', newest')) :
    Register.Digest Version.IsTomb (s.cell kind id)
      ((about kind id envelopes).map Envelope.numbered) (t.cell kind id) := by
  induction envelopes generalizing s report newest with
  | nil =>
    cases h
    exact .nil _
  | cons env rest ih =>
    unfold applyAll at h
    split at h
    · cases h
    next u outcome hone =>
    obtain ⟨hu, hgave, hyield⟩ := hinv env rest s u outcome hs hone
    obtain ⟨htouched, hcell⟩ := applyOne_spec hone
    by_cases heq : env.kind = kind ∧ env.id = id
    · obtain ⟨rfl, rfl⟩ := heq
      rw [about_cons_self] at hsound ⊢
      have hrest := ih hu (fun e he => hsound e (List.mem_cons_of_mem _ he)) h
      refine .absorb ?_ hrest
      rcases hcell with hcell | hy | ⟨-, hbad⟩
      · exact hcell
      · rw [hy.cell_eq (hyield rfl rfl hy)]
        exact .yield _ _ _
      · exact absurd (hsound env (List.mem_cons_self ..)) hbad
    · rw [about_cons_of_ne heq] at hsound ⊢
      have hrest := ih hu hsound h
      rcases htouched.others kind id fun h' => heq ⟨h'.1.symm, h'.2.symm⟩ with hsame | hgone
      · rwa [hsame.cell_eq] at hrest
      · rw [hgone.cell_eq (hgave hgone)] at hrest
        exact .giveUp hrest

section dirty

/-- Applying a record never makes a row wait, and a row that still waits has the
version it had. -/
theorem applyOne_dirty {s t : Store} {vault : UnlockedVault} {env : Envelope}
    {thisDevice : UInt32} {outcome : ApplyReport}
    (h : s.applyOne vault env thisDevice = .ok (t, outcome)) {kind : EntityKind} {id : Uuid}
    (hdirty : (t.cell kind id).dirty = true) :
    (s.cell kind id).dirty = true ∧ (t.cell kind id).version = (s.cell kind id).version := by
  obtain ⟨htouched, hown⟩ := applyOne_spec h
  by_cases heq : kind = env.kind ∧ id = env.id
  · obtain ⟨rfl, rfl⟩ := heq
    rcases hown with habsorb | ⟨-, -, hrow, -⟩ | ⟨rfl, -⟩
    · exact habsorb.dirty hdirty
    · cases hold : s.row? env.kind env.id with
      | none =>
        rw [cell_of_none (hrow.trans hold)] at hdirty
        cases hdirty
      | some row =>
        rw [cell_of_some (hrow.trans hold)] at hdirty ⊢
        rw [cell_of_some hold]
        exact ⟨hdirty, rfl⟩
    · exact ⟨hdirty, rfl⟩
  · rcases htouched.others kind id heq with hsame | ⟨-, row, -, hnone, -⟩
    · rw [hsame.cell_eq] at hdirty ⊢
      exact ⟨hdirty, rfl⟩
    · rw [cell_of_none hnone] at hdirty
      cases hdirty

theorem applyAll_dirty {vault : UnlockedVault} {thisDevice : UInt32} {envelopes : List Envelope}
    {s t : Store} {report report' : ApplyReport} {newest newest' : Option Hlc}
    (h : applyAll vault thisDevice envelopes s report newest = .ok (t, report', newest'))
    {kind : EntityKind} {id : Uuid} (hdirty : (t.cell kind id).dirty = true) :
    (s.cell kind id).dirty = true ∧ (t.cell kind id).version = (s.cell kind id).version := by
  induction envelopes generalizing s report newest with
  | nil =>
    cases h
    exact ⟨hdirty, rfl⟩
  | cons env rest ih =>
    unfold applyAll at h
    split at h
    · cases h
    next u outcome hone =>
    obtain ⟨hu, hversion⟩ := ih h
    obtain ⟨hs, hversion'⟩ := applyOne_dirty hone hu
    exact ⟨hs, hversion.trans hversion'⟩

/-- A row that waits goes on waiting, unless a version as new was applied or a host
key that is not older took its slot. -/
theorem applyOne_waiting {s t : Store} {vault : UnlockedVault} {env : Envelope}
    {thisDevice : UInt32} {outcome : ApplyReport}
    (h : s.applyOne vault env thisDevice = .ok (t, outcome)) {kind : EntityKind} {id : Uuid}
    (hdirty : (s.cell kind id).dirty = true) :
    ((t.cell kind id).dirty = true ∧ (t.cell kind id).version = (s.cell kind id).version) ∨
      (env.kind = kind ∧ env.id = id ∧ (s.cell kind id).version ≤ env.version) ∨
      (env.id ≠ id ∧ GaveUp s t env kind id) := by
  obtain ⟨htouched, hown⟩ := applyOne_spec h
  by_cases heq : kind = env.kind ∧ id = env.id
  · obtain ⟨rfl, rfl⟩ := heq
    rcases hown with habsorb | ⟨-, -, hrow, -⟩ | ⟨rfl, -⟩
    · exact (habsorb.waiting hdirty).imp_right fun hle => Or.inl ⟨rfl, rfl, hle⟩
    · left
      cases hold : s.row? env.kind env.id with
      | none =>
        rw [cell_of_none hold] at hdirty
        cases hdirty
      | some row =>
        rw [cell_of_some hold] at hdirty ⊢
        rw [cell_of_some (hrow.trans hold)]
        exact ⟨hdirty, rfl⟩
    · exact Or.inl ⟨hdirty, rfl⟩
  · rcases htouched.others kind id heq with hsame | hgone
    · left
      rw [hsame.cell_eq]
      exact ⟨hdirty, rfl⟩
    · refine Or.inr (Or.inr ⟨fun hid => heq ⟨?_, hid.symm⟩, hgone⟩)
      obtain ⟨hkind, row, -, -, ⟨henv, -⟩, -⟩ := hgone
      exact hkind.trans henv.symm

/-- An envelope that takes the slot of a host key of another id. -/
def TakesSlot (env : Envelope) (kind : EntityKind) (id : Uuid) (clock : Hlc) : Prop :=
  kind = .knownHost ∧ env.kind = .knownHost ∧ env.id ≠ id ∧ env.deleted = false ∧
    clock ≤ env.updatedAt

theorem GaveUp.takesSlot {s t : Store} {env : Envelope} {kind : EntityKind} {id : Uuid}
    (h : GaveUp s t env kind id) (hid : env.id ≠ id) :
    TakesSlot env kind id (s.cell kind id).version.updatedAt := by
  obtain ⟨hkind, row, hrow, -, ⟨henv, hlive, hle⟩, -⟩ := h
  rw [cell_of_some hrow]
  exact ⟨hkind, henv, hid, hlive, hle⟩

theorem applyAll_waiting {vault : UnlockedVault} {thisDevice : UInt32} {envelopes : List Envelope}
    {s t : Store} {report report' : ApplyReport} {newest newest' : Option Hlc}
    (h : applyAll vault thisDevice envelopes s report newest = .ok (t, report', newest'))
    {kind : EntityKind} {id : Uuid} (hdirty : (s.cell kind id).dirty = true) :
    ((t.cell kind id).dirty = true ∧ (t.cell kind id).version = (s.cell kind id).version) ∨
      (∃ env ∈ envelopes, env.kind = kind ∧ env.id = id ∧
        (s.cell kind id).version ≤ env.version) ∨
      (t.Superseded id ∧
        ∃ env ∈ envelopes, TakesSlot env kind id (s.cell kind id).version.updatedAt) := by
  induction envelopes generalizing s report newest with
  | nil =>
    cases h
    exact Or.inl ⟨hdirty, rfl⟩
  | cons env rest ih =>
    unfold applyAll at h
    split at h
    · cases h
    next u outcome hone =>
    rcases applyOne_waiting hone hdirty with ⟨hu, hversion⟩ | ⟨hkind, hid, hle⟩ | ⟨hne, hgone⟩
    · rw [← hversion]
      rcases ih h hu with hwaits | ⟨e, he, hbrought⟩ | ⟨hsuper, e, he, hslot⟩
      · exact Or.inl hwaits
      · exact Or.inr (Or.inl ⟨e, List.mem_cons_of_mem _ he, hbrought⟩)
      · exact Or.inr (Or.inr ⟨hsuper, e, List.mem_cons_of_mem _ he, hslot⟩)
    · exact Or.inr (Or.inl ⟨env, List.mem_cons_self .., hkind, hid, hle⟩)
    · refine Or.inr (Or.inr ⟨(applyAll_touched h).2.2 id hgone.superseded, env,
        List.mem_cons_self .., hgone.takesSlot hne⟩)

end dirty

section manifests

/-- A live manifest row that can be read and stands under its own device's id. -/
def GoodManifest (vaultId id : Uuid) (row : Row (List UInt8)) : Prop :=
  row.deleted = false → ∃ m, Manifest.decode row.cols = some m ∧ id = manifestId vaultId m.device

/-- Where a manifest row comes from: it was there, at most its header changed or it
became a tombstone, or an envelope brought it. -/
def ManifestFrom (vault : UnlockedVault) (s : Store) (envelopes : List Envelope) (id : Uuid)
    (row : Row (List UInt8)) : Prop :=
  (∃ old : Row (List UInt8), s.row? .manifest id = some old ∧ row.cols = old.cols ∧
      (row.deleted = false → old.deleted = false)) ∨
    ∃ env ∈ envelopes, env.kind = .manifest ∧ env.id = id ∧ env.deleted = false ∧
      vault.openEnvelope env = some (.bytes row.cols) ∧ GoodManifest vault.vaultId id row

theorem row?_putStub_manifest (s : Store) (vaultId : Uuid) (target : EntityKind × Uuid)
    (id : Uuid) : (s.putStub vaultId target).row? .manifest id = s.row? .manifest id := by
  obtain ⟨kind, targetId⟩ := target
  by_cases hkind : kind = .manifest
  · subst hkind
    unfold putStub
    split
    · next hstub => cases hstub
    · rfl
  · unfold putStub
    split
    · exact s.row?_putRow_of_kind_ne _ (Ne.symm hkind)
    · rfl

theorem row?_putStubs_manifest (s : Store) (vaultId : Uuid) (targets : List (EntityKind × Uuid))
    (id : Uuid) :
    (targets.foldl (fun s target => s.putStub vaultId target) s).row? .manifest id =
      s.row? .manifest id := by
  induction targets generalizing s with
  | nil => rfl
  | cons target targets ih => exact (ih _).trans (s.row?_putStub_manifest vaultId target id)

theorem row?_manifest_of_ne {s t : Store} {env : Envelope} (hkind : env.kind ≠ .manifest)
    (h : ∀ kind id, ¬ (kind = env.kind ∧ id = env.id) → t.row? kind id = s.row? kind id)
    (id : Uuid) : t.row? .manifest id = s.row? .manifest id :=
  h .manifest id fun heq => hkind heq.1.symm

theorem row?_manifest_applyKnownHost (s : Store) (env : Envelope) (cols : KnownHostCols)
    (thisDevice : UInt32) (id : Uuid) :
    (s.applyKnownHost env cols thisDevice).1.row? .manifest id = s.row? .manifest id := by
  have hupsert : ∀ u : Store, (u.upsertRecord .knownHost env cols).row? .manifest id =
      u.row? .manifest id :=
    fun u => u.row?_upsertRecord_of_pair_ne .knownHost env cols fun h => nomatch h.1
  unfold applyKnownHost
  split
  · exact hupsert s
  · next rivalId rival _ =>
    by_cases hlt : env.updatedAt < rival.updatedAt
    · simp only [hlt, ↓reduceIte]
      exact s.row?_supersede _ _ _ _ _
    · simp only [hlt, ↓reduceIte]
      refine (hupsert _).trans ?_
      rw [row?_dropRow_of_kind_ne _ (by decide), row?_supersede]

theorem insertRecord_manifest {s t : Store} {vault : UnlockedVault} {env : Envelope}
    {plain : Plain} {thisDevice : UInt32} {outcome : ApplyReport} (hlive : env.deleted = false)
    (hvault : env.vaultId = vault.vaultId) (hopen : vault.openEnvelope env = some plain)
    (h : s.insertRecord vault env plain thisDevice = .ok (t, outcome)) {id : Uuid}
    {row : Row (List UInt8)} (hrow : t.row? .manifest id = some row) :
    ManifestFrom vault s [env] id row := by
  have hsame : t.row? .manifest id = s.row? .manifest id → ManifestFrom vault s [env] id row :=
    fun heq => Or.inl ⟨row, heq ▸ hrow, rfl, fun h => h⟩
  unfold insertRecord at h
  split at h
  · cases h
    exact hsame rfl
  · next hkind =>
    cases h
    exact hsame (s.row?_upsertRecord_of_pair_ne .secret env _ fun h => nomatch h.1)
  · next hkind =>
    split at h
    · cases h
      exact hsame rfl
    · next payload =>
      split at h
      · cases h
        exact hsame rfl
      · next manifest hdecode =>
        split at h
        · cases h
          exact hsame rfl
        · next hid =>
          cases h
          rw [not_not] at hid
          by_cases heq : id = env.id
          · subst heq
            obtain ⟨new, hnew, -, -, -, -, hcols⟩ :=
              s.row?_upsertRecord_self .manifest env payload
            rw [hnew] at hrow
            cases hrow
            have hpayload : row.cols = payload := by
              refine Eq.trans hcols ?_
              cases s.row? .manifest env.id <;> rfl
            refine Or.inr ⟨env, List.mem_singleton_self _, hkind, rfl, hlive, ?_, ?_⟩
            · rw [hopen, hpayload]
            · intro _
              rw [hpayload, ← hvault]
              exact ⟨manifest, hdecode, hid⟩
          · exact hsame (s.row?_upsertRecord_of_pair_ne .manifest env payload fun h => heq h.2)
  · next hkind =>
    split at h
    · cases h
    · next cols _ =>
      have ht := s.row?_manifest_applyKnownHost env cols thisDevice id
      injection h with h
      rw [h] at ht
      exact hsame ht
  · next hkind₁ _ hkind₂ _ =>
    split at h
    · cases h
    · next cols _ =>
      cases h
      refine hsame ?_
      rw [row?_upsertRecord_of_pair_ne _ _ env cols fun h => hkind₂ h.1.symm]
      exact s.row?_putStubs_manifest env.vaultId _ id

theorem applyOne_manifest {s t : Store} {vault : UnlockedVault} {env : Envelope}
    {thisDevice : UInt32} {outcome : ApplyReport}
    (h : s.applyOne vault env thisDevice = .ok (t, outcome)) {id : Uuid}
    {row : Row (List UInt8)} (hrow : t.row? .manifest id = some row) :
    ManifestFrom vault s [env] id row := by
  have hsame : t.row? .manifest id = s.row? .manifest id → ManifestFrom vault s [env] id row :=
    fun heq => Or.inl ⟨row, heq ▸ hrow, rfl, fun h => h⟩
  -- A row whose header is rewritten keeps its columns.
  have hupdate : ∀ f : Row (Cols env.kind) → Row (Cols env.kind),
      (∀ r, env.kind = .manifest → (f r).cols = r.cols ∧
        ((f r).deleted = false → r.deleted = false)) →
      t = s.updateRow env.kind env.id f → ManifestFrom vault s [env] id row := by
    rintro f hf rfl
    by_cases heq : EntityKind.manifest = env.kind ∧ id = env.id
    · obtain ⟨hkind, rfl⟩ := heq
      left
      generalize hk : env.kind = kind at *
      subst hkind
      rw [row?_updateRow_self] at hrow
      obtain ⟨old, hold, rfl⟩ := Option.map_eq_some_iff.mp hrow
      exact ⟨old, hold, (hf old rfl).1, (hf old rfl).2⟩
    · exact hsame (s.row?_updateRow_of_pair_ne _ _ f heq)
  unfold applyOne at h
  split at h
  · cases h
    exact hsame rfl
  next hvault =>
  rw [not_not] at hvault
  split at h
  · cases h
    exact hsame rfl
  split at h
  · cases h
    exact hsame rfl
  next plain hopen =>
  split at h
  · by_cases hdeleted : env.deleted = true
    · simp only [hdeleted, ↓reduceIte] at h
      cases h
      exact hsame rfl
    · simp only [hdeleted] at h
      exact insertRecord_manifest (by simpa using hdeleted) hvault hopen h hrow
  · next old hold =>
    split at h
    · cases h
      refine hupdate _ ?_ rfl
      exact fun r _ => ⟨rfl, fun h => h⟩
    · cases h
      refine hupdate _ ?_ rfl
      exact fun r _ => ⟨rfl, fun h => h⟩
    · by_cases hdeleted : env.deleted = true
      · simp only [hdeleted, ↓reduceIte] at h
        cases h
        refine hupdate _ (fun r hk => ⟨?_, fun h => by simp at h⟩) rfl
        simp only
        generalize env.kind = kind at r hk
        subst hk
        rfl
      · simp only [hdeleted] at h
        exact insertRecord_manifest (by simpa using hdeleted) hvault hopen h hrow

theorem applyAll_manifest {vault : UnlockedVault} {thisDevice : UInt32} {envelopes : List Envelope}
    {s t : Store} {report report' : ApplyReport} {newest newest' : Option Hlc}
    (h : applyAll vault thisDevice envelopes s report newest = .ok (t, report', newest'))
    {id : Uuid} {row : Row (List UInt8)} (hrow : t.row? .manifest id = some row) :
    ManifestFrom vault s envelopes id row := by
  induction envelopes generalizing s report newest with
  | nil =>
    cases h
    exact Or.inl ⟨row, hrow, rfl, fun h => h⟩
  | cons env rest ih =>
    unfold applyAll at h
    split at h
    · cases h
    next u outcome hone =>
    rcases ih h with ⟨mid, hmid, hcols, hdel⟩ | ⟨e, he, hkind, hid, hlive, hopen, hgood⟩
    · rcases applyOne_manifest hone hmid with
        ⟨old, hold, hcols', hdel'⟩ | ⟨e, he, hkind, hid, hlive, hopen, hgood⟩
      · exact Or.inl ⟨old, hold, hcols.trans hcols', fun h => hdel' (hdel h)⟩
      · rw [List.mem_singleton.mp he] at hkind hid hlive hopen
        refine Or.inr ⟨env, List.mem_cons_self .., hkind, hid, hlive, hcols ▸ hopen, ?_⟩
        intro hrowlive
        rw [hcols]
        exact hgood (hdel hrowlive)
    · exact Or.inr ⟨e, List.mem_cons_of_mem _ he, hkind, hid, hlive, hopen, hgood⟩

end manifests

/-- A batch that was applied: its records one after the other, and then the clock. -/
theorem applyEnvelopes_eq {s t : Store} {envelopes : List Envelope} {nowMs : UInt64}
    {report : ApplyReport} (h : s.applyEnvelopes envelopes nowMs = .ok (t, report)) :
    (envelopes = [] ∧ t = s) ∨
      ∃ vault u newest, s.vault = some vault ∧
        applyAll vault s.device (envelopes.insertionSort applyBefore) s {} none =
          .ok (u, report, newest) ∧
        t = u.setClock (newest.elim u.clock fun remote => u.clock.merge remote nowMs) := by
  unfold applyEnvelopes at h
  split at h
  · next hempty =>
    cases h
    exact Or.inl ⟨by simpa using hempty, rfl⟩
  split at h
  · cases h
  next vault hvault =>
  split at h
  · cases h
  next u report' newest hall =>
  cases h
  refine Or.inr ⟨vault, u, newest, hvault, hall, ?_⟩
  cases newest <;> rfl

theorem perm_eq_of_length_le_one {α : Type} {l l' : List α} (h : l.Perm l')
    (hlen : l'.length ≤ 1) : l = l' := by
  cases l' with
  | nil => exact h.eq_nil
  | cons a rest =>
    cases rest with
    | nil => exact List.perm_singleton.mp h
    | cons => simp at hlen

@[simp] theorem row?_setClock (s : Store) (c : Hlc) (kind : EntityKind) (id : Uuid) :
    (s.setClock c).row? kind id = s.row? kind id := rfl

@[simp] theorem mark_setClock (s : Store) (c : Hlc) (kind : EntityKind) (id : Uuid) :
    (s.setClock c).mark kind id = s.mark kind id := rfl

@[simp] theorem cell_setClock (s : Store) (c : Hlc) (kind : EntityKind) (id : Uuid) :
    (s.setClock c).cell kind id = s.cell kind id := rfl

theorem frame_setClock (s : Store) (c : Hlc) : Frame s (s.setClock c) :=
  ⟨rfl, rfl, rfl, rfl, rfl, rfl⟩

theorem applyEnvelopes_touched {s t : Store} {envelopes : List Envelope} {nowMs : UInt64}
    {report : ApplyReport} (h : s.applyEnvelopes envelopes nowMs = .ok (t, report)) :
    Frame s t ∧ ∀ id, s.Superseded id → t.Superseded id := by
  rcases applyEnvelopes_eq h with ⟨-, rfl⟩ | ⟨vault, u, newest, -, hall, rfl⟩
  · exact ⟨.refl t, fun _ h => h⟩
  · obtain ⟨hframe, -, hsuper⟩ := applyAll_touched hall
    exact ⟨hframe.trans (u.frame_setClock _), hsuper⟩

theorem about_insertionSort {kind : EntityKind} {id : Uuid} {envelopes : List Envelope}
    (hlen : (about kind id envelopes).length ≤ 1) :
    about kind id (envelopes.insertionSort applyBefore) = about kind id envelopes :=
  perm_eq_of_length_le_one ((envelopes.perm_insertionSort applyBefore).filter _) hlen

theorem applyEnvelopes_dirty {s t : Store} {envelopes : List Envelope} {nowMs : UInt64}
    {report : ApplyReport} (h : s.applyEnvelopes envelopes nowMs = .ok (t, report))
    {kind : EntityKind} {id : Uuid} (hdirty : (t.cell kind id).dirty = true) :
    (s.cell kind id).dirty = true ∧ (t.cell kind id).version = (s.cell kind id).version := by
  rcases applyEnvelopes_eq h with ⟨-, rfl⟩ | ⟨vault, u, newest, -, hall, rfl⟩
  · exact ⟨hdirty, rfl⟩
  · exact applyAll_dirty hall hdirty

theorem applyEnvelopes_waiting {s t : Store} {envelopes : List Envelope} {nowMs : UInt64}
    {report : ApplyReport} (h : s.applyEnvelopes envelopes nowMs = .ok (t, report))
    {kind : EntityKind} {id : Uuid} (hdirty : (s.cell kind id).dirty = true) :
    ((t.cell kind id).dirty = true ∧ (t.cell kind id).version = (s.cell kind id).version) ∨
      (∃ env ∈ envelopes, env.kind = kind ∧ env.id = id ∧
        (s.cell kind id).version ≤ env.version) ∨
      (t.Superseded id ∧
        ∃ env ∈ envelopes, TakesSlot env kind id (s.cell kind id).version.updatedAt) := by
  rcases applyEnvelopes_eq h with ⟨-, rfl⟩ | ⟨vault, u, newest, -, hall, rfl⟩
  · exact Or.inl ⟨hdirty, rfl⟩
  · have hmem : ∀ env, env ∈ envelopes.insertionSort applyBefore → env ∈ envelopes :=
      fun env => (envelopes.perm_insertionSort applyBefore).mem_iff.mp
    rcases applyAll_waiting hall hdirty with hwaits | ⟨e, he, hbrought⟩ | ⟨hsuper, e, he, hslot⟩
    · exact Or.inl hwaits
    · exact Or.inr (Or.inl ⟨e, hmem e he, hbrought⟩)
    · exact Or.inr (Or.inr ⟨hsuper, e, hmem e he, hslot⟩)

/-- Applying a batch moves the clock past where it was, as long as the wall clock's range
does not run out. -/
theorem applyEnvelopes_clock {s t : Store} {envelopes : List Envelope} {nowMs : UInt64}
    {report : ApplyReport} (h : s.applyEnvelopes envelopes nowMs = .ok (t, report))
    (hend : t.clockWallMs.toNat + 1 < 2 ^ 64) : s.clock ≤ t.clock := by
  rcases applyEnvelopes_eq h with ⟨-, rfl⟩ | ⟨vault, u, newest, -, hall, rfl⟩
  · exact le_rfl
  · obtain ⟨-, hclock, -⟩ := applyAll_touched hall
    rw [← hclock]
    cases newest with
    | none => exact le_rfl
    | some remote =>
      exact (Hlc.lt_of_stamp_lt (Hlc.stamp_lt_merge_of_lt hend)).le

theorem applyEnvelopes_manifest {s t : Store} {envelopes : List Envelope} {nowMs : UInt64}
    {report : ApplyReport} (h : s.applyEnvelopes envelopes nowMs = .ok (t, report))
    {vault : UnlockedVault} (hvault : s.vault = some vault) {id : Uuid} {row : Row (List UInt8)}
    (hrow : t.row? .manifest id = some row) : ManifestFrom vault s envelopes id row := by
  rcases applyEnvelopes_eq h with ⟨-, rfl⟩ | ⟨vault', u, newest, hvault', hall, rfl⟩
  · exact Or.inl ⟨row, hrow, rfl, fun h => h⟩
  · rw [hvault] at hvault'
    cases hvault'
    rcases applyAll_manifest hall hrow with hold | ⟨env, henv, hnew⟩
    · exact Or.inl hold
    · exact Or.inr ⟨env, (envelopes.perm_insertionSort applyBefore).mem_iff.mp henv, hnew⟩

/-- A batch in which nothing was given up for the record's slot. -/
theorem applyEnvelopes_digest {s t : Store} {envelopes : List Envelope} {nowMs : UInt64}
    {report : ApplyReport} (h : s.applyEnvelopes envelopes nowMs = .ok (t, report))
    {vault : UnlockedVault} (hvault : s.vault = some vault) {kind : EntityKind} {id : Uuid}
    (hlen : (about kind id envelopes).length ≤ 1)
    (hsound : ∀ env ∈ about kind id envelopes, vault.Sound env)
    (hkept : kind = .knownHost → ¬ t.Superseded id) :
    Register.Digest Version.IsTomb (s.cell kind id)
      ((about kind id envelopes).map Envelope.numbered) (t.cell kind id) := by
  rcases applyEnvelopes_eq h with ⟨rfl, rfl⟩ | ⟨vault', u, newest, hvault', hall, rfl⟩
  · exact .nil _
  rw [hvault] at hvault'
  cases hvault'
  rw [← about_insertionSort hlen] at hsound ⊢
  rw [cell_setClock]
  refine applyAll_digest (fun rest u' => ∃ report newest report' newest',
    applyAll vault s.device rest u' report newest = .ok (u, report', newest')) ?_
    ⟨_, _, _, _, hall⟩ hsound hall
  rintro env rest s₁ t₁ outcome ⟨report₁, newest₁, report', newest', hrun⟩ hone
  unfold applyAll at hrun
  rw [hone] at hrun
  have hgone : t₁.Superseded id → kind ≠ .knownHost := fun hsuper hkind =>
    hkept hkind ((applyAll_touched hrun).2.2 id hsuper)
  refine ⟨⟨_, _, _, _, hrun⟩, ?_, ?_⟩
  · intro hgave
    exact absurd hgave.1 (hgone hgave.superseded)
  · intro hkind hid hyield
    subst hkind hid
    exact absurd hyield.1 (hgone hyield.superseded)

end Store

end UwuSsh

import UwuSsh.Store.Assist
import UwuSsh.Store.PendingFacts

/-!
Fields this build does not know, from the envelope they come in to the one they go up in. They
lie in a column of their own, or in the settings and the keymaps beside the fields that are known,
and a row goes up with those it has.
-/
namespace UwuSsh

/-- What in a record has unknown fields: it itself, the provider or text of a name in it, or one of the
chords a keymap has for an action. -/
inductive Holder
  | record
  | entry (name : String)
  | chord (action : String) (index : ℕ)

/-- The unknown fields of one chord in the text of a keymap. -/
def KeymapBody.chordExtra (body : KeymapBody) (action : String) (index : ℕ) : Extra :=
  (((entryOf action body.bindings).bind fun chords => chords[index]?).map ChordBody.extra).getD []

/-- The unknown fields of a record, or of what is in it. -/
def Cols.extraAt : (kind : EntityKind) → Cols kind → Holder → Extra
  | .host, cols, .record => HostCols.syncExtra cols
  | .group, cols, .record => GroupCols.syncExtra cols
  | .identity, cols, .record => IdentityCols.syncExtra cols
  | .key, cols, .record => KeyCols.syncExtra cols
  | .snippet, cols, .record => SnippetCols.syncExtra cols
  | .portForward, cols, .record => PortForwardCols.syncExtra cols
  | .knownHost, cols, .record => KnownHostCols.syncExtra cols
  | .assistCache, cols, .record => AssistCacheCols.syncExtra cols
  | .assistConfig, cols, .record => AssistConfigPayload.extra cols
  | .assistConfig, cols, .entry name =>
      ((entryOf name (AssistConfigPayload.providers cols)).map (·.extra)).getD []
  | .keymap, cols, .record => KeymapBody.extra cols
  | .keymap, cols, .entry name => ((entryOf name (KeymapBody.texts cols)).map (·.extra)).getD []
  | .keymap, cols, .chord action index => KeymapBody.chordExtra cols action index
  | _, _, _ => []

/-- The unknown fields of what is in an envelope. -/
def Payload.extraAt : Payload → Holder → Extra
  | .host p, .record => p.extra
  | .group p, .record => p.extra
  | .identity p, .record => p.extra
  | .key p, .record => p.extra
  | .snippet p, .record => p.extra
  | .portForward p, .record => p.extra
  | .knownHost p, .record => p.extra
  | .assistCache p, .record => p.extra
  | .assistConfig p, .record => p.extra
  | .assistConfig p, .entry name => ((entryOf name p.providers).map (·.extra)).getD []
  | .keymap p, .record => p.extra
  | .keymap p, .entry name => ((entryOf name p.texts).map (·.extra)).getD []
  | .keymap p, .chord action index => p.chordExtra action index
  | _, _ => []

def Plain.extraAt : Plain → Holder → Extra
  | .json p, place => p.extraAt place
  | .bytes _, _ => []

/-- The unknown fields of a record as this build takes it: all of them, but for those of a text a
keymap may not have, and of all chords of a keymap that is cut down. -/
def Plain.unknown (kind : EntityKind) (plain : Plain) (place : Holder) : Extra :=
  (Cols.ofPlain kind plain).elim [] fun cols => Cols.extraAt kind cols place

/-- A payload goes up with the unknown fields of the row it is made from. -/
theorem extraAt_payloadOf {vault : UnlockedVault} {id : Uuid} {kind : EntityKind} {cols : Cols kind}
    {plain : Plain} (h : payloadOf vault id kind cols = some plain) (place : Holder) :
    Cols.extraAt kind cols place ⊆ plain.extraAt place := by
  cases kind with
  | secret => exact List.nil_subset _
  | terminalProfile => cases h
  | _ =>
    cases h
    cases place <;> exact List.Subset.refl _

theorem extraAt_keepLocal (kind : EntityKind) (old new : Cols kind) (place : Holder) :
    Cols.extraAt kind (Cols.keepLocal kind old new) place = Cols.extraAt kind new place := by
  cases kind <;> cases place <;> rfl

/-- A row a record is in with at least some unknown fields. Settings and keymaps are never
tombstones here: no edit deletes one. -/
def Carries (base : Holder → Extra) (kind : EntityKind) (row : Row (Cols kind)) : Prop :=
  (∀ place, base place ⊆ Cols.extraAt kind row.cols place) ∧
    (kind = .assistConfig ∨ kind = .keymap → row.deleted = false)

namespace Store

variable {s t : Store} {vault : UnlockedVault} {env : Envelope} {plain : Plain}

theorem row?_upsertRecord_carries (s : Store) {kind : EntityKind} {cols : Cols kind} (env : Envelope) :
    ∃ row, (s.upsertRecord kind env cols).row? kind env.id = some row ∧
      Carries (Cols.extraAt kind cols) kind row := by
  obtain ⟨row, hrow, -, hlive, -, -, hcols⟩ := s.row?_upsertRecord_self kind env cols
  refine ⟨row, hrow, fun place => ?_, fun _ => hlive⟩
  rw [hcols]
  cases s.row? kind env.id with
  | none => exact List.Subset.refl _
  | some old =>
    rw [Option.elim_some, extraAt_keepLocal]
    exact List.Subset.refl _

theorem applyKnownHost_carries {thisDevice : UInt32} {report : ApplyReport} {cols : KnownHostCols}
    (h : s.applyKnownHost env cols thisDevice = (t, report)) (htaken : report.applied = 1) :
    ∃ row, t.row? .knownHost env.id = some row ∧
      Carries (Cols.extraAt .knownHost cols) .knownHost row := by
  unfold applyKnownHost at h
  cases hrival : s.rivalOf env.id cols.address cols.port with
  | none =>
    rw [hrival] at h
    cases h
    exact row?_upsertRecord_carries s env
  | some found =>
    obtain ⟨rivalId, rival⟩ := found
    rw [hrival] at h
    dsimp only at h
    by_cases hlt : env.updatedAt < rival.updatedAt
    · rw [if_pos hlt] at h
      cases h
      cases htaken
    · rw [if_neg hlt] at h
      cases h
      exact row?_upsertRecord_carries _ env

theorem insertRecord_carries {thisDevice : UInt32} {report : ApplyReport} {cols : Cols env.kind}
    (hcols : Cols.ofPlain env.kind plain = some cols)
    (h : s.insertRecord vault env plain thisDevice = .ok (t, report)) (htaken : report.applied = 1) :
    ∃ row, t.row? env.kind env.id = some row ∧
      Carries (Cols.extraAt env.kind cols) env.kind row := by
  obtain ⟨id, vaultId, kind, updatedAt, baseSeq, deleted, nonce, blob, seq⟩ := env
  unfold insertRecord at h
  cases kind with
  | terminalProfile =>
    cases h
    cases htaken
  | secret => cases plain <;> cases hcols
  | manifest => cases plain <;> cases hcols
  | knownHost =>
    dsimp only at hcols h
    rw [hcols] at h
    dsimp only at h
    exact applyKnownHost_carries (Except.ok.inj h) htaken
  | _ =>
    dsimp only at hcols h
    rw [hcols] at h
    cases h
    exact row?_upsertRecord_carries _ _

/-- A record that was taken in has its unknown fields. -/
theorem applyOne_carries {thisDevice : UInt32} {report : ApplyReport}
    (hopen : vault.openEnvelope env = some plain) (hlive : env.deleted = false)
    (hcols : (Cols.ofPlain env.kind plain).isSome = true)
    (h : s.applyOne vault env thisDevice = .ok (t, report)) (htaken : report.applied = 1) :
    ∃ row, t.row? env.kind env.id = some row ∧ Carries (plain.unknown env.kind) env.kind row := by
  obtain ⟨cols, hcols⟩ := Option.isSome_iff_exists.mp hcols
  have hunknown : plain.unknown env.kind = Cols.extraAt env.kind cols := by
    funext place
    rw [Plain.unknown, hcols, Option.elim_some]
  rw [hunknown]
  unfold applyOne at h
  split at h
  · cases h
    cases htaken
  split at h
  · cases h
    cases htaken
  rw [hopen] at h
  dsimp only at h
  split at h
  · rw [hlive] at h
    exact insertRecord_carries hcols h htaken
  · split at h
    · cases h
      cases htaken
    · cases h
      cases htaken
    · rw [hlive] at h
      exact insertRecord_carries hcols h htaken

/-- What goes up for a record is made from its row, and opens. -/
theorem mem_pendingOf {kinds : List EntityKind} {limit leftOut : ℕ} {envelopes : List Envelope}
    (h : s.pendingOf kinds limit = .ok (envelopes, leftOut)) (henv : env ∈ envelopes) :
    ∃ vault row, s.vault = some vault ∧ s.row? env.kind env.id = some row ∧ env.OfRow vault row := by
  unfold pendingOf at h
  cases hvault : s.vault with
  | none =>
    rw [hvault] at h
    cases h
  | some vault =>
    rw [hvault] at h
    cases h
    obtain ⟨-, hsub⟩ := s.packKinds_spec vault kinds (p := {}) ⟨Nat.zero_le limit, rfl, by simp, by simp⟩
    rw [List.nil_append] at hsub
    obtain ⟨-, row, hrow, -, hof⟩ := mem_outbox (hsub.subset henv)
    exact ⟨vault, row, rfl, hrow, hof⟩

/-- What goes up for a record that is not deleted carries the unknown fields its row carries. -/
theorem pendingOf_carries {kinds : List EntityKind} {limit leftOut : ℕ} {envelopes : List Envelope}
    {base : Holder → Extra} (h : s.pendingOf kinds limit = .ok (envelopes, leftOut))
    (henv : env ∈ envelopes) (hlive : env.deleted = false)
    (hrow : ∀ row, s.row? env.kind env.id = some row → Carries base env.kind row) :
    ∃ vault plain, s.vault = some vault ∧ vault.openEnvelope env = some plain ∧
      ∀ place, base place ⊆ plain.extraAt place := by
  obtain ⟨vault, row, hvault, hsome, hof⟩ := mem_pendingOf h henv
  obtain ⟨plain, hplain, hopen⟩ := hof.opened
  have hdeleted : row.deleted = false := (congrArg Version.deleted hof.version).symm.trans hlive
  rw [plainOfRow, hdeleted] at hplain
  refine ⟨vault, plain, hvault, hopen, fun place => ?_⟩
  exact List.Subset.trans ((hrow row hsome).1 place) (extraAt_payloadOf hplain place)

end Store

/-- The login a host's row names. -/
def Cols.login : (kind : EntityKind) → Cols kind → Option Uuid
  | .host, cols => HostCols.identityId cols
  | _, _ => none

/-- A row in another version, with all its unknown fields. -/
def Lasts (kind : EntityKind) (row row' : Row (Cols kind)) : Prop :=
  (∀ place, Cols.extraAt kind row.cols place ⊆ Cols.extraAt kind row'.cols place) ∧
    (kind = .assistConfig ∨ kind = .keymap → row'.deleted = false)

theorem Carries.lasts {base : Holder → Extra} {kind : EntityKind} {row row' : Row (Cols kind)}
    (h : Carries base kind row) (hlasts : Lasts kind row row') : Carries base kind row' :=
  ⟨fun place => List.Subset.trans (h.1 place) (hlasts.1 place), hlasts.2⟩

/-- Where only the record itself has a place for unknown fields, it is enough to keep those. -/
theorem lasts_of_own {kind : EntityKind} {row row' : Row (Cols kind)}
    (hkind : ¬ (kind = .assistConfig ∨ kind = .keymap))
    (h : Cols.extraAt kind row'.cols .record = Cols.extraAt kind row.cols .record) : Lasts kind row row' := by
  refine ⟨fun place => ?_, fun hwhole => absurd hwhole hkind⟩
  have hinner : ∀ inner, inner ≠ .record → Cols.extraAt kind row.cols inner = [] := by
    intro inner hne
    cases inner with
    | record => exact absurd rfl hne
    | _ =>
      cases kind with
      | assistConfig => exact absurd (Or.inl rfl) hkind
      | keymap => exact absurd (Or.inr rfl) hkind
      | _ => rfl
  cases place with
  | record =>
    rw [h]
    exact List.Subset.refl _
  | entry name =>
    rw [hinner (.entry name) nofun]
    exact List.nil_subset _
  | chord action index =>
    rw [hinner (.chord action index) nofun]
    exact List.nil_subset _

end UwuSsh

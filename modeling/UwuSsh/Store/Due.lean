import UwuSsh.Lib.Contest
import UwuSsh.Store.Slots

/-!
The row each record is due once a set of records has been applied to a store, said without an order: what is here
meets the one envelope of its id; what is not here is what its envelope brings, or a placeholder when something that
is written refers to it. For every kind but the host keys the rows are what they are due, after each record and in
whatever order the records come.
-/
namespace UwuSsh

/-- A row without what this device counts for itself. -/
def Row.face {α : Type} (row : Row α) : Row α := { row with rev := 0, vaultId := 0 }

theorem Row.face_eq_iff {α : Type} {row row' : Row α} : row.face = row'.face ↔
    row.updatedAt = row'.updatedAt ∧ row.deleted = row'.deleted ∧ row.dirty = row'.dirty ∧
      row.serverSeq = row'.serverSeq ∧ row.cols = row'.cols := by
  simp [Row.face]

theorem Row.version_eq_of_face {α : Type} {row row' : Row α} (h : row.face = row'.face) :
    row.version = row'.version := by
  obtain ⟨hclock, hdeleted, -⟩ := Row.face_eq_iff.mp h
  rw [Row.version, hclock, hdeleted, Row.version]

/-- The row of a record that is new here. -/
def Row.brought {kind : EntityKind} (env : Envelope) (cols : Cols kind) : Row (Cols kind) where
  vaultId := env.vaultId
  updatedAt := env.updatedAt
  rev := 1
  deleted := false
  dirty := false
  serverSeq := env.seq.getD 0
  cols

def Row.placeholder {kind : EntityKind} (vaultId : Uuid) (cols : Cols kind) : Row (Cols kind) :=
  { vaultId, updatedAt := Hlc.zero, rev := 0, deleted := false, dirty := false, serverSeq := 0, cols }

namespace UnlockedVault

variable (vault : UnlockedVault)

/-- An envelope of the vault whose seal holds. -/
def Authentic (env : Envelope) : Prop := env.vaultId = vault.vaultId ∧ (vault.openEnvelope env).isSome = true

/-- The columns a live envelope brings, where it brings any. -/
def bringsPlain (id vaultId : Uuid) (plain : Plain) : (kind : EntityKind) → Option (Cols kind)
  | .terminalProfile => none
  | .secret => some (vault.sealStored id .secret plain)
  | .manifest =>
    match plain with
    | .json _ => none
    | .bytes payload => (Manifest.decode payload).bind fun manifest =>
        if id = manifestId vaultId manifest.device then some payload else none
  | kind => Cols.ofPlain kind plain

def brings (kind : EntityKind) (env : Envelope) : Option (Cols kind) :=
  (vault.openEnvelope env).bind fun plain => vault.bringsPlain env.id env.vaultId plain kind

/-- What becomes of a row that is here when its envelope is applied. -/
def met (kind : EntityKind) (row : Row (Cols kind)) (env : Envelope) : Row (Cols kind) :=
  match resolve row.version env.version with
  | .identical => { row with dirty := false, serverSeq := env.seq.getD 0 }
  | .keepLocal => { row with serverSeq := env.seq.getD 0 }
  | .takeRemote =>
    if env.deleted then
      { row with
        updatedAt := env.updatedAt, rev := row.rev + 1, deleted := true, dirty := false
        serverSeq := env.seq.getD 0, cols := Cols.wiped kind row.cols }
    else
      match vault.brings kind env with
      | none => row
      | some cols =>
        { row with
          updatedAt := env.updatedAt, rev := row.rev + 1, deleted := false, dirty := false
          serverSeq := env.seq.getD 0, cols := Cols.keepLocal kind row.cols cols }

end UnlockedVault

namespace Store

/-- The envelope is live and newer than what is here. -/
def takes (s : Store) (env : Envelope) : Bool :=
  !env.deleted && (s.row? env.kind env.id).all fun row => decide (resolve row.version env.version = .takeRemote)

/-- What the envelope is written with refers to. -/
def refersTo (s : Store) (vault : UnlockedVault) (env : Envelope) : List (EntityKind × Uuid) :=
  if s.takes env then ((vault.brings env.kind env).map (Cols.pointsAt env.kind)).getD [] else []

def ofRecord (kind : EntityKind) (id : Uuid) (env : Envelope) : Bool := env.kind = kind && env.id = id

/-- The row a record is due. -/
def due (s : Store) (vault : UnlockedVault) (envelopes : List Envelope) (kind : EntityKind) (id : Uuid) :
    Option (Row (Cols kind)) :=
  match s.row? kind id, envelopes.find? (ofRecord kind id) with
  | some row, none => some row
  | some row, some env => some (vault.met kind row env)
  | none, some env => if env.deleted then none else (vault.brings kind env).map (Row.brought env)
  | none, none =>
    if (kind, id) ∈ envelopes.flatMap (s.refersTo vault) then (Cols.stub kind).map (Row.placeholder vault.vaultId)
    else none

/-- An envelope that would be written and cannot be read. -/
def Fails (s : Store) (vault : UnlockedVault) (env : Envelope) : Prop :=
  s.takes env = true ∧ vault.brings env.kind env = none ∧ env.kind ≠ .terminalProfile ∧ env.kind ≠ .manifest

section step

variable {s t : Store} {vault : UnlockedVault} {env : Envelope} {thisDevice : UInt32}

theorem row?_putStubs (vaultId : Uuid) (targets : List (EntityKind × Uuid)) (kind : EntityKind) (id : Uuid) :
    (targets.foldl (fun s target => s.putStub vaultId target) t).row? kind id =
      match t.row? kind id with
      | some row => some row
      | none => if (kind, id) ∈ targets then (Cols.stub kind).map (Row.placeholder vaultId) else none := by
  induction targets generalizing t with
  | nil =>
    rw [List.foldl_nil]
    cases t.row? kind id with
    | some row => rfl
    | none => simp
  | cons target targets ih =>
    obtain ⟨kind', id'⟩ := target
    rw [List.foldl_cons, ih]
    have hput : (t.putStub vaultId (kind', id')).row? kind id =
        match t.row? kind id with
        | some row => some row
        | none => if (kind, id) = (kind', id') then (Cols.stub kind).map (Row.placeholder vaultId) else none := by
      by_cases hsame : (kind, id) = (kind', id')
      · cases hsame
        rw [if_pos rfl, putStub]
        cases hrow : t.row? kind id with
        | some row => exact hrow
        | none =>
          cases Cols.stub kind with
          | none => exact hrow
          | some cols => exact row?_putRow_self t _
      · rw [if_neg hsame, putStub]
        have hne : ¬ (kind = kind' ∧ id = id') := fun h => hsame (Prod.ext h.1 h.2)
        dsimp only
        split
        · rw [row?_putRow_of_pair_ne _ _ _ _ hne]
          cases t.row? kind id <;> rfl
        · cases t.row? kind id <;> rfl
    rw [hput]
    cases t.row? kind id with
    | some row => rfl
    | none =>
      by_cases hsame : (kind, id) = (kind', id')
      · rw [if_pos hsame, hsame]
        cases hstub : (Cols.stub kind).map (Row.placeholder vaultId) <;> simp
      · rw [if_neg hsame]
        simp only [List.mem_cons, hsame, false_or]

theorem row?_upsertRecord (kind : EntityKind) (env : Envelope) (cols : Cols kind) :
    (t.upsertRecord kind env cols).row? kind env.id = some (match t.row? kind env.id with
      | none => Row.brought env cols
      | some row =>
        { row with
          updatedAt := env.updatedAt, rev := row.rev + 1, deleted := false, dirty := false
          serverSeq := env.seq.getD 0, cols := Cols.keepLocal kind row.cols cols }) := by
  unfold upsertRecord
  cases t.row? kind env.id <;> exact row?_putRow_self t _

/-- What a row refers to is of another kind, and of one that placeholders are made for. -/
theorem mem_pointsAt {kind kind' : EntityKind} {cols : Cols kind} {id : Uuid} (h : (kind', id) ∈ Cols.pointsAt kind cols) :
    kind' ≠ kind ∧ (Cols.stub kind').isSome = true := by
  cases kind <;> simp only [Cols.pointsAt, List.mem_append, List.mem_map, Option.mem_toList, List.not_mem_nil,
    Prod.mk.injEq] at h
  · obtain ⟨_, -, rfl, -⟩ | ⟨_, -, rfl, -⟩ := h <;> exact ⟨by decide, rfl⟩
  · obtain ⟨_, -, rfl, -⟩ | ⟨_, -, rfl, -⟩ := h <;> exact ⟨by decide, rfl⟩
  · obtain ⟨_, -, rfl, -⟩ | ⟨_, -, rfl, -⟩ := h <;> exact ⟨by decide, rfl⟩

theorem row?_terminalProfile (id : Uuid) : t.row? .terminalProfile id = none := by
  cases h : t.row? .terminalProfile id with
  | none => rfl
  | some row => exact Empty.elim row.cols

/-- What an envelope brings is written over the placeholders of what it refers to. -/
theorem insertRecord_of_brings {plain : Plain} (hkind : env.kind ≠ .knownHost)
    (hopen : vault.openEnvelope env = some plain) {cols : Cols env.kind} (hbrings : vault.brings env.kind env = some cols) :
    ∃ r, t.insertRecord vault env plain thisDevice = .ok (((Cols.pointsAt env.kind cols).foldl
      (fun s target => s.putStub env.vaultId target) t).upsertRecord env.kind env cols, r) := by
  rw [UnlockedVault.brings, hopen, Option.bind_some] at hbrings
  obtain ⟨id, vaultId, kind, updatedAt, baseSeq, deleted, nonce, blob, seq⟩ := env
  unfold insertRecord
  cases kind
  case knownHost => exact absurd rfl hkind
  case terminalProfile => cases hbrings
  case secret =>
    cases hbrings
    exact ⟨_, rfl⟩
  case manifest =>
    cases plain with
    | json => cases hbrings
    | bytes payload =>
      obtain ⟨manifest, hdecode, hid⟩ := Option.bind_eq_some_iff.mp hbrings
      split_ifs at hid with hsame
      cases hid
      dsimp only
      rw [hdecode]
      dsimp only
      rw [if_neg (not_not.mpr hsame)]
      exact ⟨_, rfl⟩
  all_goals
    change Cols.ofPlain _ plain = some cols at hbrings
    dsimp only
    rw [hbrings]
    exact ⟨_, rfl⟩

/-- An envelope that brings nothing leaves everything, or is the end of its list. -/
theorem insertRecord_of_brings_none {plain : Plain} (hkind : env.kind ≠ .knownHost)
    (hopen : vault.openEnvelope env = some plain) (hbrings : vault.brings env.kind env = none) :
    (∃ r, t.insertRecord vault env plain thisDevice = .ok (t, r)) ∨
      (t.insertRecord vault env plain thisDevice = .error unreadable ∧
        env.kind ≠ .terminalProfile ∧ env.kind ≠ .manifest) := by
  rw [UnlockedVault.brings, hopen, Option.bind_some] at hbrings
  obtain ⟨id, vaultId, kind, updatedAt, baseSeq, deleted, nonce, blob, seq⟩ := env
  unfold insertRecord
  cases kind
  case knownHost => exact absurd rfl hkind
  case terminalProfile => exact .inl ⟨_, rfl⟩
  case secret => cases hbrings
  case manifest =>
    left
    cases plain with
    | json => exact ⟨_, rfl⟩
    | bytes payload =>
      dsimp only
      cases hdecode : Manifest.decode payload with
      | none => exact ⟨_, rfl⟩
      | some manifest =>
        have hother : id ≠ manifestId vaultId manifest.device := by
          rintro hsame
          change (Manifest.decode payload).bind _ = none at hbrings
          rw [hdecode, Option.bind_some, if_pos hsame] at hbrings
          cases hbrings
        dsimp only
        rw [if_pos hother]
        exact ⟨_, rfl⟩
  all_goals
    change Cols.ofPlain _ plain = none at hbrings
    dsimp only
    rw [hbrings]
    exact .inr ⟨rfl, by decide, by decide⟩

theorem takes_of_none (hlive : env.deleted = false) (hrow : t.row? env.kind env.id = none) : t.takes env = true := by
  rw [takes, hlive, hrow]
  rfl

theorem takes_of_some {row : Row (Cols env.kind)} (hrow : t.row? env.kind env.id = some row) :
    t.takes env = true ↔ env.deleted = false ∧ resolve row.version env.version = .takeRemote := by
  rw [takes, hrow]
  simp

theorem takes_of_deleted (hdeleted : env.deleted = true) : t.takes env = false := by
  rw [takes, hdeleted]
  rfl

theorem refersTo_of_not_takes (h : t.takes env = false) : t.refersTo vault env = [] := by
  rw [refersTo, h]
  rfl

/-- What a store is after an envelope has been applied to it, for all but the host keys. -/
structure Received (vault : UnlockedVault) (env : Envelope) (t u : Store) : Prop where
  own : u.row? env.kind env.id = match t.row? env.kind env.id with
    | some row => some (vault.met env.kind row env)
    | none => if env.deleted then none else (vault.brings env.kind env).map (Row.brought env)
  others : ∀ kind id, ¬ (kind = env.kind ∧ id = env.id) → u.row? kind id = match t.row? kind id with
    | some row => some row
    | none =>
      if (kind, id) ∈ t.refersTo vault env then (Cols.stub kind).map (Row.placeholder vault.vaultId) else none

theorem met_of_row {f : Row (Cols env.kind) → Row (Cols env.kind)} (hrefers : t.takes env = false)
    (hrow : ∀ row, t.row? env.kind env.id = some row → vault.met env.kind row env = f row)
    (hnone : t.row? env.kind env.id = none → env.deleted = true) :
    Received vault env t (t.updateRow env.kind env.id f) where
  own := by
    rw [row?_updateRow_self]
    cases h : t.row? env.kind env.id with
    | some row => exact congrArg some (hrow row h).symm
    | none =>
      rw [hnone h]
      rfl
  others := by
    intro kind id hne
    rw [row?_updateRow_of_pair_ne t _ _ f hne, refersTo_of_not_takes hrefers]
    cases t.row? kind id <;> simp

/-- An envelope that is taken is written with placeholders for what it refers to, or fails. -/
theorem met_of_insert {plain : Plain} (hkind : env.kind ≠ .knownHost) (hvault : env.vaultId = vault.vaultId)
    (hopen : vault.openEnvelope env = some plain) (htakes : t.takes env = true) (hfine : ¬ t.Fails vault env) :
    ∃ u r, t.insertRecord vault env plain thisDevice = .ok (u, r) ∧ Received vault env t u := by
  have hlive : env.deleted = false := by
    cases hdeleted : env.deleted with
    | false => rfl
    | true =>
      rw [takes_of_deleted hdeleted] at htakes
      cases htakes
  cases hbrings : vault.brings env.kind env with
  | none =>
    have hrun : (∃ r, t.insertRecord vault env plain thisDevice = .ok (t, r)) ∨ _ :=
      insertRecord_of_brings_none hkind hopen hbrings
    rcases hrun with ⟨r, hrun⟩ | ⟨-, hends⟩
    · refine ⟨t, r, hrun, ?_, fun kind id _ => ?_⟩
      · cases hrow : t.row? env.kind env.id with
        | none => rw [hlive, hbrings]; rfl
        | some row =>
          have hresolve := ((takes_of_some hrow).mp htakes).2
          simp only [UnlockedVault.met, hresolve, hlive, hbrings, Bool.false_eq_true, if_false]
      · rw [refersTo, if_pos htakes, hbrings]
        cases t.row? kind id <;> simp
    · exact absurd ⟨htakes, hbrings, hends⟩ hfine
  | some cols =>
    have hruns : ∃ r, t.insertRecord vault env plain thisDevice = .ok (_, r) := insertRecord_of_brings hkind hopen hbrings
    obtain ⟨r, hrun⟩ := hruns
    refine ⟨_, r, hrun, ?_, fun kind id hne => ?_⟩
    · have hown : ∀ id, (env.kind, id) ∉ Cols.pointsAt env.kind cols := fun id hin => (mem_pointsAt hin).1 rfl
      rw [row?_upsertRecord, row?_putStubs]
      cases hrow : t.row? env.kind env.id with
      | none =>
        rw [hlive]
        simp only [hown, if_false, hbrings, Option.map_some, Bool.false_eq_true]
      | some row =>
        have hresolve := ((takes_of_some hrow).mp htakes).2
        simp only [UnlockedVault.met, hresolve, hlive, hbrings, Bool.false_eq_true, if_false]
    · rw [row?_upsertRecord_of_pair_ne _ _ _ _ hne, row?_putStubs, hvault, refersTo, if_pos htakes, hbrings]
      rfl

/-- An envelope that is applied meets what is here, unless it cannot be read. -/
theorem applyOne_met (hkind : env.kind ≠ .knownHost) (hauthentic : vault.Authentic env)
    (hfine : ¬ t.Fails vault env) :
    ∃ u r, t.applyOne vault env thisDevice = .ok (u, r) ∧ Received vault env t u := by
  obtain ⟨hvault, hopens⟩ := hauthentic
  obtain ⟨plain, hopen⟩ := Option.isSome_iff_exists.mp hopens
  unfold applyOne
  rw [if_neg (not_not.mpr hvault), hopen]
  by_cases htable : env.kind = .terminalProfile
  · have hbrings : vault.brings env.kind env = none := by
      rw [UnlockedVault.brings, hopen, Option.bind_some, htable]
      rfl
    have hnone : t.row? env.kind env.id = none := by
      rw [htable]
      exact row?_terminalProfile _
    rw [if_pos (by rw [htable]; rfl)]
    refine ⟨t, _, rfl, ?_, fun kind id _ => ?_⟩
    · rw [hnone, hbrings]
      simp
    · rw [refersTo, hbrings]
      cases t.row? kind id <;> simp
  · rw [if_neg (by simpa [EntityKind.hasTable] using htable)]
    cases hrow : t.row? env.kind env.id with
    | none =>
      dsimp only
      cases hdeleted : env.deleted with
      | true =>
        refine ⟨t, _, rfl, ?_, fun kind id _ => ?_⟩
        · rw [hrow, hdeleted]
          rfl
        · rw [refersTo_of_not_takes (takes_of_deleted hdeleted)]
          cases t.row? kind id <;> simp
      | false => exact met_of_insert hkind hvault hopen (takes_of_none hdeleted hrow) hfine
    | some row =>
      dsimp only
      have hstays : resolve row.version env.version ≠ .takeRemote → t.takes env = false := by
        intro hne
        rw [← Bool.not_eq_true, takes_of_some hrow]
        exact fun h => hne h.2
      cases hresolve : resolve row.version env.version with
      | identical =>
        refine ⟨_, _, rfl, met_of_row (hstays (by rw [hresolve]; decide)) (fun row' hrow' => ?_) fun hnone => ?_⟩
        · rw [hrow] at hrow'
          cases hrow'
          rw [UnlockedVault.met, hresolve]
        · rw [hrow] at hnone
          cases hnone
      | keepLocal =>
        refine ⟨_, _, rfl, met_of_row (hstays (by rw [hresolve]; decide)) (fun row' hrow' => ?_) fun hnone => ?_⟩
        · rw [hrow] at hrow'
          cases hrow'
          rw [UnlockedVault.met, hresolve]
        · rw [hrow] at hnone
          cases hnone
      | takeRemote =>
        cases hdeleted : env.deleted with
        | true =>
          refine ⟨_, _, rfl, met_of_row (takes_of_deleted hdeleted) (fun row' hrow' => ?_) fun _ => hdeleted⟩
          rw [hrow] at hrow'
          cases hrow'
          simp only [UnlockedVault.met, hresolve, hdeleted, if_true]
        | false => exact met_of_insert hkind hvault hopen ((takes_of_some hrow).mpr ⟨hdeleted, hresolve⟩) hfine

end step

section plain

variable {s t u : Store} {vault : UnlockedVault} {all envelopes : List Envelope} {env : Envelope}

/-- The rows of all kinds but the host keys are what they are due, up to what this device counts for itself. -/
def DueRows (s : Store) (vault : UnlockedVault) (envelopes : List Envelope) (t : Store) : Prop :=
  ∀ kind id, kind ≠ .knownHost → (t.row? kind id).map Row.face = (s.due vault envelopes kind id).map Row.face

/-- A record that is not here and that another refers to is live and newer than a placeholder. -/
def NoGhosts (s : Store) (vault : UnlockedVault) (all : List Envelope) : Prop :=
  ∀ env ∈ all, s.row? env.kind env.id = none → ∀ other ∈ all, (env.kind, env.id) ∈ s.refersTo vault other →
    env.deleted = false ∧ env.updatedAt ≠ Hlc.zero

theorem find?_ofRecord_none (h : ∀ other ∈ envelopes, other.id ≠ env.id) :
    envelopes.find? (ofRecord env.kind env.id) = none := by
  rw [List.find?_eq_none]
  intro other hin
  simp [ofRecord, h other hin]

theorem find?_ofRecord_concat_self (h : ∀ other ∈ envelopes, other.id ≠ env.id) :
    (envelopes ++ [env]).find? (ofRecord env.kind env.id) = some env := by
  rw [List.find?_append, find?_ofRecord_none h, Option.none_or]
  simp [ofRecord]

theorem find?_ofRecord_concat_other {kind : EntityKind} {id : Uuid} (h : ¬ (kind = env.kind ∧ id = env.id)) :
    (envelopes ++ [env]).find? (ofRecord kind id) = envelopes.find? (ofRecord kind id) := by
  have hne : ofRecord kind id env = false := by
    rw [← Bool.not_eq_true]
    intro heq
    simp only [ofRecord, Bool.and_eq_true, decide_eq_true_eq] at heq
    exact h ⟨heq.1.symm, heq.2.symm⟩
  rw [List.find?_append, List.find?_singleton, hne]
  cases envelopes.find? (ofRecord kind id) <;> rfl

/-- What is due after one more envelope, for its own record. -/
theorem due_concat_self (h : ∀ other ∈ envelopes, other.id ≠ env.id) :
    s.due vault (envelopes ++ [env]) env.kind env.id = match s.row? env.kind env.id with
      | some row => some (vault.met env.kind row env)
      | none => if env.deleted then none else (vault.brings env.kind env).map (Row.brought env) := by
  rw [due, find?_ofRecord_concat_self h]
  cases s.row? env.kind env.id <;> rfl

/-- What was due of a record none of the envelopes was about. -/
theorem due_of_new (h : ∀ other ∈ envelopes, other.id ≠ env.id) :
    s.due vault envelopes env.kind env.id = match s.row? env.kind env.id with
      | some row => some row
      | none =>
        if (env.kind, env.id) ∈ envelopes.flatMap (s.refersTo vault) then
          (Cols.stub env.kind).map (Row.placeholder vault.vaultId)
        else none := by
  rw [due, find?_ofRecord_none h]
  cases s.row? env.kind env.id <;> rfl

theorem resolve_placeholder {version : Version} (hlive : version.deleted = false) (hclock : version.updatedAt ≠ Hlc.zero) :
    resolve ⟨Hlc.zero, false⟩ version = .takeRemote := by
  obtain ⟨clock, deleted⟩ := version
  obtain rfl : deleted = false := hlive
  have hne : (⟨Hlc.zero, false⟩ : Version) ≠ ⟨clock, false⟩ := by
    intro heq
    cases heq
    exact hclock rfl
  rw [resolve, if_neg hne]
  exact if_neg (not_lt.mpr (Hlc.zero_le clock))

/-- A row that stands in the place of what is due meets an envelope as it does. -/
theorem met_face {kind : EntityKind} {row row' : Row (Cols kind)} (h : row.face = row'.face) (env : Envelope) :
    (vault.met kind row env).face = (vault.met kind row' env).face := by
  have hversion := Row.version_eq_of_face h
  obtain ⟨hclock, hdeleted, hdirty, hseq, hcols⟩ := Row.face_eq_iff.mp h
  rw [UnlockedVault.met, UnlockedVault.met, hversion]
  cases resolve row'.version env.version with
  | identical => exact Row.face_eq_iff.mpr ⟨hclock, hdeleted, rfl, rfl, hcols⟩
  | keepLocal => exact Row.face_eq_iff.mpr ⟨hclock, hdeleted, hdirty, rfl, hcols⟩
  | takeRemote =>
    dsimp only
    split_ifs
    · exact Row.face_eq_iff.mpr ⟨rfl, rfl, rfl, rfl, by rw [hcols]⟩
    · cases vault.brings kind env with
      | none => exact h
      | some cols => exact Row.face_eq_iff.mpr ⟨rfl, rfl, rfl, rfl, by rw [hcols]⟩

/-- Over a placeholder an envelope leaves what it brings. -/
theorem keepLocal_stub {kind : EntityKind} {stub cols : Cols kind} {env : Envelope} (hstub : Cols.stub kind = some stub)
    (hbrings : vault.brings kind env = some cols) : Cols.keepLocal kind stub cols = cols := by
  cases kind <;> try rfl
  · cases hstub
  · cases hstub
    obtain ⟨plain, -, hplain⟩ := Option.bind_eq_some_iff.mp hbrings
    change Cols.ofPlain .identity plain = some cols at hplain
    cases plain with
    | bytes => cases hplain
    | json payload =>
      cases payload <;> cases hplain
      rfl
  · cases hstub

/-- What the store an envelope comes to has of its record. -/
theorem takes_of_due (hinv : DueRows s vault envelopes t) (hghosts : NoGhosts s vault all)
    (hsub : ∀ other ∈ envelopes, other ∈ all) (henv : env ∈ all) (hnew : ∀ other ∈ envelopes, other.id ≠ env.id)
    (hkind : env.kind ≠ .knownHost) : t.takes env = s.takes env := by
  have hrow := hinv env.kind env.id hkind
  rw [due_of_new hnew] at hrow
  cases hdeleted : env.deleted with
  | true => rw [takes_of_deleted hdeleted, takes_of_deleted hdeleted]
  | false =>
    cases hs : s.row? env.kind env.id with
    | some row =>
      rw [hs] at hrow
      obtain ⟨row', ht, hface⟩ := Option.map_eq_some_iff.mp hrow
      rw [Bool.eq_iff_iff, takes_of_some ht, takes_of_some hs, Row.version_eq_of_face hface]
    | none =>
      rw [takes_of_none hdeleted hs]
      rw [hs] at hrow
      cases ht : t.row? env.kind env.id with
      | none => exact takes_of_none hdeleted ht
      | some row' =>
        rw [ht] at hrow
        dsimp only at hrow
        split_ifs at hrow with hreferred
        · obtain ⟨other, hother, hin⟩ := List.mem_flatMap.mp hreferred
          obtain ⟨-, hclock⟩ := hghosts env henv hs other (hsub other hother) hin
          obtain ⟨placeholder, hplaceholder, hface⟩ := Option.map_eq_some_iff.mp hrow.symm
          obtain ⟨cols, -, rfl⟩ := Option.map_eq_some_iff.mp hplaceholder
          rw [takes_of_some ht, ← Row.version_eq_of_face hface]
          exact ⟨hdeleted, resolve_placeholder hdeleted hclock⟩
        · cases hrow

/-- Over a placeholder an envelope leaves the row of a record that is new here. -/
theorem brought_over_placeholder {row : Row (Cols env.kind)} {stub : Cols env.kind}
    (hstub : Cols.stub env.kind = some stub) (hface : row.face = (Row.placeholder vault.vaultId stub).face)
    (hlive : env.deleted = false) (hclock : env.updatedAt ≠ Hlc.zero) (hfine : ¬ s.Fails vault env)
    (htakes : s.takes env = true) :
    (some (vault.met env.kind row env)).map Row.face =
      (if env.deleted then none else (vault.brings env.kind env).map (Row.brought env)).map Row.face := by
  have hresolve : resolve row.version env.version = .takeRemote := by
    rw [Row.version_eq_of_face hface]
    exact resolve_placeholder hlive hclock
  obtain ⟨-, -, -, -, hcols⟩ := Row.face_eq_iff.mp hface
  cases hbrings : vault.brings env.kind env with
  | none =>
    have hsome : (Cols.stub env.kind).isSome = true := by
      rw [hstub]
      rfl
    refine absurd ⟨htakes, hbrings, ?_, ?_⟩ hfine <;>
    · intro heq
      rw [heq] at hsome
      cases hsome
  | some cols =>
    have hkept : Cols.keepLocal env.kind row.cols cols = cols := by
      rw [hcols]
      exact keepLocal_stub hstub hbrings
    simp only [UnlockedVault.met, hresolve, hlive, hbrings, Bool.false_eq_true, if_false, Option.map_some, hkept]
    rfl

/-- No placeholder is made for a record whose envelope left no row. -/
theorem stub_none_of_applied {kind : EntityKind} {id : Uuid} {found : Envelope} (hghosts : NoGhosts s vault all)
    (hfine : ∀ other ∈ all, ¬ s.Fails vault other) (hfound : found ∈ all) (henv : env ∈ all)
    (hof : ofRecord kind id found = true) (hs : s.row? kind id = none)
    (hreferred : (kind, id) ∈ s.refersTo vault env)
    (hnone : (if found.deleted then none else (vault.brings kind found).map (Row.brought found)) = none) :
    (Cols.stub kind).map (Row.placeholder vault.vaultId) = none := by
  simp only [ofRecord, Bool.and_eq_true, decide_eq_true_eq] at hof
  obtain ⟨rfl, rfl⟩ := hof
  obtain ⟨hlive, -⟩ := hghosts found hfound hs env henv hreferred
  rw [hlive] at hnone
  have hbrings : vault.brings found.kind found = none := Option.map_eq_none_iff.mp hnone
  rw [Option.map_eq_none_iff]
  by_contra hstub
  refine hfine found hfound ⟨takes_of_none hlive hs, hbrings, ?_, ?_⟩ <;>
  · intro heq
    rw [heq] at hstub
    exact hstub rfl

/-- One more envelope of a kind but the host keys': its record has what it is due, and so have all the others. -/
theorem DueRows.met (hinv : DueRows s vault envelopes t) (hghosts : NoGhosts s vault all)
    (hsub : ∀ other ∈ envelopes, other ∈ all) (henv : env ∈ all) (hnew : ∀ other ∈ envelopes, other.id ≠ env.id)
    (hfine : ∀ other ∈ all, ¬ s.Fails vault other) (hkind : env.kind ≠ .knownHost) (hmet : Received vault env t u) :
    DueRows s vault (envelopes ++ [env]) u := by
  have htakes := takes_of_due hinv hghosts hsub henv hnew hkind
  have hrefers : t.refersTo vault env = s.refersTo vault env := by rw [refersTo, htakes, refersTo]
  intro kind id hother
  by_cases hself : kind = env.kind ∧ id = env.id
  · obtain ⟨rfl, rfl⟩ := hself
    have hrow := hinv env.kind env.id hkind
    rw [due_of_new hnew] at hrow
    rw [hmet.own, due_concat_self hnew]
    cases hs : s.row? env.kind env.id with
    | some row =>
      rw [hs] at hrow
      obtain ⟨row', ht, hface⟩ := Option.map_eq_some_iff.mp hrow
      rw [ht]
      exact congrArg some (met_face hface env)
    | none =>
      rw [hs] at hrow
      dsimp only at hrow ⊢
      split_ifs at hrow with hreferred
      · obtain ⟨other, hin, href⟩ := List.mem_flatMap.mp hreferred
        obtain ⟨hlive, hclock⟩ := hghosts env henv hs other (hsub other hin) href
        cases ht : t.row? env.kind env.id with
        | none => rfl
        | some row' =>
          rw [ht] at hrow
          obtain ⟨placeholder, hplaceholder, hface⟩ := Option.map_eq_some_iff.mp hrow.symm
          obtain ⟨stub, hstub, rfl⟩ := Option.map_eq_some_iff.mp hplaceholder
          exact brought_over_placeholder hstub hface.symm hlive hclock (hfine env henv) (takes_of_none hlive hs)
      · rw [Option.map_none, Option.map_eq_none_iff] at hrow
        rw [hrow]
  · rw [hmet.others kind id hself, hrefers]
    have hrow := hinv kind id hother
    rw [due] at hrow ⊢
    rw [find?_ofRecord_concat_other hself, List.flatMap_append, List.flatMap_singleton]
    cases hs : s.row? kind id with
    | some row =>
      rw [hs] at hrow
      cases hfound : envelopes.find? (ofRecord kind id) <;>
      · rw [hfound] at hrow
        obtain ⟨row', ht, hface⟩ := Option.map_eq_some_iff.mp hrow
        rw [ht]
        exact congrArg some hface
    | none =>
      rw [hs] at hrow
      cases hfound : envelopes.find? (ofRecord kind id) with
      | some found =>
        rw [hfound] at hrow
        dsimp only at hrow ⊢
        rw [← hrow]
        cases ht : t.row? kind id with
        | some row' => rfl
        | none =>
          rw [ht] at hrow
          -- a placeholder here would stand for a record that has been applied
          have hnone : (if (kind, id) ∈ s.refersTo vault env then
              (Cols.stub kind).map (Row.placeholder vault.vaultId) else none) = none := by
            split_ifs with hreferred
            · exact stub_none_of_applied hghosts hfine (hsub found (List.mem_of_find?_eq_some hfound)) henv
                (List.find?_some hfound) hs hreferred (Option.map_eq_none_iff.mp hrow.symm)
            · rfl
          dsimp only
          rw [hnone]
      | none =>
        rw [hfound] at hrow
        dsimp only at hrow ⊢
        simp only [List.mem_append]
        by_cases hreferred : (kind, id) ∈ envelopes.flatMap (s.refersTo vault)
        · have heither : (kind, id) ∈ envelopes.flatMap (s.refersTo vault) ∨ (kind, id) ∈ s.refersTo vault env :=
            .inl hreferred
          rw [if_pos hreferred] at hrow
          rw [if_pos heither, ← hrow]
          cases ht : t.row? kind id with
          | some row' => rfl
          | none =>
            rw [ht, Option.map_none, eq_comm, Option.map_eq_none_iff, Option.map_eq_none_iff] at hrow
            rw [hrow]
            simp
        · rw [if_neg hreferred, Option.map_none, Option.map_eq_none_iff] at hrow
          rw [hrow]
          simp only [hreferred, false_or]

end plain

end Store

end UwuSsh

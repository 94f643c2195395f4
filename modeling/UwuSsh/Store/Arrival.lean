import UwuSsh.Store.Due

/-!
Pages of records from the server, in whatever order they come. A host key contests its address and port with the
rows and the records of other ids: the highest clock holds the place. So as long as the contestants stay apart, what
a set of records leaves does not depend on the order they are applied in or on the pages they come in.
-/
namespace UwuSsh

namespace Store

section key

variable {t u : Store} {vault : UnlockedVault} {env : Envelope} {thisDevice : UInt32} {cols : KnownHostCols}

/-- What an envelope of a host key does to a store. -/
inductive KeyStep (vault : UnlockedVault) (thisDevice : UInt32) (env : Envelope) (t : Store) : Store → Prop
  | passed (hnone : t.row? .knownHost env.id = none) (hdeleted : env.deleted = true) : KeyStep vault thisDevice env t t
  | headed {row : Row (Cols .knownHost)} (hrow : t.row? .knownHost env.id = some row)
      (hstays : env.deleted = true ∨ resolve row.version env.version ≠ .takeRemote) :
      KeyStep vault thisDevice env t (t.putRow .knownHost env.id (vault.met .knownHost row env))
  | claimed {cols : KnownHostCols} (hbrings : vault.brings .knownHost env = some cols) (hlive : env.deleted = false)
      (hnewer : ∀ row, t.row? .knownHost env.id = some row → resolve row.version env.version = .takeRemote) :
      KeyStep vault thisDevice env t (t.applyKnownHost env cols thisDevice).1

theorem applyOne_key (hkind : env.kind = .knownHost) (hauthentic : vault.Authentic env)
    (hread : env.deleted = false → ∃ cols, vault.brings .knownHost env = some cols) :
    ∃ u r, t.applyOne vault env thisDevice = .ok (u, r) ∧ KeyStep vault thisDevice env t u := by
  obtain ⟨hvault, hopens⟩ := hauthentic
  obtain ⟨plain, hopen⟩ := Option.isSome_iff_exists.mp hopens
  obtain ⟨id, vaultId, kind, clock, baseSeq, deleted, nonce, blob, seq⟩ := env
  obtain rfl : kind = .knownHost := hkind
  unfold applyOne
  rw [if_neg (not_not.mpr hvault), if_neg (by simp [EntityKind.hasTable]), hopen]
  dsimp only
  have hinsert : deleted = false → ∃ cols,
      vault.brings .knownHost ⟨id, vaultId, .knownHost, clock, baseSeq, deleted, nonce, blob, seq⟩ = some cols ∧
        t.insertRecord vault ⟨id, vaultId, .knownHost, clock, baseSeq, deleted, nonce, blob, seq⟩ plain thisDevice =
          .ok (t.applyKnownHost ⟨id, vaultId, .knownHost, clock, baseSeq, deleted, nonce, blob, seq⟩ cols
            thisDevice) := by
    intro hlive
    obtain ⟨cols, hbrings⟩ := hread hlive
    have hplain := hbrings
    rw [UnlockedVault.brings, hopen, Option.bind_some] at hplain
    change Cols.ofPlain .knownHost plain = some cols at hplain
    refine ⟨cols, hbrings, ?_⟩
    unfold insertRecord
    dsimp only
    rw [hplain]
  cases hrow : t.row? .knownHost id with
  | none =>
    cases deleted with
    | true => exact ⟨t, _, rfl, .passed hrow rfl⟩
    | false =>
      obtain ⟨cols, hbrings, hrun⟩ := hinsert rfl
      refine ⟨_, _, hrun, .claimed hbrings rfl fun row hsome => ?_⟩
      rw [hrow] at hsome
      cases hsome
  | some row =>
    dsimp only
    have hput : ∀ f : Row (Cols .knownHost) → Row (Cols .knownHost),
        t.updateRow .knownHost id f = t.putRow .knownHost id (f row) := fun f => updateRow_of_some t f hrow
    have hmet := UnlockedVault.met.eq_def vault .knownHost row
      ⟨id, vaultId, .knownHost, clock, baseSeq, deleted, nonce, blob, seq⟩
    cases hresolve : resolve row.version
        (Envelope.version ⟨id, vaultId, .knownHost, clock, baseSeq, deleted, nonce, blob, seq⟩) with
    | identical =>
      rw [hresolve] at hmet
      refine ⟨_, _, rfl, ?_⟩
      rw [hput]
      dsimp only at hmet ⊢
      rw [← hmet]
      exact .headed hrow (.inr (by rw [hresolve]; decide))
    | keepLocal =>
      rw [hresolve] at hmet
      refine ⟨_, _, rfl, ?_⟩
      rw [hput]
      dsimp only at hmet ⊢
      rw [← hmet]
      exact .headed hrow (.inr (by rw [hresolve]; decide))
    | takeRemote =>
      rw [hresolve] at hmet
      cases deleted with
      | true =>
        refine ⟨_, _, rfl, ?_⟩
        rw [tombstoneRecord, hput]
        dsimp only at hmet ⊢
        rw [if_pos rfl] at hmet
        rw [← hmet]
        exact .headed hrow (.inl rfl)
      | false =>
        obtain ⟨cols, hbrings, hrun⟩ := hinsert rfl
        refine ⟨_, _, hrun, .claimed hbrings rfl fun row' hrow' => ?_⟩
        rw [hrow] at hrow'
        cases hrow'
        exact hresolve

/-- A host key is kept out by a newer one, or takes the place of everyone else. -/
theorem applyKnownHost_cases (hone : t.OneRow)
    (hu : u = (t.applyKnownHost env cols thisDevice).1) :
    (∃ id rival, id ≠ env.id ∧ t.row? .knownHost id = some rival ∧ KnownHostCols.slot rival.cols = cols.slot ∧
      env.updatedAt < rival.updatedAt ∧ ∀ kind id, u.row? kind id = t.row? kind id) ∨
    ((∀ id row, id ≠ env.id → t.row? .knownHost id = some row → KnownHostCols.slot row.cols = cols.slot →
        row.updatedAt ≤ env.updatedAt) ∧
      (∃ new, u.row? .knownHost env.id = some new ∧ new.face = (Row.brought env cols : Row (Cols .knownHost)).face) ∧
      (∀ id row, id ≠ env.id → (u.row? .knownHost id = some row ↔
        t.row? .knownHost id = some row ∧ KnownHostCols.slot row.cols ≠ cols.slot)) ∧
      ∀ kind id, kind ≠ .knownHost → u.row? kind id = t.row? kind id) := by
  have hwritten : ∀ v : Store, ∃ new, (v.upsertRecord .knownHost env cols).row? .knownHost env.id = some new ∧
      new.face = (Row.brought env cols : Row (Cols .knownHost)).face := by
    intro v
    refine ⟨_, row?_upsertRecord .knownHost env cols, ?_⟩
    cases v.row? .knownHost env.id with
    | none => rfl
    | some row => exact Row.face_eq_iff.mpr ⟨rfl, rfl, rfl, rfl, rfl⟩
  unfold applyKnownHost at hu
  cases hrival : t.rivalOf env.id cols.address cols.port with
  | none =>
    rw [hrival] at hu
    subst hu
    have hfree : ∀ id row, id ≠ env.id → t.row? .knownHost id = some row → KnownHostCols.slot row.cols ≠ cols.slot :=
      fun id row hne hrow => rivalOf_none hrival hrow hne
    refine .inr ⟨fun id row hne hrow hslot => absurd hslot (hfree id row hne hrow), hwritten t, fun id row hne => ?_,
      fun kind id hkind => t.row?_upsertRecord_of_pair_ne _ _ _ fun h => hkind h.1⟩
    rw [t.row?_upsertRecord_of_pair_ne .knownHost env cols fun h => hne h.2]
    exact ⟨fun hrow => ⟨hrow, hfree id row hne hrow⟩, And.left⟩
  | some found =>
    obtain ⟨rivalId, rival⟩ := found
    rw [hrival] at hu
    dsimp only at hu
    obtain ⟨hrow, haddress, hport, hne⟩ := rivalOf_spec hrival
    have hslot : KnownHostCols.slot rival.cols = cols.slot := Prod.ext haddress hport
    by_cases hlt : env.updatedAt < rival.updatedAt
    · rw [if_pos hlt] at hu
      subst hu
      exact .inl ⟨rivalId, rival, hne, hrow, hslot, hlt, fun kind id => t.row?_supersede _ _ _ kind id⟩
    · rw [if_neg hlt] at hu
      subst hu
      refine .inr ⟨fun id row _ hin hsame => ?_, hwritten _, fun id row hid => ?_, fun kind id hkind => ?_⟩
      · obtain rfl := hone id row rivalId rival hin hrow (hsame.trans hslot.symm)
        rw [hrow] at hin
        cases hin
        exact not_lt.mp hlt
      · rw [row?_upsertRecord_of_pair_ne _ .knownHost env cols fun h => hid h.2]
        by_cases hrid : id = rivalId
        · subst hrid
          rw [row?_dropRow_self]
          constructor
          · intro hnone
            cases hnone
          · intro ⟨hin, hother⟩
            rw [hrow] at hin
            cases hin
            exact absurd hslot hother
        · rw [row?_dropRow_of_ne _ hrid, row?_supersede]
          refine ⟨fun hin => ⟨hin, fun hsame => hrid ?_⟩, And.left⟩
          exact hone id row rivalId rival hin hrow (hsame.trans hslot.symm)
      · refine (row?_upsertRecord_of_pair_ne _ .knownHost env cols fun h => hkind h.1).trans ?_
        rw [row?_dropRow_of_kind_ne _ hkind, row?_supersede]

end key

section contest

variable (s : Store) (vault : UnlockedVault)

/-- A host key of another id does not come between a row and what becomes of it. -/
structure Clear (env : Envelope) (row : Row (Cols .knownHost)) (other : Envelope) : Prop where
  apart : env.updatedAt ≠ (vault.met .knownHost row other).updatedAt
  gone : (vault.met .knownHost row other).deleted = true →
    (env.updatedAt < row.updatedAt ↔ env.updatedAt < (vault.met .knownHost row other).updatedAt)
  buried : row.deleted = true → other.deleted = false → row.updatedAt < env.updatedAt →
    other.updatedAt < env.updatedAt

/-- The host keys among the records keep apart. A record stays at its address and port; no two contestants have one
clock; and no contestant comes between a row and its tombstone. -/
structure KeysApart (all : List Envelope) : Prop where
  one : s.OneRow
  stays : ∀ env ∈ all, env.kind = .knownHost → env.deleted = false → ∃ cols, vault.brings .knownHost env = some cols ∧
    ∀ row, s.row? .knownHost env.id = some row → KnownHostCols.slot row.cols = KnownHostCols.slot cols
  records : ∀ env ∈ all, ∀ other ∈ all, env.kind = .knownHost → other.kind = .knownHost → env.deleted = false →
    other.deleted = false → env.id ≠ other.id → ∀ cols cols', vault.brings .knownHost env = some cols →
      vault.brings .knownHost other = some cols' → KnownHostCols.slot cols = KnownHostCols.slot cols' →
        env.updatedAt ≠ other.updatedAt
  rows : ∀ env ∈ all, env.kind = .knownHost → env.deleted = false → ∀ cols, vault.brings .knownHost env = some cols →
    ∀ id row, id ≠ env.id → s.row? .knownHost id = some row → KnownHostCols.slot row.cols = KnownHostCols.slot cols →
      env.updatedAt ≠ row.updatedAt ∧
        ∀ other ∈ all, other.kind = .knownHost → other.id = id → Clear vault env row other

/-- The address and port a row has, and its clock. -/
def claimOf (row : Row (Cols .knownHost)) : Slot × Hlc := (KnownHostCols.slot row.cols, row.updatedAt)

/-- The host keys of a store are the highest of those that are due. -/
structure KeysDue (envelopes : List Envelope) (t : Store) : Prop where
  settled : Contest.Settled (fun id => (s.due vault envelopes .knownHost id).map claimOf)
    (fun id => (t.row? .knownHost id).map claimOf)
  face : ∀ id row, t.row? .knownHost id = some row →
    ∃ row', s.due vault envelopes .knownHost id = some row' ∧ row.face = row'.face

end contest

section contested

variable {s t u : Store} {vault : UnlockedVault} {all envelopes : List Envelope} {env : Envelope}
  {thisDevice : UInt32}

theorem claimOf_of_face {row row' : Row (Cols .knownHost)} (h : row.face = row'.face) : claimOf row = claimOf row' := by
  obtain ⟨hclock, -, -, -, hcols⟩ := Row.face_eq_iff.mp h
  rw [claimOf, claimOf, hclock, hcols]

theorem due_knownHost (id : Uuid) : s.due vault envelopes .knownHost id =
    match s.row? .knownHost id, envelopes.find? (ofRecord .knownHost id) with
    | some row, none => some row
    | some row, some env => some (vault.met .knownHost row env)
    | none, some env => if env.deleted then none else (vault.brings .knownHost env).map (Row.brought env)
    | none, none => none := by
  rw [due]
  cases s.row? .knownHost id <;> cases envelopes.find? (ofRecord .knownHost id)
  · dsimp only
    split_ifs <;> rfl
  all_goals rfl

/-- A record stays at its address and port. -/
theorem slot_met {row : Row (Cols .knownHost)} (hstays : env.deleted = false → ∃ cols,
    vault.brings .knownHost env = some cols ∧ KnownHostCols.slot row.cols = KnownHostCols.slot cols) :
    KnownHostCols.slot (vault.met .knownHost row env).cols = KnownHostCols.slot row.cols := by
  rw [UnlockedVault.met]
  cases resolve row.version env.version with
  | identical => rfl
  | keepLocal => rfl
  | takeRemote =>
    cases hdeleted : env.deleted with
    | true => rfl
    | false =>
      obtain ⟨cols, hbrings, hslot⟩ := hstays hdeleted
      rw [hbrings]
      exact hslot.symm

/-- Where what a host key is due comes from. -/
theorem due_source (hapart : KeysApart s vault all) (hsub : ∀ other ∈ envelopes, other ∈ all) {id : Uuid}
    {row : Row (Cols .knownHost)} (hdue : s.due vault envelopes .knownHost id = some row) :
    (∃ old, s.row? .knownHost id = some old ∧ KnownHostCols.slot old.cols = KnownHostCols.slot row.cols ∧
      (row = old ∨ ∃ env ∈ envelopes, env.kind = .knownHost ∧ env.id = id ∧ row = vault.met .knownHost old env)) ∨
    (s.row? .knownHost id = none ∧ ∃ env ∈ envelopes, env.kind = .knownHost ∧ env.id = id ∧ env.deleted = false ∧
      ∃ cols, vault.brings .knownHost env = some cols ∧ row = Row.brought env cols) := by
  rw [due_knownHost] at hdue
  cases hs : s.row? .knownHost id with
  | some old =>
    left
    rw [hs] at hdue
    cases hfound : envelopes.find? (ofRecord .knownHost id) with
    | none =>
      rw [hfound] at hdue
      cases hdue
      exact ⟨_, rfl, rfl, .inl rfl⟩
    | some env =>
      rw [hfound] at hdue
      cases hdue
      have hin := List.mem_of_find?_eq_some hfound
      have hof := List.find?_some hfound
      simp only [ofRecord, Bool.and_eq_true, decide_eq_true_eq] at hof
      obtain ⟨hkind, rfl⟩ := hof
      refine ⟨old, rfl, (slot_met fun hlive => ?_).symm, .inr ⟨env, hin, hkind, rfl, rfl⟩⟩
      obtain ⟨cols, hbrings, hslot⟩ := hapart.stays env (hsub env hin) hkind hlive
      exact ⟨cols, hbrings, hslot old hs⟩
  | none =>
    right
    rw [hs] at hdue
    cases hfound : envelopes.find? (ofRecord .knownHost id) with
    | none =>
      rw [hfound] at hdue
      cases hdue
    | some env =>
      rw [hfound] at hdue
      have hin := List.mem_of_find?_eq_some hfound
      have hof := List.find?_some hfound
      simp only [ofRecord, Bool.and_eq_true, decide_eq_true_eq] at hof
      obtain ⟨hkind, rfl⟩ := hof
      dsimp only at hdue
      split_ifs at hdue with hdeleted
      obtain ⟨cols, hbrings, rfl⟩ := Option.map_eq_some_iff.mp hdue
      exact ⟨rfl, env, hin, hkind, rfl, by simpa using hdeleted, cols, hbrings, rfl⟩

/-- What was due of a host key none of the envelopes was about is what was here. -/
theorem due_key_of_new (hkind : env.kind = .knownHost) (hnew : ∀ other ∈ envelopes, other.id ≠ env.id) :
    s.due vault envelopes .knownHost env.id = s.row? .knownHost env.id := by
  have hfound := find?_ofRecord_none hnew
  rw [hkind] at hfound
  rw [due_knownHost, hfound]
  cases s.row? .knownHost env.id <;> rfl

theorem due_key_self (hkind : env.kind = .knownHost) (hnew : ∀ other ∈ envelopes, other.id ≠ env.id) :
    s.due vault (envelopes ++ [env]) .knownHost env.id = match s.row? .knownHost env.id with
      | some row => some (vault.met .knownHost row env)
      | none => if env.deleted then none else (vault.brings .knownHost env).map (Row.brought env) := by
  have hfound := find?_ofRecord_concat_self hnew
  rw [hkind] at hfound
  rw [due_knownHost, hfound]
  cases s.row? .knownHost env.id <;> rfl

theorem due_key_other {id : Uuid} (hne : id ≠ env.id) :
    s.due vault (envelopes ++ [env]) .knownHost id = s.due vault envelopes .knownHost id := by
  have hfound : (envelopes ++ [env]).find? (ofRecord .knownHost id) = envelopes.find? (ofRecord .knownHost id) :=
    find?_ofRecord_concat_other fun h => hne h.2
  rw [due_knownHost, due_knownHost, hfound]

/-- A contestant of a row that is here is a record that came. -/
theorem contestant_source (hapart : KeysApart s vault all) (hsub : ∀ other ∈ envelopes, other ∈ all) {id rivalId : Uuid}
    {row rival : Row (Cols .knownHost)} (hs : s.row? .knownHost id = some row)
    (hdue : s.due vault envelopes .knownHost rivalId = some rival) (hne : rivalId ≠ id)
    (hslot : KnownHostCols.slot rival.cols = KnownHostCols.slot row.cols) :
    ∃ other ∈ all, other.updatedAt = rival.updatedAt ∧ other.updatedAt ≠ row.updatedAt ∧
      ∀ env ∈ all, env.kind = .knownHost → env.id = id → Clear vault other row env := by
  rcases due_source hapart hsub hdue with ⟨old, hold, hsame, -⟩ | ⟨-, other, hother, hkind, rfl, hlive, cols, hbrings, rfl⟩
  · exact absurd (hapart.one _ _ _ _ hold hs (hsame.trans hslot)) hne
  · obtain ⟨happart, hclear⟩ := hapart.rows other (hsub other hother) hkind hlive cols hbrings id row hne.symm hs hslot.symm
    exact ⟨other, hsub other hother, rfl, happart, hclear⟩

theorem clock_met (row : Row (Cols .knownHost)) (env : Envelope) :
    (vault.met .knownHost row env).updatedAt = row.updatedAt ∨
      (vault.met .knownHost row env).updatedAt = env.updatedAt := by
  rw [UnlockedVault.met]
  cases resolve row.version env.version with
  | identical => exact .inl rfl
  | keepLocal => exact .inl rfl
  | takeRemote =>
    dsimp only
    split_ifs
    · exact .inr rfl
    · cases vault.brings .knownHost env with
      | none => exact .inl rfl
      | some cols => exact .inr rfl

/-- A tombstone leaves a tombstone. -/
theorem deleted_met {row : Row (Cols .knownHost)} (hdeleted : env.deleted = true) :
    (vault.met .knownHost row env).deleted = true := by
  rw [UnlockedVault.met]
  cases hresolve : resolve row.version env.version with
  | identical =>
    have hsame := resolve_eq_identical_iff.mp hresolve
    exact (congrArg Version.deleted hsame).trans hdeleted
  | keepLocal =>
    have hlt := Version.lt_iff.mp (resolve_eq_keepLocal_iff.mp hresolve)
    rcases hlt with hlt | ⟨hsame, -⟩
    · have htrue : env.version.deleted = true := hdeleted
      rw [htrue] at hlt
      exact absurd hlt (by simp)
    · exact hsame.symm.trans hdeleted
  | takeRemote =>
    dsimp only
    rw [if_pos hdeleted]

/-- A contestant that is newer than a row is newer than the tombstone it becomes. -/
theorem Clear.met_lt {other : Envelope} {row : Row (Cols .knownHost)} (h : Clear vault other row env)
    (hlt : row.updatedAt < other.updatedAt) (hdeleted : env.deleted = true) :
    (vault.met .knownHost row env).updatedAt < other.updatedAt := by
  have hnot : ¬ other.updatedAt < (vault.met .knownHost row env).updatedAt :=
    fun hgt => lt_asymm hlt ((h.gone (deleted_met hdeleted)).mpr hgt)
  exact lt_of_le_of_ne (not_lt.mp hnot) h.apart.symm

/-- A contestant that is older than a row is older than what the row becomes while it is not written. -/
theorem Clear.lt_met {other : Envelope} {row : Row (Cols .knownHost)} (h : Clear vault other row env)
    (hlt : other.updatedAt < row.updatedAt)
    (hstays : env.deleted = true ∨ resolve row.version env.version ≠ .takeRemote) :
    other.updatedAt < (vault.met .knownHost row env).updatedAt := by
  cases hdeleted : env.deleted with
  | true => exact (h.gone (deleted_met hdeleted)).mp hlt
  | false =>
    have hne := hstays.resolve_left (by rw [hdeleted]; exact Bool.false_ne_true)
    rw [UnlockedVault.met]
    cases hresolve : resolve row.version env.version with
    | identical => exact hlt
    | keepLocal => exact hlt
    | takeRemote => exact absurd hresolve hne

/-- A live record that takes over a row leaves the row it brings. -/
theorem met_of_takeRemote {row : Row (Cols .knownHost)} {cols : KnownHostCols} (hlive : env.deleted = false)
    (hbrings : vault.brings .knownHost env = some cols) (hresolve : resolve row.version env.version = .takeRemote) :
    (vault.met .knownHost row env).face = (Row.brought env cols : Row (Cols .knownHost)).face := by
  rw [UnlockedVault.met, hresolve]
  dsimp only
  rw [if_neg (by rw [hlive]; exact Bool.false_ne_true), hbrings]
  exact Row.face_eq_iff.mpr ⟨rfl, rfl, rfl, rfl, rfl⟩

/-- So does a live record that is newer than the contestant who had taken the row's place. -/
theorem Clear.met_brought {other : Envelope} {row : Row (Cols .knownHost)} {cols : KnownHostCols}
    (h : Clear vault other row env) (hlt : row.updatedAt < other.updatedAt) (hle : other.updatedAt ≤ env.updatedAt)
    (hlive : env.deleted = false) (hbrings : vault.brings .knownHost env = some cols) :
    (vault.met .knownHost row env).face = (Row.brought env cols : Row (Cols .knownHost)).face := by
  refine met_of_takeRemote hlive hbrings (resolve_eq_takeRemote_iff.mpr (Version.lt_iff.mpr (.inr ⟨?_, hlt.trans_le hle⟩)))
  cases hdeleted : row.deleted with
  | true => exact absurd (h.buried hdeleted hlive hlt) (not_lt.mpr hle)
  | false => exact hdeleted.trans hlive.symm

/-! ### One more host key -/

theorem claim_of_row {row : Row (Cols .knownHost)} {found : Option (Row (Cols .knownHost))} (h : found = some row) :
    found.map claimOf = some (KnownHostCols.slot row.cols, row.updatedAt) := by
  rw [h]
  rfl

/-- Who else claims the place of a row that is here comes before its envelope or after it. -/
theorem contestant_of_claim (hapart : KeysApart s vault all) (hsub : ∀ other ∈ envelopes, other ∈ all) (henv : env ∈ all)
    (hkind : env.kind = .knownHost) {row : Row (Cols .knownHost)} (hs : s.row? .knownHost env.id = some row) {id : Uuid}
    {clock : Hlc} (hne : id ≠ env.id)
    (hclaim : (s.due vault envelopes .knownHost id).map claimOf = some (KnownHostCols.slot row.cols, clock)) :
    ∃ other : Envelope, other.updatedAt = clock ∧ clock ≠ row.updatedAt ∧ Clear vault other row env := by
  obtain ⟨rival, hdue, hrival⟩ := Option.map_eq_some_iff.mp hclaim
  obtain ⟨hslot, hclock⟩ := Prod.mk.inj hrival
  obtain ⟨other, -, hsame, hother, hclear⟩ := contestant_source hapart hsub hs hdue hne hslot
  rw [hclock] at hsame
  exact ⟨other, hsame, hsame ▸ hother, hclear env henv hkind rfl⟩

theorem due_claim_other (id : Uuid) (hne : id ≠ env.id) :
    (s.due vault (envelopes ++ [env]) .knownHost id).map claimOf =
      (s.due vault envelopes .knownHost id).map claimOf := by rw [due_key_other hne]

namespace KeysDue

variable (h : KeysDue s vault envelopes t)

include h

theorem oneRow : t.OneRow := by
  intro id row id' row' hrow hrow' hslot
  have hheld := claim_of_row hrow
  have hheld' := claim_of_row hrow'
  rw [← hslot] at hheld'
  exact h.settled.one hheld hheld'

variable (hnew : ∀ other ∈ envelopes, other.id ≠ env.id) (hkind : env.kind = .knownHost)

include hnew hkind

theorem here {row : Row (Cols .knownHost)} (hrow : t.row? .knownHost env.id = some row) :
    ∃ row', s.row? .knownHost env.id = some row' ∧ row.face = row'.face := by
  obtain ⟨row', hdue, hface⟩ := h.face env.id row hrow
  rw [due_key_of_new hkind hnew] at hdue
  exact ⟨row', hdue, hface⟩

/-- A row that is here and has lost its place has lost it to a newer one. -/
theorem lost (hapart : KeysApart s vault all) (hsub : ∀ other ∈ envelopes, other ∈ all) (henv : env ∈ all)
    {row : Row (Cols .knownHost)} (hs : s.row? .knownHost env.id = some row)
    (hnone : t.row? .knownHost env.id = none) : ∃ id rival, id ≠ env.id ∧ t.row? .knownHost id = some rival ∧
      KnownHostCols.slot rival.cols = KnownHostCols.slot row.cols ∧ row.updatedAt < rival.updatedAt ∧
      ∃ other : Envelope, other.updatedAt = rival.updatedAt ∧ Clear vault other row env := by
  have hdue : s.due vault envelopes .knownHost env.id = s.row? .knownHost env.id := due_key_of_new hkind hnew
  have hclaim := claim_of_row (hdue.trans hs)
  obtain ⟨id, clock, hheld, hle⟩ := h.settled.beaten hclaim
  obtain ⟨rival, hrow, hrival⟩ := Option.map_eq_some_iff.mp hheld
  have hne : id ≠ env.id := by
    rintro rfl
    rw [hnone] at hrow
    cases hrow
  obtain ⟨other, hsame, hother, hclear⟩ := contestant_of_claim hapart hsub henv hkind hs hne (h.settled.own hheld)
  obtain ⟨hslot, rfl⟩ := Prod.mk.inj hrival
  exact ⟨id, rival, hne, hrow, hslot, lt_of_le_of_ne hle hother.symm, other, hsame, hclear⟩

omit hnew hkind

/-- The key of the envelope holds no place, and its new claim is not the highest. -/
theorem outside (hnone : t.row? .knownHost env.id = none)
    (hsame : ∀ id, u.row? .knownHost id = t.row? .knownHost id)
    (hlow : ∀ row, s.due vault (envelopes ++ [env]) .knownHost env.id = some row → ∃ id rival, id ≠ env.id ∧
      t.row? .knownHost id = some rival ∧ KnownHostCols.slot rival.cols = KnownHostCols.slot row.cols ∧
      row.updatedAt ≤ rival.updatedAt) : KeysDue s vault (envelopes ++ [env]) u where
  settled := by
    simp only [hsame]
    refine h.settled.stands (i := env.id) due_claim_other (fun x hx => ?_) (by rw [hnone]; rfl)
    obtain ⟨row, hdue, rfl⟩ := Option.map_eq_some_iff.mp hx
    obtain ⟨id, rival, hne, hrow, hslot, hle⟩ := hlow row hdue
    have hheld := claim_of_row hrow
    rw [hslot] at hheld
    exact ⟨id, rival.updatedAt, hne, hheld, hle⟩
  face id row hrow := by
    rw [hsame] at hrow
    have hne : id ≠ env.id := by
      rintro rfl
      rw [hnone] at hrow
      cases hrow
    rw [due_key_other hne]
    exact h.face id row hrow

/-- The key of the envelope holds its place, and its new claim is still the highest. -/
theorem inside {row row' new : Row (Cols .knownHost)} (hrow : t.row? .knownHost env.id = some row)
    (hwritten : u.row? .knownHost env.id = some new) (hdue : s.due vault (envelopes ++ [env]) .knownHost env.id = some row')
    (hface : new.face = row'.face) (hslot : KnownHostCols.slot row'.cols = KnownHostCols.slot row.cols)
    (htop : ∀ id clock, id ≠ env.id →
      (s.due vault envelopes .knownHost id).map claimOf = some (KnownHostCols.slot row.cols, clock) →
        clock ≤ row'.updatedAt)
    (hsame : ∀ id, id ≠ env.id → u.row? .knownHost id = t.row? .knownHost id) :
    KeysDue s vault (envelopes ++ [env]) u where
  settled := by
    have hclaim := claim_of_row hdue
    have hheld := claim_of_row hwritten
    have hnow : claimOf new = claimOf row' := claimOf_of_face hface
    rw [hslot] at hclaim
    refine h.settled.renewed due_claim_other (claim_of_row hrow) hclaim htop (fun id hne => ?_) ?_
    · rw [hsame id hne]
    · rw [← hclaim, hwritten, hdue, Option.map_some, Option.map_some, hnow]
  face id found hfound := by
    by_cases hid : id = env.id
    · subst hid
      rw [hwritten] at hfound
      cases hfound
      exact ⟨row', hdue, hface⟩
    · rw [hsame id hid] at hfound
      rw [due_key_other hid]
      exact h.face id found hfound

/-- The key of the envelope takes a place that it did not hold. -/
theorem taken {row' new : Row (Cols .knownHost)} (hnone : t.row? .knownHost env.id = none)
    (hwritten : u.row? .knownHost env.id = some new) (hdue : s.due vault (envelopes ++ [env]) .knownHost env.id = some row')
    (hface : new.face = row'.face)
    (htop : ∀ id rival, id ≠ env.id → t.row? .knownHost id = some rival →
      KnownHostCols.slot rival.cols = KnownHostCols.slot row'.cols → rival.updatedAt ≤ row'.updatedAt)
    (hleft : ∀ id row, id ≠ env.id → (u.row? .knownHost id = some row ↔
      t.row? .knownHost id = some row ∧ KnownHostCols.slot row.cols ≠ KnownHostCols.slot row'.cols)) :
    KeysDue s vault (envelopes ++ [env]) u where
  settled := by
    refine h.settled.taken due_claim_other (by rw [hnone]; rfl) (claim_of_row hdue) (fun id clock _ hclaim => ?_)
      (fun id x hne => ?_) ?_
    · obtain ⟨holder, height, hheld, hle⟩ := h.settled.beaten hclaim
      obtain ⟨rival, hrow, hrival⟩ := Option.map_eq_some_iff.mp hheld
      obtain ⟨hslot, rfl⟩ := Prod.mk.inj hrival
      refine hle.trans (htop holder rival ?_ hrow hslot)
      rintro rfl
      rw [hnone] at hrow
      cases hrow
    · constructor
      · intro hheld
        obtain ⟨row, hrow, rfl⟩ := Option.map_eq_some_iff.mp hheld
        obtain ⟨hold, hslot⟩ := (hleft id row hne).mp hrow
        exact ⟨claim_of_row hold, hslot⟩
      · rintro ⟨hheld, hslot⟩
        obtain ⟨row, hrow, rfl⟩ := Option.map_eq_some_iff.mp hheld
        exact claim_of_row ((hleft id row hne).mpr ⟨hrow, hslot⟩)
    · rw [hwritten, Option.map_some, claimOf_of_face hface]
      rfl
  face id found hfound := by
    by_cases hid : id = env.id
    · subst hid
      rw [hwritten] at hfound
      cases hfound
      exact ⟨row', hdue, hface⟩
    · rw [due_key_other hid]
      exact h.face id found ((hleft id found hid).mp hfound).1

variable (hapart : KeysApart s vault all) (hsub : ∀ other ∈ envelopes, other ∈ all) (henv : env ∈ all)

include hnew hkind hapart hsub henv

omit hsub hnew h in
theorem slot_own {row : Row (Cols .knownHost)} (hs : s.row? .knownHost env.id = some row) :
    KnownHostCols.slot (vault.met .knownHost row env).cols = KnownHostCols.slot row.cols := by
  refine slot_met fun hlive => ?_
  obtain ⟨cols, hbrings, hslot⟩ := hapart.stays env henv hkind hlive
  exact ⟨cols, hbrings, hslot row hs⟩

theorem passed (hnone : t.row? .knownHost env.id = none) (hdeleted : env.deleted = true) :
    KeysDue s vault (envelopes ++ [env]) t := by
  refine h.outside hnone (fun _ => rfl) fun row hdue => ?_
  rw [due_key_self hkind hnew] at hdue
  cases hs : s.row? .knownHost env.id with
  | none =>
    rw [hs, hdeleted] at hdue
    cases hdue
  | some old =>
    rw [hs] at hdue
    cases hdue
    obtain ⟨id, rival, hne, hrow, hslot, hlt, other, hsame, hclear⟩ := h.lost hnew hkind hapart hsub henv hs hnone
    have hbelow := hclear.met_lt (hsame ▸ hlt) hdeleted
    rw [hsame] at hbelow
    exact ⟨id, rival, hne, hrow, hslot.trans (slot_own hkind hapart henv hs).symm, hbelow.le⟩

theorem headed {row : Row (Cols .knownHost)} (hrow : t.row? .knownHost env.id = some row)
    (hstays : env.deleted = true ∨ resolve row.version env.version ≠ .takeRemote) :
    KeysDue s vault (envelopes ++ [env]) (t.putRow .knownHost env.id (vault.met .knownHost row env)) := by
  obtain ⟨row', hs, hface⟩ := h.here hnew hkind hrow
  have hdue : s.due vault (envelopes ++ [env]) .knownHost env.id = some (vault.met .knownHost row' env) := by
    rw [due_key_self hkind hnew, hs]
  obtain ⟨hslot, hclock⟩ := Prod.mk.inj (claimOf_of_face hface)
  refine h.inside hrow (row?_putRow_self t _) hdue (met_face hface env)
    ((slot_own hkind hapart henv hs).trans hslot.symm) (fun id clock hne hclaim => ?_) fun id hne =>
      row?_putRow_of_pair_ne t _ _ _ fun hboth => hne hboth.2
  have hle := h.settled.le (claim_of_row hrow) hclaim
  rw [hslot] at hclaim
  obtain ⟨other, rfl, hother, hclear⟩ := contestant_of_claim hapart hsub henv hkind hs hne hclaim
  have hlt : other.updatedAt < row'.updatedAt := lt_of_le_of_ne (hclock ▸ hle) hother
  rw [Row.version_eq_of_face hface] at hstays
  exact (hclear.lt_met hlt hstays).le

omit h hsub hnew in
/-- The place that the key of a live envelope claims is that of the row that is here. -/
theorem slot_here {cols : KnownHostCols} (hbrings : vault.brings .knownHost env = some cols) (hlive : env.deleted = false)
    {row : Row (Cols .knownHost)} (hs : s.row? .knownHost env.id = some row) :
    KnownHostCols.slot row.cols = cols.slot := by
  obtain ⟨cols', hbrings', hslot⟩ := hapart.stays env henv hkind hlive
  rw [hbrings] at hbrings'
  cases hbrings'
  exact hslot row hs

omit hsub hnew in
/-- Who is kept out has no row. -/
theorem none_of_keptOut {cols : KnownHostCols} (hbrings : vault.brings .knownHost env = some cols)
    (hlive : env.deleted = false) (hnew : ∀ other ∈ envelopes, other.id ≠ env.id) {id : Uuid}
    {rival : Row (Cols .knownHost)} (hne : id ≠ env.id) (hrival : t.row? .knownHost id = some rival)
    (hslot : KnownHostCols.slot rival.cols = cols.slot) : t.row? .knownHost env.id = none := by
  cases ht : t.row? .knownHost env.id with
  | none => rfl
  | some row =>
    obtain ⟨row', hs, hface⟩ := h.here hnew hkind ht
    have hplace : KnownHostCols.slot row.cols = KnownHostCols.slot row'.cols := (Prod.mk.inj (claimOf_of_face hface)).1
    have hown := slot_here hkind hapart henv hbrings hlive hs
    exact absurd (h.oneRow id rival env.id row hrival ht (hslot.trans (hplace.trans hown).symm)) hne

omit hsub in
theorem keptOut {cols : KnownHostCols} (hbrings : vault.brings .knownHost env = some cols) (hlive : env.deleted = false)
    {id : Uuid} {rival : Row (Cols .knownHost)} (hne : id ≠ env.id) (hrival : t.row? .knownHost id = some rival)
    (hslot : KnownHostCols.slot rival.cols = cols.slot) (hlt : env.updatedAt < rival.updatedAt)
    (hsame : ∀ id, u.row? .knownHost id = t.row? .knownHost id) : KeysDue s vault (envelopes ++ [env]) u := by
  have hnone := h.none_of_keptOut hkind hapart henv hbrings hlive hnew hne hrival hslot
  refine h.outside hnone hsame fun row hdue => ⟨id, rival, hne, hrival, ?_⟩
  rw [due_key_self hkind hnew] at hdue
  cases hs : s.row? .knownHost env.id with
  | none =>
    rw [hs, hlive, hbrings] at hdue
    cases hdue
    exact ⟨hslot, hlt.le⟩
  | some old =>
    rw [hs] at hdue
    cases hdue
    have hplace := slot_here hkind hapart henv hbrings hlive hs
    have hbefore : s.due vault envelopes .knownHost env.id = s.row? .knownHost env.id := due_key_of_new hkind hnew
    have hclaim := claim_of_row (hbefore.trans hs)
    rw [hplace, ← hslot] at hclaim
    refine ⟨hslot.trans ((slot_own hkind hapart henv hs).trans hplace).symm, ?_⟩
    obtain hclock | hclock := @clock_met vault old env
    · rw [hclock]
      exact h.settled.le (claim_of_row hrival) hclaim
    · rw [hclock]
      exact hlt.le

/-- The key is written: it is higher than everyone else who claims its place. -/
theorem written {cols : KnownHostCols} (hbrings : vault.brings .knownHost env = some cols) (hlive : env.deleted = false)
    (hnewer : ∀ row, t.row? .knownHost env.id = some row → resolve row.version env.version = .takeRemote)
    (hbelow : ∀ id row, id ≠ env.id → t.row? .knownHost id = some row → KnownHostCols.slot row.cols = cols.slot →
      row.updatedAt ≤ env.updatedAt)
    {new : Row (Cols .knownHost)} (hwritten : u.row? .knownHost env.id = some new)
    (hface : new.face = (Row.brought env cols : Row (Cols .knownHost)).face)
    (hleft : ∀ id row, id ≠ env.id → (u.row? .knownHost id = some row ↔
      t.row? .knownHost id = some row ∧ KnownHostCols.slot row.cols ≠ cols.slot)) :
    KeysDue s vault (envelopes ++ [env]) u := by
  have hdue := @due_key_self s vault envelopes env hkind hnew
  cases ht : t.row? .knownHost env.id with
  | some row =>
    obtain ⟨row', hs, hsame⟩ := h.here hnew hkind ht
    have hplace : KnownHostCols.slot row.cols = KnownHostCols.slot row'.cols := (Prod.mk.inj (claimOf_of_face hsame)).1
    have hown := hplace.trans (slot_here hkind hapart henv hbrings hlive hs)
    have hresolve := hnewer row ht
    have hmet : (vault.met .knownHost row' env).face = (Row.brought env cols : Row (Cols .knownHost)).face :=
      met_of_takeRemote hlive hbrings (Row.version_eq_of_face hsame ▸ hresolve)
    have hclock : (vault.met .knownHost row' env).updatedAt = env.updatedAt := (Row.face_eq_iff.mp hmet).1
    have hlt : row.updatedAt < env.updatedAt := by
      obtain hlt | ⟨-, hlt⟩ := Version.lt_iff.mp (resolve_eq_takeRemote_iff.mp hresolve)
      · have hfalse : env.version.deleted = false := hlive
        rw [hfalse] at hlt
        exact absurd hlt (by simp)
      · exact hlt
    rw [hs] at hdue
    refine h.inside ht hwritten hdue (hface.trans hmet.symm) ((slot_own hkind hapart henv hs).trans hplace.symm)
      (fun id clock _ hclaim => ?_) fun id hne => ?_
    · rw [hclock]
      exact (h.settled.le (claim_of_row ht) hclaim).trans hlt.le
    · refine Option.ext fun other => (hleft id other hne).trans ⟨And.left, fun hother => ⟨hother, fun hslot => hne ?_⟩⟩
      exact h.oneRow id other env.id row hother ht (hslot.trans hown.symm)
  | none =>
    obtain ⟨row', hdue', hmet⟩ : ∃ row', s.due vault (envelopes ++ [env]) .knownHost env.id = some row' ∧
        row'.face = (Row.brought env cols : Row (Cols .knownHost)).face := by
      cases hs : s.row? .knownHost env.id with
      | none =>
        rw [hs, hlive, hbrings] at hdue
        exact ⟨_, hdue, rfl⟩
      | some old =>
        rw [hs] at hdue
        refine ⟨_, hdue, ?_⟩
        obtain ⟨id, rival, hne, hrow, hslot, hlt, other, hsame, hclear⟩ := h.lost hnew hkind hapart hsub henv hs ht
        have hle := hbelow id rival hne hrow (hslot.trans (slot_here hkind hapart henv hbrings hlive hs))
        rw [← hsame] at hlt hle
        exact hclear.met_brought hlt hle hlive hbrings
    obtain ⟨hclock, -, -, -, hcols⟩ := Row.face_eq_iff.mp hmet
    have hplace : KnownHostCols.slot row'.cols = cols.slot := congrArg KnownHostCols.slot hcols
    refine h.taken ht hwritten hdue' (hface.trans hmet.symm) (fun id rival hne hrow hslot => ?_) fun id row hne => ?_
    · rw [hclock]
      exact hbelow id rival hne hrow (hslot.trans hplace)
    · rw [hplace]
      exact hleft id row hne

/-- One more host key: the highest of those that are due hold their places. -/
theorem step {thisDevice : UInt32} (hstep : KeyStep vault thisDevice env t u) :
    KeysDue s vault (envelopes ++ [env]) u := by
  cases hstep with
  | passed hnone hdeleted => exact h.passed hnew hkind hapart hsub henv hnone hdeleted
  | headed hrow hstays => exact h.headed hnew hkind hapart hsub henv hrow hstays
  | claimed hbrings hlive hnewer =>
    obtain ⟨id, rival, hne, hrival, hslot, hlt, hsame⟩ | ⟨hbelow, ⟨new, hwritten, hface⟩, hleft, -⟩ :=
      applyKnownHost_cases h.oneRow rfl
    · exact h.keptOut hnew hkind hapart henv hbrings hlive hne hrival hslot hlt (hsame .knownHost)
    · exact h.written hnew hkind hapart hsub henv hbrings hlive hnewer hbelow hwritten hface hleft

end KeysDue

/-! ### One more record -/

/-- Everything is as it is due. -/
structure Arrived (s : Store) (vault : UnlockedVault) (envelopes : List Envelope) (t : Store) : Prop where
  rows : DueRows s vault envelopes t
  keys : KeysDue s vault envelopes t

theorem refersTo_key (hkind : env.kind = .knownHost) : s.refersTo vault env = [] := by
  obtain ⟨id, vaultId, kind, clock, baseSeq, deleted, nonce, blob, seq⟩ := env
  obtain rfl : kind = .knownHost := hkind
  rw [refersTo]
  split_ifs
  · generalize vault.brings _ _ = brought
    cases brought <;> rfl
  · rfl

/-- A host key leaves the other kinds alone. -/
theorem DueRows.beside (h : DueRows s vault envelopes t) (hone : t.OneRow) (hkind : env.kind = .knownHost)
    (hstep : KeyStep vault thisDevice env t u) : DueRows s vault (envelopes ++ [env]) u := by
  intro kind id hother
  have hrow : u.row? kind id = t.row? kind id := by
    cases hstep with
    | passed => rfl
    | headed => exact row?_putRow_of_pair_ne t _ _ _ fun hboth => hother hboth.1
    | claimed =>
      obtain ⟨-, -, -, -, -, -, hsame⟩ | ⟨-, -, -, hsame⟩ := applyKnownHost_cases hone rfl
      · exact hsame kind id
      · exact hsame kind id hother
  have hfound : (envelopes ++ [env]).find? (ofRecord kind id) = envelopes.find? (ofRecord kind id) :=
    find?_ofRecord_concat_other fun hboth => hother (hboth.1.trans hkind)
  rw [hrow, h kind id hother, due, due, hfound, List.flatMap_append, List.flatMap_singleton, refersTo_key hkind,
    List.append_nil]

/-- The others leave the host keys alone. -/
theorem KeysDue.beside (h : KeysDue s vault envelopes t) (hkind : env.kind ≠ .knownHost) (hmet : Received vault env t u) :
    KeysDue s vault (envelopes ++ [env]) u := by
  have hrow : ∀ id, u.row? .knownHost id = t.row? .knownHost id := by
    intro id
    rw [hmet.others .knownHost id fun hboth => hkind hboth.1.symm]
    cases t.row? .knownHost id with
    | some row => rfl
    | none =>
      dsimp only
      split_ifs <;> rfl
  have hdue : ∀ id, s.due vault (envelopes ++ [env]) .knownHost id = s.due vault envelopes .knownHost id := by
    intro id
    have hfound : (envelopes ++ [env]).find? (ofRecord .knownHost id) = envelopes.find? (ofRecord .knownHost id) :=
      find?_ofRecord_concat_other fun hboth => hkind hboth.1.symm
    rw [due_knownHost, due_knownHost, hfound]
  refine ⟨?_, fun id row hid => ?_⟩
  · simp only [hrow, hdue]
    exact h.settled
  · rw [hrow] at hid
    rw [hdue]
    exact h.face id row hid

/-- An envelope that can be read is applied, and everything is as it is due with it. -/
theorem Arrived.applyOne (h : Arrived s vault envelopes t) (hapart : KeysApart s vault all)
    (hghosts : NoGhosts s vault all) (hfine : ∀ other ∈ all, ¬ s.Fails vault other)
    (hsub : ∀ other ∈ envelopes, other ∈ all) (henv : env ∈ all) (hnew : ∀ other ∈ envelopes, other.id ≠ env.id)
    (hauthentic : vault.Authentic env) :
    ∃ u r, t.applyOne vault env thisDevice = .ok (u, r) ∧ Arrived s vault (envelopes ++ [env]) u := by
  by_cases hkind : env.kind = .knownHost
  · obtain ⟨u, r, hrun, hstep⟩ := @applyOne_key t vault env thisDevice hkind hauthentic fun hlive =>
      (hapart.stays env henv hkind hlive).imp fun cols hcols => hcols.1
    exact ⟨u, r, hrun, h.rows.beside h.keys.oneRow hkind hstep, h.keys.step hnew hkind hapart hsub henv hstep⟩
  · have htakes := takes_of_due h.rows hghosts hsub henv hnew hkind
    have hread : ¬ t.Fails vault env := by
      rw [Fails, htakes]
      exact hfine env henv
    obtain ⟨u, r, hrun, hmet⟩ := @applyOne_met t vault env thisDevice hkind hauthentic hread
    exact ⟨u, r, hrun, h.rows.met hghosts hsub henv hnew hfine hkind hmet, h.keys.beside hkind hmet⟩

/-! ### Batches and pages -/

/-- Records that may come in any order: they are of the vault, one of each id, and nothing depends on who is first. -/
structure Orderless (s : Store) (vault : UnlockedVault) (all : List Envelope) : Prop where
  authentic : ∀ env ∈ all, vault.Authentic env
  distinct : (all.map Envelope.id).Nodup
  readable : ∀ env ∈ all, ¬ s.Fails vault env
  ghosts : NoGhosts s vault all
  apart : KeysApart s vault all

theorem Arrived.applyAll (h : Arrived s vault envelopes t) {batch : List Envelope} (horderless : Orderless s vault all)
    (hsub : ∀ other ∈ envelopes ++ batch, other ∈ all) (hdistinct : ((envelopes ++ batch).map Envelope.id).Nodup)
    (report : ApplyReport) (newest : Option Hlc) : ∃ u report' newest',
      Store.applyAll vault thisDevice batch t report newest = .ok (u, report', newest') ∧
        Arrived s vault (envelopes ++ batch) u := by
  induction batch generalizing envelopes t report newest with
  | nil =>
    rw [List.append_nil]
    exact ⟨t, report, newest, rfl, h⟩
  | cons env rest ih =>
    have hin : env ∈ all := hsub env (by simp)
    have hnew : ∀ other ∈ envelopes, other.id ≠ env.id := by
      rw [List.map_append, List.map_cons, List.nodup_append] at hdistinct
      exact fun other hother => hdistinct.2.2 _ (List.mem_map_of_mem hother) _ (List.mem_cons_self ..)
    obtain ⟨u, outcome, hrun, hnext⟩ := h.applyOne horderless.apart horderless.ghosts horderless.readable
      (fun other hother => hsub other (List.mem_append_left _ hother)) hin hnew (horderless.authentic env hin)
    have hshift : envelopes ++ env :: rest = envelopes ++ [env] ++ rest := by simp
    rw [hshift] at hsub hdistinct ⊢
    obtain ⟨v, report', newest', hall, hlast⟩ := ih hnext hsub hdistinct (countOutcome env report outcome)
      (if outcome.rejected = 0 then some (newest.elim env.updatedAt (max · env.updatedAt)) else newest)
    refine ⟨v, report', newest', ?_, hlast⟩
    unfold Store.applyAll
    rw [hrun]
    exact hall

theorem Arrived.setClock (h : Arrived s vault envelopes t) (clock : Hlc) : Arrived s vault envelopes (t.setClock clock) :=
  ⟨h.rows, h.keys.settled, h.keys.face⟩

/-- Whatever the order of the pages, everything is as it is due. -/
theorem Arrived.deliver (h : Arrived s vault envelopes t) (hvault : t.vault = some vault)
    (horderless : Orderless s vault all) {pages : List (List Envelope × UInt64)}
    (hsub : ∀ other ∈ envelopes ++ arrivals pages, other ∈ all)
    (hdistinct : ((envelopes ++ arrivals pages).map Envelope.id).Nodup) :
    ∃ u, t.deliver pages = .ok u ∧ Arrived s vault (envelopes ++ arrivals pages) u := by
  induction pages generalizing envelopes t with
  | nil => exact ⟨t, rfl, by simpa [arrivals] using h⟩
  | cons page rest ih =>
    obtain ⟨page, nowMs⟩ := page
    have hshift : envelopes ++ arrivals ((page, nowMs) :: rest) =
        envelopes ++ page.insertionSort applyBefore ++ arrivals rest := by simp [arrivals]
    rw [hshift] at hsub hdistinct ⊢
    obtain ⟨u, report, happly, hnext⟩ : ∃ u report, t.applyEnvelopes page nowMs = .ok (u, report) ∧
        Arrived s vault (envelopes ++ page.insertionSort applyBefore) u := by
      unfold applyEnvelopes
      cases hempty : page.isEmpty with
      | true =>
        obtain rfl : page = [] := List.isEmpty_iff.mp hempty
        exact ⟨t, {}, rfl, by simpa using h⟩
      | false =>
        obtain ⟨u, report, newest, hall, hnext⟩ := h.applyAll horderless
          (fun other hother => hsub other (List.mem_append_left _ hother))
          (by rw [List.map_append] at hdistinct; exact hdistinct.of_append_left) {} none
        rw [hvault]
        dsimp only
        rw [if_neg Bool.false_ne_true, hall]
        cases newest with
        | none => exact ⟨u, report, rfl, hnext⟩
        | some remote => exact ⟨_, report, rfl, hnext.setClock _⟩
    have hkept : u.vault = some vault := (applyEnvelopes_touched happly).1.vault.trans hvault
    obtain ⟨v, hrest, hlast⟩ := ih hnext hkept hsub hdistinct
    refine ⟨v, ?_, hlast⟩
    unfold Store.deliver
    rw [happly]
    exact hrest

/-! ### Any order -/

/-- One record of each id is found wherever it is. -/
theorem find?_ofRecord_iff (hdistinct : (envelopes.map Envelope.id).Nodup) {kind : EntityKind} {id : Uuid} :
    envelopes.find? (ofRecord kind id) = some env ↔ env ∈ envelopes ∧ ofRecord kind id env = true := by
  constructor
  · exact fun h => ⟨List.mem_of_find?_eq_some h, List.find?_some h⟩
  · rintro ⟨hin, hof⟩
    have hsome : (envelopes.find? (ofRecord kind id)).isSome = true := List.find?_isSome.mpr ⟨env, hin, hof⟩
    obtain ⟨found, hfound⟩ := Option.isSome_iff_exists.mp hsome
    have hof' := List.find?_some hfound
    simp only [ofRecord, Bool.and_eq_true, decide_eq_true_eq] at hof hof'
    rw [hfound, List.inj_on_of_nodup_map hdistinct (List.mem_of_find?_eq_some hfound) hin (hof'.2.trans hof.2.symm)]

theorem due_perm {envelopes' : List Envelope} (hperm : envelopes.Perm envelopes')
    (hdistinct : (envelopes.map Envelope.id).Nodup) (kind : EntityKind) (id : Uuid) :
    s.due vault envelopes kind id = s.due vault envelopes' kind id := by
  have hfound : envelopes.find? (ofRecord kind id) = envelopes'.find? (ofRecord kind id) := by
    have hdistinct' : (envelopes'.map Envelope.id).Nodup := (hperm.map _).nodup_iff.mp hdistinct
    refine Option.ext fun env => ?_
    rw [find?_ofRecord_iff hdistinct, find?_ofRecord_iff hdistinct', hperm.mem_iff]
  have hrefers : (kind, id) ∈ envelopes.flatMap (s.refersTo vault) ↔
      (kind, id) ∈ envelopes'.flatMap (s.refersTo vault) := (hperm.flatMap_right _).mem_iff
  rw [due, due, hfound]
  simp only [hrefers]

/-- What becomes of a row does not get the clock of a record that is new here and claims its place. -/
theorem clock_ne_of_row (hapart : KeysApart s vault all) (hsub : ∀ other ∈ envelopes, other ∈ all) {id : Uuid}
    {old row : Row (Cols .knownHost)} (hs : s.row? .knownHost id = some old)
    (hrow : row = old ∨ ∃ env ∈ envelopes, env.kind = .knownHost ∧ env.id = id ∧ row = vault.met .knownHost old env)
    {other : Envelope} (hother : other ∈ all) (hkind : other.kind = .knownHost) (hlive : other.deleted = false)
    {cols : KnownHostCols} (hbrings : vault.brings .knownHost other = some cols) (hne : id ≠ other.id)
    (hslot : KnownHostCols.slot old.cols = KnownHostCols.slot cols) : other.updatedAt ≠ row.updatedAt := by
  obtain ⟨happart, hclear⟩ := hapart.rows other hother hkind hlive cols hbrings id old hne hs hslot
  obtain rfl | ⟨env, henv, hkey, hid, rfl⟩ := hrow
  · exact happart
  · exact (hclear env (hsub env henv) hkey hid).apart

/-- No two host keys that are due claim a place with one clock. -/
theorem apart_due (hapart : KeysApart s vault all) (hsub : ∀ other ∈ envelopes, other ∈ all) :
    Contest.Apart fun id => (s.due vault envelopes .knownHost id).map claimOf := by
  intro i j p clock hi hj
  obtain ⟨row, hdue, hclaim⟩ := Option.map_eq_some_iff.mp hi
  obtain ⟨row', hdue', hclaim'⟩ := Option.map_eq_some_iff.mp hj
  obtain ⟨hslot, rfl⟩ := Prod.mk.inj hclaim
  obtain ⟨hslot', hclock⟩ := Prod.mk.inj hclaim'
  have hplace := hslot.trans hslot'.symm
  by_contra hne
  obtain ⟨old, hold, hsame, hrow⟩ | ⟨-, env, henv, hkind, hid, hlive, cols, hbrings, hrow⟩ :=
    due_source hapart hsub hdue
  · obtain ⟨old', hold', hsame', -⟩ | ⟨-, env', henv', hkind', hid', hlive', cols', hbrings', hrow'⟩ :=
      due_source hapart hsub hdue'
    · exact hne (hapart.one _ _ _ _ hold hold' (hsame.trans (hplace.trans hsame'.symm)))
    · subst hrow'
      exact clock_ne_of_row hapart hsub hold hrow (hsub env' henv') hkind' hlive' hbrings' (hid' ▸ hne)
        (hsame.trans hplace) hclock
  · subst hrow
    obtain ⟨old', hold', hsame', hrow'⟩ | ⟨-, env', henv', hkind', hid', hlive', cols', hbrings', hrow'⟩ :=
      due_source hapart hsub hdue'
    · exact clock_ne_of_row hapart hsub hold' hrow' (hsub env henv) hkind hlive hbrings (hid ▸ Ne.symm hne)
        (hsame'.trans hplace.symm) hclock.symm
    · subst hrow'
      exact hapart.records env (hsub env henv) env' (hsub env' henv') hkind hkind' hlive hlive' (hid ▸ hid' ▸ hne)
        cols cols' hbrings hbrings' hplace hclock.symm

/-- What is due is what is there. -/
theorem Arrived.agree {t' : Store} (h : Arrived s vault envelopes t) (h' : Arrived s vault envelopes t')
    (hapart : KeysApart s vault all) (hsub : ∀ other ∈ envelopes, other ∈ all) (kind : EntityKind) (id : Uuid) :
    (t.row? kind id).map Row.face = (t'.row? kind id).map Row.face := by
  by_cases hkind : kind = .knownHost
  · subst hkind
    have hheld : (t.row? .knownHost id).map claimOf = (t'.row? .knownHost id).map claimOf :=
      congrFun (h.keys.settled.unique h'.keys.settled (apart_due hapart hsub)) id
    cases ht : t.row? .knownHost id with
    | none =>
      rw [ht, Option.map_none, eq_comm, Option.map_eq_none_iff] at hheld
      rw [hheld]
    | some row =>
      rw [ht, Option.map_some, eq_comm, Option.map_eq_some_iff] at hheld
      obtain ⟨row', ht', -⟩ := hheld
      obtain ⟨due, hdue, hface⟩ := h.keys.face id row ht
      obtain ⟨due', hdue', hface'⟩ := h'.keys.face id row' ht'
      obtain rfl := Option.some.inj (hdue.symm.trans hdue')
      rw [ht', Option.map_some, Option.map_some, hface, hface']
  · exact (h.rows kind id hkind).trans (h'.rows kind id hkind).symm

/-- Nothing has arrived yet. -/
theorem arrived_nil (hone : s.OneRow) : Arrived s vault [] s := by
  have hdue : ∀ kind id, s.due vault [] kind id = s.row? kind id := by
    intro kind id
    rw [due]
    cases s.row? kind id <;> rfl
  refine ⟨fun kind id _ => by rw [hdue], ?_, fun id row hrow => ⟨row, (hdue _ id).trans hrow, rfl⟩⟩
  simp only [hdue]
  refine { own := id, beaten := fun hclaim => ⟨_, _, hclaim, le_rfl⟩, one := ?_ }
  intro i j p b c hi hj
  obtain ⟨row, hrow, hclaim⟩ := Option.map_eq_some_iff.mp hi
  obtain ⟨row', hrow', hclaim'⟩ := Option.map_eq_some_iff.mp hj
  exact hone i row j row' hrow hrow' ((Prod.mk.inj hclaim).1.trans (Prod.mk.inj hclaim').1.symm)

end contested

/-- The store after a call that applies a page. -/
def applied (s : Store) (page : List Envelope) (nowMs : UInt64) : Store :=
  match s.applyEnvelopes page nowMs with
  | .ok (t, _) => t
  | .error _ => s

/-- Some record of a batch fails at its turn. -/
def Breaks (s : Store) (vault : UnlockedVault) (batch : List Envelope) : Prop :=
  ∃ front env back u report newest e, batch = front ++ env :: back ∧
    applyAll vault s.device front s {} none = .ok (u, report, newest) ∧ u.applyOne vault env s.device = .error e

theorem applyAll_error {s u : Store} {vault : UnlockedVault} {thisDevice : UInt32} {front back : List Envelope}
    {env : Envelope} {report report' : ApplyReport} {newest newest' : Option Hlc} {e : StoreError}
    (hfront : applyAll vault thisDevice front s report newest = .ok (u, report', newest'))
    (hone : u.applyOne vault env thisDevice = .error e) :
    applyAll vault thisDevice (front ++ env :: back) s report newest = .error e := by
  induction front generalizing s report newest with
  | nil =>
    cases hfront
    rw [List.nil_append]
    unfold applyAll
    rw [hone]
  | cons first rest ih =>
    rw [List.cons_append]
    unfold applyAll at hfront ⊢
    split at hfront
    · cases hfront
    · exact ih hfront

theorem arrivals_perm (pages : List (List Envelope × UInt64)) :
    (arrivals pages).Perm (pages.flatMap Prod.fst) := by
  induction pages with
  | nil => exact .nil
  | cons page rest ih =>
    rw [arrivals, List.flatMap_cons, List.flatMap_cons]
    exact (page.1.perm_insertionSort applyBefore).append ih

/-- Pages of records that may come in any order leave everything as it is due. -/
theorem Orderless.deliver {s : Store} {vault : UnlockedVault} {all : List Envelope} (h : Orderless s vault all)
    (hvault : s.vault = some vault) {pages : List (List Envelope × UInt64)} (hperm : (pages.flatMap Prod.fst).Perm all) :
    ∃ t, s.deliver pages = .ok t ∧ Arrived s vault all t := by
  have harrivals : (arrivals pages).Perm all := (arrivals_perm pages).trans hperm
  have hdistinct : ((arrivals pages).map Envelope.id).Nodup := (harrivals.map _).nodup_iff.mpr h.distinct
  have hnil : Arrived s vault [] s := arrived_nil h.apart.one
  obtain ⟨t, hrun, ht⟩ := hnil.deliver hvault h
    (fun other hother => harrivals.mem_iff.mp hother) hdistinct
  have hdue : ∀ kind id, s.due vault (arrivals pages) kind id = s.due vault all kind id := due_perm harrivals hdistinct
  rw [List.nil_append] at ht
  refine ⟨t, hrun, fun kind id hkind => (ht.rows kind id hkind).trans (by rw [hdue]), ?_, fun id row hrow => ?_⟩
  · have hsettled := ht.keys.settled
    simp only [hdue] at hsettled
    exact hsettled
  · rw [← hdue]
    exact ht.keys.face id row hrow

/-- Pages of records that may come in any order leave the same rows, whatever the order and the pages are; and a page
with a record that fails leaves everything as it was. -/
theorem pages_commute (s : Store) (vault : UnlockedVault) (hvault : s.vault = some vault) :
    (∀ all, Orderless s vault all → ∀ pages pages' : List (List Envelope × UInt64), (pages.flatMap Prod.fst).Perm all →
      (pages'.flatMap Prod.fst).Perm all → ∃ t t', s.deliver pages = .ok t ∧ s.deliver pages' = .ok t' ∧
        ∀ kind id, (t.row? kind id).map Row.face = (t'.row? kind id).map Row.face) ∧
    ∀ page nowMs, s.Breaks vault (page.insertionSort applyBefore) → s.applied page nowMs = s := by
  refine ⟨fun all horderless pages pages' hpages hpages' => ?_, fun page nowMs hbreaks => ?_⟩
  · obtain ⟨t, hrun, ht⟩ := horderless.deliver hvault hpages
    obtain ⟨t', hrun', ht'⟩ := horderless.deliver hvault hpages'
    exact ⟨t, t', hrun, hrun', ht.agree ht' horderless.apart fun _ hother => hother⟩
  · obtain ⟨front, env, back, u, report, newest, e, hsorted, hfront, hone⟩ := hbreaks
    have hpage : page.isEmpty = false := by
      cases page with
      | nil => cases front <;> cases hsorted
      | cons => rfl
    rw [applied, applyEnvelopes, hpage, hvault, hsorted]
    dsimp only
    rw [if_neg Bool.false_ne_true, applyAll_error hfront hone]

section examples

/-- A record on its way, alive or its tombstone. -/
def recordEnvelope (kind : EntityKind) (id : Uuid) (deleted : Bool) (payload : Payload) : Envelope :=
  let box := keyVault.sealSynced id kind ⟨10, 0, 2⟩ deleted (.json payload)
  { id, vaultId := 7, kind, updatedAt := ⟨10, 0, 2⟩, baseSeq := 0, deleted
    nonce := box.nonce, blob := box.blob, seq := some 1 }

theorem authentic_recordEnvelope (kind : EntityKind) (id : Uuid) (deleted : Bool) (payload : Payload) :
    keyVault.Authentic (recordEnvelope kind id deleted payload) := by
  have hopen : keyVault.openEnvelope (recordEnvelope kind id deleted payload) = some (.json payload) :=
    keyVault.openSynced_sealSynced ..
  exact ⟨rfl, by rw [hopen]; rfl⟩

def groupEnvelope (deleted : Bool) : Envelope :=
  recordEnvelope .group 1 deleted (.group { workspace := "private", name := "prod", position := 0 })

/-- A host of that group. -/
def hostEnvelope : Envelope :=
  recordEnvelope .host 3 false (.host { name := "web", address := "web.example", port := 22, workspace := "private"
                                        position := 0, groupId := some 1, identityId := none })

def unlocked : Store := .empty 1 7 (some keyVault)

theorem orderless_group_host : Orderless unlocked keyVault [groupEnvelope false, hostEnvelope] where
  authentic env henv := by
    obtain rfl | rfl := List.mem_pair.mp henv
    · exact authentic_recordEnvelope ..
    · exact authentic_recordEnvelope ..
  distinct := by decide
  readable env henv := by
    rintro ⟨-, hnone, -⟩
    have hsome : (keyVault.brings env.kind env).isSome = true := by
      obtain rfl | rfl := List.mem_pair.mp henv
      · decide +kernel
      · decide +kernel
    rw [hnone] at hsome
    cases hsome
  ghosts env henv _ _ _ _ := by
    obtain rfl | rfl := List.mem_pair.mp henv
    · exact ⟨rfl, by decide⟩
    · exact ⟨rfl, by decide⟩
  apart :=
    { one := fun _ _ _ _ hrow => by cases hrow
      stays := fun env henv hkind => by obtain rfl | rfl := List.mem_pair.mp henv <;> cases hkind
      records := fun env henv _ _ hkind => by obtain rfl | rfl := List.mem_pair.mp henv <;> cases hkind
      rows := fun env henv hkind => by obtain rfl | rfl := List.mem_pair.mp henv <;> cases hkind }

/-- A snippet that does not read as one. -/
def brokenEnvelope : Envelope :=
  recordEnvelope .snippet 9 false (.group { workspace := "private", name := "prod", position := 0 })

/-- The group's turn comes first, and the page breaks behind it. -/
theorem breaks_group_broken :
    unlocked.Breaks keyVault ([brokenEnvelope, groupEnvelope false].insertionSort applyBefore) := by
  have hsorted : [brokenEnvelope, groupEnvelope false].insertionSort applyBefore =
      [groupEnvelope false, brokenEnvelope] := by decide +kernel
  have hruns : (applyAll keyVault unlocked.device [groupEnvelope false] unlocked {} none).toOption.any
      (fun r => (r.1.applyOne keyVault brokenEnvelope unlocked.device).toOption.isNone) = true := by
    decide +kernel
  cases hfront : applyAll keyVault unlocked.device [groupEnvelope false] unlocked {} none with
  | error e =>
    rw [hfront] at hruns
    cases hruns
  | ok r =>
    obtain ⟨u, report, newest⟩ := r
    rw [hfront] at hruns
    cases hone : u.applyOne keyVault brokenEnvelope unlocked.device with
    | ok r =>
      have hnone : (u.applyOne keyVault brokenEnvelope unlocked.device).toOption.isNone = true := hruns
      rw [hone] at hnone
      cases hnone
    | error e => exact ⟨_, _, [], u, report, newest, e, hsorted, hfront, hone⟩

/-- The host before its group, or with it; and the group with a record that fails. -/
theorem group_host_commute :
    (∃ t t', unlocked.deliver [([hostEnvelope, groupEnvelope false], 30)] = .ok t ∧
      unlocked.deliver [([hostEnvelope], 30), ([groupEnvelope false], 31)] = .ok t' ∧
        ∀ kind id, (t.row? kind id).map Row.face = (t'.row? kind id).map Row.face) ∧
      unlocked.applied [brokenEnvelope, groupEnvelope false] 30 = unlocked :=
  ⟨(pages_commute unlocked keyVault rfl).1 _ orderless_group_host _ _ (.swap _ _ _) (.swap _ _ _),
    (pages_commute unlocked keyVault rfl).2 _ 30 breaks_group_broken⟩

/-- The tombstone of a group is passed over where the group never was; it buries the placeholder that one of the
group's hosts has brought. -/
theorem pages_not_always_commute : ¬ ∀ (s : Store) (vault : UnlockedVault), s.vault = some vault →
    ∀ all : List Envelope, (∀ env ∈ all, vault.Authentic env) → (all.map Envelope.id).Nodup →
      ∀ pages pages' : List (List Envelope × UInt64), (pages.flatMap Prod.fst).Perm all →
        (pages'.flatMap Prod.fst).Perm all → ∀ t t', s.deliver pages = .ok t → s.deliver pages' = .ok t' →
          ∀ kind id, (t.row? kind id).map Row.version = (t'.row? kind id).map Row.version := by
  intro h
  have hrun : (unlocked.deliver [([groupEnvelope true], 30), ([hostEnvelope], 31)]).toOption.any (fun t =>
      ((t.row? .group 1).map Row.version) == some ⟨⟨0, 0, 0⟩, false⟩) = true := by decide +kernel
  have hrun' : (unlocked.deliver [([hostEnvelope], 30), ([groupEnvelope true], 31)]).toOption.any (fun t =>
      ((t.row? .group 1).map Row.version) == some ⟨⟨10, 0, 2⟩, true⟩) = true := by decide +kernel
  have hauthentic : ∀ env ∈ [groupEnvelope true, hostEnvelope], keyVault.Authentic env := by
    intro env henv
    obtain rfl | rfl := List.mem_pair.mp henv
    · exact authentic_recordEnvelope ..
    · exact authentic_recordEnvelope ..
  cases hdone : unlocked.deliver [([groupEnvelope true], 30), ([hostEnvelope], 31)] with
  | error e =>
    rw [hdone] at hrun
    cases hrun
  | ok t =>
    cases hdone' : unlocked.deliver [([hostEnvelope], 30), ([groupEnvelope true], 31)] with
    | error e =>
      rw [hdone'] at hrun'
      cases hrun'
    | ok t' =>
      have hsame := h unlocked keyVault rfl _ hauthentic (by decide) [([groupEnvelope true], 30), ([hostEnvelope], 31)]
        [([hostEnvelope], 30), ([groupEnvelope true], 31)] (.refl _) (.swap _ _ _) t t' hdone hdone' .group 1
      rw [hdone] at hrun
      rw [hdone'] at hrun'
      have hlive : (t.row? .group 1).map Row.version = some ⟨⟨0, 0, 0⟩, false⟩ := eq_of_beq hrun
      have hdeleted : (t'.row? .group 1).map Row.version = some ⟨⟨10, 0, 2⟩, true⟩ := eq_of_beq hrun'
      rw [hlive, hdeleted] at hsame
      cases hsame

end examples

end Store

end UwuSsh

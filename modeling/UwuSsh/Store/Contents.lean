import UwuSsh.Store.ApplyFacts
import UwuSsh.Store.KeymapFacts

/-!
What a version says. Everything but the local columns of a row travels, and every device takes it in
one normal form, so a version that comes down says what it said where it was written. Taking records
in makes a store say nothing that it or they did not say.
-/
namespace UwuSsh

open Text

/-- A plaintext as any device takes it. -/
def takenPlain (vault : UnlockedVault) (id : Uuid) : EntityKind → Plain → Option Plain
  | .secret, plain => some plain
  | .manifest, plain => some plain
  | kind, plain => (Cols.ofPlain kind plain).bind (payloadOf vault id kind)

/-- What a row says of its record, as any device takes it. -/
def contentOf (vault : UnlockedVault) (id : Uuid) (kind : EntityKind) (cols : Cols kind) : Option Plain :=
  (payloadOf vault id kind cols).bind (takenPlain vault id kind)

/-- What an envelope says of its record. -/
def Envelope.content (vault : UnlockedVault) (env : Envelope) : Option Plain :=
  (vault.openEnvelope env).bind (takenPlain vault env.id env.kind)

section normal

variable {vault : UnlockedVault} {id : Uuid} {kind : EntityKind}

theorem payloadOf_keepLocal (old new : Cols kind) :
    payloadOf vault id kind (Cols.keepLocal kind old new) = payloadOf vault id kind new := by
  cases kind <;> rfl

theorem contentOf_keepLocal (old new : Cols kind) :
    contentOf vault id kind (Cols.keepLocal kind old new) = contentOf vault id kind new := by
  rw [contentOf, payloadOf_keepLocal, contentOf]

theorem workspaceOf_idem (value : String) : workspaceOf (workspaceOf value) = workspaceOf value := by
  unfold workspaceOf
  split
  · exact if_pos rfl
  · decide

theorem authTypeOf_idem (value : String) : authTypeOf (authTypeOf value) = authTypeOf value := by
  have hother : authTypeOf "password" = "password" := by decide
  by_cases h : value ∈ ["key", "agent", "keyboard-interactive", "cert"]
  · have hself : authTypeOf value = value := if_pos h
    rw [hself, hself]
  · have hnone : authTypeOf value = "password" := if_neg h
    rw [hnone, hother]

theorem max_one_idem (port : UInt16) : max (max port 1) 1 = max port 1 := by
  have hmax : ∀ a : UInt16, max a 1 = if a ≤ 1 then 1 else a := fun _ => rfl
  rw [hmax, hmax]
  split
  · exact if_pos (Nat.le_refl _)
  · rfl

/-- What was taken once is taken as it is. -/
theorem ofPlain_payloadOf {plain taken : Plain} {cols : Cols kind} (h : Cols.ofPlain kind plain = some cols)
    (hpayload : payloadOf vault id kind cols = some taken) : Cols.ofPlain kind taken = some cols := by
  cases kind with
  | host =>
    cases plain with
    | bytes _ => cases h
    | json p =>
      cases p <;> cases h
      cases hpayload
      simp [Cols.ofPlain, workspaceOf_idem, max_one_idem]
  | group =>
    cases plain with
    | bytes _ => cases h
    | json p =>
      cases p <;> cases h
      cases hpayload
      simp [Cols.ofPlain, workspaceOf_idem]
  | identity =>
    cases plain with
    | bytes _ => cases h
    | json p =>
      cases p <;> cases h
      cases hpayload
      simp [Cols.ofPlain, authTypeOf_idem]
  | knownHost =>
    cases plain with
    | bytes _ => cases h
    | json p =>
      cases p with
      | knownHost p =>
        have haddress : asciiLower (trim (asciiLower (trim p.address))) = asciiLower (trim p.address) := by
          rw [trim_asciiLower, trim_trim, asciiLower_asciiLower]
        obtain rfl := Option.some.inj h
        obtain rfl := Option.some.inj hpayload
        simp only [Cols.ofPlain, haddress]
      | _ => cases h
  | keymap =>
    cases plain with
    | bytes _ => cases h
    | json p =>
      cases p with
      | keymap p =>
        obtain rfl := Option.some.inj h
        obtain rfl := Option.some.inj hpayload
        exact congrArg some p.taken_taken
      | _ => cases h
  | secret => cases plain <;> cases h
  | manifest => cases plain <;> cases h
  | terminalProfile => cases plain <;> cases h
  | _ =>
    cases plain with
    | bytes _ => cases h
    | json p =>
      cases p <;> cases h
      cases hpayload
      rfl

/-- A row that was taken in says what came. -/
theorem contentOf_ofPlain {plain : Plain} {cols : Cols kind} (h : Cols.ofPlain kind plain = some cols) :
    contentOf vault id kind cols = takenPlain vault id kind plain := by
  have htaken : takenPlain vault id kind plain = payloadOf vault id kind cols := by
    cases kind with
    | secret => cases plain <;> cases h
    | manifest => cases plain <;> cases h
    | _ =>
      rw [takenPlain, h, Option.bind_some]
      all_goals nofun
  rw [htaken, contentOf]
  cases hpayload : payloadOf vault id kind cols with
  | none => rfl
  | some taken =>
    have hagain := ofPlain_payloadOf h hpayload
    cases kind with
    | secret => cases plain <;> cases h
    | manifest => cases plain <;> cases h
    | _ =>
      rw [Option.bind_some, takenPlain, hagain, Option.bind_some, hpayload]
      all_goals nofun

end normal

/-! ### What is taken in -/

namespace Store

/-- A live row of this clock, and what it says. -/
def Says (s : Store) (vault : UnlockedVault) (kind : EntityKind) (id : Uuid) (clock : Hlc) (said : Option Plain) :
    Prop :=
  ∃ row, s.row? kind id = some row ∧ row.deleted = false ∧ row.updatedAt = clock ∧
    contentOf vault id kind row.cols = said

/-- What a device shows of a record, unless it has none, a deleted one or only a place for one. -/
def liveContent (s : Store) (vault : UnlockedVault) (kind : EntityKind) (id : Uuid) : Option (Option Plain) :=
  (s.row? kind id).bind fun row =>
    if row.deleted = true ∨ row.updatedAt = Hlc.zero then none else some (contentOf vault id kind row.cols)

end Store

/-- A live record of this clock on its way, and what it says. -/
def Envelope.Says (env : Envelope) (vault : UnlockedVault) (kind : EntityKind) (id : Uuid) (clock : Hlc)
    (said : Option Plain) : Prop :=
  env.kind = kind ∧ env.id = id ∧ env.deleted = false ∧ env.updatedAt = clock ∧ env.content vault = said

namespace Store

section said

variable {s t : Store} {vault : UnlockedVault} {env : Envelope} {plain : Plain} {kind : EntityKind} {id : Uuid}
  {clock : Hlc} {said : Option Plain}

theorem Says.congr (h : t.Says vault kind id clock said) (hrow : t.row? kind id = s.row? kind id) :
    s.Says vault kind id clock said := by
  obtain ⟨row, hsome, hrest⟩ := h
  exact ⟨row, hrow ▸ hsome, hrest⟩

theorem said_upsertRecord {cols : Cols env.kind} (hopen : vault.openEnvelope env = some plain)
    (hlive : env.deleted = false)
    (hcols : contentOf vault env.id env.kind cols = takenPlain vault env.id env.kind plain)
    (h : (s.upsertRecord env.kind env cols).Says vault env.kind env.id clock said) :
    env.Says vault env.kind env.id clock said := by
  obtain ⟨row, hrow, -, hclock, hsaid⟩ := h
  obtain ⟨row', hrow', hclock', -, -, -, hcols'⟩ := s.row?_upsertRecord_self env.kind env cols
  obtain rfl : row' = row := Option.some.inj (hrow'.symm.trans hrow)
  have hcontent : contentOf vault env.id env.kind row'.cols = contentOf vault env.id env.kind cols := by
    rw [hcols']
    cases s.row? env.kind env.id with
    | none => rfl
    | some old => exact contentOf_keepLocal _ _
  refine ⟨rfl, rfl, hlive, hclock'.symm.trans hclock, ?_⟩
  rw [Envelope.content, hopen, Option.bind_some, ← hsaid, hcontent, hcols]

/-- A host key keeps out of the rows, or is written like any record. -/
theorem applyKnownHost_row (s : Store) (env : Envelope) (cols : KnownHostCols) (thisDevice : UInt32) :
    (∀ kind id, (s.applyKnownHost env cols thisDevice).1.row? kind id = s.row? kind id) ∨
      ∃ u : Store, (s.applyKnownHost env cols thisDevice).1 = u.upsertRecord .knownHost env cols := by
  unfold applyKnownHost
  cases s.rivalOf env.id cols.address cols.port with
  | none => exact .inr ⟨s, rfl⟩
  | some found =>
    by_cases hlt : env.updatedAt < found.2.updatedAt
    · simp only [hlt, ↓reduceIte]
      exact .inl fun kind id => s.row?_supersede _ _ _ kind id
    · simp only [hlt, ↓reduceIte]
      exact .inr ⟨_, rfl⟩

theorem insertRecord_said {thisDevice : UInt32} {outcome : ApplyReport} (hopen : vault.openEnvelope env = some plain)
    (hlive : env.deleted = false) (h : s.insertRecord vault env plain thisDevice = .ok (t, outcome))
    (hshows : t.Says vault env.kind env.id clock said) :
    s.Says vault env.kind env.id clock said ∨ env.Says vault env.kind env.id clock said := by
  obtain ⟨eid, vaultId, ekind, updatedAt, baseSeq, deleted, nonce, blob, seq⟩ := env
  unfold insertRecord at h
  cases ekind with
  | terminalProfile =>
    cases h
    exact .inl hshows
  | secret =>
    cases h
    right
    apply said_upsertRecord hopen hlive _ hshows
    show (vault.openStored eid .secret (vault.sealStored eid .secret plain)).bind _ = _
    rw [UnlockedVault.openStored_sealStored]
    rfl
  | manifest =>
    cases plain with
    | json _ =>
      cases h
      exact .inl hshows
    | bytes payload =>
      dsimp only at h
      split at h
      · cases h
        exact .inl hshows
      · split at h
        · cases h
          exact .inl hshows
        · cases h
          exact .inr (said_upsertRecord hopen hlive rfl hshows)
  | knownHost =>
    dsimp only at h
    cases hcols : Cols.ofPlain .knownHost plain with
    | none =>
      rw [hcols] at h
      cases h
    | some cols =>
      rw [hcols] at h
      have hcontent := @contentOf_ofPlain vault eid .knownHost plain cols hcols
      have happly := congrArg Prod.fst (Except.ok.inj h)
      dsimp only at happly
      rw [← happly] at hshows
      rcases s.applyKnownHost_row _ cols thisDevice with hold | ⟨u, hnew⟩
      · exact .inl (hshows.congr (hold _ _))
      · rw [hnew] at hshows
        exact .inr (said_upsertRecord hopen hlive hcontent hshows)
  | _ =>
    dsimp only at h
    split at h
    · cases h
    · next cols hcols =>
      cases h
      exact .inr (said_upsertRecord hopen hlive (contentOf_ofPlain hcols) hshows)

/-- A live row after a record was applied was there before, or says what the record says. -/
theorem applyOne_said {thisDevice : UInt32} {outcome : ApplyReport}
    (h : s.applyOne vault env thisDevice = .ok (t, outcome)) (hshows : t.Says vault kind id clock said)
    (hclock : clock ≠ Hlc.zero) : s.Says vault kind id clock said ∨ env.Says vault kind id clock said := by
  by_cases hself : kind = env.kind ∧ id = env.id
  · obtain ⟨rfl, rfl⟩ := hself
    have hupdated : ∀ f : Row (Cols env.kind) → Row (Cols env.kind),
        (∀ row, (f row).deleted = row.deleted ∧ (f row).updatedAt = row.updatedAt ∧ (f row).cols = row.cols) →
        (s.updateRow env.kind env.id f).Says vault env.kind env.id clock said →
          s.Says vault env.kind env.id clock said := by
      intro f hf ⟨row, hrow, hlive, hat, hsaid⟩
      rw [row?_updateRow_self] at hrow
      obtain ⟨old, hold, rfl⟩ := Option.map_eq_some_iff.mp hrow
      obtain ⟨hdeleted, hupdated, hcols⟩ := hf old
      exact ⟨old, hold, hdeleted ▸ hlive, hupdated ▸ hat, hcols ▸ hsaid⟩
    unfold applyOne at h
    split at h
    · cases h
      exact .inl hshows
    split at h
    · cases h
      exact .inl hshows
    split at h
    · cases h
      exact .inl hshows
    next plain hopen =>
    split at h
    · split at h
      · cases h
        exact .inl hshows
      · next hlive => exact insertRecord_said hopen ((Bool.not_eq_true _).mp hlive) h hshows
    · split at h
      · cases h
        refine .inl (hupdated _ ?_ hshows)
        exact fun _ => ⟨rfl, rfl, rfl⟩
      · cases h
        refine .inl (hupdated _ ?_ hshows)
        exact fun _ => ⟨rfl, rfl, rfl⟩
      · split at h
        · cases h
          obtain ⟨row, hrow, hlive, -⟩ := hshows
          rw [tombstoneRecord, row?_updateRow_self] at hrow
          obtain ⟨old, -, rfl⟩ := Option.map_eq_some_iff.mp hrow
          cases hlive
        · next hlive => exact insertRecord_said hopen ((Bool.not_eq_true _).mp hlive) h hshows
  · left
    obtain ⟨row, hrow, hlive, hat, hsaid⟩ := hshows
    rcases (applyOne_spec h).1.others kind id hself with ⟨hkept, -⟩ | ⟨-, -, -, hgone, -⟩
    · rcases hkept with hsame | ⟨-, stub, hstub, hblank⟩
      · exact ⟨row, hsame ▸ hrow, hlive, hat, hsaid⟩
      · obtain rfl : stub = row := Option.some.inj (hstub.symm.trans hrow)
        exact absurd (hat.symm.trans hblank.1) hclock
    · rw [hgone] at hrow
      cases hrow

theorem applyAll_said {thisDevice : UInt32} {envelopes : List Envelope} {report report' : ApplyReport}
    {newest newest' : Option Hlc}
    (h : applyAll vault thisDevice envelopes s report newest = .ok (t, report', newest'))
    (hshows : t.Says vault kind id clock said) (hclock : clock ≠ Hlc.zero) :
    s.Says vault kind id clock said ∨ ∃ env ∈ envelopes, env.Says vault kind id clock said := by
  induction envelopes generalizing s report newest with
  | nil =>
    cases h
    exact .inl hshows
  | cons env rest ih =>
    unfold applyAll at h
    split at h
    · cases h
    next u outcome hone =>
    rcases ih h with hu | ⟨e, he, hsays⟩
    · rcases applyOne_said hone hu hclock with hs | henv
      · exact .inl hs
      · exact .inr ⟨env, List.mem_cons_self, henv⟩
    · exact .inr ⟨e, List.mem_cons_of_mem _ he, hsays⟩

theorem applyEnvelopes_said {envelopes : List Envelope} {nowMs : UInt64} {report : ApplyReport}
    (h : s.applyEnvelopes envelopes nowMs = .ok (t, report)) (hvault : s.vault = some vault)
    (hshows : t.Says vault kind id clock said) (hclock : clock ≠ Hlc.zero) :
    s.Says vault kind id clock said ∨ ∃ env ∈ envelopes, env.Says vault kind id clock said := by
  rcases applyEnvelopes_eq h with ⟨-, rfl⟩ | ⟨vault', u, newest, hvault', hall, rfl⟩
  · exact .inl hshows
  · obtain rfl : vault = vault' := Option.some.inj (hvault.symm.trans hvault')
    rcases applyAll_said hall hshows hclock with hold | ⟨env, henv, hsays⟩
    · exact .inl hold
    · exact .inr ⟨env, (envelopes.perm_insertionSort applyBefore).mem_iff.mp henv, hsays⟩

/-- A record that was refused changes nothing. -/
theorem applyOne_refused {thisDevice : UInt32} {outcome : ApplyReport}
    (h : s.applyOne vault env thisDevice = .ok (t, outcome)) (hrefused : outcome.rejected ≠ 0) : t = s := by
  have hinsert : ∀ {plain : Plain}, s.insertRecord vault env plain thisDevice = .ok (t, outcome) → t = s := by
    intro plain h
    unfold insertRecord at h
    split at h
    · cases h
      rfl
    · cases h
      exact absurd rfl hrefused
    · split at h
      · cases h
        rfl
      · split at h
        · cases h
          rfl
        · split at h
          · cases h
            rfl
          · cases h
            exact absurd rfl hrefused
    · split at h
      · cases h
      · next cols _ =>
        have hnone := s.applyKnownHost_rejected env cols thisDevice
        rw [Except.ok.inj h] at hnone
        exact absurd hnone hrefused
    · split at h
      · cases h
      · cases h
        exact absurd rfl hrefused
  unfold applyOne at h
  split at h
  · cases h
    rfl
  split at h
  · cases h
    rfl
  split at h
  · cases h
    rfl
  split at h
  · split at h
    · cases h
      rfl
    · exact hinsert h
  · split at h
    · cases h
      exact absurd rfl hrefused
    · cases h
      exact absurd rfl hrefused
    · split at h
      · cases h
        exact absurd rfl hrefused
      · exact hinsert h

theorem applyAll_refused {thisDevice : UInt32} {envelopes : List Envelope} {report report' : ApplyReport}
    {newest : Option Hlc} (h : applyAll vault thisDevice envelopes s report newest = .ok (t, report', none)) :
    newest = none ∧ t = s := by
  induction envelopes generalizing s report newest with
  | nil =>
    cases h
    exact ⟨rfl, rfl⟩
  | cons env rest ih =>
    unfold applyAll at h
    split at h
    · cases h
    next u outcome hone =>
    obtain ⟨hnewest, rfl⟩ := ih h
    by_cases hrefused : outcome.rejected = 0
    · rw [if_pos hrefused] at hnewest
      cases hnewest
    · rw [if_neg hrefused] at hnewest
      exact ⟨hnewest, applyOne_refused hone hrefused⟩

/-- The clock moves, or nothing was taken in. -/
theorem applyEnvelopes_moves {envelopes : List Envelope} {nowMs : UInt64} {report : ApplyReport}
    (h : s.applyEnvelopes envelopes nowMs = .ok (t, report)) (hend : t.clockWallMs.toNat + 1 < 2 ^ 64) :
    s.clock < t.clock ∨ t.clock = s.clock ∧ ∀ kind id, t.row? kind id = s.row? kind id := by
  rcases applyEnvelopes_eq h with ⟨-, rfl⟩ | ⟨vault, u, newest, -, hall, rfl⟩
  · exact .inr ⟨rfl, fun _ _ => rfl⟩
  · obtain ⟨-, hclock, -⟩ := applyAll_touched hall
    cases newest with
    | none =>
      obtain ⟨-, rfl⟩ := applyAll_refused hall
      exact .inr ⟨rfl, fun _ _ => rfl⟩
    | some remote =>
      rw [← hclock]
      exact .inl (Hlc.lt_of_stamp_lt (Hlc.stamp_lt_merge_of_lt hend))

end said

end Store

end UwuSsh

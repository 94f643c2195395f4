import UwuSsh.Store.ApplyFacts
import UwuSsh.Store.Pending

/-!
What goes up and what comes of the answer. A batch is a part of the dirty rows in
the order of the kinds, each sealed under its own header, so a batch never has two
envelopes for one row and always fits into a request. Marking touches nothing of a row but
its flag and the server number, and only while the row has the clock that went up.
-/
namespace UwuSsh

open scoped List

/-- The payload of a row as it goes up. -/
def plainOfRow (vault : UnlockedVault) (kind : EntityKind) (id : Uuid) (row : Row (Cols kind)) :
    Option Plain :=
  if row.deleted then some (Plain.bytes []) else payloadOf vault id kind row.cols

/-- The envelope of a row as it goes up, if there is one. -/
def sealRow (vault : UnlockedVault) (kind : EntityKind) (e : Uuid × Row (Cols kind)) :
    Option Envelope :=
  (Store.pendingOfRow vault kind e.1 e.2).map (Store.sealPending vault)

/-- An envelope made from the row as it is now. -/
structure Envelope.OfRow (env : Envelope) (vault : UnlockedVault) (row : Row (Cols env.kind)) :
    Prop where
  version : env.version = row.version
  base : env.baseSeq = row.serverSeq
  vaultId : env.vaultId = vault.vaultId
  seq : env.seq = none
  nonce : env.nonce.length = 24
  opened : ∃ plain, plainOfRow vault env.kind env.id row = some plain ∧
    vault.openEnvelope env = some plain

theorem sealRow_spec {vault : UnlockedVault} {kind : EntityKind} {e : Uuid × Row (Cols kind)}
    {env : Envelope} (h : sealRow vault kind e = some env) :
    ∃ hkind : env.kind = kind, env.id = e.1 ∧ env.OfRow vault (hkind ▸ e.2) := by
  obtain ⟨id, row⟩ := e
  simp only [sealRow, Store.pendingOfRow, Option.map_map, Option.map_eq_some_iff] at h
  obtain ⟨plain, hplain, rfl⟩ := h
  refine ⟨rfl, rfl, rfl, rfl, rfl, rfl, rfl, plain, hplain, ?_⟩
  exact vault.openSynced_sealSynced id kind row.updatedAt row.deleted plain

namespace Store

theorem mem_dirtyRows {s : Store} {kind : EntityKind} {id : Uuid} {row : Row (Cols kind)} :
    (id, row) ∈ s.dirtyRows kind ↔ s.row? kind id = some row ∧ row.dirty = true := by
  rw [dirtyRows, List.mem_insertionSort, List.mem_filter, List.mem_map]
  constructor
  · rintro ⟨⟨⟨k, r⟩, hmem, heq⟩, hdirty⟩
    cases heq
    exact ⟨AList.mem_lookup_iff.mpr hmem, hdirty⟩
  · rintro ⟨hrow, hdirty⟩
    exact ⟨⟨⟨id, row⟩, AList.mem_lookup_iff.mp hrow, rfl⟩, hdirty⟩

/-- The ids of the rows of one kind are different. -/
theorem nodup_entryIds (s : Store) (kind : EntityKind) :
    ((((s.tables kind).entries.map fun e => ((e.1, e.2) : Uuid × Row (Cols kind)))).map
      (·.1)).Nodup := by
  rw [List.map_map]
  exact (s.tables kind).nodupKeys

theorem nodup_dirtyRows (s : Store) (kind : EntityKind) :
    ((s.dirtyRows kind).map (·.1)).Nodup := by
  have hperm := (List.perm_insertionSort clockBefore
    (((s.tables kind).entries.map fun e => ((e.1, e.2) : Uuid × Row (Cols kind))).filter
      (·.2.dirty))).map (·.1)
  refine hperm.nodup_iff.mpr ?_
  exact (s.nodup_entryIds kind).sublist (List.filter_sublist.map _)

/-- Everything of some kinds that could go up. -/
def outbox (s : Store) (vault : UnlockedVault) (kinds : List EntityKind) : List Envelope :=
  kinds.flatMap fun kind => (s.dirtyRows kind).filterMap (sealRow vault kind)

theorem mem_outbox {s : Store} {vault : UnlockedVault} {kinds : List EntityKind} {env : Envelope}
    (h : env ∈ s.outbox vault kinds) :
    env.kind ∈ kinds ∧ ∃ row, s.row? env.kind env.id = some row ∧ row.dirty = true ∧
      env.OfRow vault row := by
  obtain ⟨kind, hkind, hmem⟩ := List.mem_flatMap.mp h
  obtain ⟨e, he, hseal⟩ := List.mem_filterMap.mp hmem
  obtain ⟨rfl, hid, hof⟩ := sealRow_spec hseal
  obtain ⟨hrow, hdirty⟩ := mem_dirtyRows.mp he
  exact ⟨hkind, e.2, hid ▸ hrow, hdirty, hof⟩

/-- Which record an envelope is about. -/
def keyOf (env : Envelope) : EntityKind × Uuid := (env.kind, env.id)

theorem nodup_outbox (s : Store) (vault : UnlockedVault) {kinds : List EntityKind}
    (hkinds : kinds.Nodup) : ((s.outbox vault kinds).map keyOf).Nodup := by
  have hkeys : ∀ kind, ((s.dirtyRows kind).filterMap (sealRow vault kind)).map keyOf <+
      (s.dirtyRows kind).map fun e => (kind, e.1) := by
    intro kind
    induction s.dirtyRows kind with
    | nil => exact .refl _
    | cons e rest ih =>
      cases hseal : sealRow vault kind e with
      | none =>
        rw [List.filterMap_cons_none hseal, List.map_cons]
        exact ih.cons _
      | some env =>
        obtain ⟨hkind, hid, -⟩ := sealRow_spec hseal
        rw [List.filterMap_cons_some hseal, List.map_cons, List.map_cons]
        have hkey : keyOf env = (kind, e.1) := by rw [keyOf, hkind, hid]
        rw [hkey]
        exact ih.cons_cons _
  have hpairs : ∀ kind, ((s.dirtyRows kind).map fun e => (kind, e.1)).Nodup := by
    intro kind
    have h := (s.nodup_dirtyRows kind).map (Prod.mk_right_injective kind)
    rwa [List.map_map] at h
  rw [outbox, List.map_flatMap, List.nodup_flatMap]
  refine ⟨fun kind _ => (hpairs kind).sublist (hkeys kind), ?_⟩
  refine hkinds.imp_of_mem ?_
  intro a b _ _ hne x hxa hxb
  obtain ⟨e, -, ha⟩ := List.mem_map.mp ((hkeys a).subset hxa)
  obtain ⟨f, -, hb⟩ := List.mem_map.mp ((hkeys b).subset hxb)
  exact hne (congrArg Prod.fst (ha.trans hb.symm))

/-- What a batch under construction keeps to. -/
structure Fits (limit : ℕ) (p : Packing) : Prop where
  count : p.envelopes.length ≤ limit
  bytes : p.bytes = (p.envelopes.map (·.blob.length)).sum
  blobs : ∀ env ∈ p.envelopes, env.blob.length ≤ maxBlobBytes
  total : 1 < p.envelopes.length → p.bytes ≤ maxBatchBytes

theorem packRow_spec (vault : UnlockedVault) {limit : ℕ} {p : Packing} (h : Fits limit p)
    (row : Pending) (hroom : p.envelopes.length + 1 ≤ limit) :
    Fits limit (packRow vault p row) ∧
      (packRow vault p row).envelopes <+ p.envelopes ++ [sealPending vault row] ∧
      (packRow vault p row).envelopes.length ≤ p.envelopes.length + 1 := by
  have hsame : p.envelopes <+ p.envelopes ++ [sealPending vault row] := List.sublist_append_left _ _
  unfold packRow
  by_cases hfull : p.full = true
  · simp only [hfull, ↓reduceIte]
    exact ⟨h, hsame, by omega⟩
  simp only [hfull, Bool.false_eq_true, ↓reduceIte]
  by_cases hlarge : (sealPending vault row).blob.length > maxBlobBytes
  · simp only [hlarge, ↓reduceIte]
    exact ⟨⟨h.count, h.bytes, h.blobs, h.total⟩, hsame, by omega⟩
  simp only [hlarge, ↓reduceIte]
  by_cases hover : p.envelopes ≠ [] ∧
      p.bytes + (sealPending vault row).blob.length > maxBatchBytes
  · rw [if_pos hover]
    exact ⟨⟨h.count, h.bytes, h.blobs, h.total⟩, hsame, Nat.le_succ _⟩
  · rw [if_neg hover]
    refine ⟨⟨by simpa using hroom, by simp [h.bytes], ?_, ?_⟩, .refl _, by simp⟩
    · intro env henv
      rcases List.mem_append.mp henv with henv | henv
      · exact h.blobs env henv
      · rw [List.mem_singleton.mp henv]
        omega
    · intro hlen
      have hne : p.envelopes ≠ [] := by
        rintro heq
        simp [heq] at hlen
      have hle := fun hbig => hover ⟨hne, hbig⟩
      exact Nat.le_of_not_gt hle

theorem packRows_spec (vault : UnlockedVault) {limit : ℕ} (rows : List Pending) {p : Packing}
    (h : Fits limit p) (hroom : p.envelopes.length + rows.length ≤ limit) :
    Fits limit (rows.foldl (packRow vault) p) ∧
      (rows.foldl (packRow vault) p).envelopes <+ p.envelopes ++ rows.map (sealPending vault) := by
  induction rows generalizing p with
  | nil => exact ⟨h, by simp⟩
  | cons row rest ih =>
    rw [List.length_cons] at hroom
    obtain ⟨hfits, hsub, hlen⟩ := packRow_spec vault h row (by omega)
    obtain ⟨hfits', hsub'⟩ := ih hfits (by omega)
    refine ⟨hfits', hsub'.trans ?_⟩
    have hstep := hsub.append (List.Sublist.refl (rest.map (sealPending vault)))
    simpa using hstep

/-- The rows built for a batch are among those that could go up. -/
theorem pendingRows_sublist (s : Store) (vault : UnlockedVault) (kind : EntityKind) (limit : ℕ) :
    (s.pendingRows vault kind limit).1.map (sealPending vault) <+
      (s.dirtyRows kind).filterMap (sealRow vault kind) := by
  have htake : (s.dirtyRows kind).take limit <+ s.dirtyRows kind := List.take_sublist _ _
  have hbuilt : (s.pendingRows vault kind limit).1.map (sealPending vault) =
      ((s.dirtyRows kind).take limit).filterMap (sealRow vault kind) := by
    simp only [pendingRows, List.filterMap_map, List.map_filterMap]
    rfl
  rw [hbuilt]
  exact htake.filterMap _

theorem length_pendingRows_le (s : Store) (vault : UnlockedVault) (kind : EntityKind) (limit : ℕ) :
    (s.pendingRows vault kind limit).1.length ≤ limit := by
  have hle := List.length_filterMap_le id
    (((s.dirtyRows kind).take limit).map fun e => pendingOfRow vault kind e.1 e.2)
  rw [List.length_map, List.length_take] at hle
  exact hle.trans (min_le_left _ _)

theorem packKind_spec (s : Store) (vault : UnlockedVault) {limit : ℕ} {p : Packing}
    (h : Fits limit p) (kind : EntityKind) :
    Fits limit (s.packKind vault limit p kind) ∧
      (s.packKind vault limit p kind).envelopes <+
        p.envelopes ++ (s.dirtyRows kind).filterMap (sealRow vault kind) := by
  unfold packKind
  by_cases hskip : p.full = true ∨ limit ≤ p.envelopes.length
  · rw [if_pos hskip]
    exact ⟨h, List.sublist_append_left _ _⟩
  · rw [if_neg hskip]
    have hroom : p.envelopes.length < limit := by
      by_contra hge
      exact hskip (Or.inr (by omega))
    have hlen := s.length_pendingRows_le vault kind (limit - p.envelopes.length)
    obtain ⟨hfits, hsub⟩ := packRows_spec vault
      (s.pendingRows vault kind (limit - p.envelopes.length)).1
      (p := { p with leftOut := p.leftOut +
        (s.pendingRows vault kind (limit - p.envelopes.length)).2 })
      ⟨h.count, h.bytes, h.blobs, h.total⟩ (by simp only; omega)
    exact ⟨hfits, hsub.trans (List.Sublist.append (.refl _) (s.pendingRows_sublist vault kind _))⟩

theorem packKinds_spec (s : Store) (vault : UnlockedVault) {limit : ℕ} (kinds : List EntityKind)
    {p : Packing} (h : Fits limit p) :
    Fits limit (kinds.foldl (s.packKind vault limit) p) ∧
      (kinds.foldl (s.packKind vault limit) p).envelopes <+ p.envelopes ++ s.outbox vault kinds := by
  induction kinds generalizing p with
  | nil => exact ⟨h, by simp [outbox]⟩
  | cons kind rest ih =>
    obtain ⟨hfits, hsub⟩ := s.packKind_spec vault h kind
    obtain ⟨hfits', hsub'⟩ := ih hfits
    refine ⟨hfits', hsub'.trans ?_⟩
    have hstep := hsub.append (List.Sublist.refl (s.outbox vault rest))
    simpa [outbox] using hstep

/-- A batch handed to the server in one request. -/
structure Batch (s : Store) (envelopes : List Envelope) : Prop where
  rows : ∀ env ∈ envelopes, ∃ vault row, s.vault = some vault ∧
    s.row? env.kind env.id = some row ∧ row.dirty = true ∧ env.OfRow vault row
  nodup : (envelopes.map keyOf).Nodup
  count : envelopes.length ≤ maxBatch
  blobs : ∀ env ∈ envelopes, env.blob.length ≤ maxBlobBytes
  total : 1 < envelopes.length → (envelopes.map (·.blob.length)).sum ≤ maxBatchBytes

theorem pendingOf_spec {s : Store} {kinds : List EntityKind} (hkinds : kinds.Nodup)
    {envelopes : List Envelope} {leftOut : ℕ}
    (h : s.pendingOf kinds maxBatch = .ok (envelopes, leftOut)) :
    s.Batch envelopes ∧ ∀ env ∈ envelopes, env.kind ∈ kinds := by
  unfold pendingOf at h
  split at h
  · cases h
  next vault hvault =>
  cases h
  obtain ⟨hfits, hsub⟩ := s.packKinds_spec vault kinds (p := {})
    ⟨Nat.zero_le _, rfl, by simp, by simp⟩
  rw [List.nil_append] at hsub
  refine ⟨⟨?_, ?_, hfits.count, hfits.blobs, ?_⟩, ?_⟩
  · intro env henv
    obtain ⟨-, row, hrow, hdirty, hof⟩ := mem_outbox (hsub.subset henv)
    exact ⟨vault, row, hvault, hrow, hdirty, hof⟩
  · exact (s.nodup_outbox vault hkinds).sublist (hsub.map keyOf)
  · intro hlen
    rw [← hfits.bytes]
    exact hfits.total hlen
  · exact fun env henv => (mem_outbox (hsub.subset henv)).1

theorem pendingEnvelopes_spec {s : Store} {envelopes : List Envelope} {leftOut : ℕ}
    (h : s.pendingEnvelopes maxBatch = .ok (envelopes, leftOut)) : s.Batch envelopes :=
  (pendingOf_spec (by decide) h).1

theorem pendingApartEnvelopes_spec {s : Store} {envelopes : List Envelope} {leftOut : ℕ}
    (h : s.pendingApartEnvelopes maxBatch = .ok (envelopes, leftOut)) : s.Batch envelopes :=
  (pendingOf_spec (by decide) h).1

theorem pendingManifest_spec {s : Store} {env : Envelope}
    (h : s.pendingManifest = .ok (some env)) : s.Batch [env] := by
  unfold pendingManifest at h
  split at h
  · cases h
  next vault hvault =>
  split at h
  · cases h
  next row rest hrows =>
  by_cases hlarge : (sealPending vault row).blob.length > maxBlobBytes
  · simp [hlarge] at h
  simp only [hlarge, ↓reduceIte, Except.ok.injEq, Option.some.injEq] at h
  subst h
  have hmem : sealPending vault row ∈ s.outbox vault [.manifest] := by
    have hsub := (s.pendingRows_sublist vault .manifest 1).subset
    rw [hrows] at hsub
    simpa [outbox] using hsub (List.mem_cons_self ..)
  obtain ⟨-, row', hrow, hdirty, hof⟩ := mem_outbox hmem
  refine ⟨?_, by simp, by simp [maxBatch], ?_, by simp⟩
  · intro env henv
    rw [List.mem_singleton.mp henv]
    exact ⟨vault, row', hvault, hrow, hdirty, hof⟩
  · intro env henv
    rw [List.mem_singleton.mp henv]
    omega

section marking

/-- What marking does to one row: nothing, or its flag and number if the clock is the
one that went up. -/
def Marked (s t : Store) (pushed : List Pushed) (kind : EntityKind) (id : Uuid) : Prop :=
  t.row? kind id = s.row? kind id ∨ ∃ p ∈ pushed, p.kind = kind ∧ p.id = id ∧
    ∃ row, s.row? kind id = some row ∧ row.updatedAt = p.updatedAt ∧
      t.row? kind id = some { row with dirty := false, serverSeq := p.seq }

theorem markOne_spec (s : Store) (p : Pushed) :
    Frame s (s.markOne p).1 ∧ (s.markOne p).1.superseded = s.superseded ∧
      (s.markOne p).1.clock = s.clock ∧ ∀ kind id, Marked s (s.markOne p).1 [p] kind id := by
  unfold markOne
  split
  · next row hrow =>
    by_cases hclock : row.updatedAt = p.updatedAt
    · rw [if_pos hclock]
      refine ⟨frame_putRow s _ _ _, rfl, rfl, ?_⟩
      intro kind id
      by_cases h : kind = p.kind ∧ id = p.id
      · obtain ⟨rfl, rfl⟩ := h
        exact Or.inr ⟨p, List.mem_singleton_self p, rfl, rfl, row, hrow, hclock,
          s.row?_putRow_self _⟩
      · exact Or.inl (s.row?_putRow_of_pair_ne _ _ _ h)
    · rw [if_neg hclock]
      exact ⟨.refl s, rfl, rfl, fun kind id => Or.inl rfl⟩
  · exact ⟨.refl s, rfl, rfl, fun kind id => Or.inl rfl⟩

theorem Marked.trans {s t u : Store} {p : Pushed} {rest : List Pushed} {kind : EntityKind}
    {id : Uuid} (h : Marked s t [p] kind id) (h' : Marked t u rest kind id) :
    Marked s u (p :: rest) kind id := by
  rcases h with heq | ⟨q, hq, hkind, hid, row, hrow, hclock, hnew⟩
  · rcases h' with heq' | ⟨q, hq, hkind, hid, row, hrow, hclock, hnew⟩
    · exact Or.inl (heq'.trans heq)
    · exact Or.inr ⟨q, List.mem_cons_of_mem _ hq, hkind, hid, row, heq ▸ hrow, hclock, hnew⟩
  · rcases h' with heq' | ⟨q', hq', hkind', hid', row', hrow', hclock', hnew'⟩
    · exact Or.inr ⟨q, List.mem_cons.mpr (Or.inl (List.mem_singleton.mp hq)), hkind, hid, row, hrow,
        hclock, heq'.trans hnew⟩
    · rw [hnew] at hrow'
      cases hrow'
      exact Or.inr ⟨q', List.mem_cons_of_mem _ hq', hkind', hid', row, hrow, hclock', hnew'⟩

theorem markPushed_fst (s : Store) (pushed : List Pushed) :
    (s.markPushed pushed).1 = pushed.foldl (fun s p => (s.markOne p).1) s :=
  (List.foldl_hom Prod.fst fun _ _ => rfl).symm

theorem markPushed_cons (s : Store) (p : Pushed) (rest : List Pushed) :
    (s.markPushed (p :: rest)).1 = ((s.markOne p).1.markPushed rest).1 := by
  rw [markPushed_fst, markPushed_fst, List.foldl_cons]

theorem markPushed_spec (s : Store) (pushed : List Pushed) :
    Frame s (s.markPushed pushed).1 ∧ (s.markPushed pushed).1.superseded = s.superseded ∧
      (s.markPushed pushed).1.clock = s.clock ∧
      ∀ kind id, Marked s (s.markPushed pushed).1 pushed kind id := by
  induction pushed generalizing s with
  | nil => exact ⟨.refl s, rfl, rfl, fun kind id => Or.inl rfl⟩
  | cons p rest ih =>
    rw [markPushed_cons]
    obtain ⟨hframe, hsuper, hclock, hmarked⟩ := s.markOne_spec p
    obtain ⟨hframe', hsuper', hclock', hmarked'⟩ := ih (s.markOne p).1
    exact ⟨hframe.trans hframe', hsuper'.trans hsuper, hclock'.trans hclock,
      fun kind id => (hmarked kind id).trans (hmarked' kind id)⟩

/-- Marking, seen on the copy of one record. -/
theorem Marked.cell {s t : Store} {pushed : List Pushed} {kind : EntityKind} {id : Uuid}
    (h : Marked s t pushed kind id) (hsuper : t.superseded = s.superseded) :
    t.cell kind id = s.cell kind id ∨ ∃ p ∈ pushed, p.kind = kind ∧ p.id = id ∧
      (s.cell kind id).version.updatedAt = p.updatedAt ∧
      t.cell kind id = { s.cell kind id with dirty := false, base := p.seq } := by
  have hmark : t.mark kind id = s.mark kind id := mark_congr (by rw [hsuper]) kind
  rcases h with heq | ⟨p, hp, hkind, hid, row, hrow, hclock, hnew⟩
  · left
    simp [Store.cell, heq, hmark]
  · right
    refine ⟨p, hp, hkind, hid, ?_, ?_⟩
    · rw [cell_of_some hrow]
      exact hclock
    · rw [cell_of_some hrow, cell_of_some hnew, hmark]
      rfl

end marking

end Store

end UwuSsh

import UwuSsh.Lib.Queue
import UwuSsh.Store.PendingFacts

/-!
Whether everything that waits goes up in the end. A request takes a window of the
oldest waiting rows of each kind and drops those it cannot seal, so a kind's rows are a
queue in which the unsealable ones are stuck. While every push is taken, a row that can be
sealed is reached if fewer stuck rows than a request holds stand before it, and never
otherwise.
-/
namespace UwuSsh

namespace Store

section order

variable {α : Type}

instance : IsTrans (Uuid × Row α) clockBefore where
  trans a b c hab hbc := by
    rcases hab with hab | ⟨hab, hle⟩
    · rcases hbc with hbc | ⟨hbc, -⟩
      · exact Or.inl (by omega)
      · exact Or.inl (by omega)
    · rcases hbc with hbc | ⟨hbc, hle'⟩
      · exact Or.inl (by omega)
      · exact Or.inr ⟨hab.trans hbc, UInt32.le_trans hle hle'⟩

instance : Std.Total (clockBefore : Uuid × Row α → Uuid × Row α → Prop) where
  total a b := by
    rcases lt_trichotomy a.2.updatedAt.signedWall b.2.updatedAt.signedWall with h | h | h
    · exact Or.inl (Or.inl h)
    · rcases UInt32.le_total a.2.updatedAt.counter b.2.updatedAt.counter with hle | hle
      · exact Or.inl (Or.inr ⟨h, hle⟩)
      · exact Or.inr (Or.inr ⟨h.symm, hle⟩)
    · exact Or.inr (Or.inl h)

end order

/-- A row that goes up when its turn comes. -/
def sealable (vault : UnlockedVault) (kind : EntityKind) (e : Uuid × Row (Cols kind)) : Bool :=
  (sealRow vault kind e).any fun env => env.blob.length ≤ maxBlobBytes

/-- How many rows that cannot go up stand before a row of the same kind. -/
def blocking (s : Store) (vault : UnlockedVault) (kind : EntityKind) (id : Uuid) : ℕ :=
  Queue.ahead (fun e => !sealable vault kind e) (fun e => e.1 = id) (s.dirtyRows kind)

/-- A batch offers a record. -/
def OffersRow (s : Store) (kinds : List EntityKind) (limit : ℕ) (kind : EntityKind) (id : Uuid) :
    Prop :=
  ∃ envelopes leftOut, s.pendingOf kinds limit = .ok (envelopes, leftOut) ∧ (kind, id) ∈ envelopes.map keyOf

/-- A batch goes up and the server takes every record of it. -/
def Pushes (kinds : List EntityKind) (limit : ℕ) (s t : Store) : Prop :=
  ∃ envelopes leftOut, s.pendingOf kinds limit = .ok (envelopes, leftOut) ∧
    ∃ seq : Envelope → ℕ, t = (s.markPushed (envelopes.map fun env =>
      { id := env.id, kind := env.kind, updatedAt := env.updatedAt, seq := seq env })).1

section marking

theorem kerase_eq_filter {β : Uuid → Type} {id : Uuid} {l : List (Sigma β)} (h : l.NodupKeys) :
    l.kerase id = l.filter fun e => e.1 ≠ id := by
  induction l with
  | nil => rfl
  | cons e rest ih =>
    obtain ⟨hnot, hrest⟩ := List.nodupKeys_cons.mp h
    by_cases he : id = e.1
    · subst he
      have hall : ∀ x ∈ rest, x.1 ≠ e.1 := fun x hx heq =>
        hnot (heq ▸ List.mem_map_of_mem hx)
      rw [List.kerase_cons_eq rfl, List.filter_cons_of_neg (by simp),
        List.filter_eq_self.mpr fun x hx => by simpa using hall x hx]
    · rw [List.kerase_cons_ne he, ih hrest, List.filter_cons_of_pos (by simpa using Ne.symm he)]

/-- A row that is written clean leaves its queue and moves no other row. -/
theorem dirtyRows_putRow_clean (s : Store) (kind : EntityKind) (id : Uuid) {row : Row (Cols kind)}
    (hclean : row.dirty = false) (kind' : EntityKind) :
    (s.putRow kind id row).dirtyRows kind' =
      (s.dirtyRows kind').filter fun e => !decide ((kind', e.1) = (kind, id)) := by
  unfold dirtyRows
  rw [Queue.filter_insertionSort]
  refine congrArg (List.insertionSort clockBefore) ?_
  by_cases hkind : kind' = kind
  · subst hkind
    have htable : (s.putRow kind' id row).tables kind' = (s.tables kind').insert id row := by
      simp [putRow, setTable]
    rw [htable, AList.entries_insert, kerase_eq_filter (s.tables kind').nodupKeys, List.map_cons,
      List.filter_cons_of_neg (by simpa using hclean), List.filter_map, List.filter_map,
      List.filter_filter, List.filter_map, List.filter_filter]
    congr 1
    apply List.filter_congr
    intro e _
    simp [Bool.and_comm]
  · have htable : (s.putRow kind id row).tables kind' = s.tables kind' := by
      simp [putRow, setTable, hkind]
    have hall : ∀ e : Uuid × Row (Cols kind'), (!decide ((kind', e.1) = (kind, id))) = true :=
      fun e => by simp [hkind]
    rw [htable]
    exact (List.filter_eq_self.mpr fun e _ => hall e).symm

/-- What marking a batch as taken leaves of the queues. -/
theorem dirtyRows_markPushed {seq : Envelope → ℕ} {envelopes : List Envelope}
    (hnodup : (envelopes.map keyOf).Nodup) {s : Store}
    (hrows : ∀ env ∈ envelopes, ∃ row, s.row? env.kind env.id = some row ∧
      row.updatedAt = env.updatedAt) (kind : EntityKind) :
    (s.markPushed (envelopes.map fun env =>
      { id := env.id, kind := env.kind, updatedAt := env.updatedAt, seq := seq env })).1.dirtyRows
        kind = (s.dirtyRows kind).filter fun e => !decide ((kind, e.1) ∈ envelopes.map keyOf) := by
  induction envelopes generalizing s with
  | nil => exact (List.filter_eq_self.mpr fun e _ => by simp).symm
  | cons env rest ih =>
    obtain ⟨row, hrow, hclock⟩ := hrows env (List.mem_cons_self ..)
    obtain ⟨hnot, hnodup⟩ := List.nodup_cons.mp hnodup
    have hmark : (s.markOne
        { id := env.id, kind := env.kind, updatedAt := env.updatedAt, seq := seq env }).1 =
        s.putRow env.kind env.id { row with dirty := false, serverSeq := seq env } := by
      simp [markOne, hrow, hclock]
    rw [List.map_cons, markPushed_cons, hmark]
    have hrest := ih hnodup (s := s.putRow env.kind env.id
        { row with dirty := false, serverSeq := seq env }) ?_
    · rw [hrest, dirtyRows_putRow_clean _ _ _ rfl, List.filter_filter]
      apply List.filter_congr
      intro e _
      rw [List.map_cons, Bool.and_comm, ← Bool.not_or, ← Bool.decide_or]
      exact congrArg not (decide_eq_decide.mpr List.mem_cons.symm)
    · intro other hother
      obtain ⟨row', hrow', hclock'⟩ := hrows other (List.mem_cons_of_mem _ hother)
      refine ⟨row', ?_, hclock'⟩
      rw [row?_putRow_of_pair_ne, hrow']
      intro heq
      exact hnot (List.mem_map.mpr ⟨other, hother, Prod.ext heq.1 heq.2⟩)

end marking

section window

variable {vault : UnlockedVault} {limit : ℕ}

/-- What is built for a batch comes from the window of its kind. -/
theorem mem_pendingRows {s : Store} {kind : EntityKind} {row : Pending}
    (h : row ∈ (s.pendingRows vault kind limit).1) :
    ∃ e ∈ (s.dirtyRows kind).take limit, pendingOfRow vault kind e.1 e.2 = some row := by
  simp only [pendingRows, List.mem_filterMap, List.mem_map, id] at h
  obtain ⟨_, ⟨e, he, rfl⟩, hrow⟩ := h
  exact ⟨e, he, hrow⟩

theorem packKind_window (s : Store) (p : Packing) (kind : EntityKind) {env : Envelope}
    (h : env ∈ (s.packKind vault limit p kind).envelopes) :
    env ∈ p.envelopes ∨ ∃ e ∈ (s.dirtyRows kind).take limit, sealRow vault kind e = some env := by
  unfold packKind at h
  by_cases hskip : p.full = true ∨ limit ≤ p.envelopes.length
  · rw [if_pos hskip] at h
    exact Or.inl h
  rw [if_neg hskip] at h
  have hrows : ∀ (rows : List Pending) (q : Packing),
      env ∈ (rows.foldl (packRow vault) q).envelopes →
        env ∈ q.envelopes ∨ ∃ row ∈ rows, sealPending vault row = env := by
    intro rows
    induction rows with
    | nil => exact fun q hq => Or.inl hq
    | cons row rest ih =>
      intro q hq
      rcases ih _ hq with hq | ⟨row', hrow', heq⟩
      · unfold packRow at hq
        dsimp only at hq
        split at hq
        · exact Or.inl hq
        · split at hq
          · exact Or.inl hq
          · split at hq
            · exact Or.inl hq
            · rcases List.mem_append.mp hq with hq | hq
              · exact Or.inl hq
              · exact Or.inr ⟨row, List.mem_cons_self .., (List.mem_singleton.mp hq).symm⟩
      · exact Or.inr ⟨row', List.mem_cons_of_mem _ hrow', heq⟩
  rcases hrows _ _ h with hold | ⟨row, hrow, rfl⟩
  · exact Or.inl hold
  · obtain ⟨e, he, hbuilt⟩ := mem_pendingRows hrow
    refine Or.inr ⟨e, List.take_subset_take_left _ (Nat.sub_le _ _) he, ?_⟩
    rw [sealRow, hbuilt]
    rfl

/-- Every record of a batch stood in the window of its kind and could be sealed. -/
theorem pendingOf_window {s : Store} {kinds : List EntityKind} (hvault : s.vault = some vault)
    {envelopes : List Envelope} {leftOut : ℕ}
    (h : s.pendingOf kinds limit = .ok (envelopes, leftOut)) {env : Envelope}
    (henv : env ∈ envelopes) :
    env.kind ∈ kinds ∧ ∃ e ∈ (s.dirtyRows env.kind).take limit, e.1 = env.id ∧
      sealRow vault env.kind e = some env ∧ sealable vault env.kind e = true := by
  unfold pendingOf at h
  rw [hvault] at h
  cases h
  have hblob : env.blob.length ≤ maxBlobBytes :=
    (s.packKinds_spec vault kinds (p := {}) ⟨Nat.zero_le _, rfl, by simp, by simp⟩).1.blobs env henv
  have hwindow : ∀ (ks : List EntityKind) (p : Packing),
      env ∈ (ks.foldl (s.packKind vault limit) p).envelopes → env ∈ p.envelopes ∨
        ∃ kind ∈ ks, ∃ e ∈ (s.dirtyRows kind).take limit, sealRow vault kind e = some env := by
    intro ks
    induction ks with
    | nil => exact fun p hp => Or.inl hp
    | cons kind rest ih =>
      intro p hp
      rcases ih _ hp with hp | ⟨kind', hkind', he⟩
      · rcases s.packKind_window p kind hp with hp | he
        · exact Or.inl hp
        · exact Or.inr ⟨kind, List.mem_cons_self .., he⟩
      · exact Or.inr ⟨kind', List.mem_cons_of_mem _ hkind', he⟩
  rcases hwindow kinds {} henv with hnil | ⟨kind, hkind, e, he, hseal⟩
  · cases hnil
  · obtain ⟨rfl, hid, -⟩ := sealRow_spec hseal
    refine ⟨hkind, e, he, hid.symm, hseal, ?_⟩
    rw [sealable, hseal]
    simpa using hblob

theorem pendingOf_fits {s : Store} {kinds : List EntityKind} {envelopes : List Envelope}
    {leftOut : ℕ} (h : s.pendingOf kinds limit = .ok (envelopes, leftOut)) :
    envelopes.length ≤ limit ∧
      (1 < envelopes.length → (envelopes.map (·.blob.length)).sum ≤ maxBatchBytes) := by
  unfold pendingOf at h
  split at h
  · cases h
  next vault hvault =>
  cases h
  have hfits := (s.packKinds_spec vault kinds (p := {}) ⟨Nat.zero_le limit, rfl, by simp, by simp⟩).1
  exact ⟨hfits.count, fun hmany => hfits.bytes ▸ hfits.total hmany⟩

/-- A batch under construction that has met nothing yet it could take. -/
structure Idle (p : Packing) : Prop where
  empty : p.envelopes = []
  unfilled : p.full = false

theorem packRow_grows {p : Packing} {row : Pending}
    (h : (packRow vault p row).envelopes = []) : p.envelopes = [] := by
  unfold packRow at h
  dsimp only at h
  split at h
  · exact h
  · split at h
    · exact h
    · split at h
      · exact h
      · exact (List.append_eq_nil_iff.mp h).1

theorem packRows_grow {rows : List Pending} {p : Packing}
    (h : (rows.foldl (packRow vault) p).envelopes = []) : p.envelopes = [] := by
  induction rows generalizing p with
  | nil => exact h
  | cons row rest ih => exact packRow_grows (ih h)

theorem packRows_idle {rows : List Pending} {p : Packing} (hp : Idle p)
    (h : (rows.foldl (packRow vault) p).envelopes = []) :
    Idle (rows.foldl (packRow vault) p) ∧
      ∀ row ∈ rows, maxBlobBytes < (sealPending vault row).blob.length := by
  induction rows generalizing p with
  | nil => exact ⟨hp, by simp⟩
  | cons row rest ih =>
    have hnil : (packRow vault p row).envelopes = [] := packRows_grow h
    by_cases hlarge : (sealPending vault row).blob.length > maxBlobBytes
    · have hstep : packRow vault p row = { p with leftOut := p.leftOut + 1 } := by
        simp [packRow, hp.unfilled, hlarge]
      have hidle : Idle (packRow vault p row) := by
        rw [hstep]
        exact ⟨hp.empty, hp.unfilled⟩
      obtain ⟨hend, hrest⟩ := ih hidle h
      refine ⟨hend, fun row' hrow' => ?_⟩
      rcases List.mem_cons.mp hrow' with rfl | hrow'
      · exact hlarge
      · exact hrest row' hrow'
    · simp [packRow, hp.unfilled, hp.empty, hlarge] at hnil

theorem packKind_idle {s : Store} {p : Packing} (hp : Idle p) {kind : EntityKind}
    (h : (s.packKind vault limit p kind).envelopes = []) :
    Idle (s.packKind vault limit p kind) ∧
      ∀ e ∈ (s.dirtyRows kind).take limit, sealable vault kind e = false := by
  unfold packKind at h ⊢
  by_cases hskip : p.full = true ∨ limit ≤ p.envelopes.length
  · rw [if_pos hskip] at h ⊢
    have hzero : limit = 0 := by
      rcases hskip with hfull | hle
      · rw [hp.unfilled] at hfull
        cases hfull
      · rw [hp.empty] at hle
        exact Nat.le_zero.mp hle
    exact ⟨hp, by simp [hzero]⟩
  · rw [if_neg hskip] at h ⊢
    have hlimit : limit - p.envelopes.length = limit := by rw [hp.empty]; rfl
    dsimp only at h ⊢
    rw [hlimit] at h ⊢
    have hidle : Idle { p with leftOut := p.leftOut + (s.pendingRows vault kind limit).2 } :=
      ⟨hp.empty, hp.unfilled⟩
    obtain ⟨hend, hlarge⟩ := packRows_idle hidle h
    refine ⟨hend, fun e he => ?_⟩
    cases hbuilt : pendingOfRow vault kind e.1 e.2 with
    | none => simp [sealable, sealRow, hbuilt]
    | some row =>
      have hrow : row ∈ (s.pendingRows vault kind limit).1 := by
        simp only [pendingRows, List.mem_filterMap, List.mem_map, id]
        exact ⟨some row, ⟨e, he, hbuilt⟩, rfl⟩
      have hover := hlarge row hrow
      simp only [sealable, sealRow, hbuilt, Option.map_some, Option.any_some, decide_eq_false_iff_not]
      omega

/-- A batch of nothing found nothing that could be sealed in any window. -/
theorem stuck_of_pendingOf_nil {s : Store} {kinds : List EntityKind}
    (hvault : s.vault = some vault) {leftOut : ℕ} (h : s.pendingOf kinds limit = .ok ([], leftOut))
    {kind : EntityKind} (hkind : kind ∈ kinds) :
    ∀ e ∈ (s.dirtyRows kind).take limit, sealable vault kind e = false := by
  unfold pendingOf at h
  rw [hvault] at h
  have hnil : (kinds.foldl (s.packKind vault limit) {}).envelopes = [] := by
    injection h with h
    exact (Prod.mk.inj h).1
  have hgrows : ∀ (ks : List EntityKind) (p : Packing),
      (ks.foldl (s.packKind vault limit) p).envelopes = [] → p.envelopes = [] := by
    intro ks
    induction ks with
    | nil => exact fun p hp => hp
    | cons k rest ih =>
      intro p hp
      have hk := ih _ hp
      unfold packKind at hk
      split at hk
      · exact hk
      · dsimp only at hk
        have hgrown := packRows_grow hk
        exact hgrown
  have hidle : ∀ (ks : List EntityKind) (p : Packing), Idle p →
      (ks.foldl (s.packKind vault limit) p).envelopes = [] → ∀ k ∈ ks,
        ∀ e ∈ (s.dirtyRows k).take limit, sealable vault k e = false := by
    intro ks
    induction ks with
    | nil => simp
    | cons k rest ih =>
      intro p hp hend k' hk'
      obtain ⟨hnext, hstuck⟩ := packKind_idle hp (hgrows rest _ hend)
      rcases List.mem_cons.mp hk' with rfl | hk'
      · exact hstuck
      · exact ih _ hnext hend k' hk'
  exact hidle kinds {} ⟨rfl, rfl⟩ hnil kind hkind

end window

section runs

variable {vault : UnlockedVault} {limit : ℕ} {kinds : List EntityKind} {s t : Store}
  {kind : EntityKind} {id : Uuid} {row : Row (Cols kind)}

/-- A row that waits, and goes up when its turn comes. -/
structure Waiting (vault : UnlockedVault) (s : Store) (kind : EntityKind) (id : Uuid)
    (row : Row (Cols kind)) : Prop where
  unlocked : s.vault = some vault
  here : s.row? kind id = some row
  dirty : row.dirty = true
  sealable : Store.sealable vault kind (id, row) = true

/-- The ids of a queue are different. -/
theorem eq_of_mem_dirtyRows (hrow : s.row? kind id = some row) {e : Uuid × Row (Cols kind)}
    (he : e ∈ s.dirtyRows kind) (hid : e.1 = id) : e = (id, row) := by
  obtain ⟨id', row'⟩ := e
  obtain rfl : id' = id := hid
  rw [(mem_dirtyRows.mp he).1] at hrow
  cases hrow
  rfl

/-- A push leaves what it did not offer as it was, and takes the rest out of the queues. -/
theorem Pushes.spec (hkinds : kinds.Nodup) (hvault : s.vault = some vault)
    (h : Pushes kinds limit s t) :
    t.vault = some vault ∧ ∃ envelopes leftOut,
      s.pendingOf kinds limit = .ok (envelopes, leftOut) ∧
      (∀ kind, t.dirtyRows kind =
        (s.dirtyRows kind).filter fun e => !decide ((kind, e.1) ∈ envelopes.map keyOf)) ∧
      ∀ kind id, (kind, id) ∉ envelopes.map keyOf → t.row? kind id = s.row? kind id := by
  obtain ⟨envelopes, leftOut, hpending, seq, rfl⟩ := h
  have hrows : ∀ env ∈ envelopes, ∃ row, s.row? env.kind env.id = some row ∧
      row.updatedAt = env.updatedAt := by
    intro env henv
    obtain ⟨-, e, he, hid, hseal, -⟩ := pendingOf_window hvault hpending henv
    obtain ⟨_, -, hof⟩ := sealRow_spec hseal
    have hrow := (mem_dirtyRows.mp (List.mem_of_mem_take he)).1
    rw [hid] at hrow
    exact ⟨e.2, hrow, (congrArg Version.updatedAt hof.version).symm⟩
  have hnodup : (envelopes.map keyOf).Nodup := by
    unfold pendingOf at hpending
    rw [hvault] at hpending
    cases hpending
    have hsub := (s.packKinds_spec vault kinds (p := {}) ⟨Nat.zero_le limit, rfl, by simp, by simp⟩).2
    rw [List.nil_append] at hsub
    exact (s.nodup_outbox vault hkinds).sublist (hsub.map keyOf)
  obtain ⟨hframe, -, -, hmarked⟩ := s.markPushed_spec (envelopes.map fun env =>
    { id := env.id, kind := env.kind, updatedAt := env.updatedAt, seq := seq env })
  refine ⟨hframe.vault.trans hvault, envelopes, leftOut, hpending,
    dirtyRows_markPushed hnodup hrows, fun kind id hnot => ?_⟩
  rcases hmarked kind id with hsame | ⟨p, hp, hkind, hid, -⟩
  · exact hsame
  · obtain ⟨env, henv, rfl⟩ := List.mem_map.mp hp
    exact absurd (List.mem_map.mpr ⟨env, henv, Prod.ext hkind hid⟩) hnot

/-- A row that is not offered goes on waiting behind as many stuck rows. -/
theorem Waiting.step (hkinds : kinds.Nodup) (hwaiting : s.Waiting vault kind id row)
    (hnot : ¬ s.OffersRow kinds limit kind id) (h : Pushes kinds limit s t) :
    t.Waiting vault kind id row ∧ t.blocking vault kind id = s.blocking vault kind id := by
  obtain ⟨hvault, envelopes, leftOut, hpending, hdirty, hrows⟩ := h.spec hkinds hwaiting.unlocked
  have hmem : (kind, id) ∉ envelopes.map keyOf := fun hin => hnot ⟨envelopes, leftOut, hpending, hin⟩
  refine ⟨⟨hvault, (hrows kind id hmem).trans hwaiting.here, hwaiting.dirty, hwaiting.sealable⟩, ?_⟩
  rw [blocking, hdirty]
  apply Queue.ahead_filter
  intro e he hkeep
  -- What was taken away could be sealed, and it is not the row itself.
  by_contra hgone
  have hin : (kind, e.1) ∈ envelopes.map keyOf := by simpa using hgone
  rcases hkeep with hstuck | hid
  · obtain ⟨env, henv, hkey⟩ := List.mem_map.mp hin
    obtain ⟨rfl, hid⟩ := Prod.mk.inj hkey
    obtain ⟨-, e', he', hid', -, hfree⟩ := pendingOf_window hwaiting.unlocked hpending henv
    have hsame : e' = e := by
      have hrow := (mem_dirtyRows.mp he).1
      exact eq_of_mem_dirtyRows hrow (List.mem_of_mem_take he') (hid'.trans hid)
    rw [hsame] at hfree
    simp [hfree] at hstuck
  · have hsame : e.1 = id := of_decide_eq_true hid
    exact hmem (hsame ▸ hin)

/-- How many rows wait in some queues. -/
def queued (s : Store) (kinds : List EntityKind) : ℕ :=
  (kinds.map fun kind => (s.dirtyRows kind).length).sum

/-- A push that offers anything makes the queues shorter. -/
theorem Pushes.queued_lt (hkinds : kinds.Nodup) (hvault : s.vault = some vault)
    (h : Pushes kinds limit s t) {env : Envelope} {envelopes : List Envelope} {leftOut : ℕ}
    (hpending : s.pendingOf kinds limit = .ok (envelopes, leftOut)) (henv : env ∈ envelopes) :
    t.queued kinds < s.queued kinds := by
  obtain ⟨-, envelopes', leftOut', hpending', hdirty, -⟩ := h.spec hkinds hvault
  rw [hpending] at hpending'
  cases hpending'
  obtain ⟨hkind, e, he, hid, -, -⟩ := pendingOf_window hvault hpending henv
  unfold queued
  apply List.sum_lt_sum
  · intro kind _
    rw [hdirty kind]
    exact List.length_filter_le _ _
  · refine ⟨env.kind, hkind, ?_⟩
    rw [hdirty env.kind]
    apply List.length_filter_lt_length_iff_exists.mpr
    refine ⟨e, List.mem_of_mem_take he, ?_⟩
    have hin : (env.kind, e.1) ∈ envelopes.map keyOf :=
      List.mem_map.mpr ⟨env, henv, by rw [hid]; rfl⟩
    simpa using hin

/-- A row that too few stuck ones stand before is offered in the end. -/
theorem offered_of_blocking_lt (hkinds : kinds.Nodup) {run : ℕ → Store}
    (hrun : ∀ n, Pushes kinds limit (run n) (run (n + 1))) (hkind : kind ∈ kinds)
    (hwaiting : (run 0).Waiting vault kind id row) (hlt : (run 0).blocking vault kind id < limit) :
    ∃ n, (run n).OffersRow kinds limit kind id := by
  induction hq : (run 0).queued kinds using Nat.strong_induction_on generalizing run with
  | _ q ih =>
    by_cases hnow : (run 0).OffersRow kinds limit kind id
    · exact ⟨0, hnow⟩
    obtain ⟨-, envelopes, leftOut, hpending, -, -⟩ := (hrun 0).spec hkinds hwaiting.unlocked
    obtain ⟨hnext, hsame⟩ := hwaiting.step hkinds hnow (hrun 0)
    cases henv : envelopes with
    | nil =>
      -- Nothing was sealed, so the window holds stuck rows only.
      rw [henv] at hpending
      have hstuck := stuck_of_pendingOf_nil hwaiting.unlocked hpending hkind
      have hmem := mem_dirtyRows.mpr ⟨hwaiting.here, hwaiting.dirty⟩
      obtain ⟨e, he, hfree⟩ := Queue.exists_free_of_ahead_lt hmem (by simp)
        (fun e he hid => by
          rw [eq_of_mem_dirtyRows hwaiting.here he (of_decide_eq_true hid)]
          simp [hwaiting.sealable]) hlt
      rw [hstuck e he] at hfree
      cases hfree
    | cons env rest =>
      have hless : (run 1).queued kinds < q :=
        hq ▸ (hrun 0).queued_lt hkinds hwaiting.unlocked hpending (henv ▸ List.mem_cons_self ..)
      let after (n : ℕ) := run (n + 1)
      have hafter : ∀ n, Pushes kinds limit (after n) (after (n + 1)) := fun n => hrun (n + 1)
      obtain ⟨n, hn⟩ := ih _ hless hafter hnext (hsame ▸ hlt) rfl
      exact ⟨n + 1, hn⟩

/-- A row that a window of stuck ones stands before is never offered. -/
theorem not_offered_of_le_blocking (hkinds : kinds.Nodup) {run : ℕ → Store}
    (hrun : ∀ n, Pushes kinds limit (run n) (run (n + 1)))
    (hwaiting : (run 0).Waiting vault kind id row) (hle : limit ≤ (run 0).blocking vault kind id)
    (n : ℕ) : ¬ (run n).OffersRow kinds limit kind id := by
  have hno : ∀ n, (run n).Waiting vault kind id row ∧ limit ≤ (run n).blocking vault kind id →
      ¬ (run n).OffersRow kinds limit kind id := by
    rintro n ⟨hwaits, hfull⟩ ⟨envelopes, leftOut, hpending, hin⟩
    obtain ⟨env, henv, hkey⟩ := List.mem_map.mp hin
    obtain ⟨rfl, rfl⟩ := Prod.mk.inj hkey
    obtain ⟨-, e, he, hid, -, -⟩ := pendingOf_window hwaits.unlocked hpending henv
    have hnot := Queue.not_wanted_of_le_ahead hfull e he
    simp [hid] at hnot
  have hall : ∀ n, (run n).Waiting vault kind id row ∧ limit ≤ (run n).blocking vault kind id := by
    intro n
    induction n with
    | zero => exact ⟨hwaiting, hle⟩
    | succ n ih =>
      obtain ⟨hnext, hsame⟩ := ih.1.step hkinds (hno n ih) (hrun n)
      exact ⟨hnext, hsame ▸ ih.2⟩
  exact hno n (hall n)

/-- While the vault is open a push can be taken, and the vault stays open. -/
theorem exists_pushes (hkinds : kinds.Nodup) (limit : ℕ) (hvault : s.vault = some vault) :
    ∃ t, Pushes kinds limit s t ∧ t.vault = some vault := by
  have hready : ∃ envelopes leftOut, s.pendingOf kinds limit = .ok (envelopes, leftOut) := by
    unfold pendingOf
    rw [hvault]
    exact ⟨_, _, rfl⟩
  obtain ⟨envelopes, leftOut, hpending⟩ := hready
  have hpushes : Pushes kinds limit s (s.markPushed (envelopes.map fun env =>
      { id := env.id, kind := env.kind, updatedAt := env.updatedAt, seq := 0 })).1 :=
    ⟨envelopes, leftOut, hpending, fun _ => 0, rfl⟩
  exact ⟨_, hpushes, (hpushes.spec hkinds hvault).1⟩

/-- Pushes that are all taken can go on for ever. -/
theorem exists_run (hkinds : kinds.Nodup) (limit : ℕ) (hvault : s.vault = some vault) :
    ∃ run : ℕ → Store, run 0 = s ∧ ∀ n, Pushes kinds limit (run n) (run (n + 1)) := by
  choose next hnext hopen using fun u : { u : Store // u.vault = some vault } =>
    exists_pushes hkinds limit u.2
  let run : ℕ → { u : Store // u.vault = some vault } :=
    fun n => Nat.rec ⟨s, hvault⟩ (fun _ u => ⟨next u, hopen u⟩) n
  exact ⟨fun n => (run n).1, rfl, fun n => hnext (run n)⟩

end runs

/-- The kinds that share a request. -/
def sharedKinds : List EntityKind := syncedKinds.filter fun kind => !kind.travelsApart

theorem nodup_sharedKinds : sharedKinds.Nodup := by decide

/-- Over pushes that are all taken, a dirty row that can be sealed is offered if and only
if fewer rows than a batch holds stand stuck before it in its kind. Every batch keeps to its
limits, but for a record that is too large for company. -/
theorem offered_iff_blocking_lt {vault : UnlockedVault} {limit : ℕ} {run : ℕ → Store}
    (hrun : ∀ n, Pushes sharedKinds limit (run n) (run (n + 1))) {kind : EntityKind}
    (hkind : kind ∈ sharedKinds) {id : Uuid} {row : Row (Cols kind)}
    (hwaiting : (run 0).Waiting vault kind id row) :
    ((∃ n, (run n).OffersRow sharedKinds limit kind id) ↔
      (run 0).blocking vault kind id < limit) ∧
    ∀ n envelopes leftOut, (run n).pendingEnvelopes limit = .ok (envelopes, leftOut) →
      envelopes.length ≤ limit ∧
        (1 < envelopes.length → (envelopes.map (·.blob.length)).sum ≤ maxBatchBytes) := by
  refine ⟨⟨?_, offered_of_blocking_lt nodup_sharedKinds hrun hkind hwaiting⟩, ?_⟩
  · rintro ⟨n, hoffers⟩
    by_contra hge
    exact not_offered_of_le_blocking nodup_sharedKinds hrun hwaiting (not_lt.mp hge) n hoffers
  · exact fun n envelopes leftOut h => pendingOf_fits h

section examples

def outboxVault : UnlockedVault := { vaultId := 7, key := 42 }

/-- A secret that waits, changed at some time. -/
def waitingSecret (wallMs : ℕ) (box : Sealed) : Row Sealed where
  vaultId := 7
  updatedAt := { wallMs := .ofNat wallMs, counter := 0, device := 1 }
  rev := 1
  deleted := false
  dirty := true
  serverSeq := 0
  cols := box

/-- Five hundred secrets that nothing opens, and behind them a good one. -/
def brokenSecrets : List (Sigma fun _ : Uuid => Row Sealed) :=
  (List.range maxBatch).map (fun n => ⟨.ofNat 128 n, waitingSecret n { nonce := [], blob := .raw [] }⟩) ++
    [⟨500, waitingSecret 500 (outboxVault.sealStored 500 .secret (.bytes []))⟩]

theorem nodupKeys_brokenSecrets : brokenSecrets.NodupKeys := by
  have hkeys : brokenSecrets.keys = (List.range (maxBatch + 1)).map (BitVec.ofNat 128) := by
    rw [List.range_succ, List.map_append]
    simp [brokenSecrets, List.keys, Function.comp_def, maxBatch]
  rw [List.NodupKeys, hkeys]
  refine List.nodup_range.map_on fun a ha b hb heq => ?_
  have ha := List.mem_range.mp ha
  have hb := List.mem_range.mp hb
  have hval := congrArg BitVec.toNat heq
  simp only [BitVec.toNat_ofNat, maxBatch] at hval ha hb
  omega

def brokenStore : Store :=
  (Store.empty 1 7 (some outboxVault)).setTable .secret ⟨brokenSecrets, nodupKeys_brokenSecrets⟩

def goodSecret : Row (Cols .secret) :=
  waitingSecret 500 (outboxVault.sealStored 500 .secret (.bytes []))

theorem waiting_goodSecret : brokenStore.Waiting outboxVault .secret 500 goodSecret :=
  ⟨rfl, by decide +kernel, rfl, by decide +kernel⟩

theorem blocking_goodSecret : brokenStore.blocking outboxVault .secret 500 = maxBatch := by
  decide +kernel

/-- Five hundred broken secrets keep a good one from ever going up. -/
theorem good_secret_starves : ¬ ∀ (vault : UnlockedVault) (run : ℕ → Store),
    (∀ n, Pushes sharedKinds maxBatch (run n) (run (n + 1))) → ∀ kind ∈ sharedKinds,
      ∀ (id : Uuid) (row : Row (Cols kind)), (run 0).Waiting vault kind id row →
        ∃ n, (run n).OffersRow sharedKinds maxBatch kind id := by
  intro hall
  obtain ⟨run, hstart, hrun⟩ := exists_run (s := brokenStore) nodup_sharedKinds maxBatch
    rfl
  have hwaiting : (run 0).Waiting outboxVault .secret 500 goodSecret :=
    hstart ▸ waiting_goodSecret
  have hblocked : maxBatch ≤ (run 0).blocking outboxVault .secret 500 :=
    (hstart ▸ blocking_goodSecret).ge
  obtain ⟨n, hoffers⟩ := hall outboxVault run hrun .secret (by decide) 500 _ hwaiting
  exact not_offered_of_le_blocking nodup_sharedKinds hrun hwaiting hblocked n hoffers

/-- With one place more in a batch the good secret goes up. -/
theorem good_secret_offered : ∃ run : ℕ → Store, run 0 = brokenStore ∧
    (∀ n, Pushes sharedKinds (maxBatch + 1) (run n) (run (n + 1))) ∧
      ∃ n, (run n).OffersRow sharedKinds (maxBatch + 1) .secret 500 := by
  obtain ⟨run, hstart, hrun⟩ := exists_run (s := brokenStore) nodup_sharedKinds (maxBatch + 1)
    rfl
  have hwaiting : (run 0).Waiting outboxVault .secret 500 goodSecret :=
    hstart ▸ waiting_goodSecret
  have hroom : (run 0).blocking outboxVault .secret 500 < maxBatch + 1 := by
    rw [hstart, blocking_goodSecret]
    omega
  exact ⟨run, hstart, hrun, (offered_iff_blocking_lt hrun (by decide) hwaiting).1.mpr hroom⟩

end examples

end Store

end UwuSsh

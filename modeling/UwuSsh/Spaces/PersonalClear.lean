import UwuSsh.Spaces.PersonalFacts

/-!
What taking a person's records out of a store does: no snippet is left, no record that was ever
set and no cached answer, and nothing else of the store changed but the secrets of those.
-/
namespace UwuSsh

section clearing

variable {draws : Draws} {s : Store} {tx : Tx}

/-- What is there under a fixed id was deleted, or is as if nothing was ever set. -/
def DocTable.Cleared (table : DocTable) (s : Store) (id : Uuid) : Prop :=
  ∀ row, s.row? table.kind id = some row → row.deleted = false → row.cols = table.empty

/-- A cached answer that was deleted, or is no answer any more. -/
def CacheCleared (s : Store) (id : Uuid) : Prop :=
  ∀ row : Row AssistCacheCols, s.row? .assistCache id = some row → row.deleted = false → row.cols.command = ""

/-- A person's rows, and the secrets they point at. -/
def Store.IsPersonal (s : Store) (kind : EntityKind) (id : Uuid) : Prop :=
  PersonalKind kind ∨ kind = .secret ∧ id ∈ s.mentioned

theorem DocTable.kind_injective : Function.Injective DocTable.kind := by
  intro a b h
  cases a <;> cases b <;> first | rfl | exact absurd h nofun

theorem DocTable.kind_ne_secret (table : DocTable) : table.kind ≠ .secret := by
  cases table <;> exact nofun

theorem Tx.clearDoc_within {touched : EntityKind → Uuid → Prop} (tx : Tx) {table : DocTable}
    {e : Uuid × Row table.Body} (hkey : touched table.kind e.1)
    (hsecrets : ∀ id ∈ table.secrets e.2.cols, touched .secret id) :
    tx.store.Within touched (tx.clearDoc draws table e).store := by
  have hforget : tx.store.Within touched
      ((table.secrets e.2.cols).foldl (fun tx secret => tx.forgetSecret draws secret) tx).store :=
    .forgetSecrets tx hsecrets
  unfold Tx.clearDoc Tx.writeDoc
  exact (hforget.trans (.tick _ _)).trans (.putRow _ _ hkey)

theorem Tx.row?_clearDoc {table : DocTable} {e : Uuid × Row table.Body} {row : Row table.Body}
    (h : (tx.clearDoc draws table e).store.row? table.kind e.1 = some row) : row.cols = table.empty := by
  obtain ⟨row', hrow', hcols, -⟩ := Tx.row?_writeDoc draws
    ((table.secrets e.2.cols).foldl (fun tx secret => tx.forgetSecret draws secret) tx) table e.1 table.empty
  cases hrow'.symm.trans h
  exact hcols

/-- Clearing a record clears it, and what was cleared before stays so. -/
theorem DocTable.Cleared.clearDoc {table table' : DocTable} {e : Uuid × Row table'.Body} {id : Uuid}
    (h : table.Cleared tx.store id ∨ table' = table ∧ e.1 = id) :
    table.Cleared (tx.clearDoc draws table' e).store id := by
  intro row hrow hlive
  by_cases heq : table' = table ∧ e.1 = id
  · obtain ⟨rfl, rfl⟩ := heq
    exact Tx.row?_clearDoc hrow
  · have hwithin : tx.store.Within (fun kind id => kind = .secret ∨ kind = table'.kind ∧ id = e.1)
        (tx.clearDoc draws table' e).store :=
      tx.clearDoc_within (Or.inr ⟨rfl, rfl⟩) fun _ _ => Or.inl rfl
    have hnot : ¬ (table.kind = .secret ∨ table.kind = table'.kind ∧ id = e.1) := by
      rintro (hsecret | ⟨hkind, hid⟩)
      · exact table.kind_ne_secret hsecret
      · exact heq ⟨(DocTable.kind_injective hkind).symm, hid.symm⟩
    rw [hwithin.rows _ _ hnot] at hrow
    exact h.resolve_right heq row hrow hlive

theorem Tx.clearDocs_cleared {table table' : DocTable} {id : Uuid} {list : List (Uuid × Row table'.Body)}
    (tx : Tx) (h : table.Cleared tx.store id ∨ table' = table ∧ id ∈ list.map Prod.fst) :
    table.Cleared (list.foldl (fun tx e => tx.clearDoc draws table' e) tx).store id := by
  induction list generalizing tx with
  | nil => exact h.resolve_right fun hmem => List.not_mem_nil hmem.2
  | cons e rest ih =>
    refine ih (tx.clearDoc draws table' e) ?_
    rcases h with h | ⟨htable, hmem⟩
    · exact Or.inl (DocTable.Cleared.clearDoc (Or.inl h))
    · rcases List.mem_cons.mp hmem with heq | hmem
      · exact Or.inl (DocTable.Cleared.clearDoc (Or.inr ⟨htable, heq.symm⟩))
      · exact Or.inr ⟨htable, hmem⟩

/-- What a table's turn clears is all that was set in it. -/
theorem cleared_or_set (table : DocTable) (s : Store) (id : Uuid) :
    table.Cleared s id ∨ table = table ∧ id ∈ (s.setDocs table).map Prod.fst := by
  by_cases h : table.Cleared s id
  · exact Or.inl h
  · right
    obtain ⟨row, hrow, hlive, hset⟩ : ∃ row, s.row? table.kind id = some row ∧ row.deleted = false ∧
        row.cols ≠ table.empty := by
      by_contra hno
      exact h fun row hrow hlive => by_contra fun hset => hno ⟨row, hrow, hlive, hset⟩
    refine ⟨rfl, List.mem_map.mpr ⟨(id, row), List.mem_filter.mpr ⟨Store.mem_rows.mpr hrow, ?_⟩, rfl⟩⟩
    simpa [hlive] using hset

theorem Store.liveSnippets_eq_nil : s.liveSnippets = [] ↔
    ∀ id (row : Row SnippetCols), s.row? .snippet id = some row → row.deleted = true := by
  refine List.filter_eq_nil_iff.trans ⟨?_, ?_⟩
  · intro h id row hrow
    simpa using h (id, row) (Store.mem_rows.mpr hrow)
  · intro h e he
    simpa using h e.1 e.2 (Store.mem_rows.mp he)

theorem Store.docs_eq_nil : s.docs = [] ↔ ∀ (table : DocTable) id, table.Cleared s id := by
  unfold Store.docs
  rw [List.flatMap_eq_nil_iff]
  constructor
  · intro h table id row hrow hlive
    have hnone := List.map_eq_nil_iff.mp (h table (by cases table <;> simp [DocTable.all]))
    have hset := List.filter_eq_nil_iff.mp hnone (id, row) (Store.mem_rows.mpr hrow)
    simpa [hlive] using hset
  · intro h table _
    refine List.map_eq_nil_iff.mpr (List.filter_eq_nil_iff.mpr fun e he => ?_)
    have hcleared := h table e.1 e.2 (Store.mem_rows.mp he)
    simpa using hcleared

theorem Store.usedCache_eq_nil : s.usedCache = [] ↔ ∀ id, CacheCleared s id := by
  refine List.filter_eq_nil_iff.trans ⟨?_, ?_⟩
  · intro h id row hrow hlive
    simpa [hlive] using h (id, row) (Store.mem_rows.mpr hrow)
  · intro h e he
    have hcleared := h e.1 e.2 (Store.mem_rows.mp he)
    simpa using hcleared

/-- The secrets of what is set are mentioned. -/
theorem Store.mem_mentioned {table : DocTable} {e : Uuid × Row table.Body} (he : e ∈ s.setDocs table)
    {id : Uuid} (hid : id ∈ table.secrets e.2.cols) : id ∈ s.mentioned := by
  refine List.mem_flatMap.mpr ⟨{ table, id := e.1, body := e.2.cols, clock := e.2.updatedAt }, ?_, hid⟩
  refine List.mem_flatMap.mpr ⟨table, by cases table <;> simp [DocTable.all], ?_⟩
  exact List.mem_map.mpr ⟨e, he, rfl⟩

theorem Tx.clearDocs_within {touched : EntityKind → Uuid → Prop} {table : DocTable}
    {list : List (Uuid × Row table.Body)} (tx : Tx) (hkey : ∀ id, touched table.kind id)
    (hsecrets : ∀ e ∈ list, ∀ id ∈ table.secrets e.2.cols, touched .secret id) :
    tx.store.Within touched (list.foldl (fun tx e => tx.clearDoc draws table e) tx).store := by
  induction list generalizing tx with
  | nil => exact .refl _
  | cons e rest ih =>
    exact (tx.clearDoc_within (hkey e.1) (hsecrets e List.mem_cons_self)).trans
      (ih (tx.clearDoc draws table e) fun e' he' => hsecrets e' (List.mem_cons_of_mem _ he'))

/-- The first statement of the clearing: every snippet is deleted. -/
def Store.clearSnippets (clock : Hlc) (s : Store) : Store :=
  s.mapTable .snippet fun row =>
    if row.deleted then row
    else { row with deleted := true, rev := row.rev + 1, dirty := true, updatedAt := clock }

theorem clearSnippets_within {touched : EntityKind → Uuid → Prop} (clock : Hlc)
    (h : ∀ id, touched .snippet id) : s.Within touched (s.clearSnippets clock) where
  rows kind id hnot := by
    apply Store.row?_mapTable_of_ne
    intro hkind
    exact hnot (hkind ▸ h id)
  frame := ⟨rfl, rfl, rfl, rfl, rfl, rfl⟩
  superseded := rfl

theorem clearSnippets_deleted (clock : Hlc) {id : Uuid} {row : Row SnippetCols}
    (h : (s.clearSnippets clock).row? .snippet id = some row) : row.deleted = true := by
  have hrow : (s.row? .snippet id).map (fun row => if row.deleted then row
    else { row with deleted := true, rev := row.rev + 1, dirty := true, updatedAt := clock }) = some row :=
    (s.row?_mapTable_self _ _).symm.trans h
  obtain ⟨old, -, hold⟩ := Option.map_eq_some_iff.mp hrow
  split at hold
  · next hdeleted => exact hold ▸ hdeleted
  · exact hold ▸ rfl

/-- After it the store holds no snippet and no record that was ever set, and nothing of
another kind changed but the secrets of those records. -/
theorem clearPersonal_spec (draws : Draws) (s : Store) :
    (s.clearPersonal draws).liveSnippets = [] ∧ (s.clearPersonal draws).docs = [] ∧
      s.Within s.IsPersonal (s.clearPersonal draws) := by
  -- The state after the snippets, after the key bindings and after the assistant's settings.
  let tick := ({ store := s, drawn := 0 } : Tx).tick draws
  let a := tick.1.onStore (Store.clearSnippets tick.2)
  let b := (a.store.setDocs .keymaps).foldl (fun tx e => tx.clearDoc draws .keymaps e) a
  let c := (b.store.setDocs .assistConfig).foldl (fun tx e => tx.clearDoc draws .assistConfig e) b
  have hresult : s.clearPersonal draws = c.store := rfl
  have hdocs : ∀ (table : DocTable) (t : Store),
      (∀ id, t.row? table.kind id = s.row? table.kind id) → ∀ e ∈ t.setDocs table, e ∈ s.setDocs table := by
    intro table t hsame e he
    obtain ⟨hmem, hset⟩ := List.mem_filter.mp he
    refine List.mem_filter.mpr ⟨Store.mem_rows.mpr ?_, hset⟩
    rw [← hsame]
    exact Store.mem_rows.mp hmem
  have hkept : ∀ {kind kind' : EntityKind} {id : Uuid}, kind ≠ kind' → kind ≠ .secret →
      ¬ (kind = kind' ∨ kind = .secret ∧ id ∈ s.mentioned) :=
    fun hkind hsecret h => h.elim hkind fun h => hsecret h.1
  have ha : s.Within (fun kind _ => kind = .snippet) a.store :=
    (Store.Within.tick s _).trans (clearSnippets_within _ fun _ => rfl)
  have hb : a.store.Within (fun kind id => kind = .keymap ∨ kind = .secret ∧ id ∈ s.mentioned) b.store := by
    refine Tx.clearDocs_within a (fun _ => Or.inl rfl) fun e he id hid => Or.inr ⟨rfl, ?_⟩
    exact Store.mem_mentioned (hdocs .keymaps a.store (fun id => ha.rows _ id nofun) e he) hid
  have hc : b.store.Within (fun kind id => kind = .assistConfig ∨ kind = .secret ∧ id ∈ s.mentioned)
      c.store := by
    refine Tx.clearDocs_within b (fun _ => Or.inl rfl) fun e he id hid => Or.inr ⟨rfl, ?_⟩
    refine Store.mem_mentioned (hdocs .assistConfig b.store (fun id => ?_) e he) hid
    exact (hb.rows .assistConfig id (hkept nofun nofun)).trans (ha.rows .assistConfig id nofun)
  rw [hresult]
  refine ⟨?_, ?_, ?_⟩
  · rw [Store.liveSnippets_eq_nil]
    intro id row hrow
    have hsame : c.store.row? .snippet id = a.store.row? .snippet id :=
      (hc.rows .snippet id (hkept nofun nofun)).trans (hb.rows .snippet id (hkept nofun nofun))
    exact clearSnippets_deleted tick.2 (hsame.symm.trans hrow)
  · rw [Store.docs_eq_nil]
    intro table id
    cases table with
    | keymaps => exact b.clearDocs_cleared (Or.inl (a.clearDocs_cleared (cleared_or_set .keymaps a.store id)))
    | assistConfig => exact b.clearDocs_cleared (cleared_or_set .assistConfig b.store id)
  · have hfirst : s.Within s.IsPersonal a.store := ha.mono fun kind id h => Or.inl (Or.inl h)
    have hab := hfirst.trans
      (hb.mono fun kind id h => h.imp_left fun hkind => Or.inr (Or.inl ⟨.keymaps, hkind⟩))
    exact hab.trans (hc.mono fun kind id h =>
      h.imp_left fun hkind => Or.inr (Or.inl ⟨.assistConfig, hkind⟩))

theorem Tx.clearCached_within {touched : EntityKind → Uuid → Prop} (tx : Tx) {id : Uuid}
    (h : touched .assistCache id) : tx.store.Within touched (tx.clearCached draws id).store :=
  (Store.Within.tick tx.store _).trans (.updateRow _ _ h)

theorem CacheCleared.clearCached {id id' : Uuid} (h : CacheCleared tx.store id ∨ id' = id) :
    CacheCleared (tx.clearCached draws id').store id := by
  intro row hrow hlive
  by_cases heq : id' = id
  · subst heq
    have hmap : (tx.clearCached draws id').store.row? .assistCache id' =
        (tx.store.row? .assistCache id').map _ := Store.row?_updateRow_self ..
    obtain ⟨old, -, hold⟩ := Option.map_eq_some_iff.mp (hmap.symm.trans hrow)
    exact hold ▸ rfl
  · have hwithin : tx.store.Within (fun kind id => kind = .assistCache ∧ id = id')
        (tx.clearCached draws id').store := tx.clearCached_within ⟨rfl, rfl⟩
    have hsame := hwithin.rows .assistCache id fun h => heq h.2.symm
    exact h.resolve_right heq row (hsame.symm.trans hrow) hlive

/-- After it no cached answer is left, and nothing of another kind changed. -/
theorem clearAssistCache_spec (draws : Draws) (s : Store) :
    (s.clearAssistCache draws).usedCache = [] ∧
      s.Within (fun kind _ => kind = .assistCache) (s.clearAssistCache draws) := by
  have hfold : ∀ (list : List (Uuid × Row AssistCacheCols)) (tx : Tx),
      tx.store.Within (fun kind _ => kind = .assistCache)
        (list.foldl (fun tx e => tx.clearCached draws e.1) tx).store ∧
      ∀ id, CacheCleared tx.store id ∨ id ∈ list.map Prod.fst →
        CacheCleared (list.foldl (fun tx e => tx.clearCached draws e.1) tx).store id := by
    intro list
    induction list with
    | nil => exact fun tx => ⟨.refl _, fun id h => h.resolve_right List.not_mem_nil⟩
    | cons e rest ih =>
      intro tx
      obtain ⟨hwithin, hcleared⟩ := ih (tx.clearCached draws e.1)
      refine ⟨(tx.clearCached_within rfl).trans hwithin, fun id h => hcleared id ?_⟩
      rcases h with h | hmem
      · exact Or.inl (CacheCleared.clearCached (Or.inl h))
      · rcases List.mem_cons.mp hmem with heq | hmem
        · exact Or.inl (CacheCleared.clearCached (Or.inr heq.symm))
        · exact Or.inr hmem
  obtain ⟨hwithin, hcleared⟩ := hfold s.usedCache { store := s, drawn := 0 }
  refine ⟨Store.usedCache_eq_nil.mpr fun id => hcleared id ?_, hwithin⟩
  by_cases h : CacheCleared s id
  · exact Or.inl h
  · right
    obtain ⟨row, hrow, hlive, hset⟩ : ∃ row : Row AssistCacheCols, s.row? .assistCache id = some row ∧
        row.deleted = false ∧ row.cols.command ≠ "" := by
      by_contra hno
      exact h fun row hrow hlive => by_contra fun hset => hno ⟨row, hrow, hlive, hset⟩
    refine List.mem_map.mpr ⟨(id, row), List.mem_filter.mpr ⟨Store.mem_rows.mpr hrow, ?_⟩, rfl⟩
    simpa [hlive] using hset

end clearing

end UwuSsh

import UwuSsh.Spaces.Personal

/-!
What taking a person's records in does. Each record is taken in its turn: it finds its row as
it was at the start, and what it leaves stays to the end, because no two records have one key
and new rows lie under ids nobody uses. So the newer of two is there afterwards, with secrets
that open to what the other store's did, and nothing else of the store changed.
-/
namespace UwuSsh

namespace Store

/-- What a stored secret holds, when this vault opens it. -/
def reveals (s : Store) (id : Uuid) : Option Plain :=
  match s.vault, s.row? .secret id with
  | some vault, some row => if row.deleted then none else vault.openStored id .secret row.cols
  | _, _ => none

theorem reveals_sealed {s : Store} {vault : UnlockedVault} {id : Uuid} {row : Row Sealed} {plain : Plain}
    (hvault : s.vault = some vault) (hrow : s.row? .secret id = some row) (hlive : row.deleted = false)
    (hsealed : row.cols = vault.sealStored id .secret plain) : s.reveals id = some plain := by
  rw [reveals, hvault, hrow]
  show (if row.deleted then none else vault.openStored id .secret row.cols) = some plain
  rw [if_neg (by simp [hlive])]
  exact (congrArg (vault.openStored id .secret) hsealed).trans (vault.openStored_sealStored id .secret plain)

/-- A secret nothing touched is revealed as before. -/
theorem reveals_congr {s t : Store} {id : Uuid} (hvault : t.vault = s.vault)
    (hrow : t.row? .secret id = s.row? .secret id) : t.reveals id = s.reveals id := by
  rw [reveals, hvault, hrow, reveals]

end Store

section copying

variable {draws : Draws} {used : Uuid → Prop} {vault : UnlockedVault} {secrets : List (Uuid × Plain)}

/-- What sealing secrets again adds: copies under new ids that open to the same. -/
structure Copying (draws : Draws) (secrets : List (Uuid × Plain)) (a b : Tx × List (Uuid × Uuid)) :
    Prop where
  within : Tx.Within draws (fun _ _ => False) a.1 b.1
  kept : ∀ e ∈ a.2, e ∈ b.2
  made : ∀ e ∈ b.2, e ∈ a.2 ∨ (∃ n, a.1.drawn ≤ n ∧ n < b.1.drawn ∧ draws.id n = some e.2) ∧
    ∃ plain, List.lookup e.1 secrets = some plain ∧ b.1.store.reveals e.2 = some plain

theorem Copying.refl (a : Tx × List (Uuid × Uuid)) : Copying draws secrets a a :=
  ⟨.refl _, fun _ h => h, fun _ h => Or.inl h⟩

/-- Rows under ids drawn before stay as later draws find them. -/
theorem Tx.Within.row?_drawn {given : EntityKind → Uuid → Prop} {tx tx' : Tx} (h : Tx.Within draws given tx tx')
    (hfresh : draws.Fresh used) {kind : EntityKind} {n : ℕ} {id : Uuid} (hid : draws.id n = some id)
    (hn : n < tx.drawn) (hgiven : ¬ given kind id) : tx'.store.row? kind id = tx.store.row? kind id := by
  apply h.store.rows
  intro htouched
  rcases htouched with htouched | ⟨m, hle, -, heq⟩
  · exact hgiven htouched
  · have hmn := hfresh.distinct heq hid
    omega

theorem Copying.trans (hfresh : draws.Fresh used) {a b c : Tx × List (Uuid × Uuid)}
    (h : Copying draws secrets a b) (h' : Copying draws secrets b c) : Copying draws secrets a c where
  within := h.within.trans h'.within
  kept e he := h'.kept e (h.kept e he)
  made e he := by
    have hfirst := h.within.drawn
    have hsecond := h'.within.drawn
    rcases h'.made e he with he | ⟨⟨n, hle, hlt, heq⟩, hplain⟩
    · rcases h.made e he with he | ⟨⟨n, hle, hlt, heq⟩, plain, hlookup, hreveals⟩
      · exact Or.inl he
      · refine Or.inr ⟨⟨n, hle, by omega, heq⟩, plain, hlookup, ?_⟩
        rw [← hreveals]
        exact Store.reveals_congr h'.within.store.frame.vault (h'.within.row?_drawn hfresh heq hlt not_false)
    · exact Or.inr ⟨⟨n, by omega, hlt, heq⟩, hplain⟩

theorem copySecret_copying {secret : Uuid} {a b : Tx × List (Uuid × Uuid)}
    (hvault : a.1.store.vault = some vault) (h : Tx.copySecret draws vault secrets secret a = .ok b) :
    Copying draws secrets a b := by
  obtain ⟨tx, copies⟩ := a
  unfold Tx.copySecret at h
  dsimp only at h
  split at h
  · cases h
    exact .refl _
  · next plain hlookup =>
    cases hseal : tx.sealSecret draws vault plain with
    | error e =>
      rw [hseal] at h
      cases h
    | ok sealed =>
      obtain ⟨tx', copy⟩ := sealed
      rw [hseal] at h
      cases h
      obtain ⟨hid, hlt, hwithin, -, row, hrow, hlive, hsealed⟩ := Tx.sealSecret_ok hseal
      refine ⟨hwithin, fun e he => List.mem_cons_of_mem _ he, fun e he => ?_⟩
      rcases List.mem_cons.mp he with rfl | he
      · exact Or.inr ⟨⟨tx.drawn, Nat.le_refl _, hlt, hid⟩, plain, hlookup,
          Store.reveals_sealed (hwithin.store.frame.vault.trans hvault) hrow hlive hsealed⟩
      · exact Or.inl he

theorem copySecrets_run (hfresh : draws.Fresh used) {ids : List Uuid}
    {a b : Tx × List (Uuid × Uuid)} (hvault : a.1.store.vault = some vault)
    (h : Transaction.play (ids.map (Tx.copySecret draws vault secrets)) a = .ok b) :
    Copying draws secrets a b := by
  induction ids generalizing a with
  | nil =>
    cases h
    exact .refl _
  | cons secret rest ih =>
    obtain ⟨u, hstep, hrest⟩ := Transaction.play_cons.mp h
    have hfirst := copySecret_copying hvault hstep
    exact hfirst.trans hfresh (ih (hfirst.within.store.frame.vault.trans hvault) hrest)

/-- Copies lie under new ids and open to what the secrets did. -/
theorem copySecrets_copying (hfresh : draws.Fresh used) {ids : List Uuid} {tx tx' : Tx}
    {copies : List (Uuid × Uuid)} (h : tx.copySecrets draws secrets ids = .ok (tx', copies)) :
    Copying draws secrets (tx, []) (tx', copies) := by
  unfold Tx.copySecrets at h
  split at h
  · cases h
    exact .refl _
  · next vault hvault => exact copySecrets_run hfresh hvault h

/-- Every secret that was opened has a copy. -/
theorem copySecrets_complete (hfresh : draws.Fresh used) {ids : List Uuid} {tx tx' : Tx}
    {copies : List (Uuid × Uuid)} (hopen : tx.store.vault = none → secrets = [])
    (h : tx.copySecrets draws secrets ids = .ok (tx', copies)) {secret : Uuid} (hmem : secret ∈ ids)
    (hsome : (List.lookup secret secrets).isSome) : ∃ copy, (secret, copy) ∈ copies := by
  obtain ⟨plain, hplain⟩ := Option.isSome_iff_exists.mp hsome
  unfold Tx.copySecrets at h
  split at h
  · next hnone =>
    rw [hopen hnone] at hplain
    cases hplain
  · next vault hvault =>
    obtain ⟨before, after, u, v, -, hbefore, hstep, hafter⟩ := Transaction.play_split h hmem
    have hu := copySecrets_run hfresh hvault hbefore
    have hvault' := hu.within.store.frame.vault.trans hvault
    have hv := copySecret_copying hvault' hstep
    have hlast := copySecrets_run hfresh (hv.within.store.frame.vault.trans hvault') hafter
    unfold Tx.copySecret at hstep
    simp only [hplain] at hstep
    cases hseal : u.1.sealSecret draws vault plain with
    | error e =>
      rw [hseal] at hstep
      cases hstep
    | ok sealed =>
      rw [hseal] at hstep
      cases hstep
      exact ⟨sealed.2, hlast.kept _ List.mem_cons_self⟩

end copying

namespace PersonalItem

/-- The secrets a store's record under an item's key points at. -/
def oldSecrets (s : Store) : PersonalItem → List Uuid
  | .doc record => (s.row? record.table.kind record.id).elim [] fun row => record.table.secrets row.cols
  | .snippet _ | .cached _ => []

/-- What taking an item in may touch beside new rows. -/
def Touches (s : Store) (item : PersonalItem) (kind : EntityKind) (id : Uuid) : Prop :=
  item.key = (kind, id) ∨ kind = .secret ∧ id ∈ item.oldSecrets s

theorem key_ne_secret (item : PersonalItem) : item.key.1 ≠ .secret := by
  cases item with
  | snippet row => exact nofun
  | doc record =>
    obtain ⟨table, -, -, -⟩ := record
    cases table <;> exact nofun
  | cached row => exact nofun

theorem oldSecrets_congr {s t : Store} {item : PersonalItem}
    (h : t.row? item.key.1 item.key.2 = s.row? item.key.1 item.key.2) :
    item.oldSecrets t = item.oldSecrets s := by
  cases item with
  | snippet row => rfl
  | doc record => exact congrArg (fun o => Option.elim o [] fun row => record.table.secrets row.cols) h
  | cached row => rfl

end PersonalItem

section taking

variable {draws : Draws} {secrets : List (Uuid × Plain)} {tx tx' : Tx}

theorem Store.Within.forgetSecrets {touched : EntityKind → Uuid → Prop} (tx : Tx) {ids : List Uuid}
    (h : ∀ id ∈ ids, touched .secret id) :
    tx.store.Within touched (ids.foldl (fun tx secret => tx.forgetSecret draws secret) tx).store := by
  induction ids generalizing tx with
  | nil => exact .refl _
  | cons id rest ih =>
    exact (Store.Within.forgetSecret tx.store _ (h id List.mem_cons_self)).trans
      (ih (tx.forgetSecret draws id) fun id' hid' => h id' (List.mem_cons_of_mem _ hid'))

theorem Tx.Within.forgetSecrets {given : EntityKind → Uuid → Prop} (tx : Tx) {ids : List Uuid}
    (h : ∀ id ∈ ids, given .secret id) :
    Tx.Within draws given tx (ids.foldl (fun tx secret => tx.forgetSecret draws secret) tx) := by
  induction ids generalizing tx with
  | nil => exact .refl tx
  | cons id rest ih =>
    exact (Tx.Within.forgetSecret tx (h id List.mem_cons_self)).trans
      (ih _ fun id' hid' => h id' (List.mem_cons_of_mem _ hid'))

theorem Tx.Within.writeDoc {given : EntityKind → Uuid → Prop} (tx : Tx) {table : DocTable} {id : Uuid}
    (body : table.Body) (h : given table.kind id) :
    Tx.Within draws given tx (tx.writeDoc draws table id body) := by
  unfold Tx.writeDoc
  exact (Tx.Within.tick tx).trans (.onStore _ (.putRow _ _ h))

theorem Tx.row?_writeDoc (draws : Draws) (tx : Tx) (table : DocTable) (id : Uuid) (body : table.Body) :
    ∃ row, (tx.writeDoc draws table id body).store.row? table.kind id = some row ∧ row.cols = body ∧
      row.deleted = (tx.store.row? table.kind id).any (·.deleted) := by
  unfold Tx.writeDoc
  refine ⟨_, Store.row?_putRow_self .., ?_⟩
  cases h : tx.store.row? table.kind id with
  | none => simp [h, Store.newRow]
  | some row => simp [h]

theorem importDoc_within (hfresh : draws.Fresh used) {doc : Doc}
    (h : tx.importDoc draws secrets doc = .ok tx') :
    Tx.Within draws ((PersonalItem.doc doc).Touches tx.store) tx tx' := by
  unfold Tx.importDoc at h
  dsimp only at h
  split at h
  · cases h
    exact .refl tx
  split at h
  · cases h
    exact .refl tx
  cases hcopy : tx.copySecrets draws secrets (doc.table.secrets doc.body) with
  | error e =>
    rw [hcopy] at h
    cases h
  | ok copied =>
    obtain ⟨u, copies⟩ := copied
    rw [hcopy] at h
    cases h
    have hfirst := (copySecrets_copying hfresh hcopy).within
    have hold : Tx.Within draws ((PersonalItem.doc doc).Touches tx.store) u
        (((PersonalItem.doc doc).oldSecrets tx.store).foldl
          (fun tx secret => tx.forgetSecret draws secret) u) :=
      .forgetSecrets u fun id hid => Or.inr ⟨rfl, hid⟩
    exact ((hfirst.mono fun _ _ => False.elim).trans hold).trans (.writeDoc _ _ (Or.inl rfl))

theorem importItem_within (hfresh : draws.Fresh used) {item : PersonalItem}
    (h : Tx.importItem draws secrets item tx = .ok tx') :
    Tx.Within draws (item.Touches tx.store) tx tx' := by
  cases item with
  | snippet snippet =>
    have h : tx.importSnippet draws snippet = .ok tx' := h
    unfold Tx.importSnippet at h
    dsimp only at h
    split at h
    · exact (Tx.Within.tick tx).trans (.insert h (Or.inl rfl))
    · split at h
      · split at h
        · cases h
          exact .refl tx
        · obtain ⟨id, hid, h⟩ := Tx.newId_bind h
          obtain ⟨-, rfl⟩ := Tx.insert_ok h
          refine ⟨?_, (Store.Within.tick tx.store _).trans (.putRow _ _ (Or.inr ?_))⟩
          · show tx.drawn ≤ tx.drawn + 1 + 1
            omega
          · refine ⟨tx.drawn, Nat.le_refl _, ?_, hid⟩
            show tx.drawn < tx.drawn + 1 + 1
            omega
      · split at h
        · cases h
          exact (Tx.Within.tick tx).trans (.onStore _ (.putRow _ _ (Or.inl rfl)))
        · cases h
          exact .refl tx
  | doc record => exact importDoc_within hfresh h
  | cached cached =>
    cases h
    unfold Tx.importCached
    dsimp only
    split
    · exact (Tx.Within.tick tx).trans (.onStore _ (.putRow _ _ (Or.inl rfl)))
    · split
      · exact .refl tx
      · exact (Tx.Within.tick tx).trans (.onStore _ (.putRow _ _ (Or.inl rfl)))

/-- Ids that were there before, in the store or in what comes in. -/
structure PersonalItem.Known (used : Uuid → Prop) (s : Store) (item : PersonalItem) : Prop where
  key : used item.key.2
  secrets : ∀ id ∈ item.oldSecrets s, used id

/-- What taking some items in may touch beside new rows. -/
def TouchedBy (s : Store) (items : List PersonalItem) (kind : EntityKind) (id : Uuid) : Prop :=
  ∃ item ∈ items, item.Touches s kind id

theorem not_touchedBy {s : Store} {items : List PersonalItem} {kind : EntityKind} {id : Uuid}
    (hkind : kind ≠ .secret) (hkey : (kind, id) ∉ items.map (·.key)) : ¬ TouchedBy s items kind id := by
  intro ⟨item, hmem, htouches⟩
  rcases htouches with heq | ⟨rfl, -⟩
  · exact hkey (heq ▸ List.mem_map_of_mem hmem)
  · exact hkind rfl

variable {used : Uuid → Prop} {s : Store} {items : List PersonalItem}

theorem touchedBy_known (hknown : ∀ item ∈ items, item.Known used s) {kind : EntityKind} {id : Uuid}
    (h : TouchedBy s items kind id) : used id := by
  obtain ⟨item, hmem, htouches⟩ := h
  rcases htouches with heq | ⟨-, hold⟩
  · have hkey := (hknown item hmem).key
    rwa [heq] at hkey
  · exact (hknown item hmem).secrets id hold

/-- A row under a known id that a stretch was not given is as it was. -/
theorem Tx.Within.row?_known {given : EntityKind → Uuid → Prop} (h : Tx.Within draws given tx tx')
    (hfresh : draws.Fresh used) {kind : EntityKind} {id : Uuid} (hid : used id) (hgiven : ¬ given kind id) :
    tx'.store.row? kind id = tx.store.row? kind id := by
  apply h.store.rows
  intro htouched
  rcases htouched with htouched | ⟨n, -, -, heq⟩
  · exact hgiven htouched
  · exact hfresh.unused heq hid

theorem importItems_within (hfresh : draws.Fresh used) (hkeys : (items.map (·.key)).Nodup)
    (hknown : ∀ item ∈ items, item.Known used s)
    (hold : ∀ item ∈ items, item.oldSecrets tx.store = item.oldSecrets s)
    (h : Transaction.play (items.map (Tx.importItem draws secrets)) tx = .ok tx') :
    Tx.Within draws (TouchedBy s items) tx tx' := by
  induction items generalizing tx with
  | nil =>
    cases h
    exact .refl _
  | cons item rest ih =>
    obtain ⟨u, hstep, hrest⟩ := Transaction.play_cons.mp h
    obtain ⟨hnot, hkeys⟩ := List.nodup_cons.mp hkeys
    have hfirst := importItem_within hfresh hstep
    have hsame := hold item List.mem_cons_self
    have hlast : ∀ item' ∈ rest, item'.oldSecrets u.store = item'.oldSecrets s := by
      intro item' hmem
      have hmem' := List.mem_cons_of_mem item hmem
      rw [← hold item' hmem']
      apply PersonalItem.oldSecrets_congr
      apply hfirst.row?_known hfresh (hknown item' hmem').key
      intro htouches
      rcases htouches with heq | ⟨hsecret, -⟩
      · have hkey : item'.key ∈ rest.map (·.key) := List.mem_map_of_mem hmem
        rw [show item'.key = item.key from heq.symm] at hkey
        exact hnot hkey
      · exact item'.key_ne_secret hsecret
    have hlater := ih hkeys (fun item' hmem => hknown item' (List.mem_cons_of_mem _ hmem)) hlast hrest
    have hthis : ∀ kind id, item.Touches tx.store kind id → TouchedBy s (item :: rest) kind id :=
      fun kind id htouches => ⟨item, List.mem_cons_self,
        htouches.imp_right fun hsecret => ⟨hsecret.1, hsame ▸ hsecret.2⟩⟩
    have hothers : ∀ kind id, TouchedBy s rest kind id → TouchedBy s (item :: rest) kind id :=
      fun kind id ⟨item', hmem, htouches⟩ => ⟨item', List.mem_cons_of_mem _ hmem, htouches⟩
    exact (hfirst.mono hthis).trans (hlater.mono hothers)

/-- An item's turn: it finds its row as it was at the start, and what it leaves stays. -/
theorem importItems_turn (hfresh : draws.Fresh used) (hkeys : (items.map (·.key)).Nodup)
    (hknown : ∀ item ∈ items, item.Known used s)
    (h : Transaction.play (items.map (Tx.importItem draws secrets)) { store := s, drawn := 0 } = .ok tx')
    {item : PersonalItem} (hitem : item ∈ items) : ∃ u v : Tx, u.store.vault = s.vault ∧
      u.store.row? item.key.1 item.key.2 = s.row? item.key.1 item.key.2 ∧
      Tx.importItem draws secrets item u = .ok v ∧ tx'.store.vault = s.vault ∧
      tx'.store.row? item.key.1 item.key.2 = v.store.row? item.key.1 item.key.2 ∧
      (∀ kind n id, draws.id n = some id → n < v.drawn → tx'.store.row? kind id = v.store.row? kind id) ∧
      ∀ kind id, kind ≠ .secret → u.store.row? kind id = s.row? kind id ∨
        tx'.store.row? kind id = u.store.row? kind id := by
  obtain ⟨before, after, u, v, rfl, hbefore, hstep, hafter⟩ := Transaction.play_split h hitem
  have hkeys' : (before.map (·.key) ++ item.key :: after.map (·.key)).Nodup := by
    simpa using hkeys
  obtain ⟨hnb, hna, hdisjoint⟩ := List.nodup_append.mp hkeys'
  obtain ⟨hnot, hna⟩ := List.nodup_cons.mp hna
  have hknownb : ∀ item' ∈ before, item'.Known used s := fun item' hmem => hknown item' (by simp [hmem])
  have hknowna : ∀ item' ∈ after, item'.Known used s := fun item' hmem => hknown item' (by simp [hmem])
  have hknowni : item.Known used s := hknown item hitem
  have hnotb : item.key ∉ before.map (·.key) := fun hmem => hdisjoint _ hmem _ List.mem_cons_self rfl
  have hu := importItems_within hfresh hnb hknownb (fun _ _ => rfl) hbefore
  have hui : u.store.row? item.key.1 item.key.2 = s.row? item.key.1 item.key.2 :=
    hu.row?_known hfresh hknowni.key (not_touchedBy item.key_ne_secret hnotb)
  have hv := importItem_within hfresh hstep
  have hother : ∀ item' ∈ after, v.store.row? item'.key.1 item'.key.2 = s.row? item'.key.1 item'.key.2 := by
    intro item' hmem
    have hmem' : item'.key ∈ after.map (·.key) := List.mem_map_of_mem hmem
    have hbe : item'.key ∉ before.map (·.key) := fun hb =>
      hdisjoint _ hb _ (List.mem_cons_of_mem _ hmem') rfl
    rw [← hu.row?_known hfresh (hknowna item' hmem).key (not_touchedBy item'.key_ne_secret hbe)]
    apply hv.row?_known hfresh (hknowna item' hmem).key
    intro htouches
    rcases htouches with heq | ⟨hsecret, -⟩
    · exact hnot (heq ▸ hmem')
    · exact item'.key_ne_secret hsecret
  have hw := importItems_within hfresh hna hknowna
    (fun item' hmem => PersonalItem.oldSecrets_congr (hother item' hmem)) hafter
  refine ⟨u, v, hu.store.frame.vault, hui, hstep, ?_, ?_, ?_, ?_⟩
  · exact (hw.store.frame.vault.trans hv.store.frame.vault).trans hu.store.frame.vault
  · exact hw.row?_known hfresh hknowni.key (not_touchedBy item.key_ne_secret hnot)
  · intro kind n id hid hn
    apply hw.row?_drawn hfresh hid hn
    exact fun htouched => hfresh.unused hid (touchedBy_known hknowna htouched)
  · intro kind id hkind
    by_cases htouched : TouchedBy s before kind id ∨ ∃ n, 0 ≤ n ∧ n < u.drawn ∧ draws.id n = some id
    · right
      have hvu : v.store.row? kind id = u.store.row? kind id := by
        rcases htouched with ⟨item', hmem, htouches⟩ | ⟨n, -, hlt, hdraw⟩
        · rcases htouches with heq | ⟨hsecret, -⟩
          · have hid : used id := by
              have hkey := (hknownb item' hmem).key
              rwa [heq] at hkey
            apply hv.row?_known hfresh hid
            intro htouches
            rcases htouches with heq' | ⟨hsecret, -⟩
            · exact hnotb (heq'.trans heq.symm ▸ List.mem_map_of_mem hmem)
            · exact hkind hsecret
          · exact absurd hsecret hkind
        · apply hv.row?_drawn hfresh hdraw hlt
          intro htouches
          rcases htouches with heq | ⟨hsecret, -⟩
          · have hkey := hknowni.key
            rw [heq] at hkey
            exact hfresh.unused hdraw hkey
          · exact hkind hsecret
      rw [← hvu]
      rcases htouched with ⟨item', hmem, htouches⟩ | ⟨n, -, hlt, hdraw⟩
      · rcases htouches with heq | ⟨hsecret, -⟩
        · have hkey := (hknownb item' hmem).key
          rw [heq] at hkey
          apply hw.row?_known hfresh hkey
          apply not_touchedBy hkind
          intro hmem'
          exact hdisjoint _ (heq ▸ List.mem_map_of_mem hmem) _ (List.mem_cons_of_mem _ hmem') rfl
        · exact absurd hsecret hkind
      · have hle := hv.drawn
        apply hw.row?_drawn hfresh hdraw (by omega)
        exact fun htouched => hfresh.unused hdraw (touchedBy_known hknowna htouched)
    · left
      exact hu.store.rows kind id htouched

end taking

/-- A row that says what a snippet does. -/
structure SnippetRow.SaidBy (snippet : SnippetRow) (row : Row SnippetCols) : Prop where
  live : row.deleted = false
  label : row.cols.label = snippet.label
  body : row.cols.body = snippet.body
  groupPath : row.cols.groupPath = snippet.groupPath

/-- A row that says what a cached answer does. -/
structure CacheRow.SaidBy (cached : CacheRow) (row : Row AssistCacheCols) : Prop where
  live : row.deleted = false
  same : ∀ id clock, CacheRow.ofRow (id, { row with updatedAt := clock }) = { cached with id, clock }

/-- A row that says what a record does, with secrets of its own store that open to the same. -/
structure Doc.SaidBy (opened : Uuid → Option Plain) (t : Store) (doc : Doc) (row : Row doc.table.Body) :
    Prop where
  live : row.deleted = false
  same : ∃ copies, row.cols = doc.table.withSecrets copies doc.body ∧
    ∀ secret ∈ doc.table.secrets doc.body, (List.lookup secret copies).bind t.reveals = opened secret

/-- What became of a snippet in the store that took it in: the newer of two is there. -/
def SnippetRow.Taken (s t : Store) (snippet : SnippetRow) : Prop :=
  match s.row? .snippet snippet.id with
  | none => ∃ row, t.row? .snippet snippet.id = some row ∧ snippet.SaidBy row
  | some old =>
      if old.deleted then
        -- A tombstone keeps its id, so the snippet is there under another one.
        ∃ id, ∃ row : Row SnippetCols, (s.row? .snippet id = some row ∨ t.row? .snippet id = some row) ∧
          row.deleted = false ∧ row.cols.label = snippet.label ∧ row.cols.body = snippet.body
      else if old.updatedAt < snippet.clock then
        ∃ row, t.row? .snippet snippet.id = some row ∧ snippet.SaidBy row
      else t.row? .snippet snippet.id = some old

/-- The same of a record under a fixed id, which a tombstone there keeps out. -/
def Doc.Taken (opened : Uuid → Option Plain) (s t : Store) (doc : Doc) : Prop :=
  match s.row? doc.table.kind doc.id with
  | none => ∃ row, t.row? doc.table.kind doc.id = some row ∧ doc.SaidBy opened t row
  | some old =>
      if old.deleted ∨ (old.cols ≠ doc.table.empty ∧ doc.clock ≤ old.updatedAt) then
        t.row? doc.table.kind doc.id = some old
      else ∃ row, t.row? doc.table.kind doc.id = some row ∧ doc.SaidBy opened t row

/-- And of a cached answer. -/
def CacheRow.Taken (s t : Store) (cached : CacheRow) : Prop :=
  match s.row? .assistCache cached.id with
  | none => ∃ row, t.row? .assistCache cached.id = some row ∧ cached.SaidBy row
  | some old =>
      let cols : AssistCacheCols := old.cols
      if old.deleted ∨ (cols.command ≠ "" ∧ cached.clock ≤ old.updatedAt) then
        t.row? .assistCache cached.id = some old
      else ∃ row, t.row? .assistCache cached.id = some row ∧ cached.SaidBy row

def PersonalItem.Taken (opened : Uuid → Option Plain) (s t : Store) : PersonalItem → Prop
  | .snippet row => row.Taken s t
  | .doc record => record.Taken opened s t
  | .cached row => row.Taken s t

section taken

variable {draws : Draws} {secrets : List (Uuid × Plain)} {s t : Store} {u v : Tx}

theorem Tx.hasTwin_iff {tx : Tx} {snippet : SnippetRow} : tx.hasTwin snippet = true ↔
    ∃ id, ∃ row : Row SnippetCols, tx.store.row? .snippet id = some row ∧ row.deleted = false ∧
      row.cols.label = snippet.label ∧ row.cols.body = snippet.body := by
  unfold Tx.hasTwin
  rw [List.any_eq_true]
  constructor
  · intro ⟨⟨id, row⟩, hmem, htwin⟩
    simp only [Bool.and_eq_true, Bool.not_eq_true', beq_iff_eq] at htwin
    exact ⟨id, row, Store.mem_rows.mp hmem, htwin.1.1, htwin.1.2, htwin.2⟩
  · intro ⟨id, row, hrow, hlive, hlabel, hbody⟩
    refine ⟨(id, row), Store.mem_rows.mpr hrow, ?_⟩
    simp only [Bool.and_eq_true, Bool.not_eq_true', beq_iff_eq]
    exact ⟨⟨hlive, hlabel⟩, hbody⟩

theorem importSnippet_taken {snippet : SnippetRow} (h : u.importSnippet draws snippet = .ok v)
    (hrow : u.store.row? .snippet snippet.id = s.row? .snippet snippet.id)
    (hkept : t.row? .snippet snippet.id = v.store.row? .snippet snippet.id)
    (hdrawn : ∀ n id, draws.id n = some id → n < v.drawn → t.row? .snippet id = v.store.row? .snippet id)
    (hother : ∀ id, u.store.row? .snippet id = s.row? .snippet id ∨
      t.row? .snippet id = u.store.row? .snippet id) :
    snippet.Taken s t := by
  unfold Tx.importSnippet at h
  unfold SnippetRow.Taken
  dsimp only at h ⊢
  rw [hrow] at h
  cases hs : s.row? .snippet snippet.id with
  | none =>
    rw [hs] at h
    have hin := Tx.row?_insert h
    exact ⟨_, hkept.trans hin, rfl, rfl, rfl, rfl⟩
  | some old =>
    rw [hs] at h
    dsimp only at h ⊢
    split at h
    · next hdeleted =>
      rw [if_pos hdeleted]
      split at h
      · next htwin =>
        obtain ⟨id, row, hid, hsame⟩ := Tx.hasTwin_iff.mp htwin
        rcases hother id with hs' | ht'
        · exact ⟨id, row, Or.inl (hs' ▸ hid), hsame⟩
        · exact ⟨id, row, Or.inr (ht'.trans hid), hsame⟩
      · obtain ⟨id, hid, h⟩ := Tx.newId_bind h
        have hin := Tx.row?_insert h
        obtain ⟨-, rfl⟩ := Tx.insert_ok h
        refine ⟨id, _, Or.inr ((hdrawn u.drawn id hid ?_).trans hin), rfl, rfl, rfl⟩
        show u.drawn < u.drawn + 1 + 1
        omega
    · next hlive =>
      rw [if_neg hlive]
      split at h
      · next hnewer =>
        cases h
        rw [if_pos hnewer]
        refine ⟨_, hkept.trans (Store.row?_putRow_self ..), ?_, rfl, rfl, rfl⟩
        simpa using hlive
      · next hnewer =>
        cases h
        rw [if_neg hnewer, hkept, hrow, hs]

theorem importCached_taken {cached : CacheRow}
    (hrow : u.store.row? .assistCache cached.id = s.row? .assistCache cached.id)
    (hkept : t.row? .assistCache cached.id = (u.importCached draws cached).store.row? .assistCache cached.id) :
    cached.Taken s t := by
  unfold Tx.importCached at hkept
  unfold CacheRow.Taken
  dsimp only at hkept ⊢
  rw [hrow] at hkept
  cases hs : s.row? .assistCache cached.id with
  | none =>
    rw [hs] at hkept
    exact ⟨_, hkept.trans (Store.row?_putRow_self ..), rfl, fun _ _ => rfl⟩
  | some old =>
    rw [hs] at hkept
    dsimp only at hkept ⊢
    split at hkept
    · next hstays => rw [if_pos hstays, hkept, hrow, hs]
    · next hgives =>
      rw [if_neg hgives]
      refine ⟨_, hkept.trans (Store.row?_putRow_self ..), ?_, fun _ _ => rfl⟩
      have hlive := fun hdeleted => hgives (Or.inl hdeleted)
      simpa using hlive

/-- The copies of a record's secrets open to what could be opened of them. -/
theorem lookup_copies (hfresh : draws.Fresh used) {ids : List Uuid} {tx tx' : Tx}
    {copies : List (Uuid × Uuid)} (hopen : tx.store.vault = none → secrets = [])
    (h : tx.copySecrets draws secrets ids = .ok (tx', copies))
    (hreveals : ∀ n id, draws.id n = some id → n < tx'.drawn → t.reveals id = tx'.store.reveals id)
    {secret : Uuid} (hsecret : secret ∈ ids) :
    (List.lookup secret copies).bind t.reveals = List.lookup secret secrets := by
  have hcopying := copySecrets_copying hfresh h
  cases hcopy : List.lookup secret copies with
  | some copy =>
    obtain ⟨before, after, heq, -⟩ := List.lookup_eq_some_iff.mp hcopy
    have hmem : (secret, copy) ∈ copies := by simp [heq]
    rcases hcopying.made (secret, copy) hmem with hnil | ⟨⟨n, -, hlt, hid⟩, plain, hplain, hcopied⟩
    · exact absurd hnil List.not_mem_nil
    · dsimp only at hid hplain hcopied
      rw [hplain, ← hcopied]
      exact hreveals n copy hid hlt
  | none =>
    cases hplain : List.lookup secret secrets with
    | none => rfl
    | some plain =>
      obtain ⟨copy, hmem⟩ := copySecrets_complete hfresh hopen h hsecret (by rw [hplain]; rfl)
      have hne := List.lookup_eq_none_iff.mp hcopy (secret, copy) hmem
      simp at hne

/-- A record that was written over what was there is there, with secrets of its own. -/
theorem Doc.saidBy_written {used : Uuid → Prop} (hfresh : draws.Fresh used) {doc : Doc} {tx : Tx}
    {copies : List (Uuid × Uuid)} {old : List Uuid}
    (hcopy : u.copySecrets draws secrets (doc.table.secrets doc.body) = .ok (tx, copies))
    (hopen : u.store.vault = none → secrets = []) (hid : used doc.id) (hold : ∀ id ∈ old, used id)
    (hlive : (u.store.row? doc.table.kind doc.id).any (·.deleted) = false)
    (hv : v = (old.foldl (fun tx secret => tx.forgetSecret draws secret) tx).writeDoc draws doc.table doc.id
      (doc.table.withSecrets copies doc.body))
    (hkept : t.row? doc.table.kind doc.id = v.store.row? doc.table.kind doc.id)
    (hvault : t.vault = v.store.vault)
    (hdrawn : ∀ n id, draws.id n = some id → n < v.drawn → t.row? .secret id = v.store.row? .secret id) :
    ∃ row, t.row? doc.table.kind doc.id = some row ∧ doc.SaidBy (fun id => List.lookup id secrets) t row := by
  have hkind : doc.table.kind ≠ .secret := (PersonalItem.doc doc).key_ne_secret
  have hcopying := (copySecrets_copying hfresh hcopy).within
  have hforget : Tx.Within draws (fun kind id => kind = .secret ∧ id ∈ old) tx
      (old.foldl (fun tx secret => tx.forgetSecret draws secret) tx) :=
    .forgetSecrets tx fun id hmem => ⟨rfl, hmem⟩
  have hlast : Tx.Within draws (fun kind id => kind = .secret ∧ id ∈ old ∨ kind = doc.table.kind) tx v :=
    hv ▸ (hforget.mono fun _ _ => Or.inl).trans (.writeDoc _ _ (Or.inr rfl))
  obtain ⟨row, hin, hcols, hdeleted⟩ := Tx.row?_writeDoc draws
    (old.foldl (fun tx secret => tx.forgetSecret draws secret) tx) doc.table doc.id
    (doc.table.withSecrets copies doc.body)
  rw [hforget.row?_known hfresh hid fun h => hkind h.1, hcopying.row?_known hfresh hid not_false,
    hlive] at hdeleted
  refine ⟨row, (hkept.trans (by rw [hv])).trans hin, hdeleted, copies, hcols, fun secret hsecret => ?_⟩
  apply lookup_copies hfresh hopen hcopy _ hsecret
  intro n id hdraw hn
  have hsame : v.store.row? .secret id = tx.store.row? .secret id := by
    apply hlast.row?_drawn hfresh hdraw hn
    intro htouches
    rcases htouches with ⟨-, hmem⟩ | heq
    · exact hfresh.unused hdraw (hold _ hmem)
    · exact hkind heq.symm
  have hle := hlast.drawn
  exact Store.reveals_congr (hvault.trans hlast.store.frame.vault) ((hdrawn n id hdraw (by omega)).trans hsame)

theorem importDoc_taken {used : Uuid → Prop} (hfresh : draws.Fresh used) {doc : Doc}
    (h : u.importDoc draws secrets doc = .ok v) (hopen : u.store.vault = none → secrets = [])
    (hknown : (PersonalItem.doc doc).Known used s)
    (hrow : u.store.row? doc.table.kind doc.id = s.row? doc.table.kind doc.id)
    (hkept : t.row? doc.table.kind doc.id = v.store.row? doc.table.kind doc.id)
    (hvault : t.vault = v.store.vault)
    (hdrawn : ∀ n id, draws.id n = some id → n < v.drawn → t.row? .secret id = v.store.row? .secret id) :
    doc.Taken (fun id => List.lookup id secrets) s t := by
  unfold Tx.importDoc at h
  unfold Doc.Taken
  dsimp only at h
  rw [hrow] at h
  have hwritten : (s.row? doc.table.kind doc.id).any (·.deleted) = false →
      (u.copySecrets draws secrets (doc.table.secrets doc.body)).map (fun copied =>
        ((PersonalItem.doc doc).oldSecrets s).foldl (fun tx secret => tx.forgetSecret draws secret) copied.1
          |>.writeDoc draws doc.table doc.id (doc.table.withSecrets copied.2 doc.body)) = .ok v →
      ∃ row, t.row? doc.table.kind doc.id = some row ∧ doc.SaidBy (fun id => List.lookup id secrets) t row := by
    intro hlive hok
    cases hcopy : u.copySecrets draws secrets (doc.table.secrets doc.body) with
    | error e =>
      rw [hcopy] at hok
      cases hok
    | ok copied =>
      rw [hcopy] at hok
      cases hok
      exact Doc.saidBy_written hfresh hcopy hopen hknown.key hknown.secrets (hrow ▸ hlive) rfl hkept
        hvault hdrawn
  cases hs : s.row? doc.table.kind doc.id with
  | none =>
    rw [hs] at h
    have hold : (PersonalItem.doc doc).oldSecrets s = [] := by simp [PersonalItem.oldSecrets, hs]
    rw [hold] at hwritten
    exact hwritten (by rw [hs]; rfl) h
  | some old =>
    rw [hs] at h
    have hold : (PersonalItem.doc doc).oldSecrets s = doc.table.secrets old.cols := by
      simp [PersonalItem.oldSecrets, hs]
    rw [hold] at hwritten
    dsimp only
    split at h
    · next hdeleted =>
      cases h
      have hdeleted : old.deleted = true := hdeleted
      rw [if_pos (Or.inl hdeleted), hkept, hrow, hs]
    · next hlive =>
      have hlive : old.deleted = false := by simpa using hlive
      split at h
      · next hnewer =>
        cases h
        have hstays : old.cols ≠ doc.table.empty ∧ doc.clock ≤ old.updatedAt := by simpa using hnewer
        rw [if_pos (Or.inr hstays), hkept, hrow, hs]
      · next hgives =>
        have hgives : ¬ (old.cols ≠ doc.table.empty ∧ doc.clock ≤ old.updatedAt) := by simpa using hgives
        rw [if_neg (by simp only [hlive, Bool.false_eq_true, false_or]; exact hgives)]
        exact hwritten (by rw [hs]; exact hlive) h

/-- Whatever a person had in one store is in the other after it took it in: of two records
under one id the newer, with its secrets, and what a tombstone of the other store allows. -/
theorem importItems_taken {used : Uuid → Prop} {items : List PersonalItem} (hfresh : draws.Fresh used)
    (hkeys : (items.map (·.key)).Nodup) (hknown : ∀ item ∈ items, item.Known used s)
    (hopen : s.vault = none → secrets = [])
    (h : Transaction.play (items.map (Tx.importItem draws secrets)) { store := s, drawn := 0 } = .ok v)
    {item : PersonalItem} (hitem : item ∈ items) :
    item.Taken (fun id => List.lookup id secrets) s v.store := by
  obtain ⟨a, b, hvault, hrow, hstep, hvault', hkept, hdrawn, hother⟩ :=
    importItems_turn hfresh hkeys hknown h hitem
  have hb := (importItem_within hfresh hstep).store.frame.vault
  cases item with
  | snippet row =>
    exact importSnippet_taken hstep hrow hkept (fun n id hid hn => hdrawn .snippet n id hid hn)
      fun id => hother .snippet id nofun
  | doc record =>
    exact importDoc_taken hfresh hstep (hvault ▸ hopen) (hknown _ hitem) hrow hkept
      (hvault'.trans (hb.trans hvault).symm) fun n id hid hn => hdrawn .secret n id hid hn
  | cached row =>
    cases hstep
    exact importCached_taken hrow hkept

end taken

section exporting

variable {s : Store} {personal : Personal}

/-- The records under fixed ids that were ever set. -/
def Store.docs (s : Store) : List Doc :=
  DocTable.all.flatMap fun table => (s.setDocs table).map fun e =>
    { table, id := e.1, body := e.2.cols, clock := e.2.updatedAt }

/-- What a person has in a store. -/
def Store.personalItems (s : Store) : List PersonalItem :=
  (s.liveSnippets.map SnippetRow.ofRow).map .snippet ++ s.docs.map .doc ++
    (s.usedCache.map CacheRow.ofRow).map .cached

/-- The secrets a person's records point at. -/
def Store.mentioned (s : Store) : List Uuid := s.docs.flatMap fun doc => doc.table.secrets doc.body

theorem Store.sealedSecret_bind {vault : UnlockedVault} (hvault : s.vault = some vault) (id : Uuid) :
    ((s.sealedSecret id).bind fun e => (vault.openStored e.1 .secret e.2).map fun plain => (e.1, plain)) =
      (s.reveals id).map fun plain => (id, plain) := by
  unfold Store.sealedSecret Store.reveals
  rw [hvault]
  cases hrow : s.row? .secret id with
  | none => rfl
  | some row =>
    obtain ⟨vaultId, updatedAt, rev, deleted, dirty, serverSeq, cols⟩ := row
    cases deleted with
    | true => rfl
    | false =>
      by_cases hblob : 0 < cols.blob.length
      · simp only [Option.filter, holdsSecret, hblob, decide_true, Bool.not_false, Bool.and_self, if_true]
        rfl
      · have hraw : vault.openStored id .secret cols = none := by
          unfold UnlockedVault.openStored UnlockedVault.decrypt
          cases hb : cols.blob with
          | raw bytes => rfl
          | sealedWith key nonce aad plain =>
            rw [hb] at hblob
            exact absurd (Nat.succ_pos _) hblob
        simp [Option.filter, holdsSecret, hblob, hraw]

theorem lookup_filterMap {g : Uuid → Option Plain} {ids : List Uuid} {id : Uuid} (hid : id ∈ ids) :
    List.lookup id (ids.filterMap fun i => (g i).map fun plain => (i, plain)) = g id := by
  induction ids with
  | nil => exact absurd hid List.not_mem_nil
  | cons first rest ih =>
    by_cases heq : first = id
    · subst heq
      cases hg : g first with
      | some plain => simp [hg]
      | none =>
        have hrest : List.lookup first
            (rest.filterMap fun i => (g i).map fun plain => (i, plain)) = none := by
          rw [List.lookup_eq_none_iff]
          intro e he
          obtain ⟨i, -, hi⟩ := List.mem_filterMap.mp he
          cases hgi : g i with
          | none =>
            rw [hgi] at hi
            cases hi
          | some plain =>
            rw [hgi] at hi
            cases hi
            apply bne_iff_ne.mpr
            intro hsame
            rw [hsame, hgi] at hg
            cases hg
        simp [hg, hrest]
    · have hrest := ih ((List.mem_cons.mp hid).resolve_left fun h => heq h.symm)
      cases hg : g first with
      | none => simp [hg, hrest]
      | some plain =>
        have hne : (id == first) = false := by simpa using fun h => heq h.symm
        simp [hg, List.lookup_cons, hne, hrest]

/-- What is read out of a store is all a person has there, with the secrets that open. -/
theorem exportPersonal_ok (h : s.exportPersonal = .ok personal) : personal.items = s.personalItems ∧
    personal.secrets = s.mentioned.filterMap fun id => (s.reveals id).map fun plain => (id, plain) := by
  have hmentioned : (s.docs.flatMap fun doc =>
      (doc.table.secrets doc.body).filterMap s.sealedSecret) = s.mentioned.filterMap s.sealedSecret := by
    rw [Store.mentioned, List.filterMap_flatMap]
  unfold Store.exportPersonal at h
  dsimp only at h
  change (if (s.docs.flatMap fun doc => (doc.table.secrets doc.body).filterMap s.sealedSecret).isEmpty
    then _ else _) = _ at h
  rw [hmentioned] at h
  split at h
  · next hempty =>
    cases h
    refine ⟨rfl, ?_⟩
    cases hvault : s.vault with
    | none =>
      have hnone : ∀ id, s.reveals id = none := fun id => by rw [Store.reveals, hvault]
      simp [hnone]
    | some vault =>
      have hnone := List.isEmpty_iff.mp hempty
      rw [← List.filterMap_congr fun id _ => Store.sealedSecret_bind hvault id,
        ← List.filterMap_filterMap, hnone]
      rfl
  · split at h
    · cases h
    · next vault hvault =>
      cases h
      refine ⟨rfl, ?_⟩
      show ((s.docs.flatMap fun doc => (doc.table.secrets doc.body).filterMap s.sealedSecret).filterMap _) = _
      rw [hmentioned, List.filterMap_filterMap]
      exact List.filterMap_congr fun id _ => Store.sealedSecret_bind hvault id

end exporting

section importing

variable {draws : Draws} {s t : Store} {personal : Personal}

theorem nodup_keys (s : Store) (kind : EntityKind) (p : Uuid × Row (Cols kind) → Bool) :
    (((s.rows kind).filter p).map fun e => ((kind, e.1) : EntityKind × Uuid)).Nodup := by
  have hids : (((s.rows kind).filter p).map Prod.fst).Nodup :=
    (s.nodup_rows kind).sublist (List.filter_sublist.map Prod.fst)
  have hkeys := hids.map (f := Prod.mk kind) fun _ _ h => congrArg Prod.snd h
  rwa [List.map_map] at hkeys

/-- No two records of a person have one key. -/
theorem nodup_personalItems (s : Store) : (s.personalItems.map (·.key)).Nodup := by
  let keys : EntityKind → List (EntityKind × Uuid) := fun
    | .snippet => s.liveSnippets.map fun e => (.snippet, e.1)
    | .keymap => (s.setDocs .keymaps).map fun e => (.keymap, e.1)
    | .assistConfig => (s.setDocs .assistConfig).map fun e => (.assistConfig, e.1)
    | .assistCache => s.usedCache.map fun e => (.assistCache, e.1)
    | _ => []
  have hkeys : s.personalItems.map (·.key) =
      [EntityKind.snippet, .keymap, .assistConfig, .assistCache].flatMap keys := by
    simp [Store.personalItems, Store.docs, DocTable.all, keys, List.map_map, Function.comp_def,
      PersonalItem.key, SnippetRow.ofRow, CacheRow.ofRow, DocTable.kind]
  rw [hkeys, List.nodup_flatMap]
  constructor
  · intro kind hkind
    simp only [List.mem_cons, List.not_mem_nil, or_false] at hkind
    rcases hkind with rfl | rfl | rfl | rfl
    · exact nodup_keys s .snippet _
    · exact nodup_keys s .keymap _
    · exact nodup_keys s .assistConfig _
    · exact nodup_keys s .assistCache _
  · have hkind : ∀ kind, ∀ key ∈ keys kind, key.1 = kind := by
      intro kind key hkey
      cases kind <;> simp only [keys, List.mem_map, List.not_mem_nil] at hkey <;>
        obtain ⟨e, -, rfl⟩ := hkey <;> rfl
    have hne : [EntityKind.snippet, .keymap, .assistConfig, .assistCache].Nodup := by decide
    refine hne.imp fun hab key ha hb => hab ?_
    rw [← hkind _ key ha, hkind _ key hb]

/-- Ids a store uses, or that its records mention. -/
def Store.Uses (s : Store) (id : Uuid) : Prop :=
  (∃ kind, (s.row? kind id).isSome) ∨ ∃ table : DocTable, ∃ id', ∃ row : Row table.Body,
    s.row? table.kind id' = some row ∧ id ∈ table.secrets row.cols

theorem mem_personalItems {s : Store} {item : PersonalItem} (h : item ∈ s.personalItems) :
    (s.row? item.key.1 item.key.2).isSome := by
  rcases List.mem_append.mp h with h | h
  · rcases List.mem_append.mp h with h | h
    · obtain ⟨row, hrow, rfl⟩ := List.mem_map.mp h
      obtain ⟨e, he, rfl⟩ := List.mem_map.mp hrow
      exact Option.isSome_of_mem (Store.mem_rows.mp (List.mem_filter.mp he).1)
    · obtain ⟨record, hrecord, rfl⟩ := List.mem_map.mp h
      obtain ⟨table, -, hin⟩ := List.mem_flatMap.mp hrecord
      obtain ⟨e, he, rfl⟩ := List.mem_map.mp hin
      exact Option.isSome_of_mem (Store.mem_rows.mp (List.mem_filter.mp he).1)
  · obtain ⟨row, hrow, rfl⟩ := List.mem_map.mp h
    obtain ⟨e, he, rfl⟩ := List.mem_map.mp hrow
    exact Option.isSome_of_mem (Store.mem_rows.mp (List.mem_filter.mp he).1)

theorem mem_docs {s : Store} {record : Doc} (h : PersonalItem.doc record ∈ s.personalItems) :
    record ∈ s.docs := by
  simpa [Store.personalItems] using h

theorem PersonalItem.Taken.congr {opened opened' : Uuid → Option Plain} {item : PersonalItem}
    (h : item.Taken opened s t) (hsame : ∀ record, item = .doc record →
      ∀ id ∈ record.table.secrets record.body, opened id = opened' id) : item.Taken opened' s t := by
  cases item with
  | snippet row => exact h
  | cached row => exact h
  | doc record =>
    have hsaid : ∀ row, record.SaidBy opened t row → record.SaidBy opened' t row := by
      intro row ⟨hlive, copies, hcols, hcopies⟩
      exact ⟨hlive, copies, hcols, fun id hid => (hcopies id hid).trans (hsame record rfl id hid)⟩
    have h : record.Taken opened s t := h
    show record.Taken opened' s t
    unfold Doc.Taken at h ⊢
    cases hrow : s.row? record.table.kind record.id with
    | none =>
      rw [hrow] at h
      exact h.imp fun row hrow => hrow.imp_right (hsaid row)
    | some old =>
      rw [hrow] at h
      dsimp only at h ⊢
      split
      · next hstays => rwa [if_pos hstays] at h
      · next hgives =>
        rw [if_neg hgives] at h
        exact h.imp fun row hrow => hrow.imp_right (hsaid row)

/-- What comes in names only ids that are used. -/
theorem known_of_uses {s : Store} {item : PersonalItem} (h : item ∈ s.personalItems) :
    item.Known (fun id => s.Uses id ∨ t.Uses id) t where
  key := Or.inl (Or.inl ⟨_, mem_personalItems h⟩)
  secrets id hid := by
    refine Or.inr (Or.inr ?_)
    cases item with
    | snippet row => exact absurd hid List.not_mem_nil
    | cached row => exact absurd hid List.not_mem_nil
    | doc record =>
      unfold PersonalItem.oldSecrets at hid
      dsimp only at hid
      cases hrow : t.row? record.table.kind record.id with
      | none =>
        rw [hrow] at hid
        exact absurd hid List.not_mem_nil
      | some row =>
        rw [hrow] at hid
        exact ⟨record.table, record.id, row, hrow, hid⟩

/-- A store that took another's records in went through them one by one. -/
theorem importPersonal_ok {t' : Store} (hexport : s.exportPersonal = .ok personal)
    (himport : t.importPersonal draws personal = .ok t') : ∃ tx : Tx, t' = tx.store ∧
      (t.vault = none → personal.secrets = []) ∧
      Transaction.play (s.personalItems.map (Tx.importItem draws personal.secrets))
        { store := t, drawn := 0 } = .ok tx := by
  rw [← (exportPersonal_ok hexport).1]
  unfold Store.importPersonal at himport
  split at himport
  · cases himport
  · next hopen =>
    cases hplay : Transaction.play (personal.items.map (Tx.importItem draws personal.secrets))
        { store := t, drawn := 0 } with
    | error e =>
      rw [hplay] at himport
      cases himport
    | ok tx =>
      rw [hplay] at himport
      cases himport
      refine ⟨tx, rfl, fun hnone => ?_, rfl⟩
      simpa [hnone] using hopen

/-- Everything a person has in one store is in the other after it took it in, with the
secrets the one could open. -/
theorem importPersonal_taken (hfresh : draws.Fresh fun id => s.Uses id ∨ t.Uses id) {t' : Store}
    (hexport : s.exportPersonal = .ok personal) (himport : t.importPersonal draws personal = .ok t')
    {item : PersonalItem} (hitem : item ∈ s.personalItems) : item.Taken s.reveals t t' := by
  obtain ⟨tx, rfl, hopen, hplay⟩ := importPersonal_ok hexport himport
  have htaken := importItems_taken hfresh (nodup_personalItems s) (fun _ => known_of_uses) hopen hplay hitem
  refine htaken.congr fun record hrecord id hid => ?_
  rw [(exportPersonal_ok hexport).2]
  apply lookup_filterMap
  exact List.mem_flatMap.mpr ⟨record, mem_docs (hrecord ▸ hitem), hid⟩

/-- The kinds a person's records have. -/
def PersonalKind (kind : EntityKind) : Prop :=
  kind = .snippet ∨ (∃ table : DocTable, kind = table.kind) ∨ kind = .assistCache

theorem Store.Within.insert {touched : EntityKind → Uuid → Prop} {tx tx' : Tx} {kind : EntityKind} {id : Uuid}
    {cols : Cols kind} {clock : Hlc} (h : tx.insert kind id cols clock = .ok tx') (hid : touched kind id) :
    tx.store.Within touched tx'.store := by
  obtain ⟨-, rfl⟩ := Tx.insert_ok h
  exact .putRow _ _ hid

theorem copySecrets_kinds {secrets : List (Uuid × Plain)} {ids : List Uuid} {tx tx' : Tx}
    {copies : List (Uuid × Uuid)} (h : tx.copySecrets draws secrets ids = .ok (tx', copies)) :
    tx.store.Within (fun kind _ => kind = .secret) tx'.store := by
  unfold Tx.copySecrets at h
  split at h
  · cases h
    exact .refl _
  · next vault hvault =>
    let related (a b : Tx × List (Uuid × Uuid)) : Prop :=
      a.1.store.Within (fun kind _ => kind = .secret) b.1.store
    refine @Transaction.play_preserves _ _ _ _ related (fun a => .refl a.1.store)
      (fun a b c => Store.Within.trans) _ ?_ h
    intro stmt hstmt a b hstep
    obtain ⟨secret, -, rfl⟩ := List.mem_map.mp hstmt
    obtain ⟨u, before⟩ := a
    unfold Tx.copySecret at hstep
    dsimp only at hstep
    split at hstep
    · cases hstep
      exact .refl _
    · next plain hlookup =>
      cases hseal : u.sealSecret draws vault plain with
      | error e =>
        rw [hseal] at hstep
        cases hstep
      | ok sealed =>
        rw [hseal] at hstep
        cases hstep
        exact Tx.sealSecret_within hseal rfl

/-- Nothing but a person's records and secrets is written. -/
theorem importItem_kinds {secrets : List (Uuid × Plain)} {item : PersonalItem} {tx tx' : Tx}
    (h : Tx.importItem draws secrets item tx = .ok tx') :
    tx.store.Within (fun kind _ => PersonalKind kind ∨ kind = .secret) tx'.store := by
  cases item with
  | snippet row =>
    have h : tx.importSnippet draws row = .ok tx' := h
    unfold Tx.importSnippet at h
    dsimp only at h
    split at h
    · exact (Store.Within.tick tx.store _).trans (.insert h (Or.inl (Or.inl rfl)))
    · split at h
      · split at h
        · cases h
          exact .refl _
        · obtain ⟨id, -, h⟩ := Tx.newId_bind h
          exact (Store.Within.tick tx.store _).trans (.insert h (Or.inl (Or.inl rfl)))
      · split at h
        · cases h
          exact (Store.Within.tick tx.store _).trans (.putRow _ _ (Or.inl (Or.inl rfl)))
        · cases h
          exact .refl _
  | doc record =>
    have h : tx.importDoc draws secrets record = .ok tx' := h
    unfold Tx.importDoc at h
    dsimp only at h
    split at h
    · cases h
      exact .refl _
    split at h
    · cases h
      exact .refl _
    cases hcopy : tx.copySecrets draws secrets (record.table.secrets record.body) with
    | error e =>
      rw [hcopy] at h
      cases h
    | ok copied =>
      rw [hcopy] at h
      cases h
      let old := (tx.store.row? record.table.kind record.id).elim [] fun row => record.table.secrets row.cols
      have hforget : copied.1.store.Within (fun kind _ => PersonalKind kind ∨ kind = .secret)
          (old.foldl (fun tx secret => tx.forgetSecret draws secret) copied.1).store :=
        .forgetSecrets copied.1 fun _ _ => Or.inr rfl
      refine (((copySecrets_kinds hcopy).mono fun _ _ => Or.inr).trans hforget).trans ?_
      exact (Store.Within.tick _ _).trans (.putRow _ _ (Or.inl (Or.inr (Or.inl ⟨record.table, rfl⟩))))
  | cached row =>
    cases h
    have hkind : PersonalKind .assistCache ∨ EntityKind.assistCache = .secret := Or.inl (Or.inr (Or.inr rfl))
    unfold Tx.importCached
    dsimp only
    split
    · exact (Store.Within.tick tx.store _).trans (.putRow _ _ hkind)
    · split
      · exact .refl _
      · exact (Store.Within.tick tx.store _).trans (.putRow _ _ hkind)

/-- Rows that taking a person's records in may write: theirs, the secrets that gives up, and new ones. -/
def TakesIn (draws : Draws) (s t : Store) (kind : EntityKind) (id : Uuid) : Prop :=
  (TouchedBy t s.personalItems kind id ∨ ∃ n, draws.id n = some id) ∧ (PersonalKind kind ∨ kind = .secret)

theorem importPersonal_within (hfresh : draws.Fresh fun id => s.Uses id ∨ t.Uses id) {t' : Store}
    (hexport : s.exportPersonal = .ok personal) (himport : t.importPersonal draws personal = .ok t') :
    t.Within (TakesIn draws s t) t' := by
  obtain ⟨tx, rfl, -, hplay⟩ := importPersonal_ok hexport himport
  have hrows := (importItems_within hfresh (nodup_personalItems s) (fun _ => known_of_uses)
    (fun _ _ => rfl) hplay).store
  refine (hrows.mono fun kind id h => h.imp_right fun ⟨n, _, _, hid⟩ => ⟨n, hid⟩).inter ?_
  let related (a b : Tx) : Prop :=
    a.store.Within (fun kind _ => PersonalKind kind ∨ kind = .secret) b.store
  refine @Transaction.play_preserves _ _ _ _ related (fun a => .refl a.store)
    (fun a b c => Store.Within.trans) _ ?_ hplay
  intro stmt hstmt a b hstep
  obtain ⟨item, -, rfl⟩ := List.mem_map.mp hstmt
  exact importItem_kinds hstep

end importing

end UwuSsh

import UwuSsh.Store.ImportFacts
import UwuSsh.Store.Slots
import UwuSsh.Store.Stamps

/-!
What the user's edits and an import do to a store, told once for every operation. A statement names what
was given to it, what was read before it or what was written before it in the same transaction, and it
writes under a clock that was drawn before it. So no reference dangles, and every row an edit touches is
stamped later than anything the store had seen.
-/
namespace UwuSsh

open Fallible InTx Run Store

/-- A program that may run where some facts are known: the store stays sound, what was known goes on
being so, and what the program gives is known after it. -/
def Safe {α : Type} (known : List Fact) (prog : InTx α) (gives : α → List Fact) : Prop :=
  ∀ (start : Store) (tx : Tx), start.Sound tx.store → start.Facts tx.store known →
    Ends prog tx fun a u => start.Goes tx.store u.store ∧ start.Facts u.store (gives a)

section safe

variable {draws : Draws} {α β : Type} {known known' : List Fact} {prog : InTx α} {next : α → InTx β}
  {gives gives' : α → List Fact} {after : β → List Fact}

theorem Safe.bind (h : Safe known prog gives) (h' : ∀ a, Safe (gives a ++ known) (next a) after) :
    Safe known (prog >>= next) after := by
  intro start tx hsound hknown
  refine ends_bind.mpr ((h start tx hsound hknown).mono fun a u hu => ?_)
  have hmore : start.Facts u.store (gives a ++ known) := hu.2.append (hknown.lasts hu.1)
  exact (h' a start u hu.1.sound hmore).mono fun b v hv => ⟨hu.1.trans hv.1, hv.2⟩

theorem Safe.mono (h : Safe known' prog gives) (hknown : known' ⊆ known)
    (hgives : ∀ a, gives' a ⊆ gives a ++ known) : Safe known prog gives' := by
  intro start tx hsound hknows
  refine (h start tx hsound (hknows.mono hknown)).mono fun a u hu => ⟨hu.1, ?_⟩
  exact (hu.2.append (hknows.lasts hu.1)).mono (hgives a)

theorem Safe.plain (h : Safe known prog gives) : Safe known prog fun _ => [] :=
  h.mono (List.Subset.refl _) fun _ => List.nil_subset _

theorem safe_pure {a : α} (h : gives a ⊆ known) : Safe known (pure a) gives :=
  fun _ _ hsound hknown => ends_pure.mpr ⟨.refl hsound, hknown.mono h⟩

theorem safe_throw {e : LocalError} : Safe known (throw e : InTx α) gives := fun _ _ _ _ => ends_throw

theorem safe_read {f : Store → α}
    (h : ∀ start s : Store, start.Sound s → start.Facts s known → start.Facts s (gives (f s))) :
    Safe known (read f) gives :=
  fun start _ hsound hknown => ends_read.mpr ⟨.refl hsound, h start _ hsound hknown⟩

/-- A look that names nothing. -/
theorem safe_look {f : Store → α} : Safe known (read f) fun _ => [] := safe_read fun _ _ _ _ => facts_nil

theorem safe_lift {r : Except LocalError α} : Safe known (lift r) fun _ => [] :=
  fun _ _ hsound _ => ends_lift.mpr fun _ _ => ⟨.refl hsound, facts_nil⟩

theorem safe_tick : Safe known (InTx.tick draws) fun clock => [.stamped clock] :=
  fun _ tx hsound _ => ends_tick.mpr (hsound.tick (draws.now tx.drawn))

theorem safe_now : Safe known (InTx.now draws) fun _ => [] :=
  fun _ _ hsound _ => ends_now.mpr ⟨.refl hsound, facts_nil⟩

theorem safe_newId : Safe known (newId draws) fun _ => [] :=
  fun _ _ hsound _ => ends_newId.mpr fun _ _ => ⟨.refl hsound, facts_nil⟩

theorem safe_write {f : Store → Store}
    (h : ∀ start s : Store, start.Sound s → start.Facts s known → start.Goes s (f s)) :
    Safe known (write f) fun _ => [] :=
  fun start _ hsound hknown => ends_write.mpr ⟨h start _ hsound hknown, facts_nil⟩

section rows

variable {kind : EntityKind} {id : Uuid} {cols : Cols kind} {clock : Hlc} {row : Row (Cols kind)}
  {f : Row (Cols kind) → Row (Cols kind)}

theorem safe_insertRow (hclock : .stamped row.updatedAt ∈ known) (hwritten : Row.Written none row)
    (hrefs : refs kind row.cols ⊆ known) : Safe known (insertRow kind id row) fun _ => named kind (some id) := by
  intro start tx hsound hknown
  refine ends_insertRow.mpr fun hnone => hsound.putRow hknown hclock ?_ hrefs
  rw [hnone]
  exact hwritten

/-- What a new row names is known before, and the row itself after. -/
theorem safe_insert (hclock : .stamped clock ∈ known) (hrefs : refs kind cols ⊆ known) :
    Safe known (insert kind id cols clock) fun _ => named kind (some id) := by
  intro start tx hsound hknown
  exact ends_insert.mpr fun hnone => hsound.newRow hknown hnone hclock hrefs

/-- A row that is written under a clock of the transaction. -/
theorem safe_update (hclock : .stamped clock ∈ known) (hrow : ∀ row, RowBecame (· = clock) id row (f row))
    (hrefs : ∀ row, refs kind (f row).cols ⊆ refs kind row.cols ++ known) :
    Safe known (update kind id f) fun _ => [] := by
  refine safe_write fun start s hsound hknown => hsound.updateRow hknown ?_ hrow hrefs
  intro c hc
  exact hc ▸ hclock

/-- One that goes on naming what it named. -/
theorem safe_keep (hclock : .stamped clock ∈ known) (hrow : ∀ row, RowBecame (· = clock) id row (f row))
    (hrefs : ∀ row, Cols.pointsAt kind (f row).cols = Cols.pointsAt kind row.cols) :
    Safe known (update kind id f) fun _ => [] := by
  refine safe_update hclock hrow fun row => ?_
  rw [refs, hrefs]
  exact List.subset_append_left _ _

theorem safe_tomb (hclock : .stamped clock ∈ known) : Safe known (update kind id (·.tombed clock)) fun _ => [] :=
  safe_keep hclock (fun _ => rowBecame_tombed) fun _ => rfl

/-- Local bookkeeping: nothing that is synced changes. -/
theorem safe_local (hrow : ∀ row : Row (Cols kind), row.SameSynced id (f row))
    (hrefs : ∀ row, Cols.pointsAt kind (f row).cols = Cols.pointsAt kind row.cols) :
    Safe known (write fun s => s.updateRow kind id f) fun _ => [] := by
  have hnone : ∀ row, RowBecame (fun _ => False) id row (f row) := fun row => .inl (hrow row)
  refine safe_write fun start s hsound hknown => hsound.updateRow hknown (fun _ hc => hc.elim) hnone fun row => ?_
  rw [refs, hrefs]
  exact List.subset_append_left _ _

/-- A record under a fixed id, written whole. -/
theorem safe_upsert (hkind : kind ∈ revivedKinds) (hclock : .stamped clock ∈ known) (hrefs : refs kind cols ⊆ known) :
    Safe known (upsert kind id cols clock) fun _ => [] := by
  refine safe_write fun start s hsound hknown => ?_
  cases hrow : s.row? kind id with
  | none => exact (hsound.putRow hknown hclock (hrow ▸ Row.written_newRow) hrefs).1
  | some row =>
    refine (hsound.putRow hknown hclock ?_ hrefs).1
    rw [hrow]
    exact ⟨rfl, rfl, fun hnot => absurd hkind hnot⟩

theorem safe_sealSecret {vault : UnlockedVault} {plain : Plain} :
    Safe known (InTx.sealSecret draws vault plain) fun id => named .secret (some id) := by
  intro start tx hsound _
  refine ends_sealSecret.mpr fun id u hseal => ?_
  obtain ⟨-, u, rfl, hinsert⟩ := Tx.sealSecret_eq hseal
  obtain ⟨hnone, rfl⟩ := Tx.insert_ok hinsert
  have hticked := hsound.tick (draws.now (tx.drawn + 1))
  have hclock := List.mem_singleton_self (Fact.stamped (tx.store.tick (draws.now (tx.drawn + 1))).2)
  have hrow := @Sound.newRow start _ _ .secret (vault.sealStored id .secret plain) id _ hticked.1.sound hticked.2
    hnone hclock (List.nil_subset _)
  exact ⟨hticked.1.trans hrow.1, hrow.2⟩

theorem safe_forgetSecret : Safe known (forgetSecret draws id) fun _ => [] := by
  intro start tx hsound _
  have hticked := hsound.tick (draws.now tx.drawn)
  refine ends_forgetSecret.mpr ⟨hticked.1.trans ?_, facts_nil⟩
  have hgood : ∀ c, c = (tx.store.tick (draws.now tx.drawn)).2 →
      Fact.stamped c ∈ [Fact.stamped (tx.store.tick (draws.now tx.drawn)).2] := by
    rintro c rfl
    exact List.mem_singleton_self _
  refine hticked.1.sound.updateRow hticked.2 hgood (fun row => rowBecame_ite rowBecame_self (.inr ⟨rfl, ?_⟩))
    fun _ => List.nil_subset _
  exact ⟨rfl, rfl, fun _ _ _ _ => rfl⟩

end rows

theorem safe_mapM {o : Option α} {f : α → InTx β} (h : ∀ a, Safe known (f a) after) :
    Safe known (o.mapM f) fun found => found.elim [] after := by
  intro start tx hsound hknown
  exact ends_mapM (fun _ => ⟨.refl hsound, facts_nil⟩) fun a _ => h a start tx hsound hknown

theorem safe_foldlM {step : β → α → InTx β} {l : List α} (h : ∀ a ∈ l, ∀ b, Safe (after b ++ known) (step b a) after)
    {b : β} : Safe (after b ++ known) (l.foldlM step b) after := by
  induction l generalizing b with
  | nil => exact safe_pure (List.subset_append_left _ _)
  | cons a rest ih =>
    rw [List.foldlM_cons]
    refine (h a List.mem_cons_self b).bind fun b' => ?_
    have hrest := ih (fun a' ha' => h a' (List.mem_cons_of_mem _ ha')) (b := b')
    refine hrest.mono ?_ fun _ => List.subset_append_left _ _
    exact List.append_subset.mpr ⟨List.subset_append_left _ _, fun target hmem =>
      List.mem_append_right _ (List.mem_append_right _ hmem)⟩

end safe

/-! ### What is read -/

section found

variable {start s : Store} {kind : EntityKind} {id : Uuid}

theorem facts_of_row? {row : Row (Cols kind)} (h : s.row? kind id = some row) :
    start.Facts s (named kind (some id)) :=
  facts_named.mpr fun _ => present_of_row? h

/-- What a row that is found may name. -/
theorem facts_found (hclosed : s.Closed) (found : Option (Row (Cols kind)))
    (h : ∀ row, found = some row → s.row? kind id = some row) :
    start.Facts s (found.elim [] fun row => refs kind row.cols) := by
  cases found with
  | none => exact facts_nil
  | some row => exact facts_refs.mpr (hclosed.refs (h row rfl))

theorem facts_groupId {workspace : Workspace} {name : String} :
    start.Facts s (named .group (s.groupId workspace name)) := by
  cases hgroup : s.groupId workspace name with
  | none => exact facts_nil
  | some group =>
    obtain ⟨row, hlive, -⟩ := called_of_groupId hgroup
    exact facts_of_row? (live?_eq_some.mp hlive).1

end found

/-! ### Groups -/

section groups

variable {draws : Draws} {known : List Fact} {α : Type}

theorem refs_append {kind : EntityKind} {cols : Cols kind} {one two : EntityKind} {a b : Option Uuid}
    (h : Cols.pointsAt kind cols = a.toList.map (one, ·) ++ b.toList.map (two, ·)) :
    refs kind cols = named one a ++ named two b := by
  rw [refs, h, List.map_append, List.map_map, List.map_map]
  rfl

theorem refs_host (cols : HostCols) :
    refs .host cols = named .group cols.groupId ++ named .identity cols.identityId :=
  refs_append rfl

theorem hostRefs {cols : HostCols} {facts : List Fact} (hgroup : named .group cols.groupId ⊆ facts)
    (hidentity : named .identity cols.identityId ⊆ facts) : refs .host cols ⊆ facts := by
  rw [refs_host]
  exact List.append_subset.mpr ⟨hgroup, hidentity⟩

theorem group_of_host (cols : HostCols) : named .group cols.groupId ⊆ refs .host cols := by
  rw [refs_host]
  exact List.subset_append_left _ _

theorem identity_of_host (cols : HostCols) : named .identity cols.identityId ⊆ refs .host cols := by
  rw [refs_host]
  exact List.subset_append_right _ _

theorem safe_mapM_named {kind : EntityKind} {o : Option α} {f : α → InTx Uuid}
    (h : ∀ a, Safe known (f a) fun id => named kind (some id)) : Safe known (o.mapM f) (named kind) := by
  refine (safe_mapM h).mono (List.Subset.refl _) fun found => ?_
  cases found with
  | none => exact List.nil_subset _
  | some id => exact List.subset_append_left _ _

theorem safe_groupId {workspace : Workspace} {name : String} :
    Safe known (read (·.groupId workspace name)) (named .group) :=
  safe_read fun _ _ _ _ => facts_groupId

theorem safe_live {kind : EntityKind} {id : Uuid} :
    Safe known (read (·.live? kind id)) fun found => found.elim [] fun row => refs kind row.cols :=
  safe_read fun _ s hsound _ => facts_found hsound.closed (s.live? kind id) fun _ hlive => (live?_eq_some.mp hlive).1

theorem readHost_safe {id : Uuid} : Safe known (readHost id) fun _ => [] := by
  refine safe_look.bind fun found => ?_
  cases found with
  | none => exact safe_throw
  | some record => exact safe_pure (List.nil_subset _)

/-- The group a host names is there from then on. -/
theorem ensureGroup_safe {workspace : Workspace} {name : String} :
    Safe known (ensureGroup draws workspace name) fun id => named .group (some id) := by
  refine safe_groupId.bind fun found => ?_
  cases found with
  | some id => exact safe_pure (List.subset_append_left _ _)
  | none =>
    refine safe_look.bind fun _ => safe_lift.bind fun _ => safe_tick.bind fun clock => safe_newId.bind fun id => ?_
    refine (safe_insert ?_ (List.nil_subset _)).bind fun _ => safe_pure (List.subset_append_left _ _)
    exact List.mem_cons_self

theorem placeHosts_safe {to_ : Workspace} {group : Option Uuid} {clock : Hlc} {places : List (Uuid × Int64)}
    (hclock : .stamped clock ∈ known) (hgroup : named .group group ⊆ known) :
    Safe known (write fun s => s.placeHosts to_ group clock places) fun _ => [] := by
  have hgood : ∀ c, c = clock → .stamped c ∈ known := fun c hc => hc ▸ hclock
  refine safe_write fun start s hsound hknown =>
    hsound.updateEach hknown hgood (fun _ _ _ => rowBecame_edited) fun position (row : Row HostCols) => ?_
  refine hostRefs (List.subset_append_of_subset_right _ hgroup) ?_
  exact List.subset_append_of_subset_left _ (identity_of_host row.cols)

theorem moveMembers_safe {from_ : Uuid} {to_ : Workspace} {group : Option Uuid}
    (hgroup : named .group group ⊆ known) : Safe known (moveMembers draws from_ to_ group) fun _ => [] := by
  refine safe_look.bind fun hosts => ?_
  split
  · exact safe_pure (List.nil_subset _)
  · refine safe_look.bind fun _ => safe_lift.bind fun _ => safe_tick.bind fun _ => ?_
    refine placeHosts_safe List.mem_cons_self fun fact hmem => ?_
    have hmem := hgroup hmem
    simp [hmem]

theorem tombstoneGroup_safe {group : Uuid} : Safe known (tombstoneGroup draws group) fun _ => [] :=
  safe_tick.bind fun _ =>
    safe_keep List.mem_cons_self (fun _ => rowBecame_ite rowBecame_self rowBecame_tombed) fun _ => rfl

theorem createGroup_safe {workspace : Workspace} {name : String} :
    Safe known (createGroup draws workspace name) fun _ => [] := by
  refine safe_lift.bind fun _ => safe_look.bind fun _ => ?_
  split
  · exact safe_throw
  · exact ensureGroup_safe.bind fun _ => safe_look.bind fun _ => safe_pure (List.nil_subset _)

theorem renameGroup_safe {workspace : Workspace} {from_ to_ : String} :
    Safe known (renameGroup draws workspace from_ to_) fun _ => [] := by
  refine safe_lift.bind fun _ => ?_
  split
  · exact safe_pure (List.nil_subset _)
  refine safe_groupId.bind fun found => ?_
  cases found with
  | none => exact safe_throw
  | some fromId =>
    refine safe_groupId.bind fun target => ?_
    cases target with
    | some toId =>
      exact (moveMembers_safe (List.subset_append_left _ _)).bind fun _ => tombstoneGroup_safe
    | none =>
      exact safe_tick.bind fun _ => safe_keep List.mem_cons_self (fun _ => rowBecame_edited) fun _ => rfl

theorem deleteGroup_safe {workspace : Workspace} {name : String} :
    Safe known (deleteGroup draws workspace name) fun _ => [] := by
  refine safe_groupId.bind fun found => ?_
  cases found with
  | none => exact safe_throw
  | some group => exact (moveMembers_safe (List.nil_subset _)).bind fun _ => tombstoneGroup_safe

/-- A statement with a condition, over a whole table. -/
theorem safe_mapTable {kind : EntityKind} {clock : Hlc} {f : Row (Cols kind) → Row (Cols kind)}
    {p : Row (Cols kind) → Prop} [DecidablePred p] (hclock : .stamped clock ∈ known)
    (hrow : ∀ id row, RowBecame (· = clock) id row (f row))
    (hrefs : ∀ row, Cols.pointsAt kind (f row).cols = Cols.pointsAt kind row.cols) :
    Safe known (write fun s => s.mapTable kind fun row => if p row then f row else row) fun _ => [] := by
  have hgood : ∀ c, c = clock → .stamped c ∈ known := fun c hc => hc ▸ hclock
  refine safe_write fun start s hsound hknown => hsound.mapTable hknown hgood
    (fun id row => rowBecame_ite (hrow id row) rowBecame_self) fun row => ?_
  split
  · rw [hrefs]
    exact List.Subset.refl _
  · exact List.Subset.refl _

theorem changeWorkspace_safe {group : Uuid} {name : String} {to_ : Workspace} :
    Safe known (changeWorkspace draws group name to_) fun _ => [] := by
  refine safe_groupId.bind fun found => ?_
  cases found with
  | some target =>
    refine (moveMembers_safe (List.subset_append_left _ _)).bind fun _ => ?_
    exact tombstoneGroup_safe.bind fun _ => safe_pure (List.nil_subset _)
  | none =>
    refine safe_tick.bind fun clock => ?_
    refine Safe.bind (safe_keep List.mem_cons_self (fun _ => rowBecame_edited) fun _ => rfl) fun _ => ?_
    refine Safe.bind (safe_mapTable List.mem_cons_self (fun _ _ => rowBecame_edited) fun _ => rfl) fun _ => ?_
    exact safe_pure (List.nil_subset _)

theorem placeGroups_safe {clock : Hlc} {places : List (Uuid × Int64)} (hclock : .stamped clock ∈ known) :
    Safe known (write fun s => s.placeGroups clock places) fun _ => [] := by
  have hgood : ∀ c, c = clock → .stamped c ∈ known := fun c hc => hc ▸ hclock
  exact safe_write fun _ _ hsound hknown =>
    hsound.updateEach hknown hgood (fun _ _ _ => rowBecame_edited) fun _ _ => List.nil_subset _

theorem moveGroup_safe {workspace : Workspace} {name : String} {to_ : Workspace} {before : Option String} :
    Safe known (moveGroup draws workspace name to_ before) fun _ => [] := by
  refine safe_groupId.bind fun found => ?_
  cases found with
  | none => exact safe_throw
  | some group =>
    have hself : ∀ {known : List Fact}, Safe known (pure group : InTx Uuid) fun _ => [] :=
      safe_pure (List.nil_subset _)
    dsimp only
    split
    · refine hself.bind fun _ => safe_look.bind fun _ => safe_look.bind fun order => ?_
      split
      · exact safe_pure (List.nil_subset _)
      · exact safe_tick.bind fun _ => placeGroups_safe List.mem_cons_self
    · refine changeWorkspace_safe.bind fun _ => safe_look.bind fun _ => safe_look.bind fun order => ?_
      split
      · exact safe_pure (List.nil_subset _)
      · exact safe_tick.bind fun _ => placeGroups_safe List.mem_cons_self

theorem moveHost_safe {host : Uuid} {to_ : Workspace} {group : Option String} {before : Option Uuid} :
    Safe known (moveHost draws host to_ group before) fun _ => [] := by
  refine safe_lift.bind fun group => safe_look.bind fun found => ?_
  cases found with
  | none => exact safe_throw
  | some row =>
    refine (safe_mapM_named fun _ => ensureGroup_safe).bind fun there => safe_look.bind fun _ => ?_
    refine safe_tick.bind fun _ => (placeHosts_safe List.mem_cons_self ?_).bind fun _ => readHost_safe
    intro fact hmem
    simp [hmem]

theorem placeHost_safe {host : Uuid} {place : Option (Workspace × Option String)} {position : Int64} :
    Safe known (placeHost draws host place position) fun _ => [] := by
  refine safe_live.bind fun found => ?_
  cases found with
  | none => exact safe_throw
  | some row =>
    obtain ⟨vaultId, updatedAt, rev, deleted, dirty, serverSeq, cols⟩ := row
    have hplace : Safe (refs .host cols ++ known) (placeOf draws cols place) fun there => named .group there.2 := by
      cases place with
      | none => exact safe_pure (List.subset_append_of_subset_left _ (group_of_host cols))
      | some place =>
        refine safe_lift.bind fun name => ?_
        refine (safe_mapM_named fun _ => ensureGroup_safe).bind fun group => ?_
        exact safe_pure (List.subset_append_left _ _)
    refine hplace.bind fun there => ?_
    have hwrite : ∀ {known : List Fact}, named .group there.2 ⊆ known →
        Safe known (writePlace draws host cols there.1 there.2 position) fun _ => [] := by
      intro known hgroup
      unfold writePlace
      split
      · exact safe_pure (List.nil_subset _)
      · refine safe_tick.bind fun _ =>
          safe_update List.mem_cons_self (fun _ => rowBecame_edited) fun (row : Row HostCols) => ?_
        refine hostRefs (List.subset_append_of_subset_right _ (List.subset_append_of_subset_right _ hgroup)) ?_
        exact List.subset_append_of_subset_left _ (identity_of_host row.cols)
    exact (hwrite (List.subset_append_left _ _)).bind fun _ => readHost_safe

end groups

/-! ### Hosts and their logins -/

section hosts

variable {draws : Draws} {known : List Fact}

theorem refs_identity (cols : IdentityCols) :
    refs .identity cols = named .key cols.keyId ++ named .secret cols.passwordSecretId :=
  refs_append rfl

theorem identityRefs {cols : IdentityCols} {facts : List Fact} (hkey : named .key cols.keyId ⊆ facts)
    (hsecret : named .secret cols.passwordSecretId ⊆ facts) : refs .identity cols ⊆ facts := by
  rw [refs_identity]
  exact List.append_subset.mpr ⟨hkey, hsecret⟩

theorem key_of_identity (cols : IdentityCols) : named .key cols.keyId ⊆ refs .identity cols := by
  rw [refs_identity]
  exact List.subset_append_left _ _

theorem secret_of_identity (cols : IdentityCols) : named .secret cols.passwordSecretId ⊆ refs .identity cols := by
  rw [refs_identity]
  exact List.subset_append_right _ _

theorem safe_row {kind : EntityKind} {id : Uuid} :
    Safe known (read (·.row? kind id)) fun found => found.elim [] fun row => refs kind row.cols :=
  safe_read fun _ s hsound _ => facts_found hsound.closed (s.row? kind id) fun _ hrow => hrow

/-- The password of a login is there with it. -/
theorem safe_passwordSecretOf {identity : Option Uuid} :
    Safe known (read (·.passwordSecretOf identity)) (named .secret) := by
  refine safe_read fun start s hsound _ => ?_
  cases identity with
  | none => exact facts_nil
  | some identity =>
    cases hrow : s.row? .identity identity with
    | none =>
      rw [Store.passwordSecretOf, Option.bind_some, hrow]
      exact facts_nil
    | some row =>
      rw [Store.passwordSecretOf, Option.bind_some, hrow]
      obtain ⟨vaultId, updatedAt, rev, deleted, dirty, serverSeq, cols⟩ := row
      have hrefs : start.Facts s (refs .identity cols) := facts_refs.mpr (hsound.closed.refs hrow)
      exact hrefs.mono (secret_of_identity cols)

/-- A new row of another vault's. -/
theorem safe_insertNew {kind : EntityKind} {id vaultId : Uuid} {cols : Cols kind} {clock : Hlc} {β : Type}
    {next : Unit → InTx β} {after : β → List Fact} (hclock : .stamped clock ∈ known) (hrefs : refs kind cols ⊆ known)
    (h : ∀ u, Safe (named kind (some id) ++ known) (next u) after) :
    Safe known (do
      let new ← read fun s => s.newRow clock cols
      insertRow kind id { new with vaultId := vaultId } >>= next) after := by
  intro start tx hsound hknown
  have hwritten : Row.Written none { tx.store.newRow clock cols with vaultId := vaultId } :=
    ⟨rfl, rfl, fun _ _ hold => nomatch hold⟩
  have hinsert : Safe known (insertRow kind id { tx.store.newRow clock cols with vaultId := vaultId })
      fun _ => named kind (some id) := safe_insertRow hclock hwritten hrefs
  exact ends_bind.mpr (ends_read.mpr (hinsert.bind h start tx hsound hknown))

/-- A login of a host's own names what the shared one named. -/
theorem ownIdentity_safe {host identity : Uuid} {clock : Hlc} (hclock : .stamped clock ∈ known)
    (hidentity : named .identity (some identity) ⊆ known) :
    Safe known (ownIdentity draws host identity clock) fun id => named .identity (some id) := by
  refine safe_look.bind fun shared => ?_
  split
  · refine safe_newId.bind fun copy => safe_row.bind fun found => ?_
    cases found with
    | none => exact safe_throw
    | some row =>
      obtain ⟨vaultId, updatedAt, rev, deleted, dirty, serverSeq, cols⟩ := row
      refine safe_insertNew (by simp [hclock]) (List.subset_append_left _ _) fun _ => ?_
      have hupdate : Safe (named .identity (some copy) ++ (refs .identity cols ++ ([] ++ ([] ++ known))))
          (update .host host fun (row : Row HostCols) => row.edited clock { row.cols with identityId := some copy })
          fun _ => [] := by
        refine safe_update (by simp [hclock]) (fun _ => rowBecame_edited) fun (row : Row HostCols) => ?_
        refine hostRefs (List.subset_append_of_subset_left _ (group_of_host row.cols)) ?_
        exact List.subset_append_of_subset_right _ (List.subset_append_left _ _)
      exact hupdate.bind fun _ => safe_pure (List.subset_append_left _ _)
  · exact safe_pure (List.subset_append_of_subset_right _ hidentity)

theorem releaseSecret_safe {secret : Uuid} : Safe known (releaseSecret draws secret) fun _ => [] := by
  refine safe_look.bind fun used => ?_
  split
  · exact safe_pure (List.nil_subset _)
  · exact safe_forgetSecret

theorem releaseOld_safe {change : PasswordChange} {old : Option Uuid} :
    Safe known (releaseOld draws change old) fun _ => [] := by
  cases old with
  | none => exact safe_pure (List.nil_subset _)
  | some old =>
    show Safe known (if change.keeps = true then pure () else releaseSecret draws old) _
    split
    · exact safe_pure (List.nil_subset _)
    · exact releaseSecret_safe

theorem insertIdentity_safe {fields : IdentityFields} {clock : Hlc} (hclock : .stamped clock ∈ known)
    (hkey : named .key fields.keyId ⊆ known) (hsecret : named .secret fields.passwordSecretId ⊆ known) :
    Safe known (insertIdentity draws fields clock) fun id => named .identity (some id) := by
  refine safe_newId.bind fun id => Safe.bind (safe_insert hclock (identityRefs hkey hsecret)) fun _ => ?_
  exact safe_pure (List.subset_append_left _ _)

theorem writeIdentity_safe {identity : Option Uuid} {fields : IdentityFields} {clock : Hlc}
    (hclock : .stamped clock ∈ known) (hidentity : named .identity identity ⊆ known)
    (hkey : named .key fields.keyId ⊆ known) (hsecret : named .secret fields.passwordSecretId ⊆ known) :
    Safe known (writeIdentity draws identity fields clock) fun id => named .identity (some id) := by
  cases identity with
  | none => exact insertIdentity_safe hclock hkey hsecret
  | some identity =>
    refine Safe.bind (safe_update hclock (fun _ => rowBecame_edited) fun (row : Row IdentityCols) => ?_) fun _ =>
      safe_pure hidentity
    exact identityRefs (List.subset_append_of_subset_right _ hkey) (List.subset_append_of_subset_right _ hsecret)

theorem needsVault_safe {change : PasswordChange} : Safe known (needsVault change) fun _ => [] := by
  refine safe_look.bind fun vault => ?_
  split
  · exact safe_throw
  · exact safe_pure (List.nil_subset _)

theorem changedPassword_safe {change : PasswordChange} {old : Option Uuid} (hold : named .secret old ⊆ known) :
    Safe known (changedPassword draws change old) (named .secret) := by
  cases change with
  | keep => exact safe_pure hold
  | forget => exact safe_pure (List.nil_subset _)
  | set value =>
    refine safe_look.bind fun vault => ?_
    cases vault with
    | none => exact safe_throw
    | some vault => exact safe_sealSecret.bind fun id => safe_pure (List.subset_append_left _ _)

/-- The key a form names is looked up before anything is written. -/
theorem knownKey_safe {key : Option Uuid} : Safe known (knownKey key) fun _ => named .key key := by
  cases key with
  | none => exact safe_pure (List.nil_subset _)
  | some key =>
    have hfound : Safe known (read (·.live? .key key)) fun found => found.elim [] fun _ => named .key (some key) := by
      refine safe_read fun start s _ _ => ?_
      cases hlive : s.live? .key key with
      | none => exact facts_nil
      | some row => exact facts_of_row? (live?_eq_some.mp hlive).1
    refine hfound.bind fun found => ?_
    cases found with
    | none => exact safe_throw
    | some row => exact safe_pure (List.subset_append_left _ _)

/-- What the row of the host that is edited names. -/
def existingRefs (existing : Option (Uuid × HostCols)) : List Fact :=
  existing.elim [] fun e => refs .host e.2

theorem existingHost_safe {id : Option Uuid} : Safe known (existingHost id) existingRefs := by
  cases id with
  | none => exact safe_pure (List.nil_subset _)
  | some id =>
    refine safe_live.bind fun found => ?_
    cases found with
    | none => exact safe_throw
    | some row => exact safe_pure (List.subset_append_left _ _)

theorem draftPosition_safe {existing : Option (Uuid × HostCols)} {workspace : Workspace} {group : Option Uuid} :
    Safe known (draftPosition existing workspace group) fun _ => [] := by
  refine safe_look.bind fun next => ?_
  cases existing with
  | none => exact safe_lift
  | some e =>
    dsimp only
    split
    · exact safe_pure (List.nil_subset _)
    · exact safe_lift

theorem draftIdentity_safe {existing : Option (Uuid × HostCols)} {clock : Hlc} (hclock : .stamped clock ∈ known)
    (hrefs : existingRefs existing ⊆ known) :
    Safe known (draftIdentity draws existing clock) (named .identity) := by
  unfold draftIdentity
  cases existing with
  | none => exact safe_pure (List.nil_subset _)
  | some e =>
    obtain ⟨id, cols⟩ := e
    have hlogin : named .identity cols.identityId ⊆ known := List.Subset.trans (identity_of_host cols) hrefs
    cases hidentity : cols.identityId with
    | none =>
      simp only [Option.bind_some, hidentity]
      exact safe_pure (List.nil_subset _)
    | some identity =>
      simp only [Option.bind_some, hidentity]
      rw [hidentity] at hlogin
      exact (ownIdentity_safe hclock hlogin).bind fun _ => safe_pure (List.subset_append_left _ _)

theorem writeHost_safe {existing : Option (Uuid × HostCols)} {draft : HostDraft} {identity : Uuid}
    {group : Option Uuid} {workspace : Workspace} {position : Int64} {clock : Hlc} (hclock : .stamped clock ∈ known)
    (hidentity : named .identity (some identity) ⊆ known) (hgroup : named .group group ⊆ known) :
    Safe known (writeHost draws existing draft identity group workspace position clock) fun _ => [] := by
  cases existing with
  | none =>
    refine safe_newId.bind fun id => Safe.bind (safe_insert hclock ?_) fun _ => safe_pure (List.nil_subset _)
    exact hostRefs hgroup hidentity
  | some e =>
    refine Safe.bind (safe_update hclock (fun _ => rowBecame_edited) fun (row : Row HostCols) => ?_) fun _ =>
      safe_pure (List.nil_subset _)
    exact hostRefs (List.subset_append_of_subset_right _ hgroup) (List.subset_append_of_subset_right _ hidentity)

/-- The form for a host: its key is known, its login is its own, and its group is there first. -/
theorem saveHost_safe {draft : HostDraft} : Safe known (saveHost draws draft) fun _ => [] := by
  refine safe_lift.bind fun draft => needsVault_safe.bind fun _ => safe_tick.bind fun clock => ?_
  refine knownKey_safe.bind fun _ => existingHost_safe.bind fun existing => ?_
  refine (safe_mapM_named fun _ => ensureGroup_safe).bind fun group => draftPosition_safe.bind fun position => ?_
  have hexisting : existingRefs existing ⊆ [] ++ (named .group group ++
      (existingRefs existing ++ (named .key draft.keyId ++ ([.stamped clock] ++ ([] ++ ([] ++ known)))))) := by
    intro fact hmem
    simp [hmem]
  refine (draftIdentity_safe (by simp) hexisting).bind fun own => safe_passwordSecretOf.bind fun old => ?_
  refine (changedPassword_safe (List.subset_append_left _ _)).bind fun password => ?_
  refine Safe.bind (writeIdentity_safe (by simp) ?_ ?_ (List.subset_append_left _ _)) fun identity => ?_
  · intro fact hmem
    simp [hmem]
  · intro fact hmem
    simp [hmem]
  refine Safe.bind (writeHost_safe (by simp) (List.subset_append_left _ _) ?_) fun _ => ?_
  · intro fact hmem
    simp [hmem]
  exact releaseOld_safe.bind fun _ => readHost_safe

theorem dropLogin_safe {host : Uuid} {identity : Option Uuid} {clock : Hlc} (hclock : .stamped clock ∈ known) :
    Safe known (dropLogin draws host identity clock) fun _ => [] := by
  cases identity with
  | none => exact safe_pure (List.nil_subset _)
  | some identity =>
    refine safe_look.bind fun shared => ?_
    split
    · exact safe_pure (List.nil_subset _)
    refine safe_look.bind fun secret => Safe.bind (safe_tomb (by simp [hclock])) fun _ => ?_
    cases secret with
    | none => exact safe_pure (List.nil_subset _)
    | some secret => exact releaseSecret_safe

theorem deleteHost_safe {host : Uuid} : Safe known (deleteHost draws host) fun _ => [] := by
  refine safe_tick.bind fun clock => safe_look.bind fun found => ?_
  cases found with
  | none => exact safe_throw
  | some row =>
    have htunnels : ∀ {known : List Fact}, .stamped clock ∈ known →
        Safe known (write fun s => s.deleteHostTunnels host clock) fun _ => [] :=
      fun hclock => safe_mapTable hclock (fun _ _ => rowBecame_tombed) fun _ => rfl
    refine Safe.bind (safe_tomb (by simp)) fun _ => (htunnels (by simp)).bind fun _ => ?_
    exact dropLogin_safe (by simp)

theorem loginFor_safe {host : Uuid} {identity : Option Uuid} {clock : Hlc} (hclock : .stamped clock ∈ known)
    (hidentity : named .identity identity ⊆ known) :
    Safe known (loginFor draws host identity clock) fun id => named .identity (some id) := by
  cases identity with
  | some identity => exact ownIdentity_safe hclock hidentity
  | none =>
    refine Safe.bind (insertIdentity_safe hclock (List.nil_subset _) (List.nil_subset _)) fun created => ?_
    have hupdate : Safe (named .identity (some created) ++ known)
        (update .host host fun (row : Row HostCols) => row.edited clock { row.cols with identityId := some created })
        fun _ => [] := by
      refine safe_update (by simp [hclock]) (fun _ => rowBecame_edited) fun (row : Row HostCols) => ?_
      refine hostRefs (List.subset_append_of_subset_left _ (group_of_host row.cols)) ?_
      exact List.subset_append_of_subset_right _ (List.subset_append_left _ _)
    exact hupdate.bind fun _ => safe_pure (List.subset_append_left _ _)

theorem setHostPassword_safe {host : Uuid} {change : PasswordChange} :
    Safe known (setHostPassword draws host change) fun _ => [] := by
  unfold setHostPassword
  split
  · exact safe_throw
  refine needsVault_safe.bind fun _ => safe_live.bind fun found => ?_
  cases found with
  | none => exact safe_throw
  | some row =>
    obtain ⟨vaultId, updatedAt, rev, deleted, dirty, serverSeq, cols⟩ := row
    refine safe_passwordSecretOf.bind fun old => safe_tick.bind fun clock => ?_
    refine Safe.bind (loginFor_safe List.mem_cons_self ?_) fun identity =>
      Safe.bind (changedPassword_safe ?_) fun secret => ?_
    · intro fact hmem
      have hpoints := identity_of_host cols hmem
      simp [hpoints]
    · intro fact hmem
      simp [hmem]
    refine Safe.bind (safe_update (by simp) (fun _ => rowBecame_edited) fun (row : Row IdentityCols) => ?_) fun _ => ?_
    · refine identityRefs ?_ (List.subset_append_of_subset_right _ (List.subset_append_left _ _))
      exact List.subset_append_of_subset_left _ (key_of_identity row.cols)
    · exact releaseOld_safe.bind fun _ => readHost_safe

end hosts

/-! ### Keys, and the records that name nothing -/

section keys

variable {draws : Draws} {known : List Fact}

theorem openVault_safe : Safe known openVault fun _ => [] := by
  refine safe_look.bind fun vault => ?_
  cases vault with
  | none => exact safe_throw
  | some vault => exact safe_pure (List.nil_subset _)

theorem sealText_safe {vault : UnlockedVault} {text : String} :
    Safe known (sealText draws vault text) fun id => named .secret (some id) :=
  safe_sealSecret

theorem forgetAny_safe {secret : Option Uuid} : Safe known (forgetAny draws secret) fun _ => [] := by
  cases secret with
  | none => exact safe_pure (List.nil_subset _)
  | some secret => exact safe_forgetSecret

theorem keyRefs {cols : KeyCols} {facts : List Fact} (hprivate : named .secret cols.privateSecretId ⊆ facts)
    (hpassphrase : named .secret cols.passphraseSecretId ⊆ facts) : refs .key cols ⊆ facts := by
  have hrefs : refs .key cols = named .secret cols.privateSecretId ++ named .secret cols.passphraseSecretId :=
    refs_append rfl
  rw [hrefs]
  exact List.append_subset.mpr ⟨hprivate, hpassphrase⟩

/-- A key is written after the two secrets it names. -/
theorem addKey_safe {draft : KeyDraft} : Safe known (addKey draws draft) fun _ => [] := by
  unfold addKey
  split
  · exact safe_throw
  refine safe_lift.bind fun _ => openVault_safe.bind fun vault => sealText_safe.bind fun privateSecret => ?_
  refine (safe_mapM_named fun _ => sealText_safe).bind fun passphrase => safe_newId.bind fun id => ?_
  refine safe_tick.bind fun clock => Safe.bind (safe_insert List.mem_cons_self (keyRefs ?_ ?_)) fun _ => ?_
  · intro fact hmem
    simp [hmem]
  · intro fact hmem
    simp [hmem]
  refine safe_look.bind fun found => ?_
  cases found with
  | none => exact safe_throw
  | some record => exact safe_pure (List.nil_subset _)

theorem renameKey_safe {key : Uuid} {label : String} : Safe known (renameKey draws key label) fun _ => [] := by
  refine safe_look.bind fun found => ?_
  cases found with
  | none => exact safe_throw
  | some row =>
    refine safe_lift.bind fun _ => safe_tick.bind fun _ => ?_
    exact safe_keep List.mem_cons_self (fun _ => rowBecame_edited) fun _ => rfl

theorem deleteKey_safe {key : Uuid} : Safe known (deleteKey draws key) fun _ => [] := by
  refine safe_look.bind fun found => ?_
  cases found with
  | none => exact safe_throw
  | some row =>
    refine safe_look.bind fun hosts => ?_
    split
    · exact safe_throw
    · refine forgetAny_safe.bind fun _ => forgetAny_safe.bind fun _ => ?_
      exact safe_tick.bind fun _ => safe_tomb List.mem_cons_self

theorem writeTunnel_safe {draft : TunnelDraft} {clock : Hlc} (hclock : .stamped clock ∈ known) :
    Safe known (writeTunnel draws draft clock) fun _ => [] := by
  unfold writeTunnel
  split
  · refine safe_newId.bind fun _ => Safe.bind (safe_insert hclock (List.nil_subset _)) fun _ => ?_
    exact safe_pure (List.nil_subset _)
  · refine safe_look.bind fun found => ?_
    cases found with
    | none => exact safe_throw
    | some row =>
      dsimp only
      split
      · exact safe_throw
      · refine Safe.bind (safe_keep hclock (fun _ => rowBecame_edited) fun _ => rfl) fun _ => ?_
        exact safe_pure (List.nil_subset _)

theorem saveTunnel_safe {draft : TunnelDraft} : Safe known (saveTunnel draws draft) fun _ => [] := by
  refine safe_lift.bind fun draft => safe_look.bind fun host => ?_
  split
  · exact safe_throw
  refine safe_tick.bind fun _ => (writeTunnel_safe List.mem_cons_self).bind fun _ => safe_look.bind fun found => ?_
  cases found with
  | none => exact safe_throw
  | some record => exact safe_pure (List.nil_subset _)

theorem deleteTunnel_safe {tunnel : Uuid} : Safe known (deleteTunnel draws tunnel) fun _ => [] := by
  refine safe_tick.bind fun _ => safe_look.bind fun found => ?_
  split
  · exact safe_throw
  · exact safe_tomb (by simp)

/-- The slot's own row comes back, and a new slot gets a row no other has. -/
theorem trust_safe {address : String} {port : UInt16} {algorithm fingerprint publicKey : String} :
    Safe known (LocalEdit.trust draws address port algorithm fingerprint publicKey) fun _ => [] := by
  refine safe_newId.bind fun id => safe_now.bind fun now => ?_
  intro start tx hsound _
  refine ends_bind.mpr (ends_read.mpr ?_)
  split
  · exact ends_throw
  next hnot =>
  have hticked := hsound.tick now
  refine ends_write.mpr ⟨hticked.1.trans ?_, facts_nil⟩
  show start.Goes (tx.store.tick now).1 (tx.store.trustHostKey id now address port algorithm fingerprint publicKey)
  unfold Store.trustHostKey
  dsimp only
  split
  · refine (hticked.1.sound.putRow hticked.2 (List.mem_singleton_self _) ?_ (List.nil_subset _)).1
    have hnone : (tx.store.tick now).1.row? .knownHost id = none := by
      rw [Store.row?_tick]
      exact Option.not_isSome_iff_eq_none.mp hnot
    rw [hnone]
    exact Row.written_newRow
  · next slot row hslot =>
    refine (hticked.1.sound.putRow hticked.2 (List.mem_singleton_self _) ?_ (List.nil_subset _)).1
    rw [(slotRow_spec hslot).1]
    exact ⟨rfl, rfl, fun hkind => absurd (by decide) hkind⟩

theorem forget_safe {address : String} {port : UInt16} :
    Safe known (LocalEdit.forget draws address port) fun _ => [] := by
  refine safe_now.bind fun now => safe_write fun start s hsound _ => ?_
  have hticked := hsound.tick now
  unfold Store.forgetHostKey
  dsimp only
  split
  · exact hticked.1
  · next slot row hslot =>
    have hfound := (Option.filter_eq_some_iff.mp hslot).1
    refine hticked.1.trans (hticked.1.sound.putRow hticked.2 (List.mem_singleton_self _) ?_ (List.nil_subset _)).1
    rw [(slotRow_spec hfound).1]
    exact ⟨rfl, rfl, fun hkind => absurd (by decide) hkind⟩

theorem replaceSecret_safe {change : PasswordChange} {old : Option Uuid} :
    Safe known (replaceSecret draws change old) fun _ => [] := by
  cases change with
  | keep => exact safe_pure (List.nil_subset _)
  | forget => exact forgetAny_safe.bind fun _ => safe_pure (List.nil_subset _)
  | set value =>
    refine openVault_safe.bind fun _ => forgetAny_safe.bind fun _ => ?_
    exact sealText_safe.bind fun _ => safe_pure (List.nil_subset _)

theorem saveAssistSettings_safe {draft : AssistProviderDraft} :
    Safe known (saveAssistSettings draws draft) fun _ => [] := by
  refine safe_lift.bind fun draft => needsVault_safe.bind fun _ => safe_look.bind fun config => ?_
  refine replaceSecret_safe.bind fun keySecretId => safe_tick.bind fun clock => ?_
  exact Safe.bind (safe_upsert (by decide) List.mem_cons_self (List.nil_subset _)) fun _ => safe_look

theorem putAssistCache_safe {entry : NewCacheEntry} : Safe known (putAssistCache draws entry) fun _ => [] := by
  unfold putAssistCache
  split
  · exact safe_throw
  refine safe_look.bind fun slot => safe_tick.bind fun clock => safe_now.bind fun now => ?_
  refine Safe.bind (safe_upsert (by decide) ?_ (List.nil_subset _)) fun _ => safe_pure (List.nil_subset _)
  simp

theorem clearSlots_safe {slots : List Uuid} : Safe known (clearSlots draws slots) fun _ => [] := by
  induction slots with
  | nil => exact safe_pure (List.nil_subset _)
  | cons slot rest ih =>
    have hslot : Safe known (clearSlot draws slot) fun _ => [] :=
      safe_tick.bind fun clock => safe_keep List.mem_cons_self (fun _ => rowBecame_edited) fun _ => rfl
    exact hslot.bind fun _ => ih

theorem writeTexts_safe {position : ℕ} {texts : List KeymapTextDraft} {kept previous : List (String × KeymapTextPayload)} :
    Safe known (writeTexts draws position texts kept previous) fun _ => [] := by
  induction texts generalizing position kept previous with
  | nil => exact safe_pure (List.nil_subset _)
  | cons text rest ih => exact replaceSecret_safe.bind fun _ => ih

theorem forgetTexts_safe {texts : List (String × KeymapTextPayload)} :
    Safe known (forgetTexts draws texts) fun _ => [] := by
  induction texts with
  | nil => exact safe_pure (List.nil_subset _)
  | cons text rest ih => exact forgetAny_safe.bind fun _ => ih

theorem needsVaultForTexts_safe {texts : List KeymapTextDraft} :
    Safe known (needsVaultForTexts texts) fun _ => [] := by
  refine safe_look.bind fun vault => ?_
  split
  · exact safe_throw
  · exact safe_pure (List.nil_subset _)

theorem saveKeymap_safe {family : String} {draft : KeymapDraft} :
    Safe known (saveKeymap draws family draft) fun _ => [] := by
  unfold saveKeymap
  split
  · exact safe_throw
  refine safe_lift.bind fun texts => needsVaultForTexts_safe.bind fun _ => safe_look.bind fun keymap => ?_
  refine writeTexts_safe.bind fun r => ?_
  obtain ⟨kept, removed⟩ := r
  refine forgetTexts_safe.bind fun _ => safe_tick.bind fun clock => ?_
  exact Safe.bind (safe_upsert (by decide) List.mem_cons_self (List.nil_subset _)) fun _ => safe_look

/-- Every edit of the user's is safe, whatever it draws. -/
theorem LocalEdit.safe (edit : LocalEdit) : Safe known (edit.run draws) fun _ => [] := by
  have hdrop : ∀ {α : Type} {prog : InTx α}, Safe known prog (fun _ => []) →
      Safe known (prog >>= fun _ => pure ()) fun _ => [] :=
    fun h => h.bind fun _ => safe_pure (List.nil_subset _)
  cases edit with
  | saveHost draft => exact hdrop saveHost_safe
  | setHostPassword id change => exact hdrop setHostPassword_safe
  | deleteHost id => exact deleteHost_safe
  | markConnected id => exact safe_now.bind fun now => safe_local (fun _ => ⟨rfl, rfl, rfl, fun _ => rfl⟩) fun _ => rfl
  | setHostOs id os => exact safe_local (fun _ => ⟨rfl, rfl, rfl, fun _ => rfl⟩) fun _ => rfl
  | moveHost id to_ group before => exact hdrop moveHost_safe
  | placeHost id place position => exact hdrop placeHost_safe
  | createGroup workspace name => exact hdrop createGroup_safe
  | renameGroup workspace from_ to_ => exact renameGroup_safe
  | deleteGroup workspace name => exact deleteGroup_safe
  | moveGroup workspace name to_ before => exact moveGroup_safe
  | addKey draft => exact hdrop addKey_safe
  | renameKey id label => exact renameKey_safe
  | deleteKey id => exact deleteKey_safe
  | saveTunnel draft => exact hdrop saveTunnel_safe
  | deleteTunnel id => exact deleteTunnel_safe
  | trustHostKey address port algorithm fingerprint publicKey => exact trust_safe
  | forgetHostKey address port => exact forget_safe
  | saveAssistSettings draft => exact hdrop saveAssistSettings_safe
  | putAssistCache entry => exact hdrop putAssistCache_safe
  | touchAssistCache id => exact safe_now.bind fun _ => safe_local (fun _ => ⟨rfl, rfl, rfl, fun _ => rfl⟩) fun _ => rfl
  | clearAssistCacheEntry id =>
    exact hdrop (safe_look.bind fun _ => clearSlots_safe.bind fun _ => safe_pure (List.nil_subset _))
  | clearAssistCache =>
    exact hdrop (safe_look.bind fun _ => clearSlots_safe.bind fun _ => safe_pure (List.nil_subset _))
  | saveKeymap family draft => exact hdrop saveKeymap_safe

end keys

/-! ### Imports -/

namespace Writer

variable {draws : Draws} {known : List Fact} {set : ImportSet} {w : Writer}

/-- What the writer has written and may name again. -/
def refs (w : Writer) : List Fact :=
  w.keyIds.map (fun e => .there (.key, e.2)) ++ w.identityIds.map fun e => .there (.identity, e.2)

theorem named_of_lookup {ids : List (ℕ × Uuid)} {index : ℕ} {id : Uuid} (kind : EntityKind)
    (h : ids.lookup index = some id) : named kind (some id) ⊆ ids.map fun e => .there (kind, e.2) := by
  intro fact hmem
  obtain rfl := List.mem_singleton.mp hmem
  induction ids with
  | nil => cases h
  | cons e rest ih =>
    rw [List.lookup_cons] at h
    split at h
    · cases h
      exact List.mem_cons_self
    · exact List.mem_cons_of_mem _ (ih h)

theorem writeSecret_safe {text : String} : Safe known (writeSecret draws text) fun id => named .secret (some id) :=
  openVault_safe.bind fun _ => sealText_safe

theorem writeKey_safe {key : KeyInput} : Safe known (writeKey draws key) fun id => named .key (some id) := by
  refine writeSecret_safe.bind fun privateSecret => (safe_mapM_named fun _ => writeSecret_safe).bind fun passphrase => ?_
  refine safe_newId.bind fun id => safe_tick.bind fun clock => ?_
  refine Safe.bind (safe_insert List.mem_cons_self (keyRefs ?_ ?_)) fun _ => safe_pure (List.subset_append_left _ _)
  · intro fact hmem
    simp [hmem]
  · intro fact hmem
    simp [hmem]

theorem writeIdentity_safe {identity : IdentityInput} {keyId : Option Uuid} (hkey : named .key keyId ⊆ known) :
    Safe known (writeIdentity draws identity keyId) fun id => named .identity (some id) := by
  refine (safe_mapM_named fun _ => writeSecret_safe).bind fun password => safe_newId.bind fun id => ?_
  refine safe_tick.bind fun clock => Safe.bind (safe_insert List.mem_cons_self (identityRefs ?_ ?_)) fun _ =>
    safe_pure (List.subset_append_left _ _)
  · intro fact hmem
    have hknown := hkey hmem
    simp [hknown]
  · intro fact hmem
    have hpassword : fact ∈ named .secret password := hmem
    simp [hpassword]

/-- A key is written once, and named from then on. -/
theorem key_safe {index : ℕ} {input : KeyInput} (hw : w.refs ⊆ known) :
    Safe known (key draws index input w) fun r => named .key (some r.1) ++ r.2.refs := by
  unfold key
  split
  · next id hlookup =>
    refine safe_pure (List.append_subset.mpr ⟨?_, hw⟩)
    exact List.Subset.trans (named_of_lookup .key hlookup) (List.Subset.trans (List.subset_append_left _ _) hw)
  · refine writeKey_safe.bind fun id => safe_pure (List.append_subset.mpr ⟨List.subset_append_left _ _, ?_⟩)
    exact List.cons_subset_cons (.there (.key, id)) hw

theorem identityKey_safe {identity : IdentityInput} (hw : w.refs ⊆ known) :
    Safe known (identityKey draws set identity w) fun r => named .key r.1 ++ r.2.refs := by
  unfold identityKey
  split
  · exact safe_pure (List.append_subset.mpr ⟨List.nil_subset _, hw⟩)
  · exact (key_safe hw).bind fun _ => safe_pure (List.subset_append_left _ _)

theorem identity_safe {index : ℕ} {input : IdentityInput} (hw : w.refs ⊆ known) :
    Safe known (identity draws set index input w) fun r => named .identity (some r.1) ++ r.2.refs := by
  unfold identity
  split
  · next id hlookup =>
    refine safe_pure (List.append_subset.mpr ⟨?_, hw⟩)
    exact List.Subset.trans (named_of_lookup .identity hlookup) (List.Subset.trans (List.subset_append_right _ _) hw)
  · refine (identityKey_safe hw).bind fun key => Safe.bind (writeIdentity_safe ?_) fun id => safe_pure ?_
    · intro fact hmem
      simp [hmem]
    · intro fact hmem
      simp only [refs, named, Option.toList_some, List.map_cons, List.map_nil, List.mem_append, List.mem_cons] at hmem ⊢
      tauto

theorem login_safe {input : HostInput} (hw : w.refs ⊆ known) :
    Safe known (login draws set input w) fun r => named .identity r.1 ++ r.2.refs := by
  unfold login
  split
  · exact safe_pure (List.append_subset.mpr ⟨List.nil_subset _, hw⟩)
  · exact (identity_safe hw).bind fun _ => safe_pure (List.subset_append_left _ _)

theorem writeHost_safe {input : HostInput} {identityId : Option Uuid} (hidentity : named .identity identityId ⊆ known) :
    Safe known (writeHost draws input identityId) fun _ => [] := by
  refine safe_lift.bind fun name => (safe_mapM_named fun _ => ensureGroup_safe).bind fun group => ?_
  have hposition : ∀ {known : List Fact}, Safe known (positionOf input group) fun _ => [] := by
    intro known
    unfold positionOf
    split
    · exact safe_pure (List.nil_subset _)
    · exact safe_look.bind fun _ => safe_lift
  refine hposition.bind fun position => safe_tick.bind fun clock => safe_newId.bind fun id => ?_
  refine Safe.plain (safe_insert (by simp) (hostRefs ?_ ?_))
  · intro fact hmem
    simp [hmem]
  · intro fact hmem
    have hknown := hidentity hmem
    simp [hknown]

theorem writeGroup_safe {input : GroupInput} : Safe known (writeGroup draws input) fun _ => [] := by
  refine safe_lift.bind fun name => ?_
  cases name with
  | none => exact safe_pure (List.nil_subset _)
  | some name => exact ensureGroup_safe.bind fun _ => safe_pure (List.nil_subset _)

/-- A host is written after the login it names, and that after its key. -/
theorem host_safe {state : Writer × Added} {input : HostInput} (hw : state.1.refs ⊆ known) :
    Safe known (host draws set state input) fun r => r.1.refs := by
  refine safe_look.bind fun exists_ => ?_
  split
  · exact safe_pure hw
  · refine (login_safe hw).bind fun login => Safe.bind (writeHost_safe ?_) fun _ => safe_pure ?_
    · exact List.subset_append_of_subset_left _ (List.subset_append_left _ _)
    · intro fact hmem
      have hrefs : fact ∈ login.2.refs := hmem
      simp [hrefs]

theorem spareKey_safe {used : List ℕ} {e : KeyInput × ℕ} (hw : w.refs ⊆ known) :
    Safe known (spareKey draws used w e) refs := by
  refine safe_look.bind fun found => ?_
  split
  · exact safe_pure hw
  · refine (key_safe hw).bind fun written => safe_pure ?_
    exact List.subset_append_of_subset_left _ (List.subset_append_right _ _)

theorem knownHost_safe {added : Added} {input : KnownHostInput} (hw : w.refs ⊆ known) :
    Safe known (knownHost draws added w input) refs := by
  unfold knownHost
  split
  · exact safe_pure hw
  have hwrite : Safe known (writeKnownHost draws input) fun _ => [] := by
    refine safe_look.bind fun found => ?_
    split
    · exact safe_pure (List.nil_subset _)
    · refine safe_tick.bind fun _ => safe_newId.bind fun _ => safe_now.bind fun _ => ?_
      exact Safe.bind (safe_insert (by simp) (List.nil_subset _)) fun _ => safe_pure (List.nil_subset _)
  refine hwrite.bind fun written => safe_pure ?_
  split <;> exact hw

theorem snippet_safe {input : SnippetInput} (hw : w.refs ⊆ known) : Safe known (snippet draws w input) refs := by
  have hwrite : Safe known (writeSnippet draws input) fun _ => [] := by
    refine safe_look.bind fun found => ?_
    split
    · exact safe_pure (List.nil_subset _)
    · refine safe_tick.bind fun _ => safe_newId.bind fun _ => ?_
      exact Safe.bind (safe_insert (by simp) (List.nil_subset _)) fun _ => safe_pure (List.nil_subset _)
  refine hwrite.bind fun written => safe_pure ?_
  split <;> exact hw

theorem write_safe : Safe known (write draws set) fun _ => [] := by
  refine Safe.bind (safe_foldlM fun _ _ _ => writeGroup_safe) fun _ => ?_
  have hhosts : Safe ((({}, []) : Writer × Added).1.refs ++ known) (set.hosts.foldlM (host draws set) ({}, []))
      fun state => state.1.refs :=
    safe_foldlM fun _ _ state => host_safe (List.subset_append_left state.1.refs _)
  refine hhosts.bind fun state => ?_
  obtain ⟨w, added⟩ := state
  refine Safe.bind (safe_foldlM fun _ _ _ => spareKey_safe (List.subset_append_left _ _)) fun w => ?_
  refine Safe.bind (safe_foldlM fun _ _ _ => knownHost_safe (List.subset_append_left _ _)) fun w => ?_
  refine Safe.bind (safe_foldlM fun _ _ _ => snippet_safe (List.subset_append_left _ _)) fun w => ?_
  exact safe_pure (List.nil_subset _)

end Writer

theorem importInto_safe {draws : Draws} {known : List Fact} {set : ImportSet} :
    Safe known (importInto draws set) fun _ => [] := by
  unfold importInto
  split
  · exact safe_throw
  · exact Writer.write_safe

end UwuSsh

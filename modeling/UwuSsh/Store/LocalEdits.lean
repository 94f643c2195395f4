import UwuSsh.Lib.Run
import UwuSsh.Store.HostsFacts
import UwuSsh.Store.Keymaps
import UwuSsh.Store.Tunnels
import UwuSsh.Store.UnknownFields

/-!
The edits a user makes in one store, and what they take from a row. Every edit leaves the unknown
fields of a record where they are, but for three: a shared login that is copied, a cache slot that
gets another answer, and a text taken off a keymap. Only the host form and a new password change
which login a host names, and only by giving it a copy.
-/
namespace UwuSsh

open Fallible InTx Run

/-- An edit of the user's. -/
inductive LocalEdit
  | saveHost (draft : HostDraft)
  | setHostPassword (id : Uuid) (change : PasswordChange)
  | deleteHost (id : Uuid)
  | markConnected (id : Uuid)
  | setHostOs (id : Uuid) (os : Option String)
  | moveHost (id : Uuid) (to_ : Workspace) (group : Option String) (before : Option Uuid)
  | placeHost (id : Uuid) (place : Option (Workspace × Option String)) (position : Int64)
  | createGroup (workspace : Workspace) (name : String)
  | renameGroup (workspace : Workspace) (from_ to_ : String)
  | deleteGroup (workspace : Workspace) (name : String)
  | moveGroup (workspace : Workspace) (name : String) (to_ : Workspace) (before : Option String)
  | addKey (draft : KeyDraft)
  | renameKey (id : Uuid) (label : String)
  | deleteKey (id : Uuid)
  | saveTunnel (draft : TunnelDraft)
  | deleteTunnel (id : Uuid)
  | trustHostKey (address : String) (port : UInt16) (algorithm fingerprint publicKey : String)
  | forgetHostKey (address : String) (port : UInt16)
  | saveAssistSettings (draft : AssistProviderDraft)
  | putAssistCache (entry : NewCacheEntry)
  | touchAssistCache (id : Uuid)
  | clearAssistCacheEntry (id : Uuid)
  | clearAssistCache
  | saveKeymap (family : String) (draft : KeymapDraft)

namespace LocalEdit

variable (draws : Draws)

/-- A host key in a transaction of its own; a new one gets an id no row has. -/
def trust (address : String) (port : UInt16) (algorithm fingerprint publicKey : String) :
    InTx Unit := do
  let id ← newId draws
  let now ← InTx.now draws
  if (← read (·.row? .knownHost id)).isSome then throw .sqlite
  else write fun s => s.trustHostKey id now address port algorithm fingerprint publicKey

def forget (address : String) (port : UInt16) : InTx Unit := do
  let now ← InTx.now draws
  write fun s => (s.forgetHostKey now address port).1

def markHost (id : Uuid) : InTx Unit := do
  let now ← InTx.now draws
  write fun s => s.markConnected id now

def run : LocalEdit → InTx Unit
  | saveHost draft => do let _ ← UwuSsh.saveHost draws draft
  | setHostPassword id change => do let _ ← UwuSsh.setHostPassword draws id change
  | deleteHost id => UwuSsh.deleteHost draws id
  | markConnected id => markHost draws id
  | setHostOs id os => write fun s => s.setHostOs id os
  | moveHost id to_ group before => do let _ ← UwuSsh.moveHost draws id to_ group before
  | placeHost id place position => do let _ ← UwuSsh.placeHost draws id place position
  | createGroup workspace name => do let _ ← UwuSsh.createGroup draws workspace name
  | renameGroup workspace from_ to_ => UwuSsh.renameGroup draws workspace from_ to_
  | deleteGroup workspace name => UwuSsh.deleteGroup draws workspace name
  | moveGroup workspace name to_ before => UwuSsh.moveGroup draws workspace name to_ before
  | addKey draft => do let _ ← UwuSsh.addKey draws draft
  | renameKey id label => UwuSsh.renameKey draws id label
  | deleteKey id => UwuSsh.deleteKey draws id
  | saveTunnel draft => do let _ ← UwuSsh.saveTunnel draws draft
  | deleteTunnel id => UwuSsh.deleteTunnel draws id
  | trustHostKey address port algorithm fingerprint publicKey =>
      trust draws address port algorithm fingerprint publicKey
  | forgetHostKey address port => forget draws address port
  | saveAssistSettings draft => do let _ ← UwuSsh.saveAssistSettings draws draft
  | putAssistCache entry => do let _ ← UwuSsh.putAssistCache draws entry
  | touchAssistCache id => UwuSsh.touchAssistCache draws id
  | clearAssistCacheEntry id => do let _ ← UwuSsh.clearAssistCacheEntry draws id
  | clearAssistCache => do let _ ← UwuSsh.clearAssistCache draws
  | saveKeymap family draft => do let _ ← UwuSsh.saveKeymap draws family draft

/-- What an edit makes of a store; one that fails leaves it. -/
def on (edit : LocalEdit) (s : Store) : Store :=
  (((edit.run draws).commit s).toOption.map (·.2)).getD s

end LocalEdit

/-- A property of rows that no edit but a form for hosts and the two forms that write a record
whole takes from a row. -/
def Steady (good : (kind : EntityKind) → Row (Cols kind) → Prop) : Prop :=
  ∀ {kind : EntityKind} {row row' : Row (Cols kind)}, Lasts kind row row' →
    Cols.login kind row'.cols = Cols.login kind row.cols → good kind row → good kind row'

section edits

variable {draws : Draws} {kind : EntityKind} {id : Uuid}
  {good : (kind : EntityKind) → Row (Cols kind) → Prop}

theorem ensureGroup_keeps {workspace : Workspace} {name : String} :
    Keeps (Tx.Has kind id good) (ensureGroup draws workspace name) := by
  refine keeps_read.bind fun found => ?_
  cases found with
  | some found => exact keeps_pure
  | none =>
    refine keeps_read.bind fun _ => keeps_lift.bind fun _ => keeps_tick.bind fun _ => ?_
    exact keeps_newId.bind fun _ => keeps_insert.bind fun _ => keeps_pure

theorem sealText_keeps {vault : UnlockedVault} {text : String} :
    Keeps (Tx.Has kind id good) (sealText draws vault text) :=
  keeps_sealSecret

theorem openVault_keeps : Keeps (Tx.Has kind id good) openVault := by
  refine keeps_read.bind fun vault => ?_
  cases vault with
  | none => exact keeps_throw
  | some vault => exact keeps_pure

theorem needsVault_keeps {change : PasswordChange} :
    Keeps (Tx.Has kind id good) (needsVault change) := by
  refine keeps_read.bind fun vault => ?_
  split
  · exact keeps_throw
  · exact keeps_pure

theorem readHost_keeps {host : Uuid} : Keeps (Tx.Has kind id good) (readHost host) := by
  refine keeps_read.bind fun found => ?_
  cases found with
  | none => exact keeps_throw
  | some record => exact keeps_pure

theorem has_updateEach {α : Type} {tx : Tx} {k : EntityKind} {rows : List (Uuid × α)}
    {f : α → Row (Cols k) → Row (Cols k)} (h : tx.Has kind id good)
    (hf : ∀ a row, good k row → good k (f a row)) :
    (tx.onStore fun s => s.updateEach k rows f).Has kind id good := by
  induction rows generalizing tx with
  | nil => exact h
  | cons e rest ih => exact ih (has_updateRow h fun _ _ => hf e.2)

theorem has_mapTable {tx : Tx} {k : EntityKind} {f : Row (Cols k) → Row (Cols k)}
    (h : tx.Has kind id good) (hf : ∀ row, good k row → good k (f row)) :
    (tx.onStore fun s => s.mapTable k f).Has kind id good := by
  by_cases hkind : kind = k
  · subst hkind
    obtain ⟨row, hrow, hrow'⟩ := h
    have hnew := Store.row?_mapTable_self tx.store f id
    rw [hrow] at hnew
    exact ⟨f row, hnew, hf row hrow'⟩
  · exact has_of_row? h (Store.row?_mapTable_of_ne tx.store f id hkind)

theorem createGroup_keeps {workspace : Workspace} {name : String} :
    Keeps (Tx.Has kind id good) (createGroup draws workspace name) := by
  refine keeps_lift.bind fun _ => keeps_read.bind fun _ => ?_
  split
  · exact keeps_throw
  · exact ensureGroup_keeps.bind fun _ => keeps_read.bind fun _ => keeps_pure

theorem addKey_keeps {draft : KeyDraft} : Keeps (Tx.Has kind id good) (addKey draws draft) := by
  unfold addKey
  split
  · exact keeps_throw
  refine keeps_lift.bind fun _ => openVault_keeps.bind fun _ => sealText_keeps.bind fun _ => ?_
  refine (keeps_mapM fun _ => sealText_keeps).bind fun _ => keeps_newId.bind fun _ => ?_
  refine keeps_tick.bind fun _ => keeps_insert.bind fun _ => keeps_read.bind fun found => ?_
  cases found with
  | none => exact keeps_throw
  | some record => exact keeps_pure

/-- A record written whole is good if the new row is. -/
theorem keeps_upsert {k : EntityKind} {other : Uuid} {cols : Cols k} {clock : Hlc}
    (hnew : k = kind → other = id → ∀ row : Row (Cols k), row.deleted = false → row.cols = cols →
      good k row) :
    Keeps (Tx.Has kind id good) (upsert k other cols clock) := by
  intro tx h
  refine ends_upsert.mpr ?_
  cases hrow : tx.store.row? k other with
  | none =>
    simp only [Tx.onStore, hrow]
    exact has_newRow _ h hrow
  | some row =>
    simp only [Tx.onStore, hrow]
    exact has_putRow h fun hkind hid => hnew hkind hid _ rfl rfl

theorem good_ite {k : EntityKind} {row row' : Row (Cols k)} {p : Prop} [Decidable p]
    (h : good k row) (h' : good k row') : good k (if p then row else row') := by
  split
  · exact h
  · exact h'

/-- A row that takes the place of the one under its id. -/
theorem has_over {tx : Tx} {k : EntityKind} {other : Uuid} {row row' : Row (Cols k)}
    (h : tx.Has kind id good) (hrow : tx.store.row? k other = some row)
    (hgood : good k row → good k row') :
    (tx.onStore fun s => s.putRow k other row').Has kind id good := by
  refine has_putRow h ?_
  rintro rfl rfl
  obtain ⟨found, hfound, hgood'⟩ := h
  rw [hrow] at hfound
  cases hfound
  exact hgood hgood'

theorem changedPassword_keeps {change : PasswordChange} {old : Option Uuid} :
    Keeps (Tx.Has kind id good) (changedPassword draws change old) := by
  cases change with
  | keep => exact keeps_pure
  | forget => exact keeps_pure
  | set value =>
    refine keeps_read.bind fun vault => ?_
    cases vault with
    | none => exact keeps_throw
    | some vault => exact Keeps.bind keeps_sealSecret fun _ => keeps_pure

theorem insertIdentity_keeps {fields : IdentityFields} {clock : Hlc} :
    Keeps (Tx.Has kind id good) (insertIdentity draws fields clock) :=
  keeps_newId.bind fun _ => keeps_insert.bind fun _ => keeps_pure

theorem ownIdentity_keeps {host identity : Uuid} {clock : Hlc}
    (hform : kind = .host → id = host → ∀ {row row' : Row HostCols},
      row'.cols.syncExtra = row.cols.syncExtra → good .host row → good .host row') :
    Keeps (Tx.Has kind id good) (ownIdentity draws host identity clock) := by
  refine keeps_read.bind fun shared => ?_
  split
  · refine keeps_newId.bind fun copy => keeps_read.bind fun found => ?_
    cases found with
    | none => exact keeps_throw
    | some row =>
      refine keeps_read.bind fun new => Keeps.bind keeps_insertRow fun _ => ?_
      refine Keeps.bind (fun tx h => ends_update.mpr (has_updateRow h ?_)) fun _ => keeps_pure
      exact fun hkind hid _ => hform hkind.symm hid.symm rfl
  · exact keeps_pure

theorem needsVaultForTexts_same {texts : List KeymapTextDraft} {tx : Tx} :
    Ends (needsVaultForTexts texts) tx fun _ u => u = tx := by
  refine ends_bind.mpr (ends_read.mpr ?_)
  split
  · exact ends_throw
  · exact ends_pure.mpr rfl

/-- Only the slot the answer goes into loses what it had. -/
theorem putAssistCache_keeps {tx : Tx} {entry : NewCacheEntry} (h : tx.Has kind id good)
    (hslot : kind = .assistCache → tx.store.slotFor entry = id → ∀ row, good .assistCache row) :
    Ends (putAssistCache draws entry) tx fun _ u => u.Has kind id good := by
  unfold putAssistCache
  split
  · exact ends_throw
  refine ends_bind.mpr (ends_read.mpr ?_)
  refine Keeps.bind keeps_tick (fun clock => keeps_now.bind fun now => ?_) tx h
  refine Keeps.bind (keeps_upsert fun hkind hid row _ _ => ?_) fun _ => keeps_pure
  exact hslot hkind.symm hid row

theorem clearSlots_keeps {slots : List Uuid}
    (hslots : kind = .assistCache → id ∈ slots → ∀ row, good .assistCache row) :
    Keeps (Tx.Has kind id good) (clearSlots draws slots) := by
  induction slots with
  | nil => exact keeps_pure
  | cons slot rest ih =>
    refine Keeps.bind (keeps_tick.bind fun clock tx h => ?_) fun _ =>
      ih fun hkind hmem => hslots hkind (List.mem_cons_of_mem _ hmem)
    refine ends_update.mpr (has_updateRow h fun hkind hid row _ => ?_)
    exact hslots hkind.symm (hid ▸ List.mem_cons_self) _

/-- The settings with one provider written over: its unknown fields stay. -/
theorem extraAt_putProvider {config : AssistConfigPayload} {name active : String}
    (value : AssistProviderPayload)
    (hextra : value.extra = ((entryOf name config.providers).getD {}).extra) (place : Holder) :
    Cols.extraAt .assistConfig config place ⊆ Cols.extraAt .assistConfig
      ({ config with provider := active, providers := putEntry name value config.providers } :
        AssistConfigPayload) place := by
  cases place with
  | record => exact List.Subset.refl _
  | chord action index => exact List.nil_subset _
  | entry other =>
    simp only [Cols.extraAt]
    by_cases hname : other = name
    · subst hname
      rw [entryOf_putEntry_self, Option.map_some, Option.getD_some, hextra]
      cases entryOf other config.providers with
      | none => exact List.nil_subset _
      | some old => exact List.Subset.refl _
    · rw [entryOf_putEntry_of_ne hname]
      exact List.Subset.refl _

section steady

variable (hgood : Steady good)

include hgood

/-- An edit of the row of a record that is no settings and no keymap. -/
theorem Steady.own {k : EntityKind} {row row' : Row (Cols k)} (h : good k row)
    (hkind : ¬ (k = .assistConfig ∨ k = .keymap))
    (hextra : Cols.extraAt k row'.cols .record = Cols.extraAt k row.cols .record)
    (hlogin : Cols.login k row'.cols = Cols.login k row.cols) : good k row' :=
  hgood (lasts_of_own hkind hextra) hlogin h

theorem keeps_tomb {k : EntityKind} {other : Uuid} {clock : Hlc}
    (hkind : ¬ (k = .assistConfig ∨ k = .keymap)) :
    Keeps (Tx.Has kind id good) (update k other (·.tombed clock)) :=
  keeps_update fun _ h => hgood.own h hkind rfl rfl

theorem forgetAny_keeps {secret : Option Uuid} :
    Keeps (Tx.Has kind id good) (forgetAny draws secret) := by
  cases secret with
  | none => exact keeps_pure
  | some secret => exact keeps_forgetSecret fun _ _ h => hgood.own h (by decide) rfl rfl

theorem replaceSecret_keeps {change : PasswordChange} {old : Option Uuid} :
    Keeps (Tx.Has kind id good) (replaceSecret draws change old) := by
  cases change with
  | keep => exact keeps_pure
  | forget => exact (forgetAny_keeps hgood).bind fun _ => keeps_pure
  | set value =>
    refine openVault_keeps.bind fun _ => (forgetAny_keeps hgood).bind fun _ => ?_
    exact sealText_keeps.bind fun _ => keeps_pure

theorem placeHosts_keeps {to_ : Workspace} {group : Option Uuid} {clock : Hlc}
    {places : List (Uuid × Int64)} :
    Keeps (Tx.Has kind id good) (write fun s => s.placeHosts to_ group clock places) :=
  keeps_write fun _ h => has_updateEach h fun _ _ h => hgood.own h (by decide) rfl rfl

theorem moveMembers_keeps {from_ : Uuid} {to_ : Workspace} {group : Option Uuid} :
    Keeps (Tx.Has kind id good) (moveMembers draws from_ to_ group) := by
  refine keeps_read.bind fun hosts => ?_
  split
  · exact keeps_pure
  · refine keeps_read.bind fun _ => keeps_lift.bind fun _ => keeps_tick.bind fun _ => ?_
    exact placeHosts_keeps hgood

theorem tombstoneGroup_keeps {group : Uuid} :
    Keeps (Tx.Has kind id good) (tombstoneGroup draws group) := by
  refine keeps_tick.bind fun clock => keeps_update fun row h => ?_
  exact good_ite h (hgood.own h (by decide) rfl rfl)

theorem renameGroup_keeps {workspace : Workspace} {from_ to_ : String} :
    Keeps (Tx.Has kind id good) (renameGroup draws workspace from_ to_) := by
  refine keeps_lift.bind fun _ => ?_
  split
  · exact keeps_pure
  refine keeps_read.bind fun found => ?_
  cases found with
  | none => exact keeps_throw
  | some fromId =>
    refine keeps_read.bind fun target => ?_
    cases target with
    | some toId => exact (moveMembers_keeps hgood).bind fun _ => tombstoneGroup_keeps hgood
    | none =>
      exact keeps_tick.bind fun _ => keeps_update fun _ h => hgood.own h (by decide) rfl rfl

theorem deleteGroup_keeps {workspace : Workspace} {name : String} :
    Keeps (Tx.Has kind id good) (deleteGroup draws workspace name) := by
  refine keeps_read.bind fun found => ?_
  cases found with
  | none => exact keeps_throw
  | some group => exact (moveMembers_keeps hgood).bind fun _ => tombstoneGroup_keeps hgood

theorem changeWorkspace_keeps {group : Uuid} {name : String} {to_ : Workspace} :
    Keeps (Tx.Has kind id good) (changeWorkspace draws group name to_) := by
  refine keeps_read.bind fun found => ?_
  cases found with
  | some target =>
    refine (moveMembers_keeps hgood).bind fun _ => (tombstoneGroup_keeps hgood).bind fun _ => ?_
    exact keeps_pure
  | none =>
    refine keeps_tick.bind fun clock => ?_
    refine Keeps.bind (keeps_update fun _ h => hgood.own h (by decide) rfl rfl) fun _ => ?_
    refine Keeps.bind (keeps_write fun tx h => has_mapTable h fun row hrow => ?_) fun _ => keeps_pure
    exact good_ite (hgood.own hrow (by decide) rfl rfl) hrow

theorem placeGroups_keeps {clock : Hlc} {places : List (Uuid × Int64)} :
    Keeps (Tx.Has kind id good) (write fun s => s.placeGroups clock places) :=
  keeps_write fun _ h => has_updateEach h fun _ _ h => hgood.own h (by decide) rfl rfl

theorem moveGroup_keeps {workspace : Workspace} {name : String} {to_ : Workspace}
    {before : Option String} :
    Keeps (Tx.Has kind id good) (moveGroup draws workspace name to_ before) := by
  refine keeps_read.bind fun found => ?_
  cases found with
  | none => exact keeps_throw
  | some group =>
    dsimp only
    split
    · refine keeps_pure.bind fun _ => keeps_read.bind fun _ => keeps_read.bind fun order => ?_
      split
      · exact keeps_pure
      · exact keeps_tick.bind fun _ => placeGroups_keeps hgood
    · refine (changeWorkspace_keeps hgood).bind fun _ => ?_
      refine keeps_read.bind fun _ => keeps_read.bind fun order => ?_
      split
      · exact keeps_pure
      · exact keeps_tick.bind fun _ => placeGroups_keeps hgood

theorem moveHost_keeps {host : Uuid} {to_ : Workspace} {group : Option String}
    {before : Option Uuid} :
    Keeps (Tx.Has kind id good) (moveHost draws host to_ group before) := by
  refine keeps_lift.bind fun group => keeps_read.bind fun found => ?_
  cases found with
  | none => exact keeps_throw
  | some row =>
    refine (keeps_mapM fun _ => ensureGroup_keeps).bind fun _ => keeps_read.bind fun _ => ?_
    refine keeps_tick.bind fun _ => (placeHosts_keeps hgood).bind fun _ => ?_
    exact readHost_keeps

theorem placeHost_keeps {host : Uuid} {place : Option (Workspace × Option String)}
    {position : Int64} : Keeps (Tx.Has kind id good) (placeHost draws host place position) := by
  refine keeps_read.bind fun found => ?_
  cases found with
  | none => exact keeps_throw
  | some row =>
    have hplace : Keeps (Tx.Has kind id good) (placeOf draws row.cols place) := by
      cases place with
      | none => exact keeps_pure
      | some place =>
        refine keeps_lift.bind fun name => ?_
        exact Keeps.bind (keeps_mapM fun _ => ensureGroup_keeps) fun _ => keeps_pure
    refine hplace.bind fun there => ?_
    have hwrite : Keeps (Tx.Has kind id good)
        (writePlace draws host row.cols there.1 there.2 position) := by
      unfold writePlace
      split
      · exact keeps_pure
      · exact keeps_tick.bind fun _ => keeps_update fun _ h => hgood.own h (by decide) rfl rfl
    exact hwrite.bind fun _ => readHost_keeps

theorem releaseSecret_keeps {secret : Uuid} :
    Keeps (Tx.Has kind id good) (releaseSecret draws secret) := by
  refine keeps_read.bind fun used => ?_
  split
  · exact keeps_pure
  · exact keeps_forgetSecret fun _ _ h => hgood.own h (by decide) rfl rfl

theorem releaseOld_keeps {change : PasswordChange} {old : Option Uuid} :
    Keeps (Tx.Has kind id good) (releaseOld draws change old) := by
  cases old with
  | none => exact keeps_pure
  | some old =>
    show Keeps _ (if change.keeps = true then pure () else releaseSecret draws old)
    split
    · exact keeps_pure
    · exact releaseSecret_keeps hgood

theorem dropLogin_keeps {host : Uuid} {identity : Option Uuid} {clock : Hlc} :
    Keeps (Tx.Has kind id good) (dropLogin draws host identity clock) := by
  cases identity with
  | none => exact keeps_pure
  | some identity =>
    refine keeps_read.bind fun shared => ?_
    split
    · exact keeps_pure
    refine keeps_read.bind fun secret => (keeps_tomb hgood (by decide)).bind fun _ => ?_
    cases secret with
    | none => exact keeps_pure
    | some secret => exact releaseSecret_keeps hgood

theorem deleteHost_keeps {host : Uuid} : Keeps (Tx.Has kind id good) (deleteHost draws host) := by
  refine keeps_tick.bind fun clock => keeps_read.bind fun found => ?_
  cases found with
  | none => exact keeps_throw
  | some row =>
    refine (keeps_tomb hgood (by decide)).bind fun _ => ?_
    refine Keeps.bind (keeps_write fun _ h => has_mapTable h fun row hrow => ?_) fun _ => ?_
    · exact good_ite (hgood.own hrow (by decide) rfl rfl) hrow
    · exact dropLogin_keeps hgood

theorem markHost_keeps {host : Uuid} :
    Keeps (Tx.Has kind id good) (LocalEdit.markHost draws host) := by
  refine keeps_now.bind fun now => keeps_write fun tx h => ?_
  exact has_updateRow h fun _ _ row hrow => hgood.own hrow (by decide) rfl rfl

theorem setHostOs_keeps {host : Uuid} {os : Option String} :
    Keeps (Tx.Has kind id good) (write fun s => s.setHostOs host os) :=
  keeps_write fun _ h => has_updateRow h fun _ _ _ hrow => hgood.own hrow (by decide) rfl rfl

theorem trust_keeps {address : String} {port : UInt16} {algorithm fingerprint publicKey : String} :
    Keeps (Tx.Has kind id good)
      (LocalEdit.trust draws address port algorithm fingerprint publicKey) := by
  refine keeps_newId.bind fun new => keeps_now.bind fun now => keeps_read_bind fun tx h => ?_
  split
  · exact ends_throw
  · next hnone =>
    have hnone : tx.store.row? .knownHost new = none := by simpa using hnone
    refine ends_write.mpr ?_
    have hticked : (tx.onStore fun s => (s.tick now).1).Has kind id good := has_of_row? h rfl
    show (tx.onStore fun s => s.trustHostKey _ _ _ _ _ _ _).Has kind id good
    cases hslot : tx.store.slotRow (normalise address) port with
    | none =>
      have hslot : (tx.store.tick now).1.slotRow (normalise address) port = none := hslot
      simp only [Tx.onStore, Store.trustHostKey, hslot]
      exact has_newRow _ hticked hnone
    | some found =>
      obtain ⟨other, row⟩ := found
      have hrow := Store.mem_knownHostRows.mp (List.mem_of_find?_eq_some hslot)
      have hslot : (tx.store.tick now).1.slotRow (normalise address) port = some (other, row) := hslot
      simp only [Tx.onStore, Store.trustHostKey, hslot]
      exact has_over hticked hrow fun hold => hgood.own hold (by decide) rfl rfl

theorem forget_keeps {address : String} {port : UInt16} :
    Keeps (Tx.Has kind id good) (LocalEdit.forget draws address port) := by
  refine keeps_now.bind fun now => keeps_write fun tx h => ?_
  have hticked : (tx.onStore fun s => (s.tick now).1).Has kind id good := has_of_row? h rfl
  cases hslot : (tx.store.slotRow (normalise address) port).filter fun e => !e.2.deleted with
  | none =>
    have hslot : ((tx.store.tick now).1.slotRow (normalise address) port).filter
        (fun e => !e.2.deleted) = none := hslot
    simp only [Tx.onStore, Store.forgetHostKey, hslot]
    exact hticked
  | some found =>
    obtain ⟨other, row⟩ := found
    have hfound := (Option.filter_eq_some_iff.mp hslot).1
    have hrow := Store.mem_knownHostRows.mp (List.mem_of_find?_eq_some hfound)
    have hslot : ((tx.store.tick now).1.slotRow (normalise address) port).filter
        (fun e => !e.2.deleted) = some (other, row) := hslot
    simp only [Tx.onStore, Store.forgetHostKey, hslot]
    exact has_over hticked hrow fun hold => hgood.own hold (by decide) rfl rfl

theorem renameKey_keeps {key : Uuid} {label : String} :
    Keeps (Tx.Has kind id good) (renameKey draws key label) := by
  refine keeps_read.bind fun found => ?_
  cases found with
  | none => exact keeps_throw
  | some row =>
    refine keeps_lift.bind fun _ => keeps_tick.bind fun _ => ?_
    exact keeps_update fun _ h => hgood.own h (by decide) rfl rfl

theorem deleteKey_keeps {key : Uuid} : Keeps (Tx.Has kind id good) (deleteKey draws key) := by
  refine keeps_read.bind fun found => ?_
  cases found with
  | none => exact keeps_throw
  | some row =>
    refine keeps_read.bind fun hosts => ?_
    split
    · exact keeps_throw
    · refine (forgetAny_keeps hgood).bind fun _ => (forgetAny_keeps hgood).bind fun _ => ?_
      exact keeps_tick.bind fun _ => keeps_tomb hgood (by decide)

theorem writeTunnel_keeps {draft : TunnelDraft} {clock : Hlc} :
    Keeps (Tx.Has kind id good) (writeTunnel draws draft clock) := by
  unfold writeTunnel
  split
  · exact keeps_newId.bind fun _ => keeps_insert.bind fun _ => keeps_pure
  · refine keeps_read.bind fun found => ?_
    cases found with
    | none => exact keeps_throw
    | some row =>
      dsimp only
      split
      · exact keeps_throw
      · refine Keeps.bind (keeps_update fun _ h => ?_) fun _ => keeps_pure
        exact hgood.own h (by decide) rfl rfl

theorem saveTunnel_keeps {draft : TunnelDraft} :
    Keeps (Tx.Has kind id good) (saveTunnel draws draft) := by
  refine keeps_lift.bind fun draft => keeps_read.bind fun host => ?_
  split
  · exact keeps_throw
  refine keeps_tick.bind fun _ => (writeTunnel_keeps hgood).bind fun _ => keeps_read.bind fun found => ?_
  cases found with
  | none => exact keeps_throw
  | some record => exact keeps_pure

theorem deleteTunnel_keeps {tunnel : Uuid} :
    Keeps (Tx.Has kind id good) (deleteTunnel draws tunnel) := by
  refine keeps_tick.bind fun _ => keeps_read.bind fun found => ?_
  split
  · exact keeps_throw
  · exact keeps_tomb hgood (by decide)

theorem touchAssistCache_keeps {slot : Uuid} :
    Keeps (Tx.Has kind id good) (touchAssistCache draws slot) :=
  keeps_now.bind fun _ => keeps_update fun _ h => hgood.own h (by decide) rfl rfl

theorem writeIdentity_keeps {identity : Option Uuid} {fields : IdentityFields} {clock : Hlc} :
    Keeps (Tx.Has kind id good) (writeIdentity draws identity fields clock) := by
  cases identity with
  | none => exact insertIdentity_keeps
  | some identity =>
    refine Keeps.bind (keeps_update fun _ h => ?_) fun _ => keeps_pure
    exact hgood.own h (by decide) rfl rfl

theorem writeTexts_keeps {position : ℕ} {texts : List KeymapTextDraft}
    {kept previous : List (String × KeymapTextPayload)} :
    Keeps (Tx.Has kind id good) (writeTexts draws position texts kept previous) := by
  induction texts generalizing position kept previous with
  | nil => exact keeps_pure
  | cons text rest ih => exact (replaceSecret_keeps hgood).bind fun _ => ih

theorem forgetTexts_keeps {texts : List (String × KeymapTextPayload)} :
    Keeps (Tx.Has kind id good) (forgetTexts draws texts) := by
  induction texts with
  | nil => exact keeps_pure
  | cons text rest ih => exact (forgetAny_keeps hgood).bind fun _ => ih

theorem saveHost_keeps {draft : HostDraft}
    (hform : kind = .host → some id = draft.id → ∀ {row row' : Row HostCols},
      row'.cols.syncExtra = row.cols.syncExtra → good .host row → good .host row') :
    Keeps (Tx.Has kind id good) (saveHost draws draft) := by
  refine fun tx h => ends_bind.mpr (ends_lift.mpr fun valid hvalid => ?_)
  have hid : valid.id = draft.id := HostDraft.id_validated hvalid
  refine Keeps.bind needsVault_keeps (fun _ => keeps_tick.bind fun clock => ?_) tx h
  have hkey : Keeps (Tx.Has kind id good) (knownKey valid.keyId) :=
    fun tx h => knownKey_same.mono fun _ u hu => hu ▸ h
  refine hkey.bind fun _ tx h => ends_bind.mpr (existingHost_ends.mono fun existing u hu => ?_)
  obtain ⟨rfl, hfound, -⟩ := hu
  have hform' : ∀ e, existing = some e → kind = .host → id = e.1 → ∀ {row row' : Row HostCols},
      row'.cols.syncExtra = row.cols.syncExtra → good .host row → good .host row' := by
    intro e he hkind heq
    refine hform hkind ?_
    rw [← hid, ← hfound, he, heq]
    rfl
  refine Keeps.bind (keeps_mapM fun _ => ensureGroup_keeps) (fun group => ?_) u h
  refine Keeps.bind (fun tx h => draftPosition_same.mono fun _ u hu => hu ▸ h) fun position => ?_
  have hown : Keeps (Tx.Has kind id good) (draftIdentity draws existing clock) := by
    unfold draftIdentity
    cases existing with
    | none => exact keeps_pure
    | some e =>
      obtain ⟨host, cols⟩ := e
      cases hidentity : cols.identityId with
      | none =>
        simp only [Option.bind_some, hidentity]
        exact keeps_pure
      | some identity =>
        simp only [Option.bind_some, hidentity]
        exact (ownIdentity_keeps (hform' _ rfl)).bind fun _ => keeps_pure
  refine hown.bind fun own => keeps_read.bind fun old => changedPassword_keeps.bind fun _ => ?_
  refine (writeIdentity_keeps hgood).bind fun identity => ?_
  have hwrite : ∀ {workspace : Workspace}, Keeps (Tx.Has kind id good)
      (writeHost draws existing valid identity group workspace position clock) := by
    intro workspace
    cases existing with
    | none => exact keeps_newId.bind fun _ => keeps_insert.bind fun _ => keeps_pure
    | some e =>
      refine Keeps.bind (fun tx h => ends_update.mpr (has_updateRow h ?_)) fun _ => keeps_pure
      exact fun hkind hid _ => hform' e rfl hkind.symm hid.symm rfl
  exact hwrite.bind fun _ => (releaseOld_keeps hgood).bind fun _ => readHost_keeps

theorem setHostPassword_keeps {host : Uuid} {change : PasswordChange}
    (hform : kind = .host → id = host → ∀ {row row' : Row HostCols},
      row'.cols.syncExtra = row.cols.syncExtra → good .host row → good .host row') :
    Keeps (Tx.Has kind id good) (setHostPassword draws host change) := by
  unfold setHostPassword
  split
  · exact keeps_throw
  refine needsVault_keeps.bind fun _ => keeps_read.bind fun found => ?_
  cases found with
  | none => exact keeps_throw
  | some row =>
    refine keeps_read.bind fun old => keeps_tick.bind fun clock => ?_
    have hlogin : ∀ {identity : Option Uuid},
        Keeps (Tx.Has kind id good) (loginFor draws host identity clock) := by
      intro identity
      cases identity with
      | some identity => exact ownIdentity_keeps hform
      | none =>
        refine insertIdentity_keeps.bind fun created => ?_
        refine Keeps.bind (fun tx h => ends_update.mpr (has_updateRow h ?_)) fun _ => keeps_pure
        exact fun hkind hid _ => hform hkind.symm hid.symm rfl
    refine hlogin.bind fun identity => changedPassword_keeps.bind fun secret => ?_
    refine Keeps.bind (keeps_update fun _ h => ?_) fun _ => ?_
    · exact hgood.own h (by decide) rfl rfl
    · exact (releaseOld_keeps hgood).bind fun _ => readHost_keeps

section whole

variable (hlive : kind = .assistConfig ∨ kind = .keymap → ∀ row, good kind row → row.deleted = false)

include hlive

/-- The settings that are written have the unknown fields of those that were there. -/
theorem saveAssistSettings_keeps {draft : AssistProviderDraft} :
    Keeps (Tx.Has kind id good) (saveAssistSettings draws draft) := by
  refine keeps_lift.bind fun draft => needsVault_keeps.bind fun _ => keeps_read_bind fun tx h => ?_
  refine Keeps.bind (replaceSecret_keeps hgood) (fun keySecretId => ?_) tx h
  refine keeps_tick.bind fun clock => Keeps.bind (keeps_upsert ?_) fun _ => keeps_read
  rintro rfl rfl row' hlive' hcols
  obtain ⟨row, hrow, hold⟩ := h
  have hload : tx.store.loadConfig = row.cols := by
    have hfound := Store.live?_eq_some.mpr ⟨hrow, hlive (Or.inl rfl) row hold⟩
    rw [Store.loadConfig, hfound]
    rfl
  refine hgood (?_ : Lasts .assistConfig row row') rfl hold
  refine ⟨fun place => ?_, fun _ => hlive'⟩
  rw [hcols, ← hload]
  refine extraAt_putProvider _ ?_ place
  rfl

/-- The keymap that is written has the unknown fields of the one that was there, as far as its
texts are on the page and its chords have none. -/
theorem saveKeymap_keeps {tx : Tx} {family : String} {draft : KeymapDraft}
    (h : tx.Has kind id good)
    (hchords : kind = .keymap → keymapId family = some id → ∀ row : Row KeymapBody,
      tx.store.row? .keymap id = some row → ∀ action index, row.cols.chordExtra action index = [])
    (htexts : kind = .keymap → keymapId family = some id → ∀ name,
      textExtra name (tx.store.loadKeymap id).texts ≠ [] → ∃ t ∈ draft.texts, uuidText t.id = name) :
    Ends (saveKeymap draws family draft) tx fun _ u => u.Has kind id good := by
  unfold saveKeymap
  cases hfamily : keymapId family with
  | none => exact ends_throw
  | some keymap =>
    refine ends_bind.mpr (ends_lift.mpr fun texts hvalid => ?_)
    obtain ⟨hids, hnodup⟩ := validated_ids hvalid
    rw [← hids] at hnodup
    refine ends_bind.mpr (needsVaultForTexts_same.mono fun _ u hu => ?_)
    subst u
    refine ends_bind.mpr (ends_read.mpr (ends_bind.mpr ?_))
    refine ((writeTexts_keeps hgood tx h).and (writeTexts_extra hnodup)).mono fun r u hr => ?_
    obtain ⟨hhas, hkept, -⟩ := hr
    refine Keeps.bind (forgetTexts_keeps hgood) (fun _ => keeps_tick.bind fun clock => ?_) u hhas
    refine Keeps.bind (keeps_upsert ?_) fun _ => keeps_read
    rintro rfl rfl row' hlive' hcols
    obtain ⟨row, hrow, hold⟩ := h
    have hload : tx.store.loadKeymap keymap = KeymapBody.read row.cols := by
      have hfound := Store.live?_eq_some.mpr ⟨hrow, hlive (Or.inr rfl) row hold⟩
      rw [Store.loadKeymap, hfound]
      rfl
    refine hgood (?_ : Lasts .keymap row row') rfl hold
    refine ⟨fun place => ?_, fun _ => hlive'⟩
    rw [hcols]
    cases place with
    | record =>
      show (KeymapBody.read row.cols).extra ⊆ (tx.store.loadKeymap keymap).extra
      rw [hload]
      exact List.Subset.refl _
    | chord action index =>
      show KeymapBody.chordExtra row.cols action index ⊆ _
      rw [hchords rfl hfamily row hrow action index]
      exact List.nil_subset _
    | entry name =>
      show textExtra name (KeymapBody.read row.cols).texts ⊆ textExtra name r.1
      rw [← hload]
      by_cases hnone : textExtra name (tx.store.loadKeymap keymap).texts = []
      · rw [hnone]
        exact List.nil_subset _
      · obtain ⟨text, htext, rfl⟩ := htexts rfl hfamily name hnone
        have hmem : text.id ∈ texts.map (·.id) := hids ▸ List.mem_map_of_mem htext
        obtain ⟨text', htext', hid⟩ := List.mem_map.mp hmem
        rw [← hid, hkept text' htext']
        exact List.Subset.refl _

end whole

end steady

end edits

end UwuSsh

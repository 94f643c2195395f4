import Mathlib.Data.Set.Insert
import UwuSsh.Store.LocalEdits

/-!
Unknown fields survive an old client. From the envelope a record is taken in from, through any
run of edits that take no unknown field of it away, to the envelopes it goes up in again, for the
record and for every copy a host got of it as a login of its own. A shared login with unknown
fields is copied without them.
-/
namespace UwuSsh

open Fallible InTx Run

namespace Store

/-- A host that is saved shares the identity it logs in with. -/
def CopiesLogin (s : Store) (host : Option Uuid) (identity : Uuid) : Prop :=
  ∃ id, ∃ row : Row HostCols, host = some id ∧ s.live? .host id = some row ∧
    row.cols.identityId = some identity ∧ s.sharesIdentity id identity = true

/-- A record has unknown fields of its own. -/
def HasUnknown (s : Store) (kind : EntityKind) (id : Uuid) : Prop :=
  ∃ row, s.row? kind id = some row ∧ Cols.extraAt kind row.cols .record ≠ []

/-- A keymap has chords with unknown fields. -/
def HasChordFields (s : Store) (id : Uuid) : Prop :=
  ∃ row : Row KeymapBody, s.row? .keymap id = some row ∧ ∃ action index, row.cols.chordExtra action index ≠ []

/-- A host logs in with one identity before and with another after. -/
def CopiedLogin (s t : Store) (identity copy : Uuid) : Prop :=
  ∃ host, ∃ row row' : Row HostCols, s.row? .host host = some row ∧
    row.cols.identityId = some identity ∧ t.row? .host host = some row' ∧
    row'.cols.identityId = some copy ∧ copy ≠ identity

end Store

namespace LocalEdit

/-- An edit that copies a login. -/
def Copies (s : Store) (identity : Uuid) : LocalEdit → Prop
  | saveHost draft => s.CopiesLogin draft.id identity
  | setHostPassword host _ => s.CopiesLogin (some host) identity
  | _ => False

/-- An edit that takes unknown fields of a record away: it puts an answer over the one of a cache
slot, empties the slot, leaves a text off the keymap, or writes the keymap's chords again. -/
def Erases (s : Store) (kind : EntityKind) (id : Uuid) : LocalEdit → Prop
  | putAssistCache entry => kind = .assistCache ∧ s.slotFor entry = id ∧ s.HasUnknown kind id
  | clearAssistCacheEntry slot =>
      kind = .assistCache ∧ slot = id ∧ id ∈ s.answers.map (·.1) ∧ s.HasUnknown kind id
  | clearAssistCache => kind = .assistCache ∧ id ∈ s.answers.map (·.1) ∧ s.HasUnknown kind id
  | saveKeymap family draft => kind = .keymap ∧ keymapId family = some id ∧
      (s.HasChordFields id ∨
        ∃ name, textExtra name (s.loadKeymap id).texts ≠ [] ∧ ∀ t ∈ draft.texts, uuidText t.id ≠ name)
  | _ => False

/-- An edit that leaves the unknown fields of a record alone, and makes no copy without them. -/
def Spares (s : Store) (kind : EntityKind) (id : Uuid) (edit : LocalEdit) : Prop :=
  ¬ edit.Erases s kind id ∧ (kind = .identity → s.HasUnknown kind id → ¬ edit.Copies s id)

end LocalEdit

section step

variable {draws : Draws} {base : Holder → Extra} {kind : EntityKind} {id host identity : Uuid}
  {tx : Tx} {edit : LocalEdit}

theorem steady_carries : Steady (Carries base) := fun hlasts _ h => h.lasts hlasts

/-- A cache slot with no unknown fields has none to lose. -/
theorem carries_of_none (h : tx.Has .assistCache id (Carries base))
    (hnone : ¬ tx.store.HasUnknown .assistCache id) (row : Row (Cols .assistCache)) :
    Carries base .assistCache row := by
  obtain ⟨old, hold, hbase, -⟩ := h
  have hempty : Cols.extraAt .assistCache old.cols .record = [] := by
    by_contra hne
    exact hnone ⟨old, hold, hne⟩
  refine ⟨fun place => ?_, (by simp)⟩
  have hsub := hbase place
  cases place with
  | record =>
    rw [hempty, List.subset_nil] at hsub
    rw [hsub]
    exact List.nil_subset _
  | entry name => exact hsub
  | chord action index => exact hsub

/-- What an edit does to the unknown fields of a record. -/
theorem edit_carries (h : tx.Has kind id (Carries base)) (herases : ¬ edit.Erases tx.store kind id) :
    Ends (edit.run draws) tx fun _ u => u.Has kind id (Carries base) := by
  have hdone {α : Type} {prog : InTx α} (hprog : Keeps (Tx.Has kind id (Carries base)) prog) :
      Ends (do let _ ← prog) tx fun _ u => u.Has kind id (Carries base) :=
    Keeps.bind hprog (fun _ => keeps_pure) tx h
  have hform {row row' : Row HostCols} (hextra : row'.cols.syncExtra = row.cols.syncExtra)
      (hrow : Carries base .host row) : Carries base .host row' :=
    hrow.lasts (lasts_of_own (by decide) hextra)
  have hlive (hwhole : kind = .assistConfig ∨ kind = .keymap) (row : Row (Cols kind))
      (hrow : Carries base kind row) : row.deleted = false := hrow.2 hwhole
  cases edit with
  | saveHost draft => exact hdone (saveHost_keeps steady_carries fun _ _ => hform)
  | setHostPassword id change => exact hdone (setHostPassword_keeps steady_carries fun _ _ => hform)
  | deleteHost id => exact deleteHost_keeps steady_carries tx h
  | markConnected id => exact markHost_keeps steady_carries tx h
  | setHostOs id os => exact setHostOs_keeps steady_carries tx h
  | moveHost id to_ group before => exact hdone (moveHost_keeps steady_carries)
  | placeHost id place position => exact hdone (placeHost_keeps steady_carries)
  | createGroup workspace name => exact hdone createGroup_keeps
  | renameGroup workspace from_ to_ => exact renameGroup_keeps steady_carries tx h
  | deleteGroup workspace name => exact deleteGroup_keeps steady_carries tx h
  | moveGroup workspace name to_ before => exact moveGroup_keeps steady_carries tx h
  | addKey draft => exact hdone addKey_keeps
  | renameKey id label => exact renameKey_keeps steady_carries tx h
  | deleteKey id => exact deleteKey_keeps steady_carries tx h
  | saveTunnel draft => exact hdone (saveTunnel_keeps steady_carries)
  | deleteTunnel id => exact deleteTunnel_keeps steady_carries tx h
  | trustHostKey address port algorithm fingerprint publicKey =>
    exact trust_keeps steady_carries tx h
  | forgetHostKey address port => exact forget_keeps steady_carries tx h
  | saveAssistSettings draft => exact hdone (saveAssistSettings_keeps steady_carries hlive)
  | putAssistCache entry =>
    refine ends_bind.mpr ((putAssistCache_keeps h ?_).mono fun _ u hu => ends_pure.mpr hu)
    rintro rfl hslot
    exact carries_of_none h fun hunknown => herases ⟨rfl, hslot, hunknown⟩
  | touchAssistCache id => exact touchAssistCache_keeps steady_carries tx h
  | clearAssistCacheEntry slot =>
    refine ends_bind.mpr (ends_bind.mpr (ends_read.mpr ?_))
    refine (Keeps.bind (clearSlots_keeps ?_) (fun _ => keeps_pure) tx h).mono fun _ u hu =>
      ends_pure.mpr hu
    rintro rfl hmem
    obtain ⟨hanswer, heq⟩ := List.mem_filter.mp hmem
    have hslot : slot = id := (eq_of_beq heq).symm
    exact carries_of_none h fun hunknown => herases ⟨rfl, hslot, hanswer, hunknown⟩
  | clearAssistCache =>
    refine ends_bind.mpr (ends_bind.mpr (ends_read.mpr ?_))
    refine (Keeps.bind (clearSlots_keeps ?_) (fun _ => keeps_pure) tx h).mono fun _ u hu =>
      ends_pure.mpr hu
    rintro rfl hmem
    exact carries_of_none h fun hunknown => herases ⟨rfl, hmem, hunknown⟩
  | saveKeymap family draft =>
    refine ends_bind.mpr ((saveKeymap_keeps steady_carries hlive h ?_ ?_).mono fun _ u hu =>
      ends_pure.mpr hu)
    · intro hkind hfamily row hrow action index
      by_contra hchord
      exact herases ⟨hkind, hfamily, .inl ⟨row, hrow, action, index, hchord⟩⟩
    · intro hkind hfamily name hextra
      by_contra hnone
      refine herases ⟨hkind, hfamily, .inr ⟨name, hextra, fun text htext heq => ?_⟩⟩
      exact hnone ⟨text, htext, heq⟩

/-- The row of a host logs in with an identity. -/
def LogsIn (identity : Uuid) (kind : EntityKind) (row : Row (Cols kind)) : Prop :=
  kind = .host → Cols.login kind row.cols = some identity

theorem steady_logsIn : Steady (LogsIn identity) :=
  fun _ hlogin h hkind => hlogin.trans (h hkind)

/-- The hosts are those of a table. -/
def HostsAre (hosts : Table .host) (tx : Tx) : Prop := tx.store.tables .host = hosts

section hosts

variable {hosts : Table .host}

theorem hosts_putRow {k : EntityKind} {other : Uuid} {row : Row (Cols k)} (h : HostsAre hosts tx)
    (hkind : k ≠ .host) : HostsAre hosts (tx.onStore fun s => s.putRow k other row) :=
  (Function.update_of_ne hkind.symm _ _).trans h

theorem hosts_updateRow {k : EntityKind} {other : Uuid} {f : Row (Cols k) → Row (Cols k)}
    (h : HostsAre hosts tx) (hkind : k ≠ .host) :
    HostsAre hosts (tx.onStore fun s => s.updateRow k other f) := by
  cases hrow : tx.store.row? k other with
  | none => exact (congrArg (fun s : Store => s.tables .host) (tx.store.updateRow_of_none f hrow)).trans h
  | some row =>
    have heq := tx.store.updateRow_of_some f hrow
    exact (congrArg (fun s : Store => s.tables .host) heq).trans (hosts_putRow h hkind)

theorem ensureGroup_hosts {workspace : Workspace} {name : String} :
    Keeps (HostsAre hosts) (ensureGroup draws workspace name) := by
  refine Keeps.bind keeps_look fun found => ?_
  cases found with
  | some found => exact keeps_pure
  | none =>
    refine Keeps.bind keeps_look fun _ => keeps_lift.bind fun _ => ?_
    refine Keeps.bind (fun tx h => ends_tick.mpr h) fun _ => ?_
    refine Keeps.bind (fun tx h => ends_newId.mpr fun _ _ => h) fun _ => ?_
    refine Keeps.bind (fun tx h => ends_insert.mpr fun _ => ?_) fun _ => keeps_pure
    exact hosts_putRow h (by decide)

theorem changedPassword_hosts {change : PasswordChange} {old : Option Uuid} :
    Keeps (HostsAre hosts) (changedPassword draws change old) := by
  cases change with
  | keep => exact keeps_pure
  | forget => exact keeps_pure
  | set value =>
    refine Keeps.bind keeps_look fun vault => ?_
    cases vault with
    | none => exact keeps_throw
    | some vault =>
      refine Keeps.bind (fun tx h => ends_sealSecret.mpr fun new t hseal => ?_) fun _ => keeps_pure
      obtain ⟨-, u, rfl, hinsert⟩ := Tx.sealSecret_eq hseal
      obtain ⟨-, rfl⟩ := Tx.insert_ok hinsert
      have hticked : HostsAre hosts (({ tx with drawn := tx.drawn + 1 } : Tx).tick draws).1 := h
      exact hosts_putRow hticked (by decide)

end hosts

theorem sharesIdentity_congr {s t : Store} (h : t.tables .host = s.tables .host) :
    t.sharesIdentity host identity = s.sharesIdentity host identity := by
  unfold Store.sharesIdentity Store.liveRows Store.rows
  rw [h]

/-- A login no other host has is not copied. -/
theorem ownIdentity_alone {clock : Hlc} (h : tx.store.sharesIdentity host identity = false) :
    Ends (ownIdentity draws host identity clock) tx fun own u => own = identity ∧ u = tx := by
  refine ends_bind.mpr (ends_read.mpr ?_)
  rw [h]
  exact ends_pure.mpr ⟨rfl, rfl⟩

theorem draftIdentity_alone {clock : Hlc} {cols : HostCols}
    (hidentity : cols.identityId = some identity)
    (h : tx.store.sharesIdentity host identity = false) :
    Ends (draftIdentity draws (some (host, cols)) clock) tx fun own u =>
      own = some identity ∧ u = tx := by
  unfold draftIdentity
  simp only [Option.bind_some, hidentity, Option.map_some]
  refine ends_bind.mpr ((ownIdentity_alone h).mono fun own u hu => ?_)
  obtain ⟨rfl, rfl⟩ := hu
  exact ends_pure.mpr ⟨rfl, rfl⟩

theorem writeIdentity_hosts {hosts : Table .host} {fields : IdentityFields} {clock : Hlc}
    (h : HostsAre hosts tx) :
    Ends (writeIdentity draws (some identity) fields clock) tx fun own u =>
      own = identity ∧ HostsAre hosts u :=
  ends_bind.mpr (ends_update.mpr (ends_pure.mpr ⟨rfl, hosts_updateRow h (by decide)⟩))

theorem writeHost_logsIn {cols : HostCols} {draft : HostDraft} {group : Option Uuid}
    {workspace : Workspace} {position : Int64} {clock : Hlc} {row : Row HostCols}
    (hrow : tx.store.row? .host host = some row) :
    Ends (writeHost draws (some (host, cols)) draft identity group workspace position clock) tx
      fun _ u => u.Has .host host (LogsIn identity) := by
  refine ends_bind.mpr (ends_update.mpr (ends_pure.mpr ?_))
  refine ⟨_, (tx.store.row?_updateRow_self .host host _).trans (congrArg _ hrow), fun _ => rfl⟩

theorem has_row (h : tx.Has .host host (LogsIn identity)) {row : Row HostCols}
    (hlive : tx.store.live? .host host = some row) : row.cols.identityId = some identity := by
  obtain ⟨row', hrow, hlogin⟩ := h
  have heq := (Store.live?_eq_some.mp hlive).1.symm.trans hrow
  cases heq
  exact hlogin rfl

theorem not_shared {at_ : Option Uuid} (h : tx.Has .host host (LogsIn identity)) {row : Row HostCols}
    (hlive : tx.store.live? .host host = some row) (hat : at_ = some host)
    (hnot : ¬ tx.store.CopiesLogin at_ identity) :
    tx.store.sharesIdentity host identity = false := by
  by_contra hshared
  exact hnot ⟨host, row, hat, hlive, has_row h hlive, Bool.eq_true_of_not_eq_false hshared⟩

/-- The host form leaves every host with the login it had, as long as it does not copy that. -/
theorem saveHost_logsIn {draft : HostDraft} (h : tx.Has .host host (LogsIn identity))
    (hnot : ¬ tx.store.CopiesLogin draft.id identity) :
    Ends (saveHost draws draft) tx fun _ u => u.Has .host host (LogsIn identity) := by
  by_cases hself : some host = draft.id
  swap
  · exact saveHost_keeps steady_logsIn (fun _ heq => absurd heq hself) tx h
  refine ends_bind.mpr (ends_lift.mpr fun valid hvalid => ?_)
  refine ends_bind.mpr (needsVault_same.mono fun _ u hu => ?_)
  subst u
  refine ends_bind.mpr (ends_tick.mpr (ends_bind.mpr (knownKey_same.mono fun _ u hu => ?_)))
  subst u
  refine ends_bind.mpr (existingHost_ends.mono fun existing u hu => ?_)
  obtain ⟨rfl, hfound, hrow⟩ := hu
  rw [HostDraft.id_validated hvalid, ← hself] at hfound
  obtain ⟨⟨other, cols⟩, rfl, rfl⟩ := Option.map_eq_some_iff.mp hfound
  obtain ⟨row, hlive, rfl⟩ := hrow _ rfl
  have hlive : tx.store.live? .host other = some row := hlive
  have hidentity := has_row h hlive
  have hshared := not_shared h hlive hself.symm hnot
  refine ends_bind.mpr ((keeps_mapM (fun _ => ensureGroup_hosts) _ rfl).mono fun group u hu => ?_)
  refine ends_bind.mpr (draftPosition_same.mono fun position u' hu' => ?_)
  subst u'
  have hshared := (sharesIdentity_congr hu).trans hshared
  refine ends_bind.mpr ((draftIdentity_alone hidentity hshared).mono ?_)
  rintro own v ⟨rfl, rfl⟩
  refine ends_bind.mpr (ends_read.mpr (ends_bind.mpr ?_))
  refine (changedPassword_hosts v hu).mono fun password w hw => ?_
  refine ends_bind.mpr ((writeIdentity_hosts hw).mono ?_)
  rintro own x ⟨rfl, hx⟩
  have hrow : x.store.row? .host other = some row := by
    rw [Store.row?, hx]
    exact (Store.live?_eq_some.mp hlive).1
  refine ends_bind.mpr ((writeHost_logsIn hrow).mono fun id y hy => ?_)
  exact Keeps.bind (releaseOld_keeps steady_logsIn) (fun _ => readHost_keeps) y hy

/-- A new password leaves every host with the login it had, as long as it does not copy that. -/
theorem setHostPassword_logsIn {other : Uuid} {change : PasswordChange}
    (h : tx.Has .host host (LogsIn identity))
    (hnot : ¬ tx.store.CopiesLogin (some other) identity) :
    Ends (setHostPassword draws other change) tx fun _ u => u.Has .host host (LogsIn identity) := by
  by_cases hself : host = other
  swap
  · exact setHostPassword_keeps steady_logsIn (fun _ heq => absurd heq hself) tx h
  subst other
  unfold setHostPassword
  split
  · exact ends_throw
  refine ends_bind.mpr (needsVault_same.mono fun _ u hu => ?_)
  subst u
  refine ends_bind.mpr (ends_read.mpr ?_)
  cases hlive : tx.store.live? .host host with
  | none => exact ends_throw
  | some row =>
    have hlive : tx.store.live? .host host = some row := hlive
    have hidentity := has_row h hlive
    have hshared : (tx.tick draws).1.store.sharesIdentity host identity = false :=
      not_shared h hlive rfl hnot
    refine ends_bind.mpr (ends_read.mpr (ends_bind.mpr (ends_tick.mpr ?_)))
    dsimp only
    rw [hidentity]
    have hown : Ends (loginFor draws host (some identity) (tx.tick draws).2) (tx.tick draws).1
        fun own u => own = identity ∧ u = (tx.tick draws).1 := ownIdentity_alone hshared
    refine ends_bind.mpr (hown.mono fun own u hu => ?_)
    obtain ⟨rfl, rfl⟩ := hu
    have hticked : (tx.tick draws).1.Has .host host (LogsIn own) := has_of_row? h rfl
    refine Keeps.bind changedPassword_keeps (fun secret => ?_) _ hticked
    refine Keeps.bind (keeps_update fun _ h => ?_) fun _ => ?_
    · exact steady_logsIn.own h (by decide) rfl rfl
    · exact (releaseOld_keeps steady_logsIn).bind fun _ => readHost_keeps

/-- No edit changes the login a host names, but by copying it. -/
theorem edit_logsIn (h : tx.Has .host host (LogsIn identity))
    (hcopies : ¬ edit.Copies tx.store identity) :
    Ends (edit.run draws) tx fun _ u => u.Has .host host (LogsIn identity) := by
  have hdone {α : Type} {prog : InTx α} (hprog : Keeps (Tx.Has .host host (LogsIn identity)) prog) :
      Ends (do let _ ← prog) tx fun _ u => u.Has .host host (LogsIn identity) :=
    Keeps.bind hprog (fun _ => keeps_pure) tx h
  have hwhole (hkind : EntityKind.host = .assistConfig ∨ EntityKind.host = .keymap)
      (row : Row (Cols .host)) : LogsIn identity .host row → row.deleted = false :=
    absurd hkind (by decide)
  cases edit with
  | saveHost draft =>
    refine ends_bind.mpr ((saveHost_logsIn h hcopies).mono fun _ u hu => ends_pure.mpr hu)
  | setHostPassword id change =>
    refine ends_bind.mpr ((setHostPassword_logsIn h hcopies).mono fun _ u hu => ends_pure.mpr hu)
  | deleteHost id => exact deleteHost_keeps steady_logsIn tx h
  | markConnected id => exact markHost_keeps steady_logsIn tx h
  | setHostOs id os => exact setHostOs_keeps steady_logsIn tx h
  | moveHost id to_ group before => exact hdone (moveHost_keeps steady_logsIn)
  | placeHost id place position => exact hdone (placeHost_keeps steady_logsIn)
  | createGroup workspace name => exact hdone createGroup_keeps
  | renameGroup workspace from_ to_ => exact renameGroup_keeps steady_logsIn tx h
  | deleteGroup workspace name => exact deleteGroup_keeps steady_logsIn tx h
  | moveGroup workspace name to_ before => exact moveGroup_keeps steady_logsIn tx h
  | addKey draft => exact hdone addKey_keeps
  | renameKey id label => exact renameKey_keeps steady_logsIn tx h
  | deleteKey id => exact deleteKey_keeps steady_logsIn tx h
  | saveTunnel draft => exact hdone (saveTunnel_keeps steady_logsIn)
  | deleteTunnel id => exact deleteTunnel_keeps steady_logsIn tx h
  | trustHostKey address port algorithm fingerprint publicKey =>
    exact trust_keeps steady_logsIn tx h
  | forgetHostKey address port => exact forget_keeps steady_logsIn tx h
  | saveAssistSettings draft => exact hdone (saveAssistSettings_keeps steady_logsIn hwhole)
  | putAssistCache entry =>
    refine ends_bind.mpr ((putAssistCache_keeps h ?_).mono fun _ u hu => ends_pure.mpr hu)
    exact fun hkind => absurd hkind (by decide)
  | touchAssistCache id => exact touchAssistCache_keeps steady_logsIn tx h
  | clearAssistCacheEntry slot =>
    refine ends_bind.mpr (ends_bind.mpr (ends_read.mpr ?_))
    refine (Keeps.bind (clearSlots_keeps ?_) (fun _ => keeps_pure) tx h).mono fun _ u hu =>
      ends_pure.mpr hu
    exact fun hkind => absurd hkind (by decide)
  | clearAssistCache =>
    refine ends_bind.mpr (ends_bind.mpr (ends_read.mpr ?_))
    refine (Keeps.bind (clearSlots_keeps ?_) (fun _ => keeps_pure) tx h).mono fun _ u hu =>
      ends_pure.mpr hu
    exact fun hkind => absurd hkind (by decide)
  | saveKeymap family draft =>
    refine ends_bind.mpr ((saveKeymap_keeps steady_logsIn hwhole h ?_ ?_).mono fun _ u hu =>
      ends_pure.mpr hu)
    · exact fun hkind => absurd hkind (by decide)
    · exact fun hkind => absurd hkind (by decide)

/-- What an edit that went through makes true of the store is true of it, and one that failed
leaves it. -/
theorem LocalEdit.on_has {s : Store} {good : (kind : EntityKind) → Row (Cols kind) → Prop}
    (h : Tx.Has kind id good { store := s, drawn := 0 })
    (hends : Ends (edit.run draws) { store := s, drawn := 0 } fun _ u => u.Has kind id good) :
    ∃ row, (edit.on draws s).row? kind id = some row ∧ good kind row := by
  unfold LocalEdit.on
  cases hrun : (edit.run draws).commit s with
  | error e => exact h
  | ok r =>
    obtain ⟨_, t⟩ := r
    obtain ⟨tx, rfl, hhas⟩ := of_commit hrun hends
    exact hhas

end step

/-- The records that are followed, and every copy a host got of one. -/
def withCopies (kind : EntityKind) (s t : Store) (ids : Set Uuid) : Set Uuid :=
  ids ∪ {copy | kind = .identity ∧ ∃ id ∈ ids, s.CopiedLogin t id copy}

/-- An edit in a store some of whose records are followed. -/
def Follows (kind : EntityKind) (before : Store × Set Uuid) (e : Draws × LocalEdit)
    (after : Store × Set Uuid) : Prop :=
  after.1 = e.2.on e.1 before.1 ∧ after.2 = withCopies kind before.1 after.1 before.2

/-- An edit that spares every record that is followed. -/
def FollowsSparing (kind : EntityKind) (before : Store × Set Uuid) (e : Draws × LocalEdit)
    (after : Store × Set Uuid) : Prop :=
  Follows kind before e after ∧ ∀ id ∈ before.2, e.2.Spares before.1 kind id

namespace Store

/-- An envelope that goes up. -/
def Outgoing (s : Store) (out : Envelope) : Prop :=
  ∃ kinds limit leftOut, ∃ envelopes : List Envelope,
    (kinds = (syncedKinds.filter fun kind => !kind.travelsApart) ∨ kinds = EntityKind.apart) ∧
    s.pendingOf kinds limit = .ok (envelopes, leftOut) ∧ out ∈ envelopes

/-- All that goes up for some records carries the unknown fields of a plaintext. -/
def SendsUnknown (s : Store) (kind : EntityKind) (ids : Set Uuid) (plain : Plain) : Prop :=
  ∀ out, s.Outgoing out → out.kind = kind → out.id ∈ ids → out.deleted = false →
    ∃ vault plain', s.vault = some vault ∧ vault.openEnvelope out = some plain' ∧
      ∀ place, plain.extraAt place ⊆ plain'.extraAt place

end Store

section run

variable {kind : EntityKind} {id : Uuid} {base : Holder → Extra}
  {before after : Store × Set Uuid} {e : Draws × LocalEdit} {log : List (Draws × LocalEdit)}

/-- The record is alone, in a row that carries its unknown fields. -/
def Followed (base : Holder → Extra) (kind : EntityKind) (id : Uuid)
    (at_ : Store × Set Uuid) : Prop :=
  at_.2 = {id} ∧ ∃ row, at_.1.row? kind id = some row ∧ Carries base kind row

theorem not_copied (hbase : base .record ≠ []) (h : Followed base .identity id before)
    (hstep : FollowsSparing .identity before e after) (copy : Uuid) :
    ¬ before.1.CopiedLogin after.1 id copy := by
  obtain ⟨hids, row, hrow, hcarries, -⟩ := h
  obtain ⟨⟨hafter, -⟩, hspares⟩ := hstep
  have hunknown : before.1.HasUnknown .identity id := by
    refine ⟨row, hrow, fun hnone => hbase ?_⟩
    exact List.subset_nil.mp (hnone ▸ hcarries .record)
  have hcopies := (hspares id (hids ▸ rfl)).2 rfl hunknown
  rintro ⟨host, old, new, hold, hlogin, hnew, hcopy, hne⟩
  have hhas : Tx.Has .host host (LogsIn id) { store := before.1, drawn := 0 } :=
    ⟨old, hold, fun _ => hlogin⟩
  obtain ⟨row', hrow', hlogin'⟩ := LocalEdit.on_has hhas (edit_logsIn hhas hcopies)
  rw [← hafter, hnew] at hrow'
  cases hrow'
  exact hne (Option.some.inj (hcopy.symm.trans (hlogin' rfl)))

theorem followed_step (hbase : kind = .identity → base .record ≠ []) (h : Followed base kind id before)
    (hstep : FollowsSparing kind before e after) : Followed base kind id after := by
  obtain ⟨hids, row, hrow, hcarries⟩ := h
  obtain ⟨⟨hafter, hids'⟩, hspares⟩ := hstep
  refine ⟨?_, ?_⟩
  · rw [hids', withCopies, hids, Set.union_eq_left]
    rintro copy ⟨rfl, other, hother, hcopy⟩
    cases (hids ▸ hother : other ∈ ({id} : Set Uuid))
    exact absurd hcopy (not_copied (hbase rfl) ⟨hids, row, hrow, hcarries⟩
      ⟨⟨hafter, hids'⟩, hspares⟩ copy)
  · have hhas : Tx.Has kind id (Carries base) { store := before.1, drawn := 0 } :=
      ⟨row, hrow, hcarries⟩
    rw [hafter]
    exact LocalEdit.on_has hhas (edit_carries hhas (hspares id (hids ▸ rfl)).1)

/-- What has no unknown fields has none to lose. -/
theorem sendsUnknown_of_none {s : Store} {plain : Plain} {ids : Set Uuid}
    (h : ∀ place, plain.extraAt place ⊆ []) : s.SendsUnknown kind ids plain := by
  rintro out ⟨kinds, limit, leftOut, envelopes, -, hpending, hout⟩ - - hlive
  obtain ⟨vault, row, hvault, -, hof⟩ := Store.mem_pendingOf hpending hout
  obtain ⟨plain', -, hopen⟩ := hof.opened
  exact ⟨vault, plain', hvault, hopen, fun place =>
    List.Subset.trans (h place) (List.nil_subset _)⟩

theorem sendsUnknown_of_followed {s : Store} {plain : Plain} {ids : Set Uuid}
    (hbase : ∀ place, plain.extraAt place ⊆ base place) (h : Followed base kind id (s, ids)) :
    s.SendsUnknown kind ids plain := by
  obtain ⟨rfl, row, hrow, hcarries⟩ := h
  rintro out ⟨kinds, limit, leftOut, envelopes, -, hpending, hout⟩ rfl rfl hlive
  have hevery (row' : Row (Cols out.kind)) (hrow' : s.row? out.kind out.id = some row') :
      Carries base out.kind row' := Option.some.inj (hrow.symm.trans hrow') ▸ hcarries
  obtain ⟨vault, plain', hvault, hopen, hsub⟩ :=
    Store.pendingOf_carries hpending hout hlive hevery
  exact ⟨vault, plain', hvault, hopen, fun place => List.Subset.trans (hbase place) (hsub place)⟩

/-- A single envelope that was taken in is in its row. -/
theorem applyEnvelopes_followed {s t : Store} {vault : UnlockedVault} {env : Envelope}
    {plain : Plain} {now : UInt64} {report : ApplyReport} (hvault : s.vault = some vault)
    (hopen : vault.openEnvelope env = some plain) (hlive : env.deleted = false)
    (hcols : (Cols.ofPlain env.kind plain).isSome = true)
    (happly : s.applyEnvelopes [env] now = .ok (t, report)) (htaken : report.applied = 1) :
    Followed (plain.unknown env.kind) env.kind env.id (t, {env.id}) := by
  obtain ⟨hnil, -⟩ | ⟨vault', u, newest, hvault', hall, rfl⟩ := Store.applyEnvelopes_eq happly
  · cases hnil
  have hsame : vault' = vault := Option.some.inj (hvault'.symm.trans hvault)
  subst vault'
  rw [List.insertionSort_cons, List.insertionSort_nil, List.orderedInsert_nil] at hall
  unfold Store.applyAll at hall
  cases hone : s.applyOne vault env s.device with
  | error e =>
    rw [hone] at hall
    cases hall
  | ok r =>
    obtain ⟨t', outcome⟩ := r
    rw [hone] at hall
    obtain ⟨rfl, hreport, -⟩ := by simpa [Store.applyAll] using hall
    have hnot : env.kind ≠ .manifest := by
      intro hkind
      rw [hkind] at hcols
      cases plain <;> cases hcols
    have htaken : outcome.applied = 1 := by
      rw [← hreport, Store.countOutcome, if_neg fun h => hnot h.1] at htaken
      simpa [ApplyReport.add] using htaken
    obtain ⟨row, hrow, hcarries⟩ := Store.applyOne_carries hopen hlive hcols hone htaken
    exact ⟨rfl, row, hrow, hcarries⟩

end run

section examples

/-- The identity two hosts share, as a newer version saved it. -/
def newerLogin : Envelope :=
  let payload : Payload := .identity
    { label := "ann", username := "ann", authType := "password", keyId := none
      passwordSecretId := none, extra := [("agentForward", "true")] }
  let box := groupVault.sealSynced 4 .identity ⟨15, 0, 2⟩ false (.json payload)
  { id := 4, vaultId := 7, kind := .identity, updatedAt := ⟨15, 0, 2⟩, baseSeq := 0
    deleted := false, nonce := box.nonce, blob := box.blob, seq := some 2 }

def newerPlain : Plain := .json (.identity
  { label := "ann", username := "ann", authType := "password", keyId := none
    passwordSecretId := none, extra := [("agentForward", "true")] })

/-- A store the newer login has arrived in. -/
def withNewerLogin (s : Store) : Store :=
  ((s.applyEnvelopes [newerLogin] 20).toOption.map (·.1)).getD s

/-- The store after the host form is saved. -/
def formSaved (s : Store) : Store := LocalEdit.on countingDraws (.saveHost webDraft) s

theorem arrived_newerLogin {s : Store}
    (h : (s.applyEnvelopes [newerLogin] 20).toOption.any (·.2.applied == 1) = true) :
    ∃ report, s.applyEnvelopes [newerLogin] 20 = .ok (withNewerLogin s, report) ∧
      report.applied = 1 := by
  unfold withNewerLogin
  cases happly : s.applyEnvelopes [newerLogin] 20 with
  | error e =>
    rw [happly] at h
    cases h
  | ok r =>
    rw [happly] at h
    exact ⟨r.2, rfl, eq_of_beq h⟩

theorem outgoing_of_any {s : Store} {limit : ℕ} {p : Envelope → Bool}
    (h : (s.pendingEnvelopes limit).toOption.any (fun r => r.1.any p) = true) :
    ∃ out, s.Outgoing out ∧ p out = true := by
  obtain ⟨⟨envelopes, leftOut⟩, hpending, hany⟩ := (Option.any_eq_true _ _).mp h
  obtain ⟨out, hout, hp⟩ := List.any_eq_true.mp hany
  have hok : s.pendingEnvelopes limit = .ok (envelopes, leftOut) := by
    cases hresult : s.pendingEnvelopes limit with
    | error e =>
      rw [hresult] at hpending
      cases hpending
    | ok r =>
      rw [hresult] at hpending
      exact congrArg _ (Option.some.inj hpending)
  exact ⟨out, ⟨_, _, _, _, .inl rfl, hok, hout⟩, hp⟩

/-- The login of a single host. -/
def aloneLogin : Store :=
  arrivedStore
    [arriving .identity 4 (.identity { label := "ann", username := "ann", authType := "password"
                                       keyId := none, passwordSecretId := none }),
      arriving .host 1 (.host { name := "web", address := "web.example", port := 22
                                workspace := "private", position := 0, groupId := none
                                identityId := some 4 })]

end examples

end UwuSsh

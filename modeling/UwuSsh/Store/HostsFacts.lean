import UwuSsh.Store.GroupsFacts
import UwuSsh.Store.Hosts

/-!
Whose login an operation on one host can change. Up to the last statement every row that was
there stays, but for the host itself and the identity it has alone; only then a password may
go, and it goes exactly if no live identity has it any more.
-/
namespace UwuSsh

open Fallible InTx

namespace Store

/-- What the references of the schema promise: a row that is pointed at is there. -/
structure Referential (s : Store) : Prop where
  group : ∀ {id target : Uuid} {row : Row HostCols}, s.row? .host id = some row →
    row.cols.groupId = some target → (s.row? .group target).isSome
  identity : ∀ {id target : Uuid} {row : Row HostCols}, s.row? .host id = some row →
    row.cols.identityId = some target → (s.row? .identity target).isSome
  key : ∀ {id target : Uuid} {row : Row IdentityCols}, s.row? .identity id = some row →
    row.cols.keyId = some target → (s.row? .key target).isSome
  password : ∀ {id target : Uuid} {row : Row IdentityCols}, s.row? .identity id = some row →
    row.cols.passwordSecretId = some target → (s.row? .secret target).isSome

/-- A live identity has a secret for its password. -/
def Refers (s : Store) (secret : Uuid) : Prop :=
  ∃ id, ∃ row : Row IdentityCols, s.live? .identity id = some row ∧
    row.cols.passwordSecretId = some secret

/-- The password a host is logged in with, opened. -/
def passwordOf (s : Store) (host : Uuid) : Except LocalError (Option Plain) :=
  let login := (s.live? .host host).bind fun (row : Row HostCols) => s.loginOf row.cols
  (login.bind (·.passwordSecretId)).mapM s.revealSecret

/-- A tombstone is all that is left of a secret: no nonce and no ciphertext. -/
def Wiped (s : Store) (secret : Uuid) : Prop :=
  ∃ row : Row Sealed, s.row? .secret secret = some row ∧ row.deleted = true ∧
    row.cols = { nonce := [], blob := .raw [] }

/-- What an operation on one host leaves to all others, and when it wipes a password. -/
structure Isolated (s t : Store) (host : Uuid) : Prop where
  hosts : ∀ {id : Uuid}, id ≠ host → t.getHost id = s.getHost id
  passwords : ∀ {id : Uuid}, id ≠ host → t.passwordOf id = s.passwordOf id
  keys : ∀ id, t.row? .key id = s.row? .key id
  secrets : ∀ {secret : Uuid} {row : Row Sealed}, s.live? .secret secret = some row →
    t.live? .secret secret = some row ∨ t.Wiped secret ∧ ¬ t.Refers secret
  wiped : ∀ {secret : Uuid}, (s.live? .secret secret).isSome → s.Refers secret →
    ¬ t.Refers secret → t.Wiped secret

/-- A store in which only one host and the identity it has alone may have changed, beside rows
that are new. -/
structure Aside (s t : Store) (host own : Option Uuid) : Prop where
  hosts : ∀ {id : Uuid}, some id ≠ host → t.row? .host id = s.row? .host id
  keys : ∀ id, t.row? .key id = s.row? .key id
  groups : ∀ {id : Uuid}, (s.row? .group id).isSome → t.row? .group id = s.row? .group id
  secrets : ∀ {id : Uuid}, (s.row? .secret id).isSome → t.row? .secret id = s.row? .secret id
  identities : ∀ {id : Uuid}, some id ≠ own → (s.row? .identity id).isSome →
    t.row? .identity id = s.row? .identity id
  vault : t.vault = s.vault

/-- An identity no live host but the one has. -/
def Alone (s : Store) (host : Option Uuid) (own : Uuid) : Prop :=
  ∀ {id : Uuid} {row : Row HostCols}, some id ≠ host → s.live? .host id = some row →
    row.cols.identityId ≠ some own

section aside

variable {s t u : Store} {host own : Option Uuid}

theorem Aside.refl (s : Store) : s.Aside s host own :=
  ⟨fun _ => rfl, fun _ => rfl, fun _ => rfl, fun _ => rfl, fun _ _ => rfl, rfl⟩

/-- More may change than did. -/
theorem Aside.widen (h : s.Aside t none none) : s.Aside t host own where
  hosts _ := h.hosts (by simp)
  keys := h.keys
  groups := h.groups
  secrets := h.secrets
  identities _ := h.identities (by simp)
  vault := h.vault

theorem Aside.allow_own (h : s.Aside t host none) : s.Aside t host own :=
  { h with identities := fun _ => h.identities (by simp) }

theorem Aside.congr (h : s.Aside t host own)
    (hrows : ∀ kind id, kind ≠ .portForward → u.row? kind id = t.row? kind id)
    (hvault : u.vault = t.vault) : s.Aside u host own where
  hosts hid := (hrows _ _ (by decide)).trans (h.hosts hid)
  keys id := (hrows _ _ (by decide)).trans (h.keys id)
  groups hid := (hrows _ _ (by decide)).trans (h.groups hid)
  secrets hid := (hrows _ _ (by decide)).trans (h.secrets hid)
  identities hid hsome := (hrows _ _ (by decide)).trans (h.identities hid hsome)
  vault := hvault.trans h.vault

/-- A row that is new touches none that was there. -/
theorem Aside.put (h : s.Aside t host own) {kind : EntityKind} {id : Uuid} (row : Row (Cols kind))
    (hnone : t.row? kind id = none) (hkey : kind ≠ .key) (hhost : kind = .host → some id = host) :
    s.Aside (t.putRow kind id row) host own := by
  have hother {kind' : EntityKind} {id' : Uuid} (hsome : (t.row? kind' id').isSome) :
      (t.putRow kind id row).row? kind' id' = t.row? kind' id' := by
    refine row?_putRow_of_pair_ne t kind id row ?_
    rintro ⟨rfl, rfl⟩
    rw [hnone] at hsome
    cases hsome
  exact {
    hosts := fun {id'} hid => by
      refine (row?_putRow_of_pair_ne t kind id row ?_).trans (h.hosts hid)
      rintro ⟨heq, rfl⟩
      exact hid (hhost heq.symm)
    keys := fun id' => by
      exact (row?_putRow_of_kind_ne t row (Ne.symm hkey)).trans (h.keys id')
    groups := fun hsome => (hother (h.groups hsome ▸ hsome)).trans (h.groups hsome)
    secrets := fun hsome => (hother (h.secrets hsome ▸ hsome)).trans (h.secrets hsome)
    identities := fun hid hsome =>
      (hother (h.identities hid hsome ▸ hsome)).trans (h.identities hid hsome)
    vault := h.vault }

theorem vault_updateRow {kind : EntityKind} {id : Uuid} (f : Row (Cols kind) → Row (Cols kind)) :
    (t.updateRow kind id f).vault = t.vault :=
  (frame_updateRow t kind id f).vault

theorem Aside.update_host {id : Uuid} (h : s.Aside t (some id) own)
    (f : Row (Cols .host) → Row (Cols .host)) : s.Aside (t.updateRow .host id f) (some id) own where
  hosts hid := (row?_updateRow_of_ne f fun heq => hid (congrArg some heq)).trans (h.hosts hid)
  keys id' := (row?_updateRow_of_kind_ne f (by decide)).trans (h.keys id')
  groups hid := (row?_updateRow_of_kind_ne f (by decide)).trans (h.groups hid)
  secrets hid := (row?_updateRow_of_kind_ne f (by decide)).trans (h.secrets hid)
  identities hid hsome := (row?_updateRow_of_kind_ne f (by decide)).trans (h.identities hid hsome)
  vault := (vault_updateRow f).trans h.vault

theorem Aside.update_identity {id : Uuid} (h : s.Aside t host (some id))
    (f : Row (Cols .identity) → Row (Cols .identity)) :
    s.Aside (t.updateRow .identity id f) host (some id) where
  hosts hid := (row?_updateRow_of_kind_ne f (by decide)).trans (h.hosts hid)
  keys id' := (row?_updateRow_of_kind_ne f (by decide)).trans (h.keys id')
  groups hid := (row?_updateRow_of_kind_ne f (by decide)).trans (h.groups hid)
  secrets hid := (row?_updateRow_of_kind_ne f (by decide)).trans (h.secrets hid)
  identities hid hsome :=
    (row?_updateRow_of_ne f fun heq => hid (congrArg some heq)).trans (h.identities hid hsome)
  vault := (vault_updateRow f).trans h.vault

/-- A password that is let go: it stays if a live identity has it. -/
structure Released (s t : Store) (gone : Option Uuid) : Prop where
  others : ∀ {kind : EntityKind} {id : Uuid}, kind ≠ .secret → t.row? kind id = s.row? kind id
  secrets : ∀ {id : Uuid}, some id ≠ gone → t.row? .secret id = s.row? .secret id
  used : ∀ {id : Uuid}, s.Refers id → t.row? .secret id = s.row? .secret id
  unused : ∀ {id : Uuid}, some id = gone → ¬ s.Refers id → (s.live? .secret id).isSome → t.Wiped id
  vault : t.vault = s.vault

theorem Released.refers_iff {gone : Option Uuid} (h : s.Released t gone) {secret : Uuid} :
    t.Refers secret ↔ s.Refers secret := by
  have hlive (id : Uuid) : t.live? .identity id = s.live? .identity id :=
    live?_congr (h.others (by decide))
  simp only [Refers, hlive]

theorem hostFromRow_congr {id : Uuid} {row : Row HostCols}
    (hlogin : t.loginOf row.cols = s.loginOf row.cols)
    (hkeys : ∀ id, t.live? .key id = s.live? .key id)
    (hgroup : ∀ group, row.cols.groupId = some group →
      t.live? .group group = s.live? .group group) :
    t.hostFromRow (id, row) = s.hostFromRow (id, row) := by
  have hgroups : (row.cols.groupId.bind fun id => (t.live? .group id).map (·.cols) :
      Option GroupCols) = row.cols.groupId.bind fun id => (s.live? .group id).map (·.cols) := by
    cases hid : row.cols.groupId with
    | none => rfl
    | some group =>
      exact congrArg (Option.map fun row : Row GroupCols => row.cols) (hgroup group hid)
  simp only [hostFromRow, hlogin, hkeys]
  congr 1
  exact congrArg (fun group : Option GroupCols =>
    (group.map (·.name)).filter fun name => name != "") hgroups

variable {host : Uuid} {gone : Option Uuid}

theorem live?_host_of_other (haside : s.Aside u (some host) own) (hreleased : u.Released t gone)
    {id : Uuid} (hid : id ≠ host) : t.live? .host id = s.live? .host id :=
  live?_congr ((hreleased.others (by decide)).trans
    (haside.hosts fun h => hid (Option.some.inj h)))

theorem Aside.live?_secret (h : s.Aside u host own) {secret : Uuid} {row : Row Sealed}
    (hlive : s.live? .secret secret = some row) : u.live? .secret secret = some row := by
  refine (live?_congr (h.secrets ?_)).trans hlive
  rw [(live?_eq_some.mp hlive).1]
  rfl

/-- A live secret stays, or it is what was let go and nothing had it any more. -/
theorem Released.secret (h : u.Released t gone) {secret : Uuid} {row : Row Sealed}
    (hlive : u.live? .secret secret = some row) :
    t.live? .secret secret = some row ∨ t.Wiped secret ∧ ¬ t.Refers secret := by
  by_cases hgone : some secret = gone ∧ ¬ u.Refers secret
  · have hsome : (u.live? .secret secret).isSome := by
      rw [hlive]
      rfl
    exact Or.inr ⟨h.unused hgone.1 hgone.2 hsome, mt h.refers_iff.mp hgone.2⟩
  · refine Or.inl ((live?_congr ?_).trans hlive)
    by_cases heq : some secret = gone
    · exact h.used (not_not.mp fun hnot => hgone ⟨heq, hnot⟩)
    · exact h.secrets heq

section isolation

variable (hs : s.Referential) (haside : s.Aside u (some host) own)
  (halone : ∀ id, own = some id → s.Alone (some host) id) (hreleased : u.Released t gone)

include hs haside halone hreleased

/-- The identity of another host is the one it was. -/
theorem live?_identity_of_other {id target : Uuid} {row : Row HostCols} (hid : id ≠ host)
    (hlive : s.live? .host id = some row) (htarget : row.cols.identityId = some target) :
    u.live? .identity target = s.live? .identity target ∧
      t.live? .identity target = s.live? .identity target := by
  have hsome := hs.identity (live?_eq_some.mp hlive).1 htarget
  have hown : some target ≠ own := fun heq =>
    halone target heq.symm (fun h => hid (Option.some.inj h)) hlive htarget
  have hu := live?_congr (haside.identities hown hsome)
  exact ⟨hu, (live?_congr (hreleased.others (by decide))).trans hu⟩

theorem loginOf_of_other {id : Uuid} {row : Row HostCols} (hid : id ≠ host)
    (hlive : s.live? .host id = some row) : t.loginOf row.cols = s.loginOf row.cols := by
  unfold loginOf
  cases htarget : row.cols.identityId with
  | none => rfl
  | some target =>
    have h := (live?_identity_of_other hs haside halone hreleased hid hlive htarget).2
    simp only [Option.bind_some, h]

theorem getHost_of_other {id : Uuid} (hid : id ≠ host) : t.getHost id = s.getHost id := by
  unfold getHost
  rw [live?_host_of_other haside hreleased hid]
  cases hlive : s.live? .host id with
  | none => rfl
  | some row =>
    refine congrArg some (hostFromRow_congr ?_ ?_ ?_)
    · exact loginOf_of_other hs haside halone hreleased hid hlive
    · exact fun id => live?_congr ((hreleased.others (by decide)).trans (haside.keys id))
    · intro group hgroup
      have hsome := hs.group (live?_eq_some.mp hlive).1 hgroup
      exact live?_congr ((hreleased.others (by decide)).trans (haside.groups hsome))

theorem passwordOf_of_other {id : Uuid} (hid : id ≠ host) : t.passwordOf id = s.passwordOf id := by
  unfold passwordOf
  rw [live?_host_of_other haside hreleased hid]
  cases hlive : s.live? .host id with
  | none => rfl
  | some row =>
    have hlogin := loginOf_of_other hs haside halone hreleased hid hlive
    show ((t.loginOf row.cols).bind (·.passwordSecretId)).mapM t.revealSecret =
      ((s.loginOf row.cols).bind (·.passwordSecretId)).mapM s.revealSecret
    rw [hlogin]
    cases hsecret : (s.loginOf row.cols).bind (·.passwordSecretId) with
    | none => rfl
    | some secret =>
      obtain ⟨cols, hcols, hsecret⟩ := Option.bind_eq_some_iff.mp hsecret
      obtain ⟨target, htarget, hcols⟩ := Option.bind_eq_some_iff.mp hcols
      obtain ⟨irow, hirow, rfl⟩ := Option.map_eq_some_iff.mp hcols
      have hu := (live?_identity_of_other hs haside halone hreleased hid hlive htarget).1
      have hrefers : u.Refers secret := ⟨target, irow, hu.trans hirow, hsecret⟩
      have hsome := hs.password (live?_eq_some.mp hirow).1 hsecret
      have hrow := (hreleased.used hrefers).trans (haside.secrets hsome)
      have hvault : t.vault = s.vault := hreleased.vault.trans haside.vault
      have hreveal : t.revealSecret secret = s.revealSecret secret := by
        unfold revealSecret
        rw [hvault, live?_congr hrow]
      simp only [Option.mapM_some, hreveal]

/-- An operation that changed nothing but one host and its own identity, and let go a password
that was the only one not referred to any more, isolates the host. -/
theorem isolated_of_aside (hkept : ∀ secret, s.Refers secret → u.Refers secret ∨ gone = some secret) :
    s.Isolated t host where
  hosts hid := getHost_of_other hs haside halone hreleased hid
  passwords hid := passwordOf_of_other hs haside halone hreleased hid
  keys id := (hreleased.others (by decide)).trans (haside.keys id)
  secrets hlive := hreleased.secret (haside.live?_secret hlive)
  wiped {secret} hsome hrefers hnot := by
    have hunused := mt hreleased.refers_iff.mpr hnot
    have hgone := (hkept secret hrefers).resolve_left hunused
    obtain ⟨row, hlive⟩ := Option.isSome_iff_exists.mp hsome
    refine hreleased.unused hgone.symm hunused ?_
    rw [haside.live?_secret hlive]
    rfl

end isolation

end aside

end Store

section operations

variable {draws : Draws} {tx : Tx} {s : Store} {host own : Option Uuid}

theorem Store.Aside.tick (draws : Draws) (tx : Tx) (h : s.Aside tx.store host own) :
    s.Aside (tx.tick draws).1.store host own :=
  h.congr (fun _ _ _ => rfl) rfl

theorem ensureGroup_aside (h : s.Aside tx.store host own) {workspace : Workspace} {name : String} :
    Ends (ensureGroup draws workspace name) tx fun _ u => s.Aside u.store host own := by
  simp only [ensureGroup, ends_bind, ends_read]
  cases tx.store.groupId workspace name with
  | some id => exact ends_pure.mpr h
  | none =>
    simp only [ends_bind, ends_read, ends_lift, ends_tick, ends_newId, ends_pure]
    intro position _ id _
    refine ends_insert.mpr fun hnone => ?_
    exact (h.tick draws tx).put _ hnone (by decide) (by simp)

theorem needsVault_same {change : PasswordChange} :
    Ends (needsVault change) tx fun _ u => u = tx := by
  simp only [needsVault, ends_bind, ends_read]
  split
  · exact ends_throw
  · exact ends_pure.mpr rfl

theorem knownKey_same {key : Option Uuid} : Ends (knownKey key) tx fun _ u => u = tx := by
  unfold knownKey
  cases key with
  | none => exact ends_pure.mpr rfl
  | some key =>
    simp only [ends_bind, ends_read]
    split
    · exact ends_pure.mpr rfl
    · exact ends_throw

theorem existingHost_ends {id : Option Uuid} :
    Ends (existingHost id) tx fun existing u => u = tx ∧ existing.map (·.1) = id ∧
      ∀ e, existing = some e → ∃ row : Row HostCols, tx.store.live? .host e.1 = some row ∧
        row.cols = e.2 := by
  unfold existingHost
  cases id with
  | none => exact ends_pure.mpr ⟨rfl, rfl, (by simp)⟩
  | some id =>
    simp only [ends_bind, ends_read]
    cases hlive : tx.store.live? .host id with
    | none => exact ends_throw
    | some row =>
      refine ends_pure.mpr ⟨rfl, rfl, fun e he => ?_⟩
      cases he
      exact ⟨row, hlive, rfl⟩

theorem draftPosition_same {existing : Option (Uuid × HostCols)} {workspace : Workspace}
    {group : Option Uuid} :
    Ends (draftPosition existing workspace group) tx fun _ u => u = tx := by
  simp only [draftPosition, ends_bind, ends_read]
  cases existing with
  | none => exact ends_lift.mpr fun _ _ => rfl
  | some e =>
    dsimp only
    split
    · exact ends_pure.mpr rfl
    · exact ends_lift.mpr fun _ _ => rfl

theorem alone_of_not_shared {u : Store} {id identity : Uuid} (h : s.Aside u (some id) own)
    (hshared : ¬ u.sharesIdentity id identity = true) : s.Alone (some id) identity := by
  intro other row hne hlive heq
  apply hshared
  have hlive' := (Store.live?_congr (h.hosts hne)).trans hlive
  have hid : other ≠ id := fun heq => hne (congrArg some heq)
  refine List.any_eq_true.mpr ⟨(other, row), Store.mem_liveRows.mpr hlive', ?_⟩
  simp [heq, hid]

/-- The identity a host gets as its own is one no other live host has: it was not shared, or
it is a new row. -/
theorem ownIdentity_ends (hs : s.Referential) (h : s.Aside tx.store none none) {id identity : Uuid}
    {clock : Hlc} :
    Ends (ownIdentity draws id identity clock) tx fun own u =>
      s.Aside u.store (some id) none ∧ s.Alone (some id) own ∧
        ((s.row? .identity own).isSome → own = identity) := by
  simp only [ownIdentity, ends_bind, ends_read]
  split
  · simp only [ends_bind, ends_read, ends_newId]
    intro copy _
    cases hrow : tx.store.row? .identity identity with
    | none => exact ends_throw
    | some row =>
      simp only [ends_bind, ends_read, ends_pure]
      refine ends_insertRow.mpr fun hnone => ends_update.mpr ?_
      have hnew : ¬ (s.row? .identity copy).isSome := by
        intro hsome
        rw [← h.identities (by simp) hsome, hnone] at hsome
        cases hsome
      refine ⟨((Store.Aside.widen h).put _ hnone (by decide) (by simp)).update_host _, ?_,
        fun hsome => absurd hsome hnew⟩
      intro other orow _ hlive heq
      exact hnew (hs.identity (Store.live?_eq_some.mp hlive).1 heq)
  · next hshared =>
    have hwide : s.Aside tx.store (some id) none := h.widen
    exact ends_pure.mpr ⟨hwide, alone_of_not_shared hwide hshared, fun _ => rfl⟩

/-- A password that is kept is the one it was; what is sealed for a new one is a new row. -/
theorem changedPassword_ends (h : s.Aside tx.store host own) {change : PasswordChange}
    {old : Option Uuid} :
    Ends (changedPassword draws change old) tx fun new u => s.Aside u.store host own ∧
      (∀ kind id, kind ≠ .secret → u.store.row? kind id = tx.store.row? kind id) ∧
        (change.keeps = true → new = old) := by
  unfold changedPassword
  cases change with
  | keep => exact ends_pure.mpr ⟨h, fun _ _ _ => rfl, fun _ => rfl⟩
  | forget => exact ends_pure.mpr ⟨h, fun _ _ _ => rfl, (by simp [PasswordChange.keeps])⟩
  | set value =>
    simp only [ends_bind, ends_read]
    cases tx.store.vault with
    | none => exact ends_throw
    | some vault =>
      simp only [ends_bind, ends_sealSecret, ends_pure]
      intro id t hseal
      obtain ⟨-, u, rfl, hinsert⟩ := Tx.sealSecret_eq hseal
      obtain ⟨hnone, rfl⟩ := Tx.insert_ok hinsert
      refine ⟨?_, fun kind id' hkind => ?_, (by simp [PasswordChange.keeps])⟩
      · exact (Store.Aside.tick draws { tx with drawn := tx.drawn + 1 } h).put _ hnone
          (by decide) (by simp)
      · exact Store.row?_putRow_of_kind_ne _ _ hkind

/-- Writing a login changes its own identity only, which has the new password then. -/
theorem writeIdentity_ends (h : s.Aside tx.store host none) {fields : IdentityFields}
    {clock : Hlc} :
    Ends (writeIdentity draws own fields clock) tx fun _ u => s.Aside u.store host own ∧
      ∀ {id : Uuid} {row : Row IdentityCols}, own = some id → s.live? .identity id = some row →
        ∃ row' : Row IdentityCols, u.store.live? .identity id = some row' ∧
          row'.cols.passwordSecretId = fields.passwordSecretId := by
  unfold writeIdentity
  cases own with
  | none =>
    simp only [insertIdentity, ends_newId, ends_bind, ends_pure]
    intro id _
    refine ends_insert.mpr fun hnone => ⟨?_, (by simp)⟩
    exact h.put _ hnone (by decide) (by simp)
  | some own =>
    simp only [updateIdentity, ends_bind, ends_pure]
    refine ends_update.mpr ⟨h.allow_own.update_identity _, ?_⟩
    intro id row hid hlive
    cases hid
    have hsome : (s.row? .identity own).isSome := by
      rw [(Store.live?_eq_some.mp hlive).1]
      rfl
    have hsame := h.identities (by simp) hsome
    exact ⟨_, Store.live?_updateRow _ ((Store.live?_congr hsame).trans hlive) rfl, rfl⟩

theorem writeHost_ends {existing : Option (Uuid × HostCols)}
    (h : s.Aside tx.store (existing.map (·.1)) own) {draft : HostDraft} {identity : Uuid}
    {group : Option Uuid} {workspace : Workspace} {position : Int64} {clock : Hlc} :
    Ends (writeHost draws existing draft identity group workspace position clock) tx fun id u =>
      s.Aside u.store (some id) own ∧ (∀ e, existing = some e → id = e.1) ∧
        ∀ kind other, kind ≠ .host → u.store.row? kind other = tx.store.row? kind other := by
  unfold writeHost
  cases existing with
  | some e =>
    simp only [ends_bind, ends_pure]
    refine ends_update.mpr ⟨h.update_host _, fun e' he => ?_, fun kind other hkind => ?_⟩
    · cases he
      rfl
    · exact Store.row?_updateRow_of_kind_ne _ hkind
  | none =>
    simp only [ends_bind, ends_newId, ends_pure]
    intro id _
    refine ends_insert.mpr fun hnone => ⟨?_, (by simp), fun kind other hkind => ?_⟩
    · have hwide : s.Aside tx.store (some id) own := { h with hosts := fun _ => h.hosts (by simp) }
      exact hwide.put _ hnone (by decide) fun _ => rfl
    · exact Store.row?_putRow_of_kind_ne _ _ hkind

theorem usesSecret_iff {secret : Uuid} : s.usesSecret secret = true ↔ s.Refers secret := by
  refine List.any_eq_true.trans ⟨?_, ?_⟩
  · rintro ⟨⟨id, row⟩, hmem, heq⟩
    exact ⟨id, row, Store.mem_liveRows.mp hmem, eq_of_beq heq⟩
  · rintro ⟨id, row, hlive, heq⟩
    exact ⟨(id, row), Store.mem_liveRows.mpr hlive, by simp [heq]⟩

theorem releaseSecret_ends {secret : Uuid} :
    Ends (releaseSecret draws secret) tx fun _ u => tx.store.Released u.store (some secret) := by
  simp only [releaseSecret, ends_bind, ends_read]
  split
  · next hused =>
    refine ends_pure.mpr ⟨fun _ => rfl, fun _ => rfl, fun _ => rfl, fun heq hnot _ => ?_, rfl⟩
    cases heq
    exact absurd (usesSecret_iff.mp hused) hnot
  · next hunused =>
    have hnot : ¬ tx.store.Refers secret := mt usesSecret_iff.mpr hunused
    refine ends_forgetSecret.mpr ⟨fun hkind => ?_, fun hne => ?_, fun hrefers => ?_,
      fun heq _ hlive => ?_, ?_⟩
    · exact Store.row?_updateRow_of_kind_ne _ hkind
    · exact Store.row?_updateRow_of_ne _ fun heq => hne (congrArg some heq)
    · refine Store.row?_updateRow_of_ne _ fun heq => ?_
      subst heq
      exact hnot hrefers
    · cases heq
      obtain ⟨row, hlive⟩ := Option.isSome_iff_exists.mp hlive
      obtain ⟨hrow, hnotDeleted⟩ := Store.live?_eq_some.mp hlive
      have hkeep : ¬ row.deleted = true := by simp [hnotDeleted]
      refine ⟨_, (Store.row?_updateRow_self ..).trans (congrArg (Option.map _) hrow), ?_, ?_⟩
      · dsimp only
        rw [if_neg hkeep]
      · dsimp only
        rw [if_neg hkeep]
    · exact Store.vault_updateRow _

theorem releaseOld_ends {change : PasswordChange} {old : Option Uuid} :
    Ends (releaseOld draws change old) tx fun _ u =>
      tx.store.Released u.store (if change.keeps then none else old) := by
  have hnone : tx.store.Released tx.store none :=
    ⟨fun _ => rfl, fun _ => rfl, fun _ => rfl, (by simp), rfl⟩
  unfold releaseOld
  cases old with
  | none =>
    rw [ite_self]
    exact ends_pure.mpr hnone
  | some old =>
    cases change.keeps with
    | true => exact ends_pure.mpr hnone
    | false => exact releaseSecret_ends

theorem readHost_ends {id : Uuid} :
    Ends (readHost id) tx fun record u => u = tx ∧ record.id = id := by
  simp only [readHost, ends_bind, ends_read]
  cases hget : tx.store.getHost id with
  | none => exact ends_throw
  | some record =>
    obtain ⟨row, -, rfl⟩ := Store.getHost_eq_some.mp hget
    exact ends_pure.mpr ⟨rfl, rfl⟩

theorem draftIdentity_ends (hs : s.Referential) (h : s.Aside tx.store none none)
    {existing : Option (Uuid × HostCols)} {clock : Hlc} :
    Ends (draftIdentity draws existing clock) tx fun own u =>
      s.Aside u.store (existing.map (·.1)) none ∧
        ∀ id, own = some id → s.Alone (existing.map (·.1)) id := by
  unfold draftIdentity
  cases existing with
  | none => exact ends_pure.mpr ⟨h, (by simp)⟩
  | some e =>
    cases hidentity : e.2.identityId with
    | none =>
      simp only [Option.bind_some, hidentity, Option.map_none]
      exact ends_pure.mpr ⟨h.widen, (by simp)⟩
    | some identity =>
      simp only [Option.bind_some, hidentity, Option.map_some, ends_bind, ends_pure]
      refine (ownIdentity_ends hs h).mono fun own u hu => ⟨hu.1, fun id hid => ?_⟩
      cases hid
      exact hu.2.1

/-- The secrets live logins had are still those of live logins, but for one that was let go with
its own identity. -/
theorem refers_of_written {t : Store} {old password : Option Uuid} {keeps : Bool}
    (hold : ∀ {id : Uuid} {row : Row IdentityCols}, own = some id → s.row? .identity id = some row →
      old = row.cols.passwordSecretId)
    (ht : s.Aside t host own) (hpassword : keeps = true → password = old)
    (hwritten : ∀ {id : Uuid} {row : Row IdentityCols}, own = some id →
      s.live? .identity id = some row → ∃ row' : Row IdentityCols,
        t.live? .identity id = some row' ∧ row'.cols.passwordSecretId = password) {secret : Uuid}
    (h : s.Refers secret) : t.Refers secret ∨ (if keeps then none else old) = some secret := by
  obtain ⟨id, row, hlive, hsecret⟩ := h
  have hrow := (Store.live?_eq_some.mp hlive).1
  by_cases hown : own = some id
  · -- The identity is the host's own: its password is the old one.
    obtain ⟨row', hlive', hsecret'⟩ := hwritten hown hlive
    have hold : old = some secret := (hold hown hrow).trans hsecret
    cases hkeeps : keeps with
    | true => exact Or.inl ⟨id, row', hlive', hsecret'.trans ((hpassword hkeeps).trans hold)⟩
    | false => exact Or.inr hold
  · refine Or.inl ⟨id, row, (Store.live?_congr ?_).trans hlive, hsecret⟩
    refine ht.identities (fun heq => hown heq.symm) ?_
    rw [hrow]
    rfl

/-- The secret of an identity that is as it was. -/
theorem passwordSecretOf_same {u : Store} (hu : s.Aside u host none) {id : Uuid}
    {row : Row IdentityCols} (hrow : s.row? .identity id = some row) :
    u.passwordSecretOf (some id) = row.cols.passwordSecretId := by
  have hsome : (s.row? .identity id).isSome := by
    rw [hrow]
    rfl
  have hsame := hu.identities (by simp) hsome
  show (u.row? .identity id).bind _ = _
  rw [hsame, hrow]
  rfl

theorem saveHost_isolated (hs : s.Referential) {draft : HostDraft} (htx : tx.store = s) :
    Ends (saveHost draws draft) tx fun record u => s.Isolated u.store record.id := by
  have hfirst : s.Aside (tx.tick draws).1.store none none :=
    Store.Aside.tick draws tx (htx ▸ Store.Aside.refl _)
  simp only [saveHost, ends_bind, ends_lift]
  intro draft _
  refine needsVault_same.mono fun _ u hsame => ?_
  subst u
  refine ends_tick.mpr (knownKey_same.mono fun _ u hsame => ?_)
  subst u
  refine existingHost_ends.mono fun existing u hexisting => ?_
  obtain ⟨hsame, -, -⟩ := hexisting
  subst u
  have hgroup (workspace : Workspace) : Ends (draft.groupPath.mapM (ensureGroup draws workspace))
      (tx.tick draws).1 fun _ u => s.Aside u.store none none :=
    ends_mapM (fun _ => hfirst) fun _ _ => ensureGroup_aside hfirst
  refine (hgroup _).mono fun group u hu => ?_
  refine draftPosition_same.mono fun position u' hsame => ?_
  subst u'
  refine (draftIdentity_ends hs hu).mono fun own v hown => ?_
  obtain ⟨hv, halone⟩ := hown
  refine ends_read.mpr ((changedPassword_ends hv).mono fun password w hchanged => ?_)
  obtain ⟨hw, -, hpassword⟩ := hchanged
  refine (writeIdentity_ends hw).mono fun identity x hwrite => ?_
  obtain ⟨hx, hwritten⟩ := hwrite
  refine (writeHost_ends hx).mono fun id y hhost => ?_
  obtain ⟨hy, hid, hother⟩ := hhost
  refine releaseOld_ends.mono fun _ z hreleased => ?_
  refine readHost_ends.mono fun record z' hread => ?_
  obtain ⟨hsame, hrecord⟩ := hread
  subst z'
  rw [hrecord]
  refine Store.isolated_of_aside hs hy ?_ hreleased fun secret hsecret => ?_
  · intro target htarget
    cases existing with
    | none =>
      intro other row _ hlive
      exact halone target htarget (Option.some_ne_none other) hlive
    | some e =>
      rw [hid e rfl]
      exact halone target htarget
  · have hrefers := refers_of_written (fun hown hrow => hown ▸ passwordSecretOf_same hv hrow) hx
      hpassword hwritten hsecret
    refine hrefers.imp_left fun hrefers => ?_
    obtain ⟨target, row, hlive, htarget⟩ := hrefers
    exact ⟨target, row, (Store.live?_congr (hother _ _ (by decide))).trans hlive, htarget⟩

theorem loginFor_ends (hs : s.Referential) (htx : s.Aside tx.store none none) {id : Uuid}
    {identity : Option Uuid} {clock : Hlc} :
    Ends (loginFor draws id identity clock) tx fun own u =>
      s.Aside u.store (some id) none ∧ s.Alone (some id) own ∧
        ((s.row? .identity own).isSome → identity = some own) := by
  unfold loginFor
  cases identity with
  | none =>
    simp only [insertIdentity, ends_bind, ends_newId, ends_pure]
    intro created _
    refine ends_insert.mpr fun hnone => ends_update.mpr ?_
    have hnew : ¬ (s.row? .identity created).isSome := by
      intro hsome
      rw [← htx.identities (by simp) hsome, hnone] at hsome
      cases hsome
    refine ⟨((Store.Aside.widen htx).put _ hnone (by decide) (by simp)).update_host _, ?_,
      fun hsome => absurd hsome hnew⟩
    intro other orow _ hlive heq
    exact hnew (hs.identity (Store.live?_eq_some.mp hlive).1 heq)
  | some identity =>
    refine (ownIdentity_ends hs htx).mono fun own u hu => ⟨hu.1, hu.2.1, fun hsome => ?_⟩
    rw [hu.2.2 hsome]

theorem setHostPassword_isolated (hs : s.Referential) {id : Uuid} {change : PasswordChange}
    (htx : tx.store = s) :
    Ends (setHostPassword draws id change) tx fun _ u => s.Isolated u.store id := by
  have hfirst : s.Aside (tx.tick draws).1.store none none :=
    Store.Aside.tick draws tx (htx ▸ Store.Aside.refl _)
  unfold setHostPassword
  split
  · exact ends_throw
  refine ends_bind.mpr (needsVault_same.mono fun _ u hsame => ?_)
  subst u
  simp only [ends_bind, ends_read]
  cases hlive : tx.store.live? .host id with
  | none => exact ends_throw
  | some row =>
    simp only [ends_bind, ends_read, ends_tick]
    refine (loginFor_ends hs hfirst).mono fun own u hu => ?_
    obtain ⟨hu, halone, hown⟩ := hu
    refine (changedPassword_ends hu).mono fun password v hchanged => ?_
    obtain ⟨hv, hkind, hpassword⟩ := hchanged
    refine ends_update.mpr (releaseOld_ends.mono fun _ w hreleased => ?_)
    refine readHost_ends.mono fun record w' hread => ?_
    obtain ⟨hsame, -⟩ := hread
    subst w'
    have hmine : s.Aside v.store (some id) (some own) := hv.allow_own
    have hwritten := hmine.update_identity fun (row : Row IdentityCols) =>
      row.edited (tx.tick draws).2 { row.cols with passwordSecretId := password }
    refine Store.isolated_of_aside hs hwritten ?_ hreleased fun secret hsecret => ?_
    · intro target htarget
      cases htarget
      exact halone
    · refine refers_of_written ?_ hwritten hpassword ?_ hsecret
      · intro target irow htarget hrow
        cases htarget
        have hidentity := hown (by rw [hrow]; rfl)
        have hself : s.Aside s none none := .refl s
        rw [hidentity, htx]
        exact passwordSecretOf_same hself hrow
      · intro target irow htarget hilive
        cases htarget
        have hsome : (s.row? .identity own).isSome := by
          rw [(Store.live?_eq_some.mp hilive).1]
          rfl
        have hsame := hv.identities (by simp) hsome
        exact ⟨_, Store.live?_updateRow _ ((Store.live?_congr hsame).trans hilive) rfl, rfl⟩

theorem released_none (u : Store) : u.Released u none :=
  ⟨fun _ => rfl, fun _ => rfl, fun _ => rfl, (by simp), rfl⟩

/-- Identities that are all as they were refer to what they did. -/
theorem refers_of_same {u : Store} (hu : s.Aside u host none) {secret : Uuid} (h : s.Refers secret) :
    u.Refers secret := by
  obtain ⟨id, row, hlive, hsecret⟩ := h
  refine ⟨id, row, (Store.live?_congr (hu.identities (by simp) ?_)).trans hlive, hsecret⟩
  rw [(Store.live?_eq_some.mp hlive).1]
  rfl

theorem dropLogin_isolated (hs : s.Referential) {id : Uuid} (h : s.Aside tx.store (some id) none)
    {identity : Option Uuid} {clock : Hlc} :
    Ends (dropLogin draws id identity clock) tx fun _ u => s.Isolated u.store id := by
  have hstays : s.Isolated tx.store id :=
    Store.isolated_of_aside hs h (by simp) (released_none _) fun _ hsecret =>
      Or.inl (refers_of_same h hsecret)
  unfold dropLogin
  cases identity with
  | none => exact ends_pure.mpr hstays
  | some identity =>
    simp only [ends_bind, ends_read]
    split
    · exact ends_pure.mpr hstays
    · next hshared =>
      have halone : s.Alone (some id) identity := alone_of_not_shared h hshared
      have hmine : s.Aside tx.store (some id) (some identity) := h.allow_own
      have htomb := hmine.update_identity (·.tombed clock)
      simp only [ends_bind, ends_read]
      refine ends_update.mpr ?_
      -- What a live login had is still had by one, unless it was this identity's.
      have hkept {secret : Uuid} (hsecret : s.Refers secret) :
          (tx.onStore fun s => s.updateRow .identity identity (·.tombed clock)).store.Refers secret ∨
            tx.store.passwordSecretOf (some identity) = some secret := by
        obtain ⟨other, row, hlive, hpassword⟩ := hsecret
        have hrow := (Store.live?_eq_some.mp hlive).1
        by_cases heq : other = identity
        · subst heq
          exact Or.inr ((passwordSecretOf_same h hrow).trans hpassword)
        · refine Or.inl ⟨other, row, (Store.live?_congr ?_).trans hlive, hpassword⟩
          refine htomb.identities (fun h => heq (Option.some.inj h)) ?_
          rw [hrow]
          rfl
      cases hpassword : tx.store.passwordSecretOf (some identity) with
      | none =>
        rw [hpassword] at hkept
        refine ends_pure.mpr (Store.isolated_of_aside hs htomb ?_ (released_none _) fun _ => hkept)
        intro target htarget
        cases htarget
        exact halone
      | some secret =>
        rw [hpassword] at hkept
        refine releaseSecret_ends.mono fun _ u hreleased => ?_
        refine Store.isolated_of_aside hs htomb ?_ hreleased fun _ => hkept
        intro target htarget
        cases htarget
        exact halone

theorem deleteHost_isolated (hs : s.Referential) {id : Uuid} (htx : tx.store = s) :
    Ends (deleteHost draws id) tx fun _ u => s.Isolated u.store id := by
  have hfirst : s.Aside (tx.tick draws).1.store (some id) none :=
    Store.Aside.tick draws tx (htx ▸ Store.Aside.refl _)
  simp only [deleteHost, ends_bind, ends_tick, ends_read]
  cases (tx.tick draws).1.store.live? .host id with
  | none => exact ends_throw
  | some row =>
    refine ends_bind.mpr (ends_update.mpr (ends_bind.mpr (ends_write.mpr ?_)))
    refine dropLogin_isolated hs ?_
    have htomb := hfirst.update_host (·.tombed (tx.tick draws).2)
    refine htomb.congr (fun kind other hkind => ?_) rfl
    exact Store.row?_mapTable_of_ne _ _ _ hkind

end operations

section examples

/-- Whether every reference of the hosts and identities has its row. -/
def Store.referencesThere (s : Store) : Bool :=
  let hosts : List (Uuid × Row HostCols) := s.rows .host
  let identities : List (Uuid × Row IdentityCols) := s.rows .identity
  (hosts.all fun e => (e.2.cols.groupId.all fun id => (s.row? .group id).isSome) &&
    e.2.cols.identityId.all fun id => (s.row? .identity id).isSome) &&
  identities.all fun e => (e.2.cols.keyId.all fun id => (s.row? .key id).isSome) &&
    e.2.cols.passwordSecretId.all fun id => (s.row? .secret id).isSome

theorem Store.referential_of_references {s : Store} (h : s.referencesThere = true) :
    s.Referential := by
  obtain ⟨hhosts, hidentities⟩ := Bool.and_eq_true_iff.mp h
  have hhost {id : Uuid} {row : Row HostCols} (hrow : s.row? .host id = some row) :=
    Bool.and_eq_true_iff.mp (List.all_eq_true.mp hhosts (id, row) (Store.mem_rows.mpr hrow))
  have hidentity {id : Uuid} {row : Row IdentityCols} (hrow : s.row? .identity id = some row) :=
    Bool.and_eq_true_iff.mp (List.all_eq_true.mp hidentities (id, row) (Store.mem_rows.mpr hrow))
  exact {
    group := fun hrow heq => (Option.all_eq_true _ _).mp (hhost hrow).1 _ heq
    identity := fun hrow heq => (Option.all_eq_true _ _).mp (hhost hrow).2 _ heq
    key := fun hrow heq => (Option.all_eq_true _ _).mp (hidentity hrow).1 _ heq
    password := fun hrow heq => (Option.all_eq_true _ _).mp (hidentity hrow).2 _ heq }

/-- Two hosts that log in with one identity, as an import makes them. -/
def sharedLogin : Store :=
  arrivedStore
    [arriving .identity 4 (.identity { label := "ann", username := "ann", authType := "password"
                                       keyId := none, passwordSecretId := none }),
      arriving .host 1 (.host { name := "web", address := "web.example", port := 22
                                workspace := "private", position := 0, groupId := none
                                identityId := some 4 }),
      arriving .host 2 (.host { name := "db", address := "db.example", port := 22
                                workspace := "private", position := 1, groupId := none
                                identityId := some 4 })]

def countingDraws : Draws := { id := fun n => some (100 + BitVec.ofNat 128 n), now := fun _ => 30 }

def webDraft : HostDraft where
  id := some 1
  name := "web"
  address := "web.example"
  port := 22
  username := "root"
  auth := .password
  keyPath := none
  groupPath := some "prod"
  workspace := none
  keyId := none
  password := .set "secret"

/-- A password of another device's on its way here. -/
def arrivingPassword (id : Uuid) (password : String) : Envelope :=
  let box := groupVault.sealSynced id .secret ⟨10, 0, 2⟩ false (.bytes (utf8Bytes password))
  { id, vaultId := 7, kind := .secret, updatedAt := ⟨10, 0, 2⟩, baseSeq := 0, deleted := false
    nonce := box.nonce, blob := box.blob, seq := some 1 }

/-- Two hosts that share a login and its password, and one with a password of its own. -/
def sharedPassword : Store :=
  arrivedStore
    [arrivingPassword 6 "shared", arrivingPassword 7 "own",
      arriving .identity 4 (.identity { label := "ann", username := "ann", authType := "password"
                                        keyId := none, passwordSecretId := some 6 }),
      arriving .identity 5 (.identity { label := "bob", username := "bob", authType := "password"
                                        keyId := none, passwordSecretId := some 7 }),
      arriving .host 1 (.host { name := "web", address := "web.example", port := 22
                                workspace := "private", position := 0, groupId := none
                                identityId := some 4 }),
      arriving .host 2 (.host { name := "db", address := "db.example", port := 22
                                workspace := "private", position := 1, groupId := none
                                identityId := some 4 }),
      arriving .host 3 (.host { name := "nas", address := "nas.example", port := 22
                                workspace := "private", position := 2, groupId := none
                                identityId := some 5 })]

end examples

end UwuSsh

import UwuSsh.Store.GroupsFacts
import UwuSsh.Store.HostsFacts
import UwuSsh.Store.Import

/-!
What an import does to a store. It only ever inserts rows, and every host and every host key it
inserts comes from the set. What it has settled for an entry of the set stays settled, so that the
same set imported a second time finds nothing to do.
-/
namespace UwuSsh

open Text Fallible InTx

namespace Store

/-- Rows are only inserted. -/
def Grows (s t : Store) : Prop := ∀ kind id row, s.row? kind id = some row → t.row? kind id = some row

theorem Grows.refl (s : Store) : s.Grows s := fun _ _ _ h => h

theorem Grows.trans {s t u : Store} (h : s.Grows t) (h' : t.Grows u) : s.Grows u :=
  fun kind id row hrow => h' kind id row (h kind id row hrow)

theorem Grows.of_rows {s t : Store} (h : ∀ kind id, t.row? kind id = s.row? kind id) : s.Grows t :=
  fun kind id _ hrow => (h kind id).trans hrow

theorem Grows.live {s t : Store} (h : s.Grows t) {kind : EntityKind} {id : Uuid}
    {row : Row (Cols kind)} (hlive : s.live? kind id = some row) : t.live? kind id = some row := by
  obtain ⟨hrow, hdeleted⟩ := live?_eq_some.mp hlive
  exact live?_eq_some.mpr ⟨h kind id row hrow, hdeleted⟩

theorem Grows.of_none {s t : Store} (h : s.Grows t) {kind : EntityKind} {id : Uuid}
    (hnone : t.row? kind id = none) : s.row? kind id = none := by
  cases hrow : s.row? kind id with
  | none => rfl
  | some row =>
    rw [h kind id row hrow] at hnone
    cases hnone

theorem grows_putRow {s : Store} {kind : EntityKind} {id : Uuid} (row : Row (Cols kind))
    (hnone : s.row? kind id = none) : s.Grows (s.putRow kind id row) := by
  intro kind' id' row' hrow
  by_cases hsame : kind' = kind ∧ id' = id
  · obtain ⟨rfl, rfl⟩ := hsame
    rw [hnone] at hrow
    cases hrow
  · exact (s.row?_putRow_of_pair_ne kind id row hsame).trans hrow

/-- A login with a key has one of the vault, which is there, or names its file. -/
structure Keyed (s : Store) (login : IdentityCols) : Prop where
  there : ∀ key, login.keyId = some key → (s.live? .key key).isSome
  named : AuthMethod.parse login.authType = .key → login.keyId = none → login.keyPath.isSome

/-- A reference of a host leads to a login of this user name, or to none for no name. -/
def NamesUser (s : Store) (identity : Option Uuid) (username : String) : Prop :=
  (identity = none ∧ username = "") ∨ ∃ id, ∃ row : Row IdentityCols,
    identity = some id ∧ s.live? .identity id = some row ∧ row.cols.username = username ∧ s.Keyed row.cols

/-- A reference of a host leads to a group of this name, or to none for no name. -/
def NamesGroup (s : Store) (group : Option Uuid) (path : Option String) : Prop :=
  ∃ name, groupName path = .ok name ∧ ((group = none ∧ name = none) ∨ ∃ id n, ∃ row : Row GroupCols,
    group = some id ∧ name = some n ∧ s.live? .group id = some row ∧ row.cols.name = n)

/-- A live host of the set, with its login and its group. -/
structure Came (s : Store) (set : ImportSet) (row : Row HostCols) (host : HostInput) : Prop where
  mem : host ∈ set.hosts
  passes : isPlausible host (set.usernameOf host) = true
  live : row.deleted = false
  name : row.cols.name = host.name
  address : row.cols.address = host.address
  port : row.cols.port = host.port
  user : s.NamesUser row.cols.identityId (set.usernameOf host)
  group : s.NamesGroup row.cols.groupId host.groupPath

theorem Keyed.grows {s t : Store} (h : s.Grows t) {login : IdentityCols} (hkeyed : s.Keyed login) : t.Keyed login where
  there key hkey := by
    obtain ⟨row, hlive⟩ := Option.isSome_iff_exists.mp (hkeyed.there key hkey)
    rw [h.live hlive]
    rfl
  named := hkeyed.named

theorem NamesUser.grows {s t : Store} (h : s.Grows t) {identity : Option Uuid} {username : String}
    (hnames : s.NamesUser identity username) : t.NamesUser identity username := by
  obtain hnone | ⟨id, row, hid, hlive, hname, hkeyed⟩ := hnames
  · exact Or.inl hnone
  · exact Or.inr ⟨id, row, hid, h.live hlive, hname, hkeyed.grows h⟩

theorem NamesGroup.grows {s t : Store} (h : s.Grows t) {group : Option Uuid} {path : Option String}
    (hnames : s.NamesGroup group path) : t.NamesGroup group path := by
  obtain ⟨name, hname, hnone | ⟨id, n, row, hid, hn, hlive, hrow⟩⟩ := hnames
  · exact ⟨name, hname, Or.inl hnone⟩
  · exact ⟨name, hname, Or.inr ⟨id, n, row, hid, hn, h.live hlive, hrow⟩⟩

theorem Came.grows {s t : Store} (h : s.Grows t) {set : ImportSet} {row : Row HostCols}
    {host : HostInput} (hcame : s.Came set row host) : t.Came set row host :=
  { hcame with user := hcame.user.grows h, group := hcame.group.grows h }

/-- A host of the set that was not there at the start. -/
def Added (start s : Store) (set : ImportSet) (address : String) (port : UInt16) : Prop :=
  ∃ id host, ∃ row : Row HostCols, start.row? .host id = none ∧ s.row? .host id = some row ∧
    s.Came set row host ∧ asciiLower (trim row.cols.address) = address ∧ row.cols.port = port

theorem Added.grows {start s t : Store} (h : s.Grows t) {set : ImportSet} {address : String}
    {port : UInt16} (hadded : start.Added s set address port) : start.Added t set address port := by
  obtain ⟨id, host, row, hnone, hrow, hcame, hkey⟩ := hadded
  exact ⟨id, host, row, hnone, h .host id row hrow, hcame.grows h, hkey⟩

/-- What a row that is inserted has to be. -/
def Welcome (start s : Store) (set : ImportSet) : (kind : EntityKind) → Row (Cols kind) → Prop
  | .host, row => ∃ host, s.Came set row host
  | .knownHost, row => (∃ known ∈ set.knownHosts, asciiLower (trim known.address) =
      KnownHostCols.address row.cols ∧ known.port = KnownHostCols.port row.cols ∧
        known.publicKey = KnownHostCols.publicKey row.cols) ∧
      start.keyKnown (KnownHostCols.address row.cols) (KnownHostCols.port row.cols) = false ∧
      start.Added s set (KnownHostCols.address row.cols) (KnownHostCols.port row.cols)
  | _, _ => True

theorem Welcome.grows {start s t : Store} (h : s.Grows t) {set : ImportSet} {kind : EntityKind}
    {row : Row (Cols kind)} (hwelcome : start.Welcome s set kind row) :
    start.Welcome t set kind row := by
  cases kind with
  | host =>
    obtain ⟨host, hcame⟩ := hwelcome
    exact ⟨host, hcame.grows h⟩
  | knownHost => exact ⟨hwelcome.1, hwelcome.2.1, hwelcome.2.2.grows h⟩
  | _ => trivial

/-- Rows of the set are inserted, and nothing else is done. -/
def Adds (start : Store) (set : ImportSet) (s t : Store) : Prop :=
  s.Grows t ∧ ∀ kind id row, t.row? kind id = some row →
    s.row? kind id = some row ∨ start.Welcome t set kind row

theorem Adds.refl (start : Store) (set : ImportSet) (s : Store) : start.Adds set s s :=
  ⟨.refl s, fun _ _ _ h => Or.inl h⟩

theorem Adds.trans {start s t u : Store} {set : ImportSet} (h : start.Adds set s t)
    (h' : start.Adds set t u) : start.Adds set s u := by
  refine ⟨h.1.trans h'.1, fun kind id row hrow => ?_⟩
  rcases h'.2 kind id row hrow with hthere | hwelcome
  · exact (h.2 kind id row hthere).imp_right fun hw => hw.grows h'.1
  · exact Or.inr hwelcome

/-- The rows are the same ones. -/
theorem Adds.of_rows {start s t : Store} {set : ImportSet}
    (h : ∀ kind id, t.row? kind id = s.row? kind id) : start.Adds set s t :=
  ⟨.of_rows h, fun kind id _ hrow => Or.inl ((h kind id).symm.trans hrow)⟩

theorem Adds.putRow {start s : Store} {set : ImportSet} {kind : EntityKind} {id : Uuid}
    (row : Row (Cols kind)) (hnone : s.row? kind id = none)
    (hwelcome : start.Welcome (s.putRow kind id row) set kind row) :
    start.Adds set s (s.putRow kind id row) := by
  refine ⟨grows_putRow row hnone, fun kind' id' row' hrow => ?_⟩
  by_cases hsame : kind' = kind ∧ id' = id
  · obtain ⟨rfl, rfl⟩ := hsame
    rw [row?_putRow_self] at hrow
    cases hrow
    exact Or.inr hwelcome
  · exact Or.inl ((s.row?_putRow_of_pair_ne kind id row hsame).symm.trans hrow)

/-- A reference of a host leads to an identity of this user name, if that is not deleted. -/
def LogsInAs (s : Store) (identity : Option Uuid) (username : String) : Prop :=
  (identity = none ∧ username = "") ∨ ∃ id, ∃ row : Row IdentityCols,
    identity = some id ∧ s.row? .identity id = some row ∧
      username = if row.deleted then "" else row.cols.username

/-- A host is there by its address, port and user, and its login too. -/
def HasHost (s : Store) (address : String) (port : UInt16) (username : String) : Prop :=
  ∃ id, ∃ row : Row HostCols, s.live? .host id = some row ∧
    asciiLower row.cols.address = asciiLower (trim address) ∧ row.cols.port = port ∧
      s.LogsInAs row.cols.identityId (trim username)

theorem HasHost.grows {s t : Store} (h : s.Grows t) {address username : String} {port : UInt16}
    (hhas : s.HasHost address port username) : t.HasHost address port username := by
  obtain ⟨id, row, hlive, haddress, hport, hlogin⟩ := hhas
  refine ⟨id, row, h.live hlive, haddress, hport, ?_⟩
  obtain hnone | ⟨identity, login, hid, hrow, hname⟩ := hlogin
  · exact Or.inl hnone
  · exact Or.inr ⟨identity, login, hid, h .identity identity login hrow, hname⟩

/-- A host key that is known of stays known of. -/
theorem keyKnown_grows {s t : Store} (h : s.Grows t) {address : String} {port : UInt16}
    (hfree : t.keyKnown address port = false) : s.keyKnown address port = false := by
  by_contra hknown
  obtain ⟨⟨id, row⟩, hmem, heq⟩ := List.any_eq_true.mp (Bool.eq_true_of_not_eq_false hknown)
  have hthere : t.keyKnown address port = true :=
    List.any_eq_true.mpr ⟨(id, row), mem_rows.mpr (h .knownHost id row (mem_rows.mp hmem)), heq⟩
  rw [hthere] at hfree
  cases hfree

theorem keyExists_grows {s t : Store} (h : s.Grows t) {key : KeyInput} (hkey : s.keyExists key = true) :
    t.keyExists key = true := by
  obtain ⟨⟨id, row⟩, hmem, heq⟩ := List.any_eq_true.mp hkey
  exact List.any_eq_true.mpr ⟨(id, row), mem_liveRows.mpr (h.live (mem_liveRows.mp hmem)), heq⟩

theorem snippetExists_grows {s t : Store} (h : s.Grows t) {snippet : SnippetInput}
    (hsnippet : s.snippetExists snippet = true) : t.snippetExists snippet = true := by
  obtain ⟨⟨id, row⟩, hmem, heq⟩ := List.any_eq_true.mp hsnippet
  exact List.any_eq_true.mpr ⟨(id, row), mem_liveRows.mpr (h.live (mem_liveRows.mp hmem)), heq⟩

theorem live?_of_deleted {s : Store} {kind : EntityKind} {id : Uuid} {row : Row (Cols kind)}
    (hrow : s.row? kind id = some row) (hdeleted : row.deleted = true) : s.live? kind id = none := by
  rw [live?, hrow, Option.filter_eq_none_iff]
  simp [hdeleted]

theorem loginName_eq {s : Store} {cols : HostCols} {username : String}
    (h : s.LogsInAs cols.identityId username) : s.loginName cols = username := by
  unfold loginName loginOf
  obtain ⟨hnone, rfl⟩ | ⟨id, row, hid, hrow, rfl⟩ := h
  · rw [hnone]
    rfl
  · cases hdeleted : row.deleted with
    | true =>
      rw [hid, Option.bind_some, live?_of_deleted hrow hdeleted]
      rfl
    | false =>
      rw [hid, Option.bind_some, live?_eq_some.mpr ⟨hrow, hdeleted⟩]
      rfl

/-- An identity a host points at is there, so the host tells who logs in. -/
theorem logsInAs_loginName {s : Store} {cols : HostCols}
    (h : ∀ id, cols.identityId = some id → (s.row? .identity id).isSome) :
    s.LogsInAs cols.identityId (s.loginName cols) := by
  cases hid : cols.identityId with
  | none =>
    refine Or.inl ⟨rfl, ?_⟩
    rw [loginName, loginOf, hid]
    rfl
  | some id =>
    obtain ⟨row, hrow⟩ := Option.isSome_iff_exists.mp (h id hid)
    have hlogs : s.LogsInAs cols.identityId (if row.deleted then "" else IdentityCols.username row.cols) :=
      Or.inr ⟨id, row, hid, hrow, rfl⟩
    rw [loginName_eq hlogs]
    exact hid ▸ hlogs

theorem hostExists_of_has {s : Store} {address username : String} {port : UInt16}
    (h : s.HasHost address port username) : s.hostExists address port username = true := by
  obtain ⟨id, row, hlive, haddress, hport, hlogin⟩ := h
  refine List.any_eq_true.mpr ⟨(id, row), mem_liveRows.mpr hlive, ?_⟩
  rw [haddress, hport, loginName_eq hlogin]
  simp

theorem has_of_hostExists {s : Store} {address username : String} {port : UInt16}
    (hrefs : ∀ {id : Uuid} {row : Row HostCols} {target : Uuid}, s.row? .host id = some row →
      row.cols.identityId = some target → (s.row? .identity target).isSome)
    (h : s.hostExists address port username = true) : s.HasHost address port username := by
  obtain ⟨⟨id, row⟩, hmem, hall⟩ := List.any_eq_true.mp h
  simp only [Bool.and_eq_true, beq_iff_eq] at hall
  obtain ⟨haddress, hport, hname⟩ := hall
  have hlive := mem_liveRows.mp hmem
  refine ⟨id, row, hlive, haddress, hport, ?_⟩
  rw [← hname]
  exact logsInAs_loginName fun target htarget =>
    hrefs (live?_eq_some.mp hlive).1 htarget

end Store

namespace Writer

/-- What a writer remembers is in the store. -/
structure Cached (set : ImportSet) (w : Writer) (s : Store) : Prop where
  keys : ∀ {index id}, w.keyIds.lookup index = some id → ∃ key, ∃ row : Row KeyCols,
    set.keys[index]? = some key ∧ s.live? .key id = some row ∧ row.cols.label = key.label ∧
      row.cols.keyType = key.keyType
  identities : ∀ {index id}, w.identityIds.lookup index = some id → ∃ input, ∃ row : Row IdentityCols,
    set.identities[index]? = some input ∧ s.live? .identity id = some row ∧
      row.cols.username = input.username.getD "" ∧ s.Keyed row.cols

theorem Cached.grows {set : ImportSet} {w : Writer} {s t : Store} (h : Cached set w s) (hgrows : s.Grows t) :
    Cached set w t where
  keys hid := by
    obtain ⟨key, row, hkey, hlive, hrow⟩ := h.keys hid
    exact ⟨key, row, hkey, hgrows.live hlive, hrow⟩
  identities hid := by
    obtain ⟨input, row, hinput, hlive, hname, hkeyed⟩ := h.identities hid
    exact ⟨input, row, hinput, hgrows.live hlive, hname, hkeyed.grows hgrows⟩

section steps

variable {draws : Draws} {tx : Tx} (start : Store) (set : ImportSet)

/-- A row that is inserted after something was drawn. -/
theorem insert_ends {u : Tx} {kind : EntityKind} {id : Uuid} {cols : Cols kind} {clock : Hlc}
    (hrows : ∀ kind id, u.store.row? kind id = tx.store.row? kind id)
    (hwelcome : ∀ row : Row (Cols kind), u.store.row? kind id = none → row.deleted = false →
      row.cols = cols → start.Welcome (u.store.putRow kind id row) set kind row) :
    Ends (insert kind id cols clock) u fun _ v => start.Adds set tx.store v.store ∧
      tx.store.row? kind id = none ∧ ∃ row, v.store.live? kind id = some row ∧ row.cols = cols := by
  refine ends_insert.mpr fun hnone => ⟨?_, (hrows kind id).symm.trans hnone, u.store.newRow clock cols,
    ?_, rfl⟩
  · exact Store.Adds.trans (.of_rows hrows) (.putRow _ hnone (hwelcome _ hnone rfl rfl))
  · exact Store.live?_eq_some.mpr ⟨Store.row?_putRow_self .., rfl⟩

theorem writeSecret_ends {text : String} :
    Ends (writeSecret draws text) tx fun _ u => start.Adds set tx.store u.store := by
  refine ends_bind.mpr (ends_bind.mpr (ends_read.mpr ?_))
  cases tx.store.vault with
  | none => exact ends_throw
  | some vault =>
    refine ends_pure.mpr (ends_sealSecret.mpr fun id t hseal => ?_)
    obtain ⟨-, u, rfl, hinsert⟩ := Tx.sealSecret_eq hseal
    obtain ⟨hnone, rfl⟩ := Tx.insert_ok hinsert
    exact Store.Adds.trans (.of_rows fun _ _ => rfl) (.putRow _ hnone trivial)

theorem writeSecrets_ends {text : Option String} :
    Ends (text.mapM (writeSecret draws)) tx fun _ u => start.Adds set tx.store u.store :=
  ends_mapM (fun _ => .refl _ _ _) fun _ _ => writeSecret_ends start set

theorem writeKey_ends {key : KeyInput} :
    Ends (writeKey draws key) tx fun id u => start.Adds set tx.store u.store ∧
      ∃ row : Row KeyCols, u.store.live? .key id = some row ∧ row.cols.label = key.label ∧
        row.cols.keyType = key.keyType := by
  refine ends_bind.mpr ((writeSecret_ends start set).mono fun _ u hu => ?_)
  refine ends_bind.mpr ((writeSecrets_ends start set).mono fun _ v hv => ?_)
  refine ends_bind.mpr (ends_newId.mpr fun id _ => ?_)
  refine ends_bind.mpr (ends_tick.mpr (ends_bind.mpr ?_))
  refine (insert_ends start set (fun _ _ => rfl) ?_).mono fun _ x hx => ?_
  · exact fun _ _ _ _ => trivial
  obtain ⟨hadds, -, row, hlive, hcols⟩ := hx
  exact ends_pure.mpr ⟨(hu.trans hv).trans hadds, row, hlive, hcols ▸ rfl, hcols ▸ rfl⟩

omit start set in
theorem keyed_identityCols {identity : IdentityInput} {keyId password : Option Uuid} {s : Store}
    (hkey : ∀ key, keyId = some key → (s.live? .key key).isSome) :
    s.Keyed (identityCols identity keyId password) where
  there := hkey
  named hauth hnone := by
    obtain rfl : keyId = none := hnone
    cases hpath : identity.keyPath with
    | some path => exact (congrArg Option.isSome hpath).trans rfl
    | none =>
      simp only [identityCols, hpath] at hauth
      exact absurd hauth (by decide)

theorem writeIdentity_ends {identity : IdentityInput} {keyId : Option Uuid}
    (hkey : ∀ key, keyId = some key → (tx.store.live? .key key).isSome) :
    Ends (writeIdentity draws identity keyId) tx fun id u => start.Adds set tx.store u.store ∧
      ∃ row : Row IdentityCols, u.store.live? .identity id = some row ∧
        row.cols.username = identity.username.getD "" ∧ u.store.Keyed row.cols := by
  refine ends_bind.mpr ((writeSecrets_ends start set).mono fun _ u hu => ?_)
  refine ends_bind.mpr (ends_newId.mpr fun id _ => ?_)
  refine ends_bind.mpr (ends_tick.mpr (ends_bind.mpr ?_))
  refine (insert_ends start set (fun _ _ => rfl) ?_).mono fun _ x hx => ?_
  · exact fun _ _ _ _ => trivial
  obtain ⟨hadds, -, row, hlive, hcols⟩ := hx
  have hall := hu.trans hadds
  refine ends_pure.mpr ⟨hall, row, hlive, hcols ▸ rfl, ?_⟩
  rw [hcols]
  exact Store.Keyed.grows hall.1 (keyed_identityCols hkey)

theorem key_ends {w : Writer} {index : ℕ} {input : KeyInput} (h : Cached set w tx.store)
    (hinput : set.keys[index]? = some input) :
    Ends (key draws index input w) tx fun r u => start.Adds set tx.store u.store ∧
      Cached set r.2 u.store ∧ ∃ row : Row KeyCols, u.store.live? .key r.1 = some row ∧
        row.cols.label = input.label ∧ row.cols.keyType = input.keyType := by
  unfold key
  cases hfound : w.keyIds.lookup index with
  | some id =>
    obtain ⟨found, row, hkey, hrow⟩ := h.keys hfound
    rw [hinput] at hkey
    cases hkey
    exact ends_pure.mpr ⟨.refl _ _ _, h, row, hrow⟩
  | none =>
    refine ends_bind.mpr ((writeKey_ends start set).mono fun id u hu => ends_pure.mpr ⟨hu.1, ?_, hu.2⟩)
    obtain ⟨hadds, row, hlive, hrow⟩ := hu
    refine { keys := fun {other found} hlookup => ?_, identities := (h.grows hadds.1).identities }
    by_cases heq : other = index
    · subst heq
      rw [List.lookup_cons_self] at hlookup
      cases hlookup
      exact ⟨input, row, hinput, hlive, hrow⟩
    · rw [List.lookup_cons, beq_false_of_ne heq] at hlookup
      exact (h.grows hadds.1).keys hlookup

theorem identityKey_ends {w : Writer} {input : IdentityInput} (h : Cached set w tx.store) :
    Ends (identityKey draws set input w) tx fun r u => start.Adds set tx.store u.store ∧
      Cached set r.2 u.store ∧ ∀ key, r.1 = some key → (u.store.live? .key key).isSome := by
  unfold identityKey
  cases hkey : set.keyOf input with
  | none => exact ends_pure.mpr ⟨.refl _ _ _, h, nofun⟩
  | some found =>
    obtain ⟨index, key⟩ := found
    have hinput : set.keys[index]? = some key := by
      obtain ⟨k, -, hk⟩ := Option.bind_eq_some_iff.mp hkey
      obtain ⟨found, hfound, heq⟩ := Option.map_eq_some_iff.mp hk
      cases heq
      exact hfound
    refine ends_bind.mpr ((key_ends start set h hinput).mono fun r u hu => ends_pure.mpr ⟨hu.1, hu.2.1, ?_⟩)
    rintro key ⟨⟩
    obtain ⟨row, hlive, -⟩ := hu.2.2
    rw [hlive]
    rfl

theorem identity_ends {w : Writer} {index : ℕ} {input : IdentityInput} (h : Cached set w tx.store)
    (hinput : set.identities[index]? = some input) :
    Ends (identity draws set index input w) tx fun r u => start.Adds set tx.store u.store ∧
      Cached set r.2 u.store ∧ ∃ row : Row IdentityCols, u.store.live? .identity r.1 = some row ∧
        row.cols.username = input.username.getD "" ∧ u.store.Keyed row.cols := by
  unfold identity
  cases hfound : w.identityIds.lookup index with
  | some id =>
    obtain ⟨found, row, hkey, hrow⟩ := h.identities hfound
    rw [hinput] at hkey
    cases hkey
    exact ends_pure.mpr ⟨.refl _ _ _, h, row, hrow⟩
  | none =>
    refine ends_bind.mpr ((identityKey_ends start set h).mono fun r u hu => ?_)
    refine ends_bind.mpr ((writeIdentity_ends start set hu.2.2).mono fun id v hv => ?_)
    obtain ⟨hadds, row, hlive, hrow⟩ := hv
    refine ends_pure.mpr ⟨hu.1.trans hadds, ?_, row, hlive, hrow⟩
    have hcached := hu.2.1.grows hadds.1
    refine { keys := hcached.keys, identities := fun {other found} hlookup => ?_ }
    by_cases heq : other = index
    · subst heq
      rw [List.lookup_cons_self] at hlookup
      cases hlookup
      exact ⟨input, row, hinput, hlive, hrow⟩
    · rw [List.lookup_cons, beq_false_of_ne heq] at hlookup
      exact hcached.identities hlookup

theorem login_ends {w : Writer} {host : HostInput} (h : Cached set w tx.store) :
    Ends (login draws set host w) tx fun r u => start.Adds set tx.store u.store ∧
      Cached set r.2 u.store ∧ u.store.NamesUser r.1 (set.usernameOf host) := by
  unfold login ImportSet.usernameOf
  cases hlogin : set.loginOf host with
  | none => exact ends_pure.mpr ⟨.refl _ _ _, h, Or.inl ⟨rfl, rfl⟩⟩
  | some found =>
    obtain ⟨index, input⟩ := found
    have hinput : set.identities[index]? = some input := by
      obtain ⟨k, -, hk⟩ := Option.bind_eq_some_iff.mp hlogin
      obtain ⟨found, hfound, heq⟩ := Option.map_eq_some_iff.mp hk
      cases heq
      exact hfound
    refine ends_bind.mpr ((identity_ends start set h hinput).mono fun r u hu => ends_pure.mpr ⟨hu.1, hu.2.1, ?_⟩)
    obtain ⟨row, hlive, hrow⟩ := hu.2.2
    exact Or.inr ⟨r.1, row, rfl, hlive, hrow⟩

theorem ensureGroup_ends {workspace : Workspace} {name : String} :
    Ends (ensureGroup draws workspace name) tx fun id u => start.Adds set tx.store u.store ∧
      u.store.Called workspace name id := by
  refine ends_bind.mpr (ends_read.mpr ?_)
  cases hfound : tx.store.groupId workspace name with
  | some id => exact ends_pure.mpr ⟨.refl _ _ _, Store.called_of_groupId hfound⟩
  | none =>
    refine ends_bind.mpr (ends_read.mpr (ends_bind.mpr (ends_lift.mpr fun position _ => ?_)))
    refine ends_bind.mpr (ends_tick.mpr (ends_bind.mpr (ends_newId.mpr fun id _ => ?_)))
    refine ends_bind.mpr ((insert_ends start set (fun _ _ => rfl) ?_).mono fun _ x hx => ?_)
    · exact fun _ _ _ _ => trivial
    obtain ⟨hadds, -, row, hlive, hcols⟩ := hx
    exact ends_pure.mpr ⟨hadds, row, hlive, hcols ▸ rfl, hcols ▸ rfl⟩

/-- The group a host is in, as the record that is found or made for its name. -/
theorem hostGroup_ends {workspace : Workspace} {path name : Option String}
    (hname : groupName path = .ok name) :
    Ends (name.mapM (ensureGroup draws workspace)) tx fun group u =>
      start.Adds set tx.store u.store ∧ u.store.NamesGroup group path := by
  refine ends_mapM (fun hnone => ⟨.refl _ _ _, name, hname, Or.inl ⟨rfl, hnone⟩⟩) fun n hn => ?_
  refine (ensureGroup_ends start set).mono fun id u hu => ⟨hu.1, name, hname, Or.inr ?_⟩
  obtain ⟨row, hlive, -, hrow⟩ := hu.2
  exact ⟨id, n, row, rfl, hn, hlive, hrow⟩

omit start set in
theorem positionOf_same {host : HostInput} {group : Option Uuid} :
    Ends (positionOf host group) tx fun _ u => u = tx := by
  unfold positionOf
  cases host.position with
  | some position => exact ends_pure.mpr rfl
  | none => exact ends_bind.mpr (ends_read.mpr (ends_lift.mpr fun _ _ => rfl))

theorem writeHost_ends {host : HostInput} {identity : Option Uuid} (hmem : host ∈ set.hosts)
    (hpasses : isPlausible host (set.usernameOf host) = true)
    (huser : tx.store.NamesUser identity (set.usernameOf host)) :
    Ends (writeHost draws host identity) tx fun _ u => start.Adds set tx.store u.store ∧
      ∃ id, ∃ row : Row HostCols, tx.store.row? .host id = none ∧ u.store.live? .host id = some row ∧
        u.store.Came set row host := by
  refine ends_bind.mpr (ends_lift.mpr fun name hname => ?_)
  refine ends_bind.mpr ((hostGroup_ends start set hname).mono fun group u hu => ?_)
  obtain ⟨hadds, hgroup⟩ := hu
  refine ends_bind.mpr (positionOf_same.mono fun position v hv => ?_)
  subst v
  refine ends_bind.mpr (ends_tick.mpr (ends_bind.mpr (ends_newId.mpr fun id _ => ?_)))
  have hcame {s : Store} (hgrows : u.store.Grows s) {row : Row HostCols}
      (hlive : row.deleted = false) (hcols : row.cols = HostCols.mk host.name host.address host.port
        host.workspace.asStr position group identity [] none none) : s.Came set row host :=
    { mem := hmem
      passes := hpasses
      live := hlive
      name := by rw [hcols]
      address := by rw [hcols]
      port := by rw [hcols]
      user := by
        rw [hcols]
        exact huser.grows (hadds.1.trans hgrows)
      group := by
        rw [hcols]
        exact hgroup.grows hgrows }
  refine (insert_ends start set (fun _ _ => rfl) ?_).mono fun _ x hx => ?_
  · intro row hnone hlive hcols
    have hticked : u.store.Grows (u.tick draws).1.store := .of_rows fun _ _ => rfl
    exact ⟨host, hcame (hticked.trans (Store.grows_putRow row hnone)) hlive hcols⟩
  · obtain ⟨hinserted, hnone, row, hlive, hcols⟩ := hx
    have hdeleted := (Store.live?_eq_some.mp hlive).2
    exact ⟨hadds.trans hinserted, id, row, hadds.1.of_none hnone, hlive,
      hcame hinserted.1 hdeleted hcols⟩

/-- What the hosts written so far left behind. -/
structure HostsDone (state : Writer × Added) (s : Store) : Prop where
  adds : start.Adds set start s
  cached : Cached set state.1 s
  added : ∀ {address : String} {port : UInt16}, (address, port) ∈ state.2 →
    start.Added s set address port

/-- A host of the set needs nothing any more. A host with white space around its address is
written as it is and not found again. -/
def Settled (host : HostInput) (s : Store) : Prop :=
  isPlausible host (set.usernameOf host) = true → trim host.address = host.address →
    s.HasHost host.address host.port (set.usernameOf host)

/-- A host that is in the store points at a login that is. -/
theorem HostsDone.login {state : Writer × Added} {s : Store} (h : HostsDone start set state s)
    (hstart : start.Referential) {id target : Uuid} {row : Row HostCols}
    (hrow : s.row? .host id = some row) (htarget : row.cols.identityId = some target) :
    (s.row? .identity target).isSome := by
  rcases h.adds.2 .host id row hrow with hold | ⟨host, hcame⟩
  · obtain ⟨login, hlogin⟩ := Option.isSome_iff_exists.mp (hstart.identity hold htarget)
    rw [h.adds.1 .identity target login hlogin]
    rfl
  · obtain ⟨hnone, -⟩ | ⟨id', login, hid, hlive, -, -⟩ := hcame.user
    · rw [htarget] at hnone
      cases hnone
    · rw [htarget] at hid
      cases hid
      rw [(Store.live?_eq_some.mp hlive).1]
      rfl

/-- A user name the form would let through is as it was typed. -/
theorem trim_username {host : HostInput} {username : String}
    (h : isPlausible host username = true) : trim username = username := by
  simp only [isPlausible, Bool.and_eq_true, Bool.not_eq_true', List.any_eq_false,
    Bool.or_eq_true, not_or, Bool.not_eq_true] at h
  exact trim_of_not_white fun c hc => (h.1.1.1.1.2 c hc).1

theorem settled_of_came {host : HostInput} {s : Store} {id : Uuid} {row : Row HostCols}
    (hlive : s.live? .host id = some row) (hcame : s.Came set row host) : Settled set host s := by
  intro hpasses haddress
  refine ⟨id, row, hlive, ?_, hcame.port, ?_⟩
  · rw [hcame.address, haddress]
  rw [trim_username hpasses]
  obtain hnone | ⟨login, irow, hid, hlogin, hname, -⟩ := hcame.user
  · exact Or.inl hnone
  · obtain ⟨hrow, hdeleted⟩ := Store.live?_eq_some.mp hlogin
    exact Or.inr ⟨login, irow, hid, hrow, by rw [hdeleted, hname]; rfl⟩

theorem host_ends (hstart : start.Referential) {state : Writer × Added} {input : HostInput}
    (hmem : input ∈ set.hosts) (h : HostsDone start set state tx.store) :
    Ends (Writer.host draws set state input) tx fun state' u =>
      HostsDone start set state' u.store ∧ Settled set input u.store ∧
        tx.store.Grows u.store := by
  refine ends_bind.mpr (ends_read.mpr ?_)
  split
  · next hskip =>
    refine ends_pure.mpr ⟨{ h with cached := ⟨h.cached.keys, h.cached.identities⟩ }, ?_, .refl _⟩
    intro hpasses _
    rw [hpasses] at hskip
    exact Store.has_of_hostExists (fun hrow => h.login start set hstart hrow) hskip
  · next hnew =>
    have hpasses : isPlausible input (set.usernameOf input) = true := by
      by_contra hnot
      exact hnew (by rw [Bool.eq_false_of_not_eq_true hnot]; rfl)
    refine ends_bind.mpr ((login_ends start set h.cached).mono fun login u hu => ?_)
    obtain ⟨hadds, hcached, huser⟩ := hu
    refine ends_bind.mpr ((writeHost_ends start set hmem hpasses huser).mono fun _ v hv => ?_)
    obtain ⟨hinserted, id, row, hnone, hlive, hcame⟩ := hv
    have hgrows := hadds.1.trans hinserted.1
    refine ends_pure.mpr ⟨?_, settled_of_came set hlive hcame, hgrows⟩
    have hcached' := hcached.grows hinserted.1
    refine {
      adds := (h.adds.trans hadds).trans hinserted
      cached := ⟨hcached'.keys, hcached'.identities⟩
      added := fun {address port} hin => ?_ }
    rcases List.mem_cons.mp hin with heq | hrest
    · obtain ⟨rfl, rfl⟩ := Prod.mk.injEq .. ▸ heq
      have hfresh : start.row? .host id = none :=
        (h.adds.1.trans hadds.1).of_none hnone
      exact ⟨id, input, row, hfresh, (Store.live?_eq_some.mp hlive).1, hcame,
        by rw [hcame.address], hcame.port⟩
    · exact (h.added hrest).grows hgrows

/-- A key no login names is in the store by its label and type. -/
def KeySettled (used : List ℕ) (e : KeyInput × ℕ) (s : Store) : Prop :=
  e.2 ∈ used ∨ s.keyExists e.1 = true

/-- What the spare keys written so far left behind. -/
structure KeysDone (w : Writer) (s : Store) : Prop where
  adds : start.Adds set start s
  cached : Cached set w s

theorem spareKey_ends {used : List ℕ} {w : Writer} {e : KeyInput × ℕ}
    (hmem : set.keys[e.2]? = some e.1) (h : KeysDone start set w tx.store) :
    Ends (spareKey draws used w e) tx fun w' u => KeysDone start set w' u.store ∧
      KeySettled used e u.store ∧ tx.store.Grows u.store := by
  refine ends_bind.mpr (ends_read.mpr ?_)
  split
  · next hskip =>
    rw [Bool.or_eq_true, List.contains_iff_mem] at hskip
    exact ends_pure.mpr ⟨h, hskip, .refl _⟩
  · refine ends_bind.mpr ((key_ends start set h.cached hmem).mono fun r u hu => ?_)
    obtain ⟨hadds, hcached, row, hlive, hlabel, htype⟩ := hu
    refine ends_pure.mpr ⟨⟨h.adds.trans hadds, hcached⟩, Or.inr ?_, hadds.1⟩
    refine List.any_eq_true.mpr ⟨(r.1, row), Store.mem_liveRows.mpr hlive, ?_⟩
    rw [hlabel, htype]
    simp

theorem knownHost_ends {added : Added} {w : Writer} {known : KnownHostInput}
    (hmem : known ∈ set.knownHosts)
    (hadded : ∀ {address : String} {port : UInt16}, (address, port) ∈ added →
      start.Added tx.store set address port) (h : start.Adds set start tx.store) :
    Ends (knownHost draws added w known) tx fun _ u => start.Adds set start u.store ∧
      tx.store.Grows u.store := by
  unfold knownHost
  split
  · exact ends_pure.mpr ⟨h, .refl _⟩
  next hin =>
  rw [Bool.not_eq_true', Bool.not_eq_false, List.contains_iff_mem] at hin
  suffices hwrite : Ends (writeKnownHost draws known) tx fun _ u =>
      start.Adds set tx.store u.store from
    ends_bind.mpr (hwrite.mono fun _ u hu => ends_pure.mpr ⟨h.trans hu, hu.1⟩)
  refine ends_bind.mpr (ends_read.mpr ?_)
  split
  · exact ends_pure.mpr (.refl _ _ _)
  next hfree =>
  refine ends_bind.mpr (ends_tick.mpr (ends_bind.mpr (ends_newId.mpr fun id _ => ?_)))
  refine ends_bind.mpr (ends_now.mpr (ends_bind.mpr ?_))
  refine (insert_ends start set (fun _ _ => rfl) ?_).mono fun _ x hx => ends_pure.mpr hx.1
  intro row hnone hlive hcols
  have haddress : KnownHostCols.address row.cols = asciiLower (trim known.address) := by rw [hcols]
  have hport : KnownHostCols.port row.cols = known.port := by rw [hcols]
  refine ⟨⟨known, hmem, haddress.symm, hport.symm, by rw [hcols]⟩, ?_, ?_⟩
  · rw [haddress, hport]
    exact Store.keyKnown_grows h.1 (Bool.eq_false_of_not_eq_true hfree)
  · rw [haddress, hport]
    have hdrawn : tx.store.Grows (tx.tick draws).1.store := .of_rows fun _ _ => rfl
    exact (hadded hin).grows (hdrawn.trans (Store.grows_putRow row hnone))

theorem snippet_ends {w : Writer} {input : SnippetInput} (h : start.Adds set start tx.store) :
    Ends (snippet draws w input) tx fun _ u => start.Adds set start u.store ∧
      u.store.snippetExists input = true ∧ tx.store.Grows u.store := by
  suffices hwrite : Ends (writeSnippet draws input) tx fun _ u =>
      start.Adds set tx.store u.store ∧ u.store.snippetExists input = true from
    ends_bind.mpr (hwrite.mono fun _ u hu => ends_pure.mpr ⟨h.trans hu.1, hu.2, hu.1.1⟩)
  refine ends_bind.mpr (ends_read.mpr ?_)
  split
  · next hthere => exact ends_pure.mpr ⟨.refl _ _ _, hthere⟩
  · refine ends_bind.mpr (ends_tick.mpr (ends_bind.mpr (ends_newId.mpr fun id _ => ?_)))
    refine ends_bind.mpr ((insert_ends start set (fun _ _ => rfl) ?_).mono fun _ x hx => ?_)
    · exact fun _ _ _ _ => trivial
    obtain ⟨hadds, -, row, hlive, hcols⟩ := hx
    refine ends_pure.mpr ⟨hadds, List.any_eq_true.mpr ⟨(id, row), Store.mem_liveRows.mpr hlive, ?_⟩⟩
    rw [hcols]
    simp

/-- A group of the set is there by its name, if it has one. -/
def GroupSettled (input : GroupInput) (s : Store) : Prop :=
  ∃ name, groupName (some input.name) = .ok name ∧
    ∀ n, name = some n → ∃ id, s.Called input.workspace n id

theorem writeGroup_ends {input : GroupInput} (h : start.Adds set start tx.store) :
    Ends (writeGroup draws input) tx fun _ u => start.Adds set start u.store ∧
      GroupSettled input u.store ∧ tx.store.Grows u.store := by
  refine ends_bind.mpr (ends_lift.mpr fun name hname => ?_)
  cases name with
  | none => exact ends_pure.mpr ⟨h, ⟨none, hname, fun _ hn => by cases hn⟩, .refl _⟩
  | some name =>
    refine ends_bind.mpr ((ensureGroup_ends start set).mono fun id u hu => ends_pure.mpr ?_)
    refine ⟨h.trans hu.1, ⟨some name, hname, fun n hn => ?_⟩, hu.1.1⟩
    cases hn
    exact ⟨id, hu.2⟩

/-- An import of the set finds nothing to do. -/
structure Finished (s : Store) : Prop where
  groups : ∀ group ∈ set.groups, GroupSettled group s
  hosts : ∀ host ∈ set.hosts, Settled set host s
  keys : ∀ e ∈ set.keys.zipIdx, KeySettled (set.identities.filterMap (·.key)) e s
  snippets : ∀ snippet ∈ set.snippets, s.snippetExists snippet = true

omit start set in
/-- A loop over entries of the set, each of which is settled for good. -/
theorem loop_ends {α β : Type} {step : β → α → InTx β} (inv : β → Store → Prop)
    (done : α → Store → Prop) {l : List α}
    (hdone : ∀ {a : α} {s t : Store}, s.Grows t → done a s → done a t)
    (hstep : ∀ a ∈ l, ∀ b, ∀ tx : Tx, inv b tx.store → Ends (step b a) tx fun b' u =>
      inv b' u.store ∧ done a u.store ∧ tx.store.Grows u.store) {b : β} (h : inv b tx.store) :
    Ends (l.foldlM step b) tx fun b' u =>
      inv b' u.store ∧ (∀ a ∈ l, done a u.store) ∧ tx.store.Grows u.store := by
  refine (ends_foldlM (fun b u => inv b u.store ∧ tx.store.Grows u.store)
    (fun a u => done a u.store) ?_ ⟨h, .refl _⟩).mono fun b' u hu => ?_
  · intro a ha b u hu
    refine (hstep a ha b u hu.1).mono fun b' v hv => ?_
    exact ⟨⟨hv.1, hu.2.trans hv.2.2⟩, hv.2.1, fun a' ha' => hdone hv.2.2 ha'⟩
  · exact ⟨hu.1.1, hu.2.1, hu.1.2⟩

omit start set in
theorem GroupSettled.grows {input : GroupInput} {s t : Store} (h : s.Grows t)
    (hsettled : GroupSettled input s) : GroupSettled input t := by
  obtain ⟨name, hname, hcalled⟩ := hsettled
  refine ⟨name, hname, fun n hn => ?_⟩
  obtain ⟨id, row, hlive, hrow⟩ := hcalled n hn
  exact ⟨id, row, h.live hlive, hrow⟩

omit start in
theorem Settled.grows {input : HostInput} {s t : Store} (h : s.Grows t)
    (hsettled : Settled set input s) : Settled set input t :=
  fun hpasses haddress => (hsettled hpasses haddress).grows h

omit start set in
theorem KeySettled.grows {used : List ℕ} {e : KeyInput × ℕ} {s t : Store} (h : s.Grows t)
    (hsettled : KeySettled used e s) : KeySettled used e t :=
  hsettled.imp_right (Store.keyExists_grows h)

/-- An import adds what is in the set, and leaves nothing of it to do. -/
theorem write_ends {draws : Draws} (hstart : start.Referential) :
    Ends (write draws set) { store := start, drawn := 0 } fun _ u =>
      start.Adds set start u.store ∧ Finished set u.store := by
  refine ends_bind.mpr ((loop_ends (fun _ s => start.Adds set start s) GroupSettled
    GroupSettled.grows (fun group _ _ tx h => writeGroup_ends start set h) ?_).mono fun _ u hu => ?_)
  · exact .refl _ _ _
  obtain ⟨hadds, hgroups, -⟩ := hu
  refine ends_bind.mpr ((loop_ends (HostsDone start set) (Settled set) (Settled.grows set)
    (fun host hhost _ tx h => host_ends start set hstart hhost h) ?_).mono fun state v hv => ?_)
  · exact { adds := hadds
            cached := { keys := fun {_ _} h => (by cases h), identities := fun {_ _} h => (by cases h) }
            added := fun hin => absurd hin List.not_mem_nil }
  obtain ⟨hdone, hhosts, huv⟩ := hv
  refine ends_bind.mpr ((loop_ends (KeysDone start set)
    (KeySettled (set.identities.filterMap (·.key))) KeySettled.grows
    (fun e he _ tx h => spareKey_ends start set ?_ h) ⟨hdone.adds, hdone.cached⟩).mono fun w x hx => ?_)
  · exact List.mk_mem_zipIdx_iff_getElem?.mp he
  obtain ⟨hkeysDone, hkeys, hvx⟩ := hx
  refine ends_bind.mpr ((loop_ends (fun _ s => start.Adds set start s ∧ v.store.Grows s)
    (fun _ _ => True) (fun _ _ => trivial) (fun known hknown _ tx h => ?_) ⟨hkeysDone.adds, hvx⟩).mono
    fun w y hy => ?_)
  · have hadded {address : String} {port : UInt16} (hin : (address, port) ∈ state.2) :=
      (hdone.added hin).grows h.2
    refine (knownHost_ends start set hknown hadded h.1).mono fun _ y hy => ?_
    exact ⟨⟨hy.1, h.2.trans hy.2⟩, trivial, hy.2⟩
  obtain ⟨⟨haddsy, -⟩, -, hxy⟩ := hy
  refine ends_bind.mpr ((loop_ends (fun _ s => start.Adds set start s)
    (fun input s => s.snippetExists input = true) (fun h hthere => Store.snippetExists_grows h hthere)
    (fun input _ _ tx h => snippet_ends start set h) haddsy).mono fun w z hz => ?_)
  obtain ⟨haddsz, hsnippets, hyz⟩ := hz
  have hvz := (hvx.trans hxy).trans hyz
  exact ends_pure.mpr ⟨haddsz, {
    groups := fun group hgroup => (hgroups group hgroup).grows (huv.trans hvz)
    hosts := fun host hhost => (hhosts host hhost).grows set hvz
    keys := fun e he => (hkeys e he).grows (hxy.trans hyz)
    snippets := hsnippets }⟩

end steps

section again

variable (draws : Draws) {set : ImportSet} {tx : Tx}

theorem rests_read {α : Type} {f : Store → α} : Rests (InTx.read f) tx (f tx.store) := rests_look

theorem ensureGroup_rests {workspace : Workspace} {name : String}
    (h : ∃ id, tx.store.Called workspace name id) :
    ∃ id, Rests (ensureGroup draws workspace name) tx id := by
  obtain ⟨id, hcalled⟩ := h
  cases hfound : tx.store.groupId workspace name with
  | none => exact absurd hcalled (Store.not_called_of_groupId hfound id)
  | some found =>
    refine ⟨found, rests_read.bind ?_⟩
    rw [hfound]
    exact rests_pure

theorem writeGroup_rests {input : GroupInput} (h : GroupSettled input tx.store) :
    Rests (writeGroup draws input) tx () := by
  obtain ⟨name, hname, hcalled⟩ := h
  refine (rests_lift hname).bind ?_
  cases name with
  | none => exact rests_pure
  | some name =>
    obtain ⟨id, hid⟩ := ensureGroup_rests draws (hcalled name rfl)
    exact hid.bind rests_pure

theorem host_rests {state : Writer × Added} {input : HostInput} (h : Settled set input tx.store)
    (haddress : trim input.address = input.address) :
    Rests (Writer.host draws set state input) tx (state.1.skip, state.2) := by
  refine rests_read.bind ?_
  rw [if_pos]
  · exact rests_pure
  · cases hpasses : isPlausible input (set.usernameOf input) with
    | false => rfl
    | true => exact Store.hostExists_of_has (h hpasses haddress)

theorem spareKey_rests {used : List ℕ} {w : Writer} {e : KeyInput × ℕ}
    (h : KeySettled used e tx.store) : Rests (spareKey draws used w e) tx w := by
  refine rests_read.bind ?_
  rw [if_pos]
  · exact rests_pure
  · rw [Bool.or_eq_true, List.contains_iff_mem]
    exact h

theorem knownHost_rests {w : Writer} {known : KnownHostInput} :
    Rests (knownHost draws [] w known) tx w := rests_pure

theorem snippet_rests {w : Writer} {input : SnippetInput}
    (h : tx.store.snippetExists input = true) : Rests (snippet draws w input) tx w := by
  have hwrite : Rests (writeSnippet draws input) tx false := by
    refine rests_read.bind ?_
    rw [if_pos h]
    exact rests_pure
  exact hwrite.bind rests_pure

/-- An import that has nothing to do goes through, and does nothing. -/
theorem write_rests (h : Finished set tx.store)
    (haddress : ∀ host ∈ set.hosts, trim host.address = host.address) :
    ∃ outcome, Rests (write draws set) tx outcome := by
  obtain ⟨_, hgroups, -⟩ := rests_foldlM (fun _ : Unit => True)
    (fun group hgroup _ _ => ⟨(), writeGroup_rests draws (h.groups group hgroup), trivial⟩)
    trivial
  obtain ⟨⟨w, added⟩, hhosts, hnone⟩ := rests_foldlM (fun b : Writer × Added => b.2 = [])
    (fun host hhost _ hb => ⟨_, host_rests draws (h.hosts host hhost) (haddress host hhost), hb⟩)
    (show (({}, []) : Writer × Added).2 = [] from rfl)
  subst hnone
  obtain ⟨wkeys, hkeys, -⟩ := rests_foldlM (fun _ : Writer => True)
    (fun e he _ _ => ⟨_, spareKey_rests draws (h.keys e he), trivial⟩) trivial
  obtain ⟨wknown, hknown, -⟩ := rests_foldlM (fun _ : Writer => True)
    (fun known (_ : known ∈ set.knownHosts) w _ => ⟨w, knownHost_rests draws, trivial⟩)
    trivial
  obtain ⟨wlast, hsnippets, -⟩ := rests_foldlM (fun _ : Writer => True)
    (fun input hinput _ _ => ⟨_, snippet_rests draws (h.snippets input hinput), trivial⟩)
    trivial
  exact ⟨_, hgroups.bind (hhosts.bind (hkeys.bind (hknown.bind (hsnippets.bind rests_pure))))⟩

end again

end Writer

namespace Store

/-- The store after an import; one that fails leaves it. -/
def imported (s : Store) (draws : Draws) (set : ImportSet) : Store :=
  (((importInto draws set).commit s).toOption.map (·.2)).getD s

end Store

/-- The form for a host as it is. -/
def HostRecord.asDraft (host : HostRecord) (password : PasswordChange) : HostDraft where
  id := some host.id
  name := host.name
  address := host.address
  port := host.port
  username := host.username
  auth := host.auth
  keyPath := host.keyPath
  groupPath := host.groupPath
  workspace := some host.workspace
  keyId := host.keyId
  password

/-- The form takes a host: its fields pass, and a key of the vault is there. -/
def HostDraft.Accepted (draft : HostDraft) (s : Store) : Prop :=
  ∃ valid, draft.validated = .ok valid ∧ ∀ key, valid.keyId = some key → (s.live? .key key).isSome

/-- The path of a key file is blank. -/
def HostRecord.BlankKey (host : HostRecord) : Prop := ∃ path, host.keyPath = some path ∧ trim path = ""

/-- A group's name is one the form takes. -/
theorem groupName_again {path : Option String} {name : String}
    (h : groupName path = .ok (some name)) : groupName (some name) = .ok (some name) := by
  unfold groupName at h
  cases hblank : blankToNone path with
  | none =>
    rw [hblank] at h
    cases h
  | some value =>
    rw [hblank] at h
    dsimp only at h
    obtain ⟨hcontrol, hlength, rfl⟩ : value.toList.any isControl = false ∧ ¬ 80 < value.length ∧
        value = name := by
      split at h
      · cases h
      next hcontrol =>
      split at h
      · cases h
      next hlength =>
      cases h
      exact ⟨Bool.eq_false_of_not_eq_true hcontrol, hlength, rfl⟩
    obtain ⟨hvalue, hempty⟩ := Option.filter_eq_some_iff.mp hblank
    obtain ⟨typed, -, rfl⟩ := Option.map_eq_some_iff.mp hvalue
    have hagain : blankToNone (some (trim typed)) = some (trim typed) := by
      rw [blankToNone, Option.map_some, trim_trim]
      exact Option.filter_eq_some_iff.mpr ⟨rfl, hempty⟩
    rw [groupName, hagain]
    dsimp only
    rw [if_neg (by rw [hcontrol]; simp), if_neg hlength]

/-- What the form asks of a host; a key that it takes is the one typed. -/
theorem validated_of_fields (draft : HostDraft) {group : Option String}
    (haddress : (trim draft.address).isEmpty = false)
    (hwhite : (trim draft.address).toList.any isWhite = false) (hport : draft.port ≠ 0)
    (huser : (trim draft.username).isEmpty = false)
    (huserWhite : (trim draft.username).toList.any isWhite = false)
    (hkey : draft.auth = .key → draft.keyId = none → (blankToNone draft.keyPath).isSome)
    (hpassword : draft.password ≠ .set "") (hgroup : groupName draft.groupPath = .ok group) :
    ∃ valid, draft.validated = .ok valid ∧ ∀ key, valid.keyId = some key → draft.keyId = some key := by
  unfold HostDraft.validated
  cases hauth : draft.auth with
  | password =>
    simp [haddress, hwhite, hport, huser, huserWhite, hpassword, hgroup, bind, Except.bind, pure, Except.pure]
  | key =>
    cases hid : draft.keyId with
    | some id =>
      simp [haddress, hwhite, hport, huser, huserWhite, hpassword, hgroup, bind, Except.bind, pure, Except.pure]
    | none =>
      obtain ⟨path, hpath⟩ := Option.isSome_iff_exists.mp (hkey hauth hid)
      simp [haddress, hwhite, hport, huser, huserWhite, hpath, hpassword, hgroup, bind, Except.bind, pure,
        Except.pure]

section imports

variable {draws : Draws} {set : ImportSet} {s : Store}

theorem namesUser_loginName {cols : HostCols} {username : String}
    (h : s.NamesUser cols.identityId username) : s.loginName cols = username := by
  refine Store.loginName_eq (h.imp_right ?_)
  rintro ⟨id, row, hid, hlive, hname, -⟩
  obtain ⟨hrow, hdeleted⟩ := Store.live?_eq_some.mp hlive
  exact ⟨id, row, hid, hrow, by rw [hdeleted, hname]; rfl⟩

theorem came_group {id : Uuid} {row : Row HostCols} {host : HostInput} (h : s.Came set row host) :
    ∃ group, groupName (s.hostFromRow (id, row)).groupPath = .ok group := by
  cases hpath : (s.hostFromRow (id, row)).groupPath with
  | none => exact ⟨none, rfl⟩
  | some name =>
    obtain ⟨-, gid, hgid, grow, hlive, rfl⟩ := Store.groupPath_eq.mp hpath
    obtain ⟨found, hfound, ⟨hnone, -⟩ | ⟨id', n, row', hid', rfl, hlive', rfl⟩⟩ := h.group
    · rw [hgid] at hnone
      cases hnone
    · rw [hgid] at hid'
      cases hid'
      rw [hlive] at hlive'
      cases hlive'
      exact ⟨_, groupName_again hfound⟩

theorem keyId_there {id key : Uuid} {row : Row HostCols} (h : (s.hostFromRow (id, row)).keyId = some key) :
    (s.live? .key key).isSome := by
  obtain ⟨found, hfound, rfl⟩ := Option.map_eq_some_iff.mp h
  obtain ⟨key, -, hkey⟩ := Option.bind_eq_some_iff.mp hfound
  obtain ⟨krow, hlive, rfl⟩ := Option.map_eq_some_iff.mp hkey
  rw [hlive]
  rfl

/-- Without a key of the vault, a host of the set that logs in with a key names its file. -/
theorem came_keyPath {id : Uuid} {row : Row HostCols} {host : HostInput} (h : s.Came set row host)
    (hauth : (s.hostFromRow (id, row)).auth = .key) (hnone : (s.hostFromRow (id, row)).keyId = none) :
    (s.hostFromRow (id, row)).keyPath.isSome := by
  obtain ⟨hnobody, -⟩ | ⟨login, lrow, hlogin, hlive, -, hkeyed⟩ := h.user
  · have hpassword : (s.hostFromRow (id, row)).auth = .password := by
      simp only [Store.hostFromRow, Store.loginOf, hnobody]
      rfl
    rw [hpassword] at hauth
    cases hauth
  · have hcols : s.loginOf row.cols = some lrow.cols := by
      rw [Store.loginOf, hlogin, Option.bind_some, hlive]
      rfl
    simp only [Store.hostFromRow, hcols, Option.map_some, Option.getD_some, Option.bind_some] at hauth hnone ⊢
    refine hkeyed.named hauth ?_
    cases hkey : lrow.cols.keyId with
    | none => rfl
    | some key =>
      obtain ⟨krow, hkrow⟩ := Option.isSome_iff_exists.mp (hkeyed.there key hkey)
      rw [hkey, Option.bind_some, hkrow] at hnone
      cases hnone

/-- A host of the set that names a user is one the form takes, unless its key file has no name. -/
theorem came_accepted {id : Uuid} {row : Row HostCols} {host : HostInput} (h : s.Came set row host)
    (huser : (s.hostFromRow (id, row)).username ≠ "") (hblank : ¬ (s.hostFromRow (id, row)).BlankKey)
    {password : PasswordChange} (hpassword : password ≠ .set "") :
    ((s.hostFromRow (id, row)).asDraft password).Accepted s := by
  have hname : (s.hostFromRow (id, row)).username = set.usernameOf host := namesUser_loginName h.user
  have hgroups : ∃ group, groupName (s.hostFromRow (id, row)).groupPath = .ok group := came_group h
  obtain ⟨group, hgroup⟩ := hgroups
  have hpasses := h.passes
  simp only [isPlausible, Bool.and_eq_true, Bool.not_eq_true', decide_eq_true_eq,
    List.any_eq_false, Bool.or_eq_true, not_or, Bool.not_eq_true] at hpasses
  obtain ⟨⟨⟨⟨⟨⟨⟨haddress, -⟩, hwhite⟩, huserWhite⟩, -⟩, -⟩, -⟩, hport⟩ := hpasses
  have htrim := Writer.trim_username h.passes
  have haddr : ((s.hostFromRow (id, row)).asDraft password).address = host.address := h.address
  have hdraft : ((s.hostFromRow (id, row)).asDraft password).username = set.usernameOf host := hname
  have hvalidated := validated_of_fields ((s.hostFromRow (id, row)).asDraft password) ?_ ?_ ?_ ?_ ?_ ?_
    hpassword hgroup
  · obtain ⟨valid, hvalid, hkeys⟩ := hvalidated
    exact ⟨valid, hvalid, fun key hkey => keyId_there (hkeys key hkey)⟩
  · rw [haddr, haddress]
  · rw [haddr, List.any_eq_false]
    exact fun c hc => by rw [(hwhite c hc).1]; simp
  · intro hzero
    have hrow : row.cols.port = 0 := hzero
    rw [← h.port, hrow] at hport
    exact absurd hport (by decide)
  · rw [hdraft, htrim, ← hname]
    exact Bool.eq_false_of_not_eq_true fun hempty => huser (String.isEmpty_iff.mp hempty)
  · rw [hdraft, htrim, List.any_eq_false]
    exact fun c hc => by rw [(huserWhite c hc).1]; simp
  · intro hauth hnone
    obtain ⟨path, hpath⟩ := Option.isSome_iff_exists.mp (came_keyPath h hauth hnone)
    have hnamed : ¬ trim path = "" := fun hempty => hblank ⟨path, hpath, hempty⟩
    have hdraftPath : ((s.hostFromRow (id, row)).asDraft password).keyPath = some path := hpath
    rw [hdraftPath, blankToNone, Option.map_some, Option.filter_some, if_pos (by simpa using hnamed)]
    rfl

/-- An import that went through added what is in the set, and leaves nothing of it to do. -/
theorem imported_ok {outcome : ImportOutcome} {t : Store} (hs : s.Referential)
    (hrun : (importInto draws set).commit s = .ok (outcome, t)) :
    s.Adds set s t ∧ Writer.Finished set t := by
  have hends : Ends (importInto draws set) { store := s, drawn := 0 } fun _ u =>
      s.Adds set s u.store ∧ Writer.Finished set u.store := by
    unfold importInto
    split
    · exact ends_throw
    · exact Writer.write_ends s set hs
  obtain ⟨tx, rfl, hend⟩ := of_commit hrun hends
  exact hend

theorem importInto_again {draws' : Draws} {outcome : ImportOutcome} {t : Store} (hs : s.Referential)
    (haddress : ∀ host ∈ set.hosts, trim host.address = host.address)
    (hrun : (importInto draws set).commit s = .ok (outcome, t)) :
    ∃ outcome', (importInto draws' set).commit t = .ok (outcome', t) := by
  obtain ⟨-, hfinished⟩ := imported_ok hs hrun
  have hsize : set.tooLarge = false := by
    by_contra hlarge
    rw [importInto, if_pos (Bool.eq_true_of_not_eq_false hlarge)] at hrun
    cases hrun
  have hdone : Writer.Finished set ({ store := t, drawn := 0 } : Tx).store := hfinished
  obtain ⟨outcome', hrests⟩ := Writer.write_rests draws' hdone haddress
  refine ⟨outcome', ?_⟩
  unfold Rests at hrests
  rw [importInto, if_neg (by rw [hsize]; simp), InTx.commit, hrests]
  rfl

/-- Importing a set adds each of its entries once: importing it again changes nothing, as long as no
address in it has white space around it. A failing import leaves the store. A host key is only
stored for a host that was added with it, and none takes the place of another. A host that is added
is one the form takes, with any password but an empty one, unless it names no user or its key file
has a blank path. -/
theorem import_adds_once (draws draws' : Draws) (set : ImportSet) (hs : s.Referential) :
    ((∀ host ∈ set.hosts, trim host.address = host.address) → ∀ outcome t,
      (importInto draws set).commit s = .ok (outcome, t) →
        ∃ outcome', (importInto draws' set).commit t = .ok (outcome', t)) ∧
    (∀ e, (importInto draws set).commit s = .error e → s.imported draws set = s) ∧
    (∀ id, ∀ row : Row KnownHostCols, (s.imported draws set).row? .knownHost id = some row →
      s.row? .knownHost id = some row ∨
        (s.keyKnown row.cols.address row.cols.port = false ∧
          s.Added (s.imported draws set) set row.cols.address row.cols.port)) ∧
    (∀ id, ∀ row : Row KnownHostCols, s.row? .knownHost id = some row →
      (s.imported draws set).row? .knownHost id = some row) ∧
    ∀ id record, s.row? .host id = none → (s.imported draws set).getHost id = some record →
      record.username = "" ∨ record.BlankKey ∨ ∀ password, password ≠ .set "" →
        (record.asDraft password).Accepted (s.imported draws set) := by
  refine ⟨fun haddress outcome t hrun => importInto_again hs haddress hrun, fun e hrun => ?_, ?_⟩
  · rw [Store.imported, hrun]
    rfl
  cases hrun : (importInto draws set).commit s with
  | error e =>
    have hsame : s.imported draws set = s := by
      rw [Store.imported, hrun]
      rfl
    rw [hsame]
    refine ⟨fun _ _ hrow => Or.inl hrow, fun _ _ hrow => hrow, fun id record hnone hget => ?_⟩
    obtain ⟨row, hlive, -⟩ := Store.getHost_eq_some.mp hget
    rw [(Store.live?_eq_some.mp hlive).1] at hnone
    cases hnone
  | ok r =>
    obtain ⟨outcome, t⟩ := r
    have hsame : s.imported draws set = t := by
      rw [Store.imported, hrun]
      rfl
    rw [hsame]
    obtain ⟨hadds, -⟩ := imported_ok hs hrun
    refine ⟨fun id row hrow => ?_, fun id row hrow => hadds.1 .knownHost id row hrow,
      fun id record hnone hget => ?_⟩
    · exact (hadds.2 .knownHost id row hrow).imp_right fun hwelcome => hwelcome.2
    · obtain ⟨row, hlive, rfl⟩ := Store.getHost_eq_some.mp hget
      rcases hadds.2 .host id row (Store.live?_eq_some.mp hlive).1 with hold | ⟨host, hcame⟩
      · rw [hold] at hnone
        cases hnone
      · by_cases hempty : (t.hostFromRow (id, row)).username = ""
        · exact Or.inl hempty
        · by_cases hblank : (t.hostFromRow (id, row)).BlankKey
          · exact Or.inr (Or.inl hblank)
          · exact Or.inr (Or.inr fun _ hpassword => came_accepted hcame hempty hblank hpassword)

section examples

/-- An import of one host with its login, or without one, as a list of addresses makes it. -/
def listedHost (address : String) (login : Option IdentityInput) : ImportSet where
  hosts := [{ name := "web", address, port := 22, groupPath := some "prod", identity := login.map fun _ => 0
              workspace := .private_, position := none }]
  identities := login.toList
  knownHosts := [{ address := "web.example", port := 22, algorithm := "ssh-ed25519"
                   publicKey := "AAAA", fingerprint := "SHA256:web" }]

/-- A login with a key file. -/
def fileLogin (path : String) : IdentityInput :=
  { label := none, username := some "root", password := none, key := none, keyPath := some path }

/-- A login with a password. -/
def typedLogin (password : String) : IdentityInput :=
  { label := none, username := some "root", password := some password, key := none, keyPath := none }

def laterDraws : Draws := { id := fun n => some (200 + BitVec.ofNat 128 n), now := fun _ => 40 }

/-- A host that came with an import, told by a test. -/
theorem exists_came {s t : Store} {p : HostRecord → Bool} (h : (t.listHosts.any fun record =>
      t.getHost record.id == some record && ((s.row? .host record.id).isNone && p record)) = true) :
    ∃ id record, s.row? .host id = none ∧ t.getHost id = some record ∧ p record = true := by
  obtain ⟨record, -, hall⟩ := List.any_eq_true.mp h
  obtain ⟨hget, hrest⟩ := Bool.and_eq_true_iff.mp hall
  obtain ⟨hnone, hp⟩ := Bool.and_eq_true_iff.mp hrest
  exact ⟨record.id, record, Option.isNone_iff_eq_none.mp hnone, eq_of_beq hget, hp⟩

theorem not_accepted {draft : HostDraft} {s : Store} (h : draft.validated.toOption.isNone = true) :
    ¬ draft.Accepted s := by
  rintro ⟨valid, hvalid, -⟩
  rw [hvalid] at h
  cases h

/-- White space around an address makes a second import add the host again, and the form refuses a host
that names no user, one whose key file has a blank path, and an empty password. -/
theorem listed_host_added_twice :
    (∃ outcome t, (importInto countingDraws (listedHost " web.example" none)).commit (.empty 1 7 none) =
      .ok (outcome, t) ∧ (t.imported laterDraws (listedHost " web.example" none)) ≠ t) ∧
    (∃ id record, (Store.empty 1 7 none).row? .host id = none ∧
      ((Store.empty 1 7 none).imported countingDraws (listedHost "web.example" none)).getHost id = some record ∧
      ¬ (record.asDraft .keep).Accepted
        ((Store.empty 1 7 none).imported countingDraws (listedHost "web.example" none))) ∧
    (∃ id record, (Store.empty 1 7 none).row? .host id = none ∧
      ((Store.empty 1 7 none).imported countingDraws
        (listedHost "web.example" (some (fileLogin " ")))).getHost id = some record ∧
      ¬ (record.asDraft .keep).Accepted
        ((Store.empty 1 7 none).imported countingDraws (listedHost "web.example" (some (fileLogin " "))))) ∧
    ∃ id record, (Store.empty 1 7 (some groupVault)).row? .host id = none ∧
      ((Store.empty 1 7 (some groupVault)).imported countingDraws
        (listedHost "web.example" (some (typedLogin "")))).getHost id = some record ∧
      record.hasPassword = true ∧ ¬ (record.asDraft (.set "")).Accepted
        ((Store.empty 1 7 (some groupVault)).imported countingDraws
          (listedHost "web.example" (some (typedLogin "")))) := by
  refine ⟨?_, ?_, ?_, ?_⟩
  · obtain ⟨outcome, t, hrun⟩ := InTx.exists_of_isSome
      (show ((importInto countingDraws (listedHost " web.example" none)).commit
        (.empty 1 7 none)).toOption.isSome = true by decide +kernel)
    refine ⟨outcome, t, hrun, fun hsame => ?_⟩
    have hone : ((importInto countingDraws (listedHost " web.example" none)).commit
        (.empty 1 7 none)).toOption.any (fun r => r.2.listHosts.length == 1 &&
          (r.2.imported laterDraws (listedHost " web.example" none)).listHosts.length == 2) = true := by
      decide +kernel
    rw [hrun] at hone
    have hcounts := Bool.and_eq_true_iff.mp hone
    rw [hsame, beq_iff_eq, beq_iff_eq] at hcounts
    exact absurd (hcounts.1.symm.trans hcounts.2) (by decide)
  · obtain ⟨id, record, hnone, hget, hrefused⟩ := exists_came (s := .empty 1 7 none)
      (t := (Store.empty 1 7 none).imported countingDraws (listedHost "web.example" none))
      (p := fun record => (record.asDraft .keep).validated.toOption.isNone) (by decide +kernel)
    exact ⟨id, record, hnone, hget, not_accepted hrefused⟩
  · obtain ⟨id, record, hnone, hget, hrefused⟩ := exists_came (s := .empty 1 7 none)
      (t := (Store.empty 1 7 none).imported countingDraws (listedHost "web.example" (some (fileLogin " "))))
      (p := fun record => (record.asDraft .keep).validated.toOption.isNone) (by decide +kernel)
    exact ⟨id, record, hnone, hget, not_accepted hrefused⟩
  · obtain ⟨id, record, hnone, hget, hboth⟩ := exists_came (s := .empty 1 7 (some groupVault))
      (t := (Store.empty 1 7 (some groupVault)).imported countingDraws
        (listedHost "web.example" (some (typedLogin ""))))
      (p := fun record => record.hasPassword && (record.asDraft (.set "")).validated.toOption.isNone)
      (by decide +kernel)
    obtain ⟨hpassword, hrefused⟩ := Bool.and_eq_true_iff.mp hboth
    exact ⟨id, record, hnone, hget, hpassword, not_accepted hrefused⟩

/-- A host with a key file is added once, and the form takes it. -/
theorem listed_host_added_once :
    (∃ outcome t, (importInto countingDraws (listedHost "web.example" (some (fileLogin "id_ed25519")))).commit
      (.empty 1 7 none) = .ok (outcome, t) ∧ ∃ outcome', (importInto laterDraws
        (listedHost "web.example" (some (fileLogin "id_ed25519")))).commit t = .ok (outcome', t)) ∧
    ∃ id record, (Store.empty 1 7 none).row? .host id = none ∧
      ((Store.empty 1 7 none).imported countingDraws
        (listedHost "web.example" (some (fileLogin "id_ed25519")))).getHost id = some record ∧
      record.auth = .key ∧ (record.asDraft .keep).Accepted ((Store.empty 1 7 none).imported countingDraws
        (listedHost "web.example" (some (fileLogin "id_ed25519")))) := by
  have hs : (Store.empty 1 7 none).Referential := Store.referential_of_references (by decide +kernel)
  obtain ⟨hagain, -, -, -, hform⟩ := import_adds_once countingDraws laterDraws
    (listedHost "web.example" (some (fileLogin "id_ed25519"))) hs
  constructor
  · obtain ⟨outcome, t, hrun⟩ := InTx.exists_of_isSome
      (show ((importInto countingDraws (listedHost "web.example" (some (fileLogin "id_ed25519")))).commit
        (.empty 1 7 none)).toOption.isSome = true by decide +kernel)
    refine ⟨outcome, t, hrun, hagain ?_ outcome t hrun⟩
    intro host hhost
    rw [List.mem_singleton.mp hhost]
    decide
  · obtain ⟨id, record, hnone, hget, htest⟩ := exists_came (s := .empty 1 7 none)
      (t := (Store.empty 1 7 none).imported countingDraws
        (listedHost "web.example" (some (fileLogin "id_ed25519"))))
      (p := fun record => record.auth == .key && (record.username == "root" &&
        record.keyPath == some "id_ed25519")) (by decide +kernel)
    simp only [Bool.and_eq_true, beq_iff_eq] at htest
    obtain ⟨hauth, huser, hpath⟩ := htest
    refine ⟨id, record, hnone, hget, hauth, ?_⟩
    rcases hform id record hnone hget with hempty | ⟨path, hblank, htrim⟩ | haccepted
    · rw [huser] at hempty
      exact absurd hempty (by decide)
    · rw [hpath] at hblank
      cases hblank
      exact absurd htrim (by decide +kernel)
    · exact haccepted .keep (by decide)

end examples

end imports

end UwuSsh

import UwuSsh.Store.BackupFacts

/-!
What reading a file into any store does: rows are only inserted, a tunnel is one its form takes, and none
opens a port of a host that was there before. The import itself writes no tunnel; those of the file are
saved one by one afterwards.
-/
namespace UwuSsh

open Text Fallible InTx

namespace Store

/-! ### An import leaves the tunnels -/

section brought

variable {draws : Draws} {s t u : Store}

/-- The tunnels of two stores are the same rows. -/
def SameTunnels (s t : Store) : Prop := ∀ id, t.row? .portForward id = s.row? .portForward id

/-- Whatever it does, the program leaves the tunnels of `s` as they are. -/
abbrev Leaves {α : Type} (s : Store) (prog : InTx α) : Prop :=
  Fallible.Keeps (fun tx => s.SameTunnels tx.store) prog

section leaves

variable {α : Type}

theorem leaves_read {f : Store → α} : Leaves s (InTx.read f) := keeps_look

theorem leaves_tick : Leaves s (InTx.tick draws) := fun _ h => ends_tick.mpr h

theorem leaves_newId : Leaves s (InTx.newId draws) := fun _ h => ends_newId.mpr fun _ _ => h

theorem leaves_now : Leaves s (InTx.now draws) := fun _ h => ends_now.mpr h

theorem SameTunnels.putRow {kind : EntityKind} {id : Uuid} {row : Row (Cols kind)} (h : s.SameTunnels t)
    (hkind : kind ≠ .portForward) : s.SameTunnels (t.putRow kind id row) := by
  intro id'
  have hne : ¬ (EntityKind.portForward = kind ∧ id' = id) := fun hboth => hkind hboth.1.symm
  exact (t.row?_putRow_of_pair_ne kind id row hne).trans (h id')

theorem leaves_insert {kind : EntityKind} {id : Uuid} {cols : Cols kind} {clock : Hlc} (hkind : kind ≠ .portForward) :
    Leaves s (InTx.insert kind id cols clock) :=
  fun _ h => ends_insert.mpr fun _ => h.putRow hkind

theorem sealText_leaves {vault : UnlockedVault} {text : String} : Leaves s (sealText draws vault text) := by
  intro tx h
  refine ends_sealSecret.mpr fun new u hseal => ?_
  obtain ⟨-, v, rfl, hinsert⟩ := Tx.sealSecret_eq hseal
  obtain ⟨-, rfl⟩ := Tx.insert_ok hinsert
  exact SameTunnels.putRow h (by decide)

theorem openVault_leaves : Leaves s openVault := by
  refine leaves_read.bind fun vault => ?_
  cases vault with
  | none => exact keeps_throw
  | some vault => exact keeps_pure

theorem ensureGroup_leaves {workspace : Workspace} {name : String} : Leaves s (ensureGroup draws workspace name) := by
  refine leaves_read.bind fun found => ?_
  cases found with
  | some id => exact keeps_pure
  | none =>
    refine leaves_read.bind fun position => keeps_lift.bind fun _ => leaves_tick.bind fun _ => ?_
    exact leaves_newId.bind fun id => (leaves_insert (by decide)).bind fun _ => keeps_pure

end leaves

end brought

end Store

namespace Writer

open Store

variable {draws : Draws} {set : ImportSet} {s : Store} {w : Writer}

theorem writeSecret_leaves {text : String} : Leaves s (writeSecret draws text) :=
  openVault_leaves.bind fun _ => sealText_leaves

theorem writeKey_leaves {key : KeyInput} : Leaves s (writeKey draws key) := by
  refine writeSecret_leaves.bind fun _ => (keeps_mapM fun _ => writeSecret_leaves).bind fun _ => ?_
  refine leaves_newId.bind fun id => leaves_tick.bind fun _ => ?_
  exact (leaves_insert (by decide)).bind fun _ => keeps_pure

theorem writeIdentity_leaves {identity : IdentityInput} {keyId : Option Uuid} :
    Leaves s (writeIdentity draws identity keyId) := by
  refine (keeps_mapM fun _ => writeSecret_leaves).bind fun _ => leaves_newId.bind fun id => ?_
  exact leaves_tick.bind fun _ => (leaves_insert (by decide)).bind fun _ => keeps_pure

theorem key_leaves {index : ℕ} {input : KeyInput} : Leaves s (key draws index input w) := by
  unfold key
  split
  · exact keeps_pure
  · exact writeKey_leaves.bind fun _ => keeps_pure

theorem login_leaves {input : HostInput} : Leaves s (login draws set input w) := by
  have hkey : ∀ login, Leaves s (identityKey draws set login w) := by
    intro login
    unfold identityKey
    split
    · exact keeps_pure
    · exact key_leaves.bind fun _ => keeps_pure
  unfold login
  split
  · exact keeps_pure
  · next index identity _ =>
    have hidentity : Leaves s (Writer.identity draws set index identity w) := by
      unfold Writer.identity
      split
      · exact keeps_pure
      · exact (hkey identity).bind fun _ => writeIdentity_leaves.bind fun _ => keeps_pure
    exact hidentity.bind fun _ => keeps_pure

theorem writeHost_leaves {input : HostInput} {identityId : Option Uuid} :
    Leaves s (writeHost draws input identityId) := by
  have hposition : ∀ group, Leaves s (positionOf input group) := by
    intro group
    unfold positionOf
    split
    · exact keeps_pure
    · exact leaves_read.bind fun _ => keeps_lift
  refine keeps_lift.bind fun name => (keeps_mapM fun _ => ensureGroup_leaves).bind fun group => ?_
  refine (hposition group).bind fun _ => leaves_tick.bind fun _ => leaves_newId.bind fun id => ?_
  exact leaves_insert (by decide)

theorem writeGroup_leaves {input : GroupInput} : Leaves s (writeGroup draws input) := by
  refine keeps_lift.bind fun name => ?_
  cases name with
  | none => exact keeps_pure
  | some name => exact ensureGroup_leaves.bind fun _ => keeps_pure

theorem host_leaves {state : Writer × Added} {input : HostInput} : Leaves s (host draws set state input) := by
  refine leaves_read.bind fun exists_ => ?_
  split
  · exact keeps_pure
  · exact login_leaves.bind fun _ => writeHost_leaves.bind fun _ => keeps_pure

theorem spareKey_leaves {used : List ℕ} {e : KeyInput × ℕ} : Leaves s (spareKey draws used w e) := by
  refine leaves_read.bind fun found => ?_
  split
  · exact keeps_pure
  · exact key_leaves.bind fun _ => keeps_pure

theorem knownHost_leaves {added : Added} {input : KnownHostInput} : Leaves s (knownHost draws added w input) := by
  have hwrite : Leaves s (writeKnownHost draws input) := by
    refine leaves_read.bind fun found => ?_
    split
    · exact keeps_pure
    · refine leaves_tick.bind fun _ => leaves_newId.bind fun id => leaves_now.bind fun _ => ?_
      exact (leaves_insert (by decide)).bind fun _ => keeps_pure
  unfold knownHost
  split
  · exact keeps_pure
  · exact hwrite.bind fun _ => keeps_pure

theorem snippet_leaves {input : SnippetInput} : Leaves s (snippet draws w input) := by
  have hwrite : Leaves s (writeSnippet draws input) := by
    refine leaves_read.bind fun found => ?_
    split
    · exact keeps_pure
    · refine leaves_tick.bind fun _ => leaves_newId.bind fun id => ?_
      exact (leaves_insert (by decide)).bind fun _ => keeps_pure
  exact hwrite.bind fun _ => keeps_pure

/-- An import writes no tunnel. -/
theorem importInto_leaves : Leaves s (importInto draws set) := by
  unfold importInto
  split
  · exact keeps_throw
  refine (keeps_foldlM fun _ _ => writeGroup_leaves).bind fun _ => ?_
  refine (keeps_foldlM fun _ _ => host_leaves).bind fun state => ?_
  refine (keeps_foldlM fun _ _ => spareKey_leaves).bind fun _ => ?_
  refine (keeps_foldlM fun _ _ => knownHost_leaves).bind fun _ => ?_
  exact (keeps_foldlM fun _ _ => snippet_leaves).bind fun _ => keeps_pure

end Writer

/-! ### Its tunnels -/

/-- The columns of a new tunnel. -/
def TunnelDraft.cols (draft : TunnelDraft) : PortForwardCols where
  hostId := draft.hostId
  name := draft.name
  kind := draft.kind
  bindAddress := draft.bindAddress.getD ""
  bindPort := draft.bindPort
  targetHost := draft.targetHost
  targetPort := draft.targetPort
  autostart := draft.autostart
  syncExtra := []

theorem tunnelAddress_typed {value field : String} {address : Option String}
    (h : tunnelAddress (some value) field = .ok address) :
    address = (some (trim value)).filter fun text => !text.isEmpty := by
  unfold tunnelAddress at h
  have hblank : blankToNone (some value) = (some (trim value)).filter fun text => !text.isEmpty := rfl
  rw [hblank] at h
  cases htext : (some (trim value)).filter fun text => !text.isEmpty with
  | none =>
    rw [htext] at h
    cases h
    rfl
  | some text =>
    rw [htext] at h
    dsimp only at h
    split at h
    · cases h
    split at h
    · cases h
    cases h
    rfl

/-- What a form that went through makes of what was typed. -/
structure TunnelDraft.Typed (draft valid : TunnelDraft) : Prop where
  id : valid.id = draft.id
  hostId : valid.hostId = draft.hostId
  kind : valid.kind = draft.kind
  bindAddress : ∃ address, tunnelAddress draft.bindAddress "bindAddress" = .ok address ∧
    valid.bindAddress = some (address.getD defaultBindAddress)
  bindPort : valid.bindPort = draft.bindPort
  targetHost : tunnelAddress (some draft.targetHost) "targetHost" = .ok (some valid.targetHost)
  targetPort : valid.targetPort = draft.targetPort
  autostart : valid.autostart = draft.autostart

theorem TunnelDraft.typed {draft valid : TunnelDraft} (h : draft.validated = .ok valid) : draft.Typed valid := by
  unfold TunnelDraft.validated at h
  split at h
  · cases h
  obtain ⟨bindAddress, hbind, h⟩ := bind_ok h
  split at h
  · cases h
  obtain ⟨target, htarget, h⟩ := bind_ok h
  cases target with
  | none => cases h
  | some targetHost =>
    dsimp only at h
    split at h
    · cases h
    split at h
    · cases h
    split at h
    · cases h
    cases h
    exact ⟨rfl, rfl, rfl, ⟨bindAddress, hbind, rfl⟩, rfl, htarget, rfl, rfl⟩

namespace Store

section brought

variable {draws : Draws} {s t u : Store}

/-- A tunnel of the file, as its form takes it, on a host of the store. -/
structure Brought (tunnels : List BackupTunnel) (before : List Uuid) (s : Store) (row : Row PortForwardCols) : Prop where
  live : row.deleted = false
  host : (s.live? .host row.cols.hostId).isSome = true
  tunnel : ∃ tunnel ∈ tunnels, ∃ valid, (tunnel.draft row.cols.hostId before).validated = .ok valid ∧ row.cols = valid.cols

/-- Rows are only inserted, and those are tunnels of the file. -/
structure Brings (tunnels : List BackupTunnel) (before : List Uuid) (s t : Store) : Prop where
  others : ∀ kind, kind ≠ .portForward → ∀ id, t.row? kind id = s.row? kind id
  stays : ∀ id row, s.row? .portForward id = some row → t.row? .portForward id = some row
  brought : ∀ id (row : Row PortForwardCols), t.row? .portForward id = some row →
    s.row? .portForward id = some row ∨ Brought tunnels before s row

variable {tunnels : List BackupTunnel} {before : List Uuid}

theorem Brings.refl (s : Store) : Brings tunnels before s s :=
  ⟨fun _ _ _ => rfl, fun _ _ h => h, fun _ _ h => .inl h⟩

theorem Brings.live (h : Brings tunnels before s t) (id : Uuid) : t.live? .host id = s.live? .host id := by
  unfold live?
  rw [h.others .host (by decide) id]

theorem Brings.trans (h : Brings tunnels before s t) (h' : Brings tunnels before t u) : Brings tunnels before s u where
  others kind hkind id := (h'.others kind hkind id).trans (h.others kind hkind id)
  stays id row hrow := h'.stays id row (h.stays id row hrow)
  brought id row hrow := by
    rcases h'.brought id row hrow with hold | hnew
    · exact h.brought id row hold
    · refine .inr ⟨hnew.live, ?_, hnew.tunnel⟩
      rw [← h.live]
      exact hnew.host

theorem Brings.grows (h : Brings tunnels before s t) : s.Grows t := by
  intro kind id row hrow
  by_cases hkind : kind = .portForward
  · subst hkind
    exact h.stays id row hrow
  · exact (h.others kind hkind id).trans hrow

/-- A store after a tunnel of the file was saved: one more row, with the columns its form makes. -/
structure Saves (tunnel : BackupTunnel) (host : Uuid) (before : List Uuid) (s t : Store) (id : Uuid)
    (row : Row PortForwardCols) : Prop where
  others : ∀ kind id', ¬ (kind = .portForward ∧ id' = id) → t.row? kind id' = s.row? kind id'
  fresh : s.row? .portForward id = none
  new : t.row? .portForward id = some row
  live : row.deleted = false
  onHost : (s.live? .host host).isSome = true
  valid : ∃ valid, (tunnel.draft host before).validated = .ok valid ∧ row.cols = valid.cols

theorem Saves.hostId {tunnel : BackupTunnel} {host id : Uuid} {row : Row PortForwardCols}
    (h : Saves tunnel host before s t id row) : row.cols.hostId = host := by
  obtain ⟨valid, hvalid, hcols⟩ := h.valid
  rw [hcols]
  exact (TunnelDraft.typed hvalid).hostId

theorem Saves.liveHost {tunnel : BackupTunnel} {host id : Uuid} {row : Row PortForwardCols}
    (h : Saves tunnel host before s t id row) (other : Uuid) : t.live? .host other = s.live? .host other := by
  unfold live?
  rw [h.others .host other fun hboth => absurd hboth.1 (by decide)]

theorem saves_putRow {tunnel : BackupTunnel} {host id : Uuid} {clock : Hlc} {valid : TunnelDraft} {ticked : Store}
    (hrows : ∀ kind id, ticked.row? kind id = s.row? kind id) (hnone : ticked.row? .portForward id = none)
    (hlive : (s.live? .host host).isSome = true) (hvalid : (tunnel.draft host before).validated = .ok valid) :
    Saves tunnel host before s (ticked.putRow .portForward id (ticked.newRow clock valid.cols)) id
      (ticked.newRow clock valid.cols) where
  others kind id' hne := (ticked.row?_putRow_of_pair_ne _ _ _ hne).trans (hrows kind id')
  fresh := (hrows .portForward id).symm.trans hnone
  new := row?_putRow_self ..
  live := rfl
  onHost := hlive
  valid := ⟨valid, hvalid, rfl⟩

theorem saves_of_commit {tunnel : BackupTunnel} {host : Uuid} {record : TunnelRecord}
    (hrun : (saveTunnel draws (tunnel.draft host before)).commit s = .ok (record, t)) :
    ∃ id row, Saves tunnel host before s t id row := by
  have hends : Ends (saveTunnel draws (tunnel.draft host before)) { store := s, drawn := 0 } fun _ u =>
      ∃ id row, Saves tunnel host before s u.store id row := by
    unfold saveTunnel
    refine ends_bind.mpr (ends_lift.mpr fun valid hvalid => ends_bind.mpr (ends_read.mpr ?_))
    have htyped := TunnelDraft.typed hvalid
    have hnew : valid.id = none := htyped.id
    have hhost : valid.hostId = host := htyped.hostId
    split
    · exact ends_throw
    next hlive =>
    have hthere : (s.live? .host host).isSome = true := by
      refine Option.isSome_iff_ne_none.mpr fun hno => hlive ?_
      rw [hhost]
      exact Option.isNone_iff_eq_none.mpr hno
    refine ends_bind.mpr (ends_tick.mpr (ends_bind.mpr ?_))
    unfold writeTunnel
    rw [hnew]
    refine ends_bind.mpr (ends_newId.mpr fun id _ => ends_bind.mpr (ends_insert.mpr fun hnone => ends_pure.mpr ?_))
    refine ends_bind.mpr (ends_read.mpr ?_)
    split
    · exact ends_throw
    · exact ends_pure.mpr ⟨id, _, saves_putRow (fun _ _ => rfl) hnone hthere hvalid⟩
  obtain ⟨tx, rfl, hsaves⟩ := of_commit hrun hends
  exact hsaves

theorem Saves.brings {tunnel : BackupTunnel} {host id : Uuid} {row : Row PortForwardCols}
    (h : Saves tunnel host before s t id row) (hmem : tunnel ∈ tunnels) : Brings tunnels before s t where
  others kind hkind id' := h.others kind id' fun hboth => hkind hboth.1
  stays id' old hold := by
    have hne : id' ≠ id := by
      rintro rfl
      rw [h.fresh] at hold
      cases hold
    exact (h.others .portForward id' fun hboth => hne hboth.2).trans hold
  brought id' found hfound := by
    by_cases hsame : id' = id
    · subst hsame
      obtain rfl := Option.some.inj (h.new.symm.trans hfound)
      refine .inr ⟨h.live, ?_, tunnel, hmem, ?_⟩
      · rw [h.hostId]
        exact h.onHost
      · rw [h.hostId]
        exact h.valid
    · exact .inl ((h.others .portForward id' fun hboth => hsame hboth.2).symm.trans hfound)

theorem importTunnels_brings {draws : ℕ → Draws} {hostOf : BackupTunnel → Option Uuid} {rest : List BackupTunnel}
    (hrest : rest ⊆ tunnels) (existing : List (Uuid × String × String × UInt16 × String × UInt16)) (added : ℕ) :
    Brings tunnels before s (importTunnels draws hostOf before rest existing added s).1 := by
  induction rest generalizing existing added s with
  | nil => exact .refl s
  | cons tunnel rest ih =>
    obtain ⟨hmem, hlater⟩ := List.cons_subset.mp hrest
    unfold importTunnels
    split
    · exact ih hlater existing added
    · next host _ =>
      split
      · exact ih hlater existing added
      · split
        · next record t hsave =>
          obtain ⟨id, row, hsaves⟩ := saves_of_commit hsave
          exact (hsaves.brings hmem).trans (ih hlater _ _)
        · exact ih hlater existing added
        · exact .refl s

/-! Which tunnels are taken for one. -/

/-- A tunnel that is listed: it is there, and so is its host. -/
def ListsTunnel (s : Store) (id : Uuid) (row : Row PortForwardCols) : Prop :=
  s.live? .portForward id = some row ∧ (s.live? .host row.cols.hostId).isSome = true

theorem ListsTunnel.mem_listTunnels {id : Uuid} {row : Row PortForwardCols} (h : s.ListsTunnel id row) :
    tunnelFromRow (id, row) ∈ s.listTunnels :=
  (List.mem_insertionSort _).mpr
    (List.mem_map.mpr ⟨(id, row), List.mem_filter.mpr ⟨mem_liveRows.mpr h.1, h.2⟩, rfl⟩)

/-- Two tunnels that are taken for one are one, or were both at the start. -/
def Distinct (start s : Store) : Prop :=
  ∀ id id' row row', s.ListsTunnel id row → s.ListsTunnel id' row' →
    (tunnelFromRow (id, row)).match_ = (tunnelFromRow (id', row')).match_ →
      id = id' ∨ (start.row? .portForward id = some row ∧ start.row? .portForward id' = some row')

/-- What is known of the tunnels there are covers them. -/
def Known (existing : List (Uuid × String × String × UInt16 × String × UInt16)) (s : Store) : Prop :=
  ∀ id row, s.ListsTunnel id row → (tunnelFromRow (id, row)).match_ ∈ existing

/-- A tunnel that names an address to listen on is known again once it is saved. -/
theorem Saves.same_match {tunnel : BackupTunnel} {host id : Uuid} {row : Row PortForwardCols}
    (h : Saves tunnel host before s t id row) (haddress : (trim tunnel.bindAddress).isEmpty = false) :
    (tunnelFromRow (id, row)).match_ = tunnel.match_ host := by
  obtain ⟨valid, hvalid, hcols⟩ := h.valid
  have htyped := TunnelDraft.typed hvalid
  obtain ⟨address, hbind, hbound⟩ := htyped.bindAddress
  have haddress' : address = some (trim tunnel.bindAddress) := by
    rw [tunnelAddress_typed hbind]
    exact Option.filter_eq_some_iff.mpr ⟨rfl, by rw [haddress]; rfl⟩
  have htarget : valid.targetHost = trim tunnel.targetHost :=
    Option.some.inj (Option.filter_eq_some_iff.mp (tunnelAddress_typed htyped.targetHost).symm).1.symm
  have hbindAddress : valid.bindAddress.getD "" = trim tunnel.bindAddress := by
    rw [hbound, haddress']
    rfl
  show tunnelMatch row.cols.hostId row.cols.kind row.cols.bindAddress row.cols.bindPort row.cols.targetHost
    row.cols.targetPort = tunnelMatch host tunnel.kind tunnel.bindAddress tunnel.bindPort tunnel.targetHost
      tunnel.targetPort
  rw [hcols]
  show tunnelMatch valid.hostId valid.kind (valid.bindAddress.getD "") valid.bindPort valid.targetHost
    valid.targetPort = _
  rw [htyped.hostId, htyped.kind, hbindAddress, htyped.bindPort, htarget, htyped.targetPort]
  show tunnelMatch host tunnel.kind (trim tunnel.bindAddress) tunnel.bindPort (trim tunnel.targetHost)
    tunnel.targetPort = _
  unfold tunnelMatch
  rw [trim_trim, trim_trim]

/-- What is listed after a tunnel was saved is that one, or was listed before. -/
theorem Saves.lists {tunnel : BackupTunnel} {host id id' : Uuid} {row row' : Row PortForwardCols}
    (h : Saves tunnel host before s t id row) (hlisted : t.ListsTunnel id' row') :
    (id' = id ∧ row' = row) ∨ (id' ≠ id ∧ s.ListsTunnel id' row') := by
  obtain ⟨hlive, hhost⟩ := hlisted
  rw [h.liveHost] at hhost
  obtain ⟨hrow, hdeleted⟩ := live?_eq_some.mp hlive
  by_cases hsame : id' = id
  · subst hsame
    exact .inl ⟨rfl, (Option.some.inj (h.new.symm.trans hrow)).symm⟩
  · have hold := (h.others .portForward id' fun hboth => hsame hboth.2).symm.trans hrow
    exact .inr ⟨hsame, live?_eq_some.mpr ⟨hold, hdeleted⟩, hhost⟩

variable {start : Store} {existing : List (Uuid × String × String × UInt16 × String × UInt16)}

theorem Saves.known {tunnel : BackupTunnel} {host id : Uuid} {row : Row PortForwardCols}
    (h : Saves tunnel host before s t id row) (haddress : (trim tunnel.bindAddress).isEmpty = false)
    (hknown : Known existing s) : Known (tunnel.match_ host :: existing) t := by
  intro id' row' hlisted
  rcases h.lists hlisted with ⟨rfl, rfl⟩ | ⟨-, hold⟩
  · rw [h.same_match haddress]
    exact List.mem_cons_self
  · exact List.mem_cons_of_mem _ (hknown id' row' hold)

theorem Saves.distinct {tunnel : BackupTunnel} {host id : Uuid} {row : Row PortForwardCols}
    (h : Saves tunnel host before s t id row) (haddress : (trim tunnel.bindAddress).isEmpty = false)
    (hknown : Known existing s) (hfresh : tunnel.match_ host ∉ existing) (hdistinct : start.Distinct s) :
    start.Distinct t := by
  have hother : ∀ {id' row'}, s.ListsTunnel id' row' → (tunnelFromRow (id', row')).match_ ≠ (tunnelFromRow (id, row)).match_ := by
    intro id' row' hlisted hsame
    apply hfresh
    rw [← h.same_match haddress, ← hsame]
    exact hknown id' row' hlisted
  intro id₁ id₂ row₁ row₂ hfirst hsecond hsame
  rcases h.lists hfirst with ⟨rfl, rfl⟩ | ⟨-, hold₁⟩
  · rcases h.lists hsecond with ⟨rfl, -⟩ | ⟨-, hold₂⟩
    · exact .inl rfl
    · exact absurd hsame.symm (hother hold₂)
  · rcases h.lists hsecond with ⟨rfl, rfl⟩ | ⟨-, hold₂⟩
    · exact absurd hsame (hother hold₁)
    · exact hdistinct id₁ id₂ row₁ row₂ hold₁ hold₂ hsame

theorem distinct_of_sameTunnels (h : s.SameTunnels t) : s.Distinct t := by
  intro id id' row row' hfirst hsecond _
  obtain ⟨hrow, -⟩ := live?_eq_some.mp hfirst.1
  obtain ⟨hrow', -⟩ := live?_eq_some.mp hsecond.1
  exact .inr ⟨(h id).symm.trans hrow, (h id').symm.trans hrow'⟩

theorem importTunnels_distinct {draws : ℕ → Draws} {hostOf : BackupTunnel → Option Uuid} {rest : List BackupTunnel}
    (haddress : ∀ tunnel ∈ rest, (trim tunnel.bindAddress).isEmpty = false) (hknown : Known existing s)
    (hdistinct : start.Distinct s) (added : ℕ) :
    start.Distinct (importTunnels draws hostOf before rest existing added s).1 := by
  induction rest generalizing existing added s with
  | nil => exact hdistinct
  | cons tunnel rest ih =>
    have hrest : ∀ other ∈ rest, (trim other.bindAddress).isEmpty = false :=
      fun other hother => haddress other (List.mem_cons_of_mem _ hother)
    have hfirst := haddress tunnel List.mem_cons_self
    unfold importTunnels
    split
    · exact ih hrest hknown hdistinct added
    · next host _ =>
      split
      · exact ih hrest hknown hdistinct added
      · next hcontains =>
        have hfresh : tunnel.match_ host ∉ existing := fun hmem => hcontains (List.contains_iff_mem.mpr hmem)
        split
        · next record t hsave =>
          obtain ⟨id, row, hsaves⟩ := saves_of_commit hsave
          have hnow := hsaves.distinct hfirst hknown hfresh hdistinct
          exact ih hrest (hsaves.known hfirst hknown) hnow _
        · exact ih hrest hknown hdistinct added
        · exact hdistinct

end brought

section opened

variable {s : Store}

theorem sameTunnels_of_import {draws : Draws} {set : ImportSet} {outcome : ImportOutcome} {t : Store}
    (hrun : (importInto draws set).commit s = .ok (outcome, t)) : s.SameTunnels t := by
  obtain ⟨tx, rfl, hleaves⟩ := of_commit hrun (Writer.importInto_leaves { store := s, drawn := 0 } fun _ => rfl)
  exact hleaves

theorem mem_ids_of_live {id : Uuid} {row : Row HostCols} (h : s.live? .host id = some row) :
    id ∈ s.listHosts.map (·.id) := by
  have hlisted : s.hostFromRow (id, row) ∈ s.listHosts :=
    (List.mem_insertionSort _).mpr (List.mem_map.mpr ⟨(id, row), mem_liveRows.mpr h, rfl⟩)
  exact List.mem_map.mpr ⟨_, hlisted, rfl⟩

/-- A tunnel that came with a file: its form takes it, its host is there, and it opens by itself only if the
file has it so and its host came with it. -/
structure Opened (backup : Backup) (s t : Store) (row : Row PortForwardCols) : Prop where
  live : row.deleted = false
  host : (t.live? .host row.cols.hostId).isSome = true
  tunnel : ∃ tunnel ∈ backup.tunnels, ∃ valid,
    (tunnel.draft row.cols.hostId (s.listHosts.map (·.id))).validated = .ok valid ∧ row.cols = valid.cols ∧
      (row.cols.autostart = true → tunnel.autostart = true ∧ s.live? .host row.cols.hostId = none)

/-- Reading a file in only inserts rows, and a tunnel of it opens no port of a host that was there before,
whether or not it is read to its end. -/
theorem import_opens_nothing (hs : s.Referential) (draws : Draws) (tunnelDraws : ℕ → Draws) (backup : Backup) :
    s.Grows (s.importBackup draws tunnelDraws backup).1 ∧
      ∀ id, ∀ row : Row PortForwardCols, (s.importBackup draws tunnelDraws backup).1.row? .portForward id = some row →
        s.row? .portForward id = some row ∨ Opened backup s (s.importBackup draws tunnelDraws backup).1 row := by
  unfold importBackup
  cases hrun : (importInto draws backup.importSet).commit s with
  | error e => exact ⟨.refl s, fun _ _ hrow => .inl hrow⟩
  | ok r =>
    obtain ⟨outcome, t⟩ := r
    have hgrows : s.Grows t := (imported_ok hs hrun).1.1
    have hsame : s.SameTunnels t := sameTunnels_of_import hrun
    have hbrings : Brings backup.tunnels (s.listHosts.map (·.id)) t
        (t.importTunnelsOf tunnelDraws backup (s.listHosts.map (·.id))).1 :=
      importTunnels_brings (List.Subset.refl _) _ _
    dsimp only
    refine ⟨hgrows.trans hbrings.grows, fun id row hrow => ?_⟩
    rcases hbrings.brought id row hrow with hold | hnew
    · exact .inl ((hsame id).symm.trans hold)
    obtain ⟨tunnel, hmem, valid, hvalid, hcols⟩ := hnew.tunnel
    refine .inr ⟨hnew.live, ?_, tunnel, hmem, valid, hvalid, hcols, fun hauto => ?_⟩
    · rw [hbrings.live]
      exact hnew.host
    have hsaved : row.cols.autostart = valid.autostart := congrArg PortForwardCols.autostart hcols
    have htyped := (TunnelDraft.typed hvalid).autostart
    have hdraft : (tunnel.autostart && !(s.listHosts.map (·.id)).contains row.cols.hostId) = true :=
      htyped.symm.trans (hsaved.symm.trans hauto)
    obtain ⟨hfile, hbefore⟩ := Bool.and_eq_true_iff.mp hdraft
    refine ⟨hfile, ?_⟩
    cases hlive : s.live? .host row.cols.hostId with
    | none => rfl
    | some host =>
      have hcontains := List.contains_iff_mem.mpr (mem_ids_of_live hlive)
      rw [hcontains] at hbefore
      cases hbefore

/-- After a file was read in, two tunnels listed on one host that forward the same are one, or were both there
before. -/
theorem import_tunnels_once (s : Store) (draws : Draws) (tunnelDraws : ℕ → Draws) (backup : Backup)
    (haddress : ∀ tunnel ∈ backup.tunnels, (trim tunnel.bindAddress).isEmpty = false) :
    s.Distinct (s.importBackup draws tunnelDraws backup).1 := by
  unfold importBackup
  cases hrun : (importInto draws backup.importSet).commit s with
  | error e => exact distinct_of_sameTunnels fun _ => rfl
  | ok r =>
    obtain ⟨outcome, t⟩ := r
    have hsame : s.SameTunnels t := sameTunnels_of_import hrun
    have hknown : Known (t.listTunnels.map TunnelRecord.match_) t :=
      fun id row hlisted => List.mem_map.mpr ⟨_, hlisted.mem_listTunnels, rfl⟩
    exact importTunnels_distinct haddress hknown (distinct_of_sameTunnels hsame) 0

end opened

section untunnelled

/-- The store of the file before it had a tunnel. -/
def untunnelled : Store := (LocalEdit.saveHost webDraft).on countingDraws sharedLogin

/-- Back in such a store the tunnel waits to be opened. -/
theorem import_opens_nothing_untunnelled : ∃ backup, exportedFile tunnelled false = .ok backup ∧
    backup.tunnels.map (·.autostart) = [true] ∧
    (untunnelled.importBackup laterDraws (fun _ => laterDraws) backup).1.listTunnels.map (·.autostart) = [false] ∧
    ∀ id, ∀ row : Row PortForwardCols,
      (untunnelled.importBackup laterDraws (fun _ => laterDraws) backup).1.row? .portForward id = some row →
        untunnelled.row? .portForward id = some row ∨
          Opened backup untunnelled (untunnelled.importBackup laterDraws (fun _ => laterDraws) backup).1 row := by
  have hexport : (exportedFile tunnelled false).toOption.any (fun backup =>
      backup.tunnels.map (·.autostart) == [true] &&
        (untunnelled.importBackup laterDraws (fun _ => laterDraws) backup).1.listTunnels.map (·.autostart) == [false]) =
          true := by
    decide +kernel
  obtain ⟨backup, hsome, hfacts⟩ := (Option.any_eq_true _ _).mp hexport
  obtain ⟨hauto, hwaits⟩ := Bool.and_eq_true_iff.mp hfacts
  have hs : untunnelled.Referential := Store.referential_of_references (by decide +kernel)
  exact ⟨backup, ok_of_toOption hsome, eq_of_beq hauto, eq_of_beq hwaits,
    (import_opens_nothing hs laterDraws (fun _ => laterDraws) backup).2⟩

/-- Read into its own store again, the file adds no tunnel. -/
theorem import_tunnels_once_tunnelled : ∃ backup, exportedFile tunnelled false = .ok backup ∧
    backup.tunnels.length = 1 ∧
    (tunnelled.importBackup laterDraws (fun _ => laterDraws) backup).1.listTunnels.length = 1 ∧
    tunnelled.Distinct (tunnelled.importBackup laterDraws (fun _ => laterDraws) backup).1 := by
  have hexport : (exportedFile tunnelled false).toOption.any (fun backup =>
      backup.tunnels.all (fun tunnel => !(trim tunnel.bindAddress).isEmpty) &&
        (backup.tunnels.length == 1 &&
          (tunnelled.importBackup laterDraws (fun _ => laterDraws) backup).1.listTunnels.length == 1)) = true := by
    decide +kernel
  obtain ⟨backup, hsome, hfacts⟩ := (Option.any_eq_true _ _).mp hexport
  obtain ⟨hnamed, hcounts⟩ := Bool.and_eq_true_iff.mp hfacts
  obtain ⟨hfile, hlisted⟩ := Bool.and_eq_true_iff.mp hcounts
  have haddress : ∀ tunnel ∈ backup.tunnels, (trim tunnel.bindAddress).isEmpty = false := fun tunnel hmem =>
    (Bool.not_eq_true' _).mp (List.all_eq_true.mp hnamed tunnel hmem)
  exact ⟨backup, ok_of_toOption hsome, eq_of_beq hfile, eq_of_beq hlisted,
    import_tunnels_once tunnelled laterDraws (fun _ => laterDraws) backup haddress⟩

/-- The same file, with no address to listen on. -/
def blankTunnels (backup : Backup) : Backup :=
  { backup with tunnels := backup.tunnels.map fun tunnel => { tunnel with bindAddress := "" } }

/-- A tunnel that leaves its address blank gets the default one, and the next reading does not know it again. -/
theorem blank_tunnel_twice : ∃ backup, exportedFile tunnelled false = .ok backup ∧
    ∃ once twice : Store,
      once = (untunnelled.importBackup laterDraws (fun _ => laterDraws) (blankTunnels backup)).1 ∧
      twice = (once.importBackup countingDraws (fun _ => countingDraws) (blankTunnels backup)).1 ∧
      once.listTunnels.length = 1 ∧ twice.listTunnels.length = 2 ∧
      (twice.listTunnels.map TunnelRecord.match_).dedup.length = 1 := by
  have hexport : (exportedFile tunnelled false).toOption.any (fun backup =>
      let once := (untunnelled.importBackup laterDraws (fun _ => laterDraws) (blankTunnels backup)).1
      let twice := (once.importBackup countingDraws (fun _ => countingDraws) (blankTunnels backup)).1
      decide (once.listTunnels.length = 1 ∧ twice.listTunnels.length = 2 ∧
        (twice.listTunnels.map TunnelRecord.match_).dedup.length = 1)) = true := by
    decide +kernel
  obtain ⟨backup, hsome, hfacts⟩ := (Option.any_eq_true _ _).mp hexport
  exact ⟨backup, ok_of_toOption hsome, _, _, rfl, rfl, of_decide_eq_true hfacts⟩

end untunnelled

end Store

end UwuSsh

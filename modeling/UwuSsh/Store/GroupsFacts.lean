import UwuSsh.Store.Groups

/-!
What the group operations do to the rows of a store, and what a group's name is good for
afterwards. A name stands for one group as long as no second live group of the workspace has
it and no host of the workspace sits in a group of that name elsewhere.
-/
namespace UwuSsh

open Text Fallible InTx

namespace Store

variable {s t : Store}

theorem mem_liveRows {kind : EntityKind} {id : Uuid} {row : Row (Cols kind)} :
    (id, row) ∈ s.liveRows kind ↔ s.live? kind id = some row := by
  rw [liveRows, List.mem_filter, mem_rows, live?, Option.filter_eq_some_iff]

theorem live?_eq_some {kind : EntityKind} {id : Uuid} {row : Row (Cols kind)} :
    s.live? kind id = some row ↔ s.row? kind id = some row ∧ row.deleted = false := by
  rw [live?, Option.filter_eq_some_iff]
  simp

theorem nodup_liveRows (s : Store) (kind : EntityKind) : ((s.liveRows kind).map Prod.fst).Nodup :=
  (s.nodup_rows kind).sublist (List.filter_sublist.map _)

theorem live?_congr {kind : EntityKind} {id : Uuid} (h : t.row? kind id = s.row? kind id) :
    t.live? kind id = s.live? kind id := by
  rw [live?, live?, h]

theorem live?_updateRow {kind : EntityKind} {id : Uuid} {row : Row (Cols kind)}
    (f : Row (Cols kind) → Row (Cols kind)) (h : s.live? kind id = some row)
    (hf : (f row).deleted = row.deleted) : (s.updateRow kind id f).live? kind id = some (f row) := by
  obtain ⟨hrow, hdeleted⟩ := live?_eq_some.mp h
  refine live?_eq_some.mpr ⟨?_, hf.trans hdeleted⟩
  rw [row?_updateRow_self, hrow, Option.map_some]

theorem live?_updateRow_tombed {kind : EntityKind} {id : Uuid}
    (f : Row (Cols kind) → Row (Cols kind)) (hf : ∀ row, (f row).deleted = true) :
    (s.updateRow kind id f).live? kind id = none := by
  rw [live?, row?_updateRow_self]
  cases s.row? kind id with
  | none => rfl
  | some row => simp [hf]

/-- A live group of a workspace with a name. -/
def Called (s : Store) (workspace : Workspace) (name : String) (id : Uuid) : Prop :=
  ∃ row : Row GroupCols, s.live? .group id = some row ∧ row.cols.workspace = workspace.asStr ∧
    row.cols.name = name

theorem mem_groupsCalled {workspace : Workspace} {name : String} {id : Uuid} :
    id ∈ s.groupsCalled workspace name ↔ s.Called workspace name id := by
  rw [groupsCalled, List.mem_insertionSort]
  constructor
  · intro hmem
    obtain ⟨⟨_, row⟩, hrow, rfl⟩ := List.mem_map.mp hmem
    obtain ⟨hlive, hcols⟩ := List.mem_filter.mp hrow
    obtain ⟨hworkspace, hname⟩ := Bool.and_eq_true_iff.mp hcols
    exact ⟨row, mem_liveRows.mp hlive, eq_of_beq hworkspace, eq_of_beq hname⟩
  · rintro ⟨row, hlive, hworkspace, hname⟩
    refine List.mem_map.mpr ⟨(id, row), List.mem_filter.mpr ⟨mem_liveRows.mpr hlive, ?_⟩, rfl⟩
    simp [hworkspace, hname]

theorem called_of_groupId {workspace : Workspace} {name : String} {id : Uuid}
    (h : s.groupId workspace name = some id) : s.Called workspace name id :=
  mem_groupsCalled.mp (List.mem_of_head? h)

theorem not_called_of_groupId {workspace : Workspace} {name : String}
    (h : s.groupId workspace name = none) (id : Uuid) : ¬ s.Called workspace name id := by
  intro hcalled
  have hempty : s.groupsCalled workspace name = [] := List.head?_eq_none_iff.mp h
  have hmem := mem_groupsCalled.mpr hcalled
  rw [hempty] at hmem
  cases hmem

/-- A live host of a workspace, as the list shows it in a group. -/
def Shows (s : Store) (workspace : Workspace) (name : String) (id : Uuid) : Prop :=
  ∃ record, s.getHost id = some record ∧ record.workspace = workspace ∧
    record.groupPath = some name

/-- The group a live host points at. -/
def Sits (s : Store) (id group : Uuid) : Prop :=
  ∃ row : Row HostCols, s.live? .host id = some row ∧ row.cols.groupId = some group

theorem getHost_eq_some {id : Uuid} {record : HostRecord} :
    s.getHost id = some record ↔
      ∃ row : Row HostCols, s.live? .host id = some row ∧ s.hostFromRow (id, row) = record :=
  Option.map_eq_some_iff

theorem groupPath_eq {id : Uuid} {row : Row HostCols} {name : String} :
    (s.hostFromRow (id, row)).groupPath = some name ↔ name ≠ "" ∧ ∃ group,
      row.cols.groupId = some group ∧ ∃ grow : Row GroupCols, s.live? .group group = some grow ∧
        grow.cols.name = name := by
  let group : Option GroupCols :=
    row.cols.groupId.bind fun id => (s.live? .group id).map (·.cols)
  have hpath : (s.hostFromRow (id, row)).groupPath =
      (group.map (·.name)).filter fun name => name != "" := rfl
  have hgroup (cols : GroupCols) : group = some cols ↔ ∃ id, row.cols.groupId = some id ∧
      ∃ grow : Row GroupCols, s.live? .group id = some grow ∧ grow.cols = cols := by
    refine Option.bind_eq_some_iff.trans (exists_congr fun id => and_congr_right fun _ => ?_)
    exact Option.map_eq_some_iff
  rw [hpath, Option.filter_eq_some_iff, Option.map_eq_some_iff]
  constructor
  · rintro ⟨⟨cols, hcols, rfl⟩, hname⟩
    obtain ⟨id, hid, grow, hlive, rfl⟩ := (hgroup cols).mp hcols
    exact ⟨by simpa using hname, id, hid, grow, hlive, rfl⟩
  · rintro ⟨hname, id, hid, grow, hlive, rfl⟩
    exact ⟨⟨grow.cols, (hgroup _).mpr ⟨id, hid, grow, hlive, rfl⟩, rfl⟩, by simpa using hname⟩

theorem shows_iff {workspace : Workspace} {name : String} {id : Uuid} :
    s.Shows workspace name id ↔ name ≠ "" ∧ ∃ row : Row HostCols, s.live? .host id = some row ∧
      Workspace.parse row.cols.workspace = workspace ∧ ∃ group, row.cols.groupId = some group ∧
        ∃ grow : Row GroupCols, s.live? .group group = some grow ∧ grow.cols.name = name := by
  constructor
  · rintro ⟨record, hget, hworkspace, hpath⟩
    obtain ⟨row, hlive, rfl⟩ := getHost_eq_some.mp hget
    obtain ⟨hname, hgroup⟩ := groupPath_eq.mp hpath
    exact ⟨hname, row, hlive, hworkspace, hgroup⟩
  · rintro ⟨hname, row, hlive, hworkspace, hgroup⟩
    exact ⟨_, getHost_eq_some.mpr ⟨row, hlive, rfl⟩, hworkspace, groupPath_eq.mpr ⟨hname, hgroup⟩⟩

theorem mem_hostsWhere {p : Uuid → HostCols → Bool} {id : Uuid} {row : Row HostCols} :
    (id, row) ∈ s.hostsWhere p ↔ s.live? .host id = some row ∧ p id row.cols = true := by
  rw [hostsWhere, List.mem_insertionSort]
  exact List.mem_filter.trans (and_congr_left fun _ => mem_liveRows)

theorem nodup_hostsWhere (s : Store) (p : Uuid → HostCols → Bool) :
    ((s.hostsWhere p).map Prod.fst).Nodup := by
  have hperm := ((List.perm_insertionSort (fun a b : Uuid × Row HostCols =>
    (byPosition (a.2.cols.position, a.2.cols.name) (b.2.cols.position, b.2.cols.name)).isLE = true)
    ((s.liveRows .host).filter fun e => p e.1 e.2.cols)).map Prod.fst)
  exact hperm.nodup_iff.mpr ((s.nodup_liveRows .host).sublist (List.filter_sublist.map _))

/-- Every live host of a group has joined another one, or none, and nothing else happened. -/
structure Joined (s t : Store) (from_ : Uuid) (workspace : Workspace) (to_ : Option Uuid) :
    Prop where
  others : ∀ {kind : EntityKind} {id : Uuid}, kind ≠ .host → t.row? kind id = s.row? kind id
  apart : ∀ {id : Uuid}, ¬ s.Sits id from_ → t.row? .host id = s.row? .host id
  member : ∀ {id : Uuid} {row : Row HostCols}, s.live? .host id = some row →
    row.cols.groupId = some from_ → ∃ clock position, t.row? .host id = some (row.edited clock
      { row.cols with workspace := workspace.asStr, groupId := to_, position })

/-- Sorting keeps the members, and `zipIdx` numbers them. -/
theorem map_fst_places (hosts : List Uuid) (first : Int64) :
    (hosts.zipIdx.map fun e => (e.1, first + Int64.ofNat e.2)).map Prod.fst = hosts := by
  rw [List.map_map]
  exact List.zipIdx_map_fst 0 hosts

theorem joined_placeHosts {u : Store} (hrows : ∀ kind id, u.row? kind id = s.row? kind id) {from_ : Uuid} {workspace : Workspace} {to_ : Option Uuid} {clock : Hlc}
    {places : List (Uuid × Int64)} (hnodup : (places.map Prod.fst).Nodup)
    (hmem : ∀ id, id ∈ places.map Prod.fst ↔ s.Sits id from_) :
    s.Joined (u.placeHosts workspace to_ clock places) from_ workspace to_ where
  others hkind := (row?_updateEach_of_kind_ne hkind).trans (hrows _ _)
  apart hnot := (row?_updateEach_of_not_mem fun h => hnot ((hmem _).mp h)).trans (hrows _ _)
  member {id row} hlive hgroup := by
    obtain ⟨⟨_, position⟩, hplace, rfl⟩ := List.mem_map.mp ((hmem id).mpr ⟨row, hlive, hgroup⟩)
    refine ⟨clock, position, (row?_updateEach_of_mem hnodup hplace).trans ?_⟩
    rw [hrows, (live?_eq_some.mp hlive).1]
    rfl

theorem mem_sitting {from_ id : Uuid} :
    id ∈ (s.hostsWhere fun _ cols => cols.groupId == some from_).map Prod.fst ↔ s.Sits id from_ := by
  constructor
  · intro hmem
    obtain ⟨⟨_, row⟩, hrow, rfl⟩ := List.mem_map.mp hmem
    obtain ⟨hlive, hgroup⟩ := mem_hostsWhere.mp hrow
    exact ⟨row, hlive, eq_of_beq hgroup⟩
  · rintro ⟨row, hlive, hgroup⟩
    exact List.mem_map.mpr ⟨(id, row), mem_hostsWhere.mpr ⟨hlive, by simp [hgroup]⟩, rfl⟩

/-- The name of a workspace stands for one group: no second live group of the workspace has
it, and every host of the workspace that shows it sits in a group of the workspace. -/
structure Unambiguous (s : Store) (workspace : Workspace) (name : String) : Prop where
  one : ∀ {a b : Uuid}, s.Called workspace name a → s.Called workspace name b → a = b
  own : ∀ {id : Uuid}, s.Shows workspace name id →
    ∃ group, s.Called workspace name group ∧ s.Sits id group

/-- A name is free in a workspace, and the hosts that showed it show another one, or none. -/
structure Left (s t : Store) (workspace : Workspace) (name : String) (into : Option String) :
    Prop where
  called : ∀ id, ¬ t.Called workspace name id
  shown : ∀ id, ¬ t.Shows workspace name id
  hosts : ∀ {id : Uuid}, s.Shows workspace name id →
    ∃ record, t.getHost id = some record ∧ record.groupPath = into

/-- One group has given a name up, with the hosts in it; all others are as they were. -/
structure Freed (s t : Store) (id : Uuid) (name : String) (into : Option String) : Prop where
  groups : ∀ {group : Uuid}, group ≠ id → t.live? .group group = s.live? .group group
  name_ne : ∀ {row : Row GroupCols}, t.live? .group id = some row → row.cols.name ≠ name
  apart : ∀ {host : Uuid}, ¬ s.Sits host id → t.live? .host host = s.live? .host host
  member : ∀ {host : Uuid}, s.Sits host id →
    ∃ record, t.getHost host = some record ∧ record.groupPath = into
  into_ne : into ≠ some name

theorem Sits.unique {id a b : Uuid} (h : s.Sits id a) (h' : s.Sits id b) : a = b := by
  obtain ⟨row, hlive, hgroup⟩ := h
  obtain ⟨row', hlive', hgroup'⟩ := h'
  rw [hlive] at hlive'
  cases hlive'
  rw [hgroup] at hgroup'
  exact Option.some.inj hgroup'

/-- Giving up one group frees the name exactly when the name stood for that group alone. -/
theorem Freed.left_iff {workspace : Workspace} {name : String} {id : Uuid} {into : Option String}
    (h : s.Freed t id name into) (hid : s.Called workspace name id) :
    s.Left t workspace name into ↔ s.Unambiguous workspace name := by
  have hstays {group : Uuid} (hne : group ≠ id) :
      t.Called workspace name group ↔ s.Called workspace name group := by
    rw [Called, Called, h.groups hne]
  have hgone : ¬ t.Called workspace name id := by
    rintro ⟨row, hlive, -, hname⟩
    exact h.name_ne hlive hname
  constructor
  · intro hleft
    have hone {a : Uuid} (ha : s.Called workspace name a) : a = id := by
      by_contra hne
      exact hleft.called a ((hstays hne).mpr ha)
    refine ⟨fun ha hb => (hone ha).trans (hone hb).symm, fun {host} hshows => ?_⟩
    obtain ⟨hname, row, hlive, hworkspace, group, hgroup, grow, hgrow, hgname⟩ :=
      shows_iff.mp hshows
    by_cases heq : group = id
    · exact ⟨id, hid, row, hlive, heq ▸ hgroup⟩
    -- A host in another group of the name shows it afterwards as well.
    · have hnot : ¬ s.Sits host id := fun hsits => heq (Sits.unique ⟨row, hlive, hgroup⟩ hsits)
      refine absurd (shows_iff.mpr ⟨hname, row, ?_, hworkspace, group, hgroup, grow, ?_, hgname⟩)
        (hleft.shown host)
      · rw [h.apart hnot, hlive]
      · rw [h.groups heq, hgrow]
  · intro hplain
    refine ⟨fun group hcalled => ?_, fun host hshows => ?_, fun {host} hshows => ?_⟩
    · by_cases heq : group = id
      · exact hgone (heq ▸ hcalled)
      · exact heq (hplain.one ((hstays heq).mp hcalled) hid)
    · by_cases hsits : s.Sits host id
      · obtain ⟨record, hget, hinto⟩ := h.member hsits
        obtain ⟨record', hget', -, hpath⟩ := hshows
        rw [hget] at hget'
        cases hget'
        exact h.into_ne (hinto.symm.trans hpath)
      · obtain ⟨hname, row, hlive, hworkspace, group, hgroup, grow, hgrow, hgname⟩ :=
          shows_iff.mp hshows
        have hne : group ≠ id := by
          intro heq
          exact h.name_ne (heq ▸ hgrow) hgname
        rw [h.apart hsits] at hlive
        rw [h.groups hne] at hgrow
        have hbefore : s.Shows workspace name host :=
          shows_iff.mpr ⟨hname, row, hlive, hworkspace, group, hgroup, grow, hgrow, hgname⟩
        obtain ⟨own, hown, hsits'⟩ := hplain.own hbefore
        exact hsits (hplain.one hown hid ▸ hsits')
    · obtain ⟨group, hgroup, hsits⟩ := hplain.own hshows
      exact h.member (hplain.one hgroup hid ▸ hsits)

end Store

section operations

variable {draws : Draws} {tx : Tx} {workspace : Workspace} {name : String}

theorem moveMembers_ends {from_ : Uuid} {to_ : Option Uuid} :
    Ends (moveMembers draws from_ workspace to_) tx fun _ u =>
      tx.store.Joined u.store from_ workspace to_ := by
  simp only [moveMembers, ends_bind, ends_read]
  split
  · next hempty =>
    have hnone (id : Uuid) : ¬ tx.store.Sits id from_ := by
      intro hsits
      have hmem := Store.mem_sitting.mpr hsits
      rw [List.isEmpty_iff.mp hempty] at hmem
      cases hmem
    refine ends_pure.mpr ⟨fun _ => rfl, fun _ => rfl, fun hlive hgroup => ?_⟩
    exact absurd ⟨_, hlive, hgroup⟩ (hnone _)
  · simp only [ends_bind, ends_read, ends_lift, ends_tick, ends_write, store_onStore]
    intro first _
    refine Store.joined_placeHosts (fun kind id => row?_tick kind id) ?_ ?_
    · rw [Store.map_fst_places]
      exact tx.store.nodup_hostsWhere _
    · intro id
      rw [Store.map_fst_places]
      exact Store.mem_sitting

theorem tombstoneGroup_ends {id : Uuid} :
    Ends (tombstoneGroup draws id) tx fun _ u =>
      (∀ kind other, ¬ (kind = .group ∧ other = id) →
        u.store.row? kind other = tx.store.row? kind other) ∧ u.store.live? .group id = none := by
  simp only [tombstoneGroup, ends_bind, ends_tick, ends_update, store_onStore]
  refine ⟨fun kind other hne => Store.row?_updateRow_of_pair_ne _ _ _ _ hne, ?_⟩
  refine Store.live?_updateRow_tombed _ fun row => ?_
  split
  · next hdeleted => exact hdeleted
  · rfl

/-- A group whose hosts have joined another one, or none, and that is deleted then. -/
theorem freed_of_joined {s u t : Store} {id : Uuid} {to_ : Option Uuid} {into : Option String}
    (hjoined : s.Joined u id workspace to_)
    (hothers : ∀ kind other, ¬ (kind = .group ∧ other = id) → t.row? kind other = u.row? kind other)
    (hgone : t.live? .group id = none) (hne : into ≠ some name)
    (hinto : (to_ = none ∧ into = none) ∨ ∃ group called, to_ = some group ∧ into = some called ∧
      group ≠ id ∧ called ≠ "" ∧ s.Called workspace called group) :
    s.Freed t id name into where
  groups {group} hgroup := by
    refine Store.live?_congr ((hothers .group group fun hboth => hgroup hboth.2).trans ?_)
    exact hjoined.others (by decide)
  name_ne hlive := by
    rw [hgone] at hlive
    cases hlive
  apart {host} hnot :=
    Store.live?_congr ((hothers .host host (by simp)).trans (hjoined.apart hnot))
  member {host} hsits := by
    obtain ⟨row, hlive, hgroup⟩ := hsits
    obtain ⟨clock, position, hrow⟩ := hjoined.member hlive hgroup
    have hlive' := Store.live?_eq_some.mpr
      ⟨(hothers .host host (by simp)).trans hrow, (Store.live?_eq_some.mp hlive).2⟩
    refine ⟨_, Store.getHost_eq_some.mpr ⟨_, hlive', rfl⟩, ?_⟩
    rcases hinto with ⟨rfl, rfl⟩ | ⟨group, called, rfl, rfl, hgroup, hcalled, grow, hgrow, -, hname⟩
    · rfl
    · refine Store.groupPath_eq.mpr ⟨hcalled, group, rfl, grow, ?_, hname⟩
      rw [← hgrow]
      refine Store.live?_congr ((hothers .group group fun hboth => hgroup hboth.2).trans ?_)
      exact hjoined.others (by decide)
  into_ne := hne

theorem deleteGroup_ends :
    Ends (deleteGroup draws workspace name) tx fun _ u => ∃ id,
      tx.store.Called workspace name id ∧ tx.store.Freed u.store id name none := by
  simp only [deleteGroup, ends_bind, ends_read]
  cases hid : tx.store.groupId workspace name with
  | none => exact ends_throw
  | some id =>
    refine ends_bind.mpr (moveMembers_ends.mono fun _ u hjoined => ?_)
    refine tombstoneGroup_ends.mono fun _ t ht => ⟨id, Store.called_of_groupId hid, ?_⟩
    exact freed_of_joined hjoined ht.1 ht.2 (by simp) (Or.inl ⟨rfl, rfl⟩)

/-- A group that takes another name, its hosts with it. -/
theorem freed_of_renamed {s t : Store} {id : Uuid} {to_ : String} {clock : Hlc}
    (hto : to_ ≠ "") (hne : to_ ≠ name)
    (hothers : ∀ kind other, ¬ (kind = .group ∧ other = id) → t.row? kind other = s.row? kind other)
    (hself : t.row? .group id = (s.row? .group id).map fun (row : Row GroupCols) =>
      row.edited clock { row.cols with name := to_ }) (hid : (s.live? .group id).isSome) :
    s.Freed t id name (some to_) := by
  obtain ⟨grow, hgrow⟩ := Option.isSome_iff_exists.mp hid
  obtain ⟨hrow, hdeleted⟩ := Store.live?_eq_some.mp hgrow
  have hnow : t.live? .group id = some (grow.edited clock { grow.cols with name := to_ }) :=
    Store.live?_eq_some.mpr ⟨by rw [hself, hrow]; rfl, hdeleted⟩
  exact {
    groups := fun {group} hgroup => Store.live?_congr (hothers .group group fun h => hgroup h.2)
    name_ne := fun {row} hlive => by
      rw [hnow] at hlive
      cases hlive
      exact hne
    apart := fun {host} _ => Store.live?_congr (hothers .host host (by simp))
    member := fun {host} hsits => by
      obtain ⟨row, hlive, hgroup⟩ := hsits
      rw [← Store.live?_congr (hothers .host host (by simp))] at hlive
      refine ⟨_, Store.getHost_eq_some.mpr ⟨row, hlive, rfl⟩, ?_⟩
      exact Store.groupPath_eq.mpr ⟨hto, id, hgroup, _, hnow, rfl⟩
    into_ne := fun heq => hne (Option.some.inj heq) }

theorem requiredGroup_ok {m called : String} (h : requiredGroup m = .ok called) : called ≠ "" := by
  unfold requiredGroup groupName blankToNone at h
  cases hblank : ((some m).map trim).filter fun v => !v.isEmpty with
  | none =>
    rw [hblank] at h
    cases h
  | some v =>
    obtain ⟨-, hempty⟩ := Option.filter_eq_some_iff.mp hblank
    have hv : called = v := by
      rw [hblank] at h
      dsimp only at h
      split at h
      · cases h
      · split at h
        · cases h
        · exact (Except.ok.inj h).symm
    subst hv
    intro heq
    subst heq
    exact absurd hempty (by decide)

theorem renameGroup_ends {m : String} :
    Ends (renameGroup draws workspace name m) tx fun _ u => ∃ called,
      requiredGroup m = .ok called ∧ called ≠ "" ∧ ((name = called ∧ u = tx) ∨ name ≠ called ∧ ∃ id,
        tx.store.Called workspace name id ∧ tx.store.Freed u.store id name (some called)) := by
  simp only [renameGroup, ends_bind, ends_lift]
  intro called hcalled
  have hempty := requiredGroup_ok hcalled
  split
  · next heq => exact ends_pure.mpr ⟨called, hcalled, hempty, Or.inl ⟨heq, rfl⟩⟩
  · next hne =>
    simp only [ends_bind, ends_read]
    cases hid : tx.store.groupId workspace name with
    | none => exact ends_throw
    | some id =>
      have hfirst := Store.called_of_groupId hid
      simp only [ends_bind, ends_read]
      cases hto : tx.store.groupId workspace called with
      | some target =>
        have htarget := Store.called_of_groupId hto
        refine ends_bind.mpr (moveMembers_ends.mono fun _ u hjoined => ?_)
        refine tombstoneGroup_ends.mono fun _ t ht =>
          ⟨called, hcalled, hempty, Or.inr ⟨hne, id, hfirst, ?_⟩⟩
        refine freed_of_joined hjoined ht.1 ht.2 (fun h => hne (Option.some.inj h).symm) (Or.inr
          ⟨target, called, rfl, rfl, ?_, hempty, htarget⟩)
        rintro rfl
        obtain ⟨row, hrow, -, hname⟩ := hfirst
        obtain ⟨row', hrow', -, hname'⟩ := htarget
        rw [hrow] at hrow'
        cases hrow'
        exact hne (hname.symm.trans hname')
      | none =>
        simp only [ends_bind, ends_tick]
        refine ends_update.mpr ⟨called, hcalled, hempty, Or.inr ⟨hne, id, hfirst, ?_⟩⟩
        refine freed_of_renamed hempty (fun h => hne h.symm)
          (fun kind other hother => Store.row?_updateRow_of_pair_ne _ _ _ _ hother)
          (Store.row?_updateRow_self _ _ _ _) ?_
        obtain ⟨row, hrow, -⟩ := hfirst
        exact Option.isSome_iff_exists.mpr ⟨row, hrow⟩

/-- Deleting a group, or giving it another name, frees its name exactly when the name stood for
one group. A name that stays the one it was is only free if nothing had it. -/
theorem group_names_free_iff (draws : Draws) (s : Store) (workspace : Workspace) (name : String) :
    (∀ t, (deleteGroup draws workspace name).commit s = .ok ((), t) →
      (s.Left t workspace name none ↔ s.Unambiguous workspace name)) ∧
    ∀ m t, (renameGroup draws workspace name m).commit s = .ok ((), t) →
      ∃ called, requiredGroup m = .ok called ∧ (s.Left t workspace name (some called) ↔
        s.Unambiguous workspace name ∧ (called = name → ∀ id,
          ¬ s.Called workspace name id ∧ ¬ s.Shows workspace name id)) := by
  constructor
  · intro t hrun
    obtain ⟨tx, rfl, id, hid, hfreed⟩ := of_commit hrun deleteGroup_ends
    exact hfreed.left_iff hid
  · intro m t hrun
    obtain ⟨tx, rfl, called, hcalled, hempty, hdone⟩ := of_commit hrun renameGroup_ends
    refine ⟨called, hcalled, ?_⟩
    rcases hdone with ⟨rfl, rfl⟩ | ⟨hne, id, hid, hfreed⟩
    -- Nothing happened, so the name is free if it was.
    · constructor
      · intro hleft
        refine ⟨⟨fun ha => absurd ha (hleft.called _), fun h => absurd h (hleft.shown _)⟩, ?_⟩
        exact fun _ id => ⟨hleft.called id, hleft.shown id⟩
      · intro ⟨_, hnone⟩
        exact ⟨fun id => (hnone rfl id).1, fun id => (hnone rfl id).2,
          fun h => absurd h (hnone rfl _).2⟩
    · refine (hfreed.left_iff hid).trans ⟨fun h => ⟨h, fun heq => absurd heq.symm hne⟩, And.left⟩

end operations

section examples

def groupVault : UnlockedVault := { vaultId := 7, key := 0 }

/-- A record of another device on its way here. -/
def arriving (kind : EntityKind) (id : Uuid) (payload : Payload) : Envelope :=
  let box := groupVault.sealSynced id kind ⟨10, 0, 2⟩ false (.json payload)
  { id, vaultId := 7, kind, updatedAt := ⟨10, 0, 2⟩, baseSeq := 0, deleted := false
    nonce := box.nonce, blob := box.blob, seq := some 1 }

/-- A store that other devices' records have arrived in. -/
def arrivedStore (envelopes : List Envelope) : Store :=
  (((Store.empty 1 7 (some groupVault)).applyEnvelopes envelopes 20).toOption.map (·.1)).getD
    (.empty 1 7 none)

def prodGroup (id : Uuid) : Envelope :=
  arriving .group id (.group { workspace := "private", name := "prod", position := 0 })

def prodHost (group : Uuid) : Envelope :=
  arriving .host 3 (.host { name := "web", address := "web.example", port := 22
                            workspace := "private", position := 0, groupId := some group
                            identityId := none })

/-- Ids a transaction that needs none may draw. -/
def noDraws : Draws := { id := fun _ => none, now := fun _ => 30 }

/-- Two devices made a group of the same name. Deleting it goes through, and the host of the other
one still shows it. -/
theorem twin_group_stays : ∃ t,
    (deleteGroup noDraws .private_ "prod").commit
        (arrivedStore [prodGroup 1, prodGroup 2, prodHost 2]) = .ok ((), t) ∧
      ¬ (arrivedStore [prodGroup 1, prodGroup 2, prodHost 2]).Left t .private_ "prod" none := by
  have hrun : ((deleteGroup noDraws .private_ "prod").commit
      (arrivedStore [prodGroup 1, prodGroup 2, prodHost 2])).toOption.any (fun r =>
        (r.2.getHost 3).any fun host => host.workspace == .private_ &&
          host.groupPath == some "prod") = true := by decide +kernel
  cases hdone : (deleteGroup noDraws .private_ "prod").commit
      (arrivedStore [prodGroup 1, prodGroup 2, prodHost 2]) with
  | error e =>
    rw [hdone] at hrun
    cases hrun
  | ok r =>
    have hhost : (r.2.getHost 3).any (fun host => host.workspace == .private_ &&
        host.groupPath == some "prod") = true := by
      rw [hdone] at hrun
      exact hrun
    obtain ⟨host, hget, hhost⟩ := (Option.any_eq_true _ _).mp hhost
    obtain ⟨hworkspace, hpath⟩ := Bool.and_eq_true_iff.mp hhost
    exact ⟨r.2, rfl, fun hleft =>
      hleft.shown 3 ⟨host, hget, eq_of_beq hworkspace, eq_of_beq hpath⟩⟩

theorem InTx.exists_of_isSome {α : Type} {prog : InTx α} {s : Store}
    (h : (prog.commit s).toOption.isSome = true) : ∃ a t, prog.commit s = .ok (a, t) := by
  cases hrun : prog.commit s with
  | error e =>
    rw [hrun] at h
    cases h
  | ok r => exact ⟨r.1, r.2, rfl⟩

/-- A group that is alone with its name. -/
theorem lone_group_freed :
    (∃ t, (deleteGroup noDraws .private_ "prod").commit (arrivedStore [prodGroup 1, prodHost 1]) =
        .ok ((), t) ∧ ((arrivedStore [prodGroup 1, prodHost 1]).Left t .private_ "prod" none ↔
          (arrivedStore [prodGroup 1, prodHost 1]).Unambiguous .private_ "prod")) ∧
    ∃ t called, (renameGroup noDraws .private_ "prod" " live ").commit
        (arrivedStore [prodGroup 1, prodHost 1]) = .ok ((), t) ∧
      requiredGroup " live " = .ok called ∧
        ((arrivedStore [prodGroup 1, prodHost 1]).Left t .private_ "prod" (some called) ↔
          (arrivedStore [prodGroup 1, prodHost 1]).Unambiguous .private_ "prod" ∧
            (called = "prod" → ∀ id,
              ¬ (arrivedStore [prodGroup 1, prodHost 1]).Called .private_ "prod" id ∧
                ¬ (arrivedStore [prodGroup 1, prodHost 1]).Shows .private_ "prod" id)) := by
  constructor
  · obtain ⟨_, t, hrun⟩ := InTx.exists_of_isSome (show ((deleteGroup noDraws .private_ "prod").commit
      (arrivedStore [prodGroup 1, prodHost 1])).toOption.isSome = true by decide +kernel)
    exact ⟨t, hrun, (group_names_free_iff noDraws _ .private_ "prod").1 t hrun⟩
  · obtain ⟨_, t, hrun⟩ := InTx.exists_of_isSome
      (show ((renameGroup noDraws .private_ "prod" " live ").commit
        (arrivedStore [prodGroup 1, prodHost 1])).toOption.isSome = true by decide +kernel)
    obtain ⟨called, hcalled, hiff⟩ := (group_names_free_iff noDraws _ .private_ "prod").2 _ t hrun
    exact ⟨t, called, hrun, hcalled, hiff⟩

end examples

end UwuSsh

import UwuSsh.Store.Keymaps
import UwuSsh.Store.Schema

/-!
Where the hosts are after the migration to schema 4: in a live group of the name they had, in their own
workspace. Groups of one name stay as many as they were; a name that had none has one.
-/
namespace UwuSsh.Schema

open Text

/-- The live groups of a workspace that are called so. -/
def liveGroups (groups : List GroupRow) (workspace : Workspace) (name : String) : List GroupRow :=
  groups.filter fun g => !g.header.deleted && g.workspace == workspace && g.name == name

/-- A host names a group the list shows it in. -/
def HostV3.Names (host : HostV3) (workspace : Workspace) (name : String) : Prop :=
  host.header.deleted = false ∧ host.workspace = workspace ∧ host.groupPath = some name

def Named (hosts : List HostV3) (workspace : Workspace) (name : String) : Prop :=
  ∃ host ∈ hosts, host.Names workspace name

/-- What became of a host. -/
structure KeepsHost (groups : List (Tracked GroupRow)) (host : HostV3) (new : HostV4) : Prop where
  columns : new.toHostColumns = host.toHostColumns
  workspace : new.workspace = host.workspace
  position : new.position = host.position
  osId : new.osId = host.osId
  waiting : new.dirty = !host.header.deleted ∧ new.serverSeq = 0 ∧ new.syncExtra = none
  group : ∀ {workspace name}, host.Names workspace name → ∃ g ∈ groups, new.groupId = some g.row.id ∧
    g.row.header.deleted = false ∧ g.row.workspace = workspace ∧ g.row.name = name
  noGroup : host.header.deleted = true ∨ host.groupPath = none → new.groupId = none

/-- The hosts of a database, as schema 3 has them. -/
def Stored.hosts : Stored → List HostV3
  | .v2 db => db.hosts.map HostV2.atV3
  | .v3 db => db.hosts

def Stored.groups : Stored → List GroupRow
  | .v2 _ => []
  | .v3 db => db.groups

/-- What the migration to schema 4 keeps. -/
structure KeepsGroups (old : Stored) (new : DbV4) : Prop where
  hosts : List.Forall₂ (KeepsHost new.groups) old.hosts new.hosts
  groups : old.groups <+: new.groups.map (·.row)
  ids : (new.groups.map (·.row.id)).Nodup
  named : ∀ workspace name, Named old.hosts workspace name →
    (liveGroups (new.groups.map (·.row)) workspace name).length = max 1 (liveGroups old.groups workspace name).length
  unnamed : ∀ workspace name, ¬ Named old.hosts workspace name →
    (liveGroups (new.groups.map (·.row)) workspace name).length = (liveGroups old.groups workspace name).length

section v4

variable {ids : Workspace × String → Uuid} {vaultId : String} {deviceId : ℤ} {db : DbV3} {new : DbV4}

theorem shownAs_eq_some_iff {g : Tracked GroupRow} {workspace : Workspace} {name : String} :
    shownAs g = some (workspace, name) ↔
      g.row.header.deleted = false ∧ g.row.workspace = workspace ∧ g.row.name = name := by
  rw [shownAs]
  split_ifs with hdeleted
  · simp [hdeleted]
  · simp [hdeleted]

theorem count_eq_length_liveGroups (groups : List (Tracked GroupRow)) (workspace : Workspace) (name : String) :
    (groupDesk ids vaultId deviceId).count (workspace, name) groups =
      (liveGroups (groups.map (·.row)) workspace name).length := by
  rw [Intern.Desk.count, liveGroups, List.filter_map, List.length_map, List.countP_eq_length_filter]
  congr 2
  funext g
  rw [Bool.eq_iff_iff, decide_eq_true_eq]
  change shownAs g = some (workspace, name) ↔ _
  rw [shownAs_eq_some_iff]
  simp [and_assoc]

theorem mem_namedBy {hosts : List HostV3} {workspace : Workspace} {name : String} :
    (workspace, name) ∈ namedBy hosts ↔ Named hosts workspace name := by
  rw [namedBy, List.mem_insertionSort, List.mem_dedup]
  simp only [List.mem_filterMap, List.mem_filter, Option.map_eq_some_iff, Prod.mk.injEq]
  constructor
  · rintro ⟨host, ⟨hin, hlive⟩, _, hname, rfl, rfl⟩
    exact ⟨host, hin, by simpa using hlive, rfl, hname⟩
  · rintro ⟨host, hin, hlive, rfl, hname⟩
    exact ⟨host, ⟨hin, by simp [hlive]⟩, name, hname, rfl, rfl⟩

theorem nodup_namedBy (hosts : List HostV3) : (namedBy hosts).Nodup :=
  (List.perm_insertionSort _ _).nodup_iff.mpr (List.nodup_dedup _)

theorem names_eq_some_iff {host : BothColumns} {workspace : Workspace} {name : String} :
    names host = some (workspace, name) ↔ host.row.Names workspace name := by
  rw [names, HostV3.Names]
  split_ifs with hdeleted
  · simp [hdeleted]
  · simp [hdeleted, and_comm]

/-- A row that is written has an id no other has. -/
theorem nodup_made {named : Workspace × String} {groups : List (Tracked GroupRow)} {g : Tracked GroupRow}
    (h : (groups.map (·.row.id)).Nodup) (hmake : (groupDesk ids vaultId deviceId).make named groups = .ok g) :
    ((groups ++ [g]).map (·.row.id)).Nodup := by
  obtain ⟨position, -, hnew, rfl⟩ := writeGroup_eq_ok_iff.mp hmake
  rw [List.map_append, List.map_singleton, List.nodup_append_comm, List.singleton_append, List.nodup_cons]
  exact ⟨hnew, h⟩

theorem toV4_eq (h : toV4 ids db = .ok new) : ∃ hosts,
    (groupDesk ids db.vaultId db.deviceId).assign names setGroup (namedBy db.hosts)
      (db.groups.map (track (·.header))) (db.hosts.map bothColumns) = .ok (new.groups, hosts) ∧
    new.hosts = hosts.map BothColumns.dropGroupPath := by
  rw [toV4] at h
  cases hassign : (groupDesk ids db.vaultId db.deviceId).assign names setGroup (namedBy db.hosts)
      (db.groups.map (track (·.header))) (db.hosts.map bothColumns) with
  | error _ =>
    rw [hassign] at h
    cases h
  | ok r =>
    rw [hassign] at h
    cases h
    exact ⟨r.2, rfl, rfl⟩

/-- A host that is pointed at a group of its name, or left where it names none, is kept. -/
theorem keepsHost {groups : List (Tracked GroupRow)} {host : HostV3} {host' : BothColumns} (hin : host ∈ db.hosts)
    (hpointed : ∀ k ∈ namedBy db.hosts, names (bothColumns host) = some k → ∃ g ∈ groups,
      shownAs g = some k ∧ host' = setGroup g (bothColumns host))
    (hleft : (∀ k ∈ namedBy db.hosts, names (bothColumns host) ≠ some k) → host' = bothColumns host) :
    KeepsHost groups host host'.dropGroupPath := by
  cases hnames : names (bothColumns host) with
  | none =>
    have hnone : ∀ k ∈ namedBy db.hosts, names (bothColumns host) ≠ some k := by simp [hnames]
    obtain rfl := hleft hnone
    refine ⟨rfl, rfl, rfl, rfl, ⟨rfl, rfl, rfl⟩, fun hhost => ?_, fun _ => rfl⟩
    have hsome : names (bothColumns host) = some _ := names_eq_some_iff.mpr hhost
    rw [hnames] at hsome
    cases hsome
  | some k =>
    have hhost : host.Names k.1 k.2 := names_eq_some_iff.mp hnames
    obtain ⟨g, hg, hkey, rfl⟩ := hpointed k (mem_namedBy.mpr ⟨host, hin, hhost⟩) hnames
    refine ⟨rfl, rfl, rfl, rfl, ⟨rfl, rfl, rfl⟩, fun hother => ⟨g, hg, rfl, ?_⟩, fun hnone => ?_⟩
    · have hsame : names (bothColumns host) = some _ := names_eq_some_iff.mpr hother
      rw [hnames] at hsame
      exact shownAs_eq_some_iff.mp (hkey.trans hsame)
    · rcases hnone with hdeleted | hnone
      · rw [hhost.1] at hdeleted
        exact absurd hdeleted Bool.false_ne_true
      · rw [hhost.2.2] at hnone
        cases hnone

/-- What has been through the migration to schema 4 has kept its groups. -/
theorem toV4_keeps (hids : (db.groups.map (·.id)).Nodup) (h : toV4 ids db = .ok new) : KeepsGroups (.v3 db) new := by
  obtain ⟨hosts, hassign, hhosts⟩ := toV4_eq h
  have hrows : (db.groups.map (track (·.header))).map (·.row) = db.groups := by
    rw [List.map_map]
    exact List.map_id _
  have hcount := fun workspace name => Intern.count_assign hassign (workspace, name)
  simp only [count_eq_length_liveGroups, hrows, mem_namedBy] at hcount
  have hstart : ((db.groups.map (track (·.header))).map (·.row.id)).Nodup := by
    rw [List.map_map]
    exact hids
  obtain ⟨hfront, hnodup⟩ := Intern.assign_table hassign _ hstart nodup_made
  refine ⟨?_, ?_, hnodup, fun workspace name hnamed => ?_, fun workspace name hnone => ?_⟩
  · have hitems := Intern.assign_items hassign (nodup_namedBy _) (fun _ _ => rfl)
    rw [hhosts]
    have hmem := (List.forall₂_and_left _ _).mpr ⟨fun host hin => hin, List.forall₂_map_left_iff.mp hitems⟩
    refine List.forall₂_map_right_iff.mpr (hmem.imp fun host host' hhost => ?_)
    obtain ⟨hin, hpointed, hleft⟩ := hhost
    exact keepsHost hin hpointed hleft
  · have hfront' := hfront.map (·.row)
    rw [hrows] at hfront'
    exact hfront'
  · exact (hcount _ _).1 hnamed
  · exact (hcount _ _).2 hnone

/-- There is a place behind the last one, and room for `n` more behind it. -/
theorem nextAfter_room {positions : List Int64} {n : ℕ} (hn : n < 2 ^ 63)
    (h : ∀ p ∈ positions, p.toInt + 1 + n < 2 ^ 63) :
    ∃ p, Store.nextAfter positions = .ok p ∧ p.toInt + n < 2 ^ 63 := by
  rw [Store.nextAfter]
  cases hmax : (positions.map (·.toInt)).max? with
  | none => exact ⟨0, rfl, by simpa using by exact_mod_cast hn⟩
  | some last =>
    obtain ⟨p, hp, rfl⟩ := List.mem_map.mp (List.max?_mem hmax)
    have hroom := h p hp
    have hlow := p.le_toInt
    have hlast : p.toInt ≠ Int64.maxValue.toInt := by
      rw [Int64.toInt_maxValue]
      omega
    have hnext : (Int64.ofInt (p.toInt + 1)).toInt = p.toInt + 1 :=
      Int64.toInt_ofInt_of_le (by omega) (by omega)
    refine ⟨Int64.ofInt (p.toInt + 1), if_neg hlast, ?_⟩
    rw [hnext]
    exact hroom

/-- The names that still have their turn can have their groups written. -/
structure Room (ids : Workspace × String → Uuid) (ks : List (Workspace × String))
    (groups : List (Tracked GroupRow)) : Prop where
  nodup : ks.Nodup
  distinct : ∀ a ∈ ks, ∀ b ∈ ks, ids a = ids b → a = b
  fresh : ∀ k ∈ ks, uuidText (ids k) ∉ groups.map (·.row.id)
  few : ks.length < 2 ^ 63
  room : ∀ g ∈ groups, g.row.header.deleted = false → g.row.position.toInt + ks.length < 2 ^ 63

theorem Room.tail {ks : List (Workspace × String)} {groups : List (Tracked GroupRow)} {k : Workspace × String}
    (h : Room ids (k :: ks) groups) : Room ids ks groups := by
  obtain ⟨hnodup, hdistinct, hfresh, hfew, hroom⟩ := h
  rw [List.length_cons] at hfew
  have hrest : ∀ a ∈ ks, ∀ b ∈ ks, ids a = ids b → a = b :=
    fun a ha b hb => hdistinct a (List.mem_cons_of_mem _ ha) b (List.mem_cons_of_mem _ hb)
  refine ⟨hnodup.tail, hrest, fun k' hk' => hfresh k' (List.mem_cons_of_mem _ hk'), by omega, fun g hg hlive => ?_⟩
  have hlast := hroom g hg hlive
  rw [List.length_cons] at hlast
  omega

theorem Room.written {ks : List (Workspace × String)} {groups : List (Tracked GroupRow)} {k : Workspace × String}
    (h : Room ids (k :: ks) groups) :
    ∃ g, writeGroup ids vaultId deviceId k groups = .ok g ∧ Room ids ks (groups ++ [g]) := by
  obtain ⟨hnodup, hdistinct, hfresh, hfew, hroom⟩ := h.tail
  have hpositions : ∀ p ∈ positionsIn k.1 groups, p.toInt + 1 + ks.length < 2 ^ 63 := by
    intro p hp
    obtain ⟨g, hg, rfl⟩ := List.mem_map.mp hp
    obtain ⟨hin, hkept⟩ := List.mem_filter.mp hg
    have hlast := h.room g hin (by simpa using (Bool.and_eq_true_iff.mp hkept).1)
    rw [List.length_cons] at hlast
    omega
  obtain ⟨position, hposition, hlast⟩ := nextAfter_room hfew hpositions
  refine ⟨_, writeGroup_eq_ok_iff.mpr ⟨position, hposition, h.fresh k List.mem_cons_self, rfl⟩, hnodup, hdistinct, ?_,
    hfew, ?_⟩
  · intro k' hk' hin
    rw [List.map_append, List.mem_append] at hin
    rcases hin with hin | hin
    · exact hfresh k' hk' hin
    · have hsame : k' = k := h.distinct k' (List.mem_cons_of_mem _ hk') k List.mem_cons_self (uuidText_injective (List.mem_singleton.mp hin))
      exact (List.nodup_cons.mp h.nodup).1 (hsame ▸ hk')
  · intro g hg hlive
    rcases List.mem_append.mp hg with hin | hin
    · exact hroom g hin hlive
    · rw [List.mem_singleton.mp hin]
      exact hlast

theorem length_namedBy_le (hosts : List HostV3) : (namedBy hosts).length ≤ hosts.length := by
  rw [namedBy, List.length_insertionSort]
  exact (List.dedup_sublist _).length_le.trans ((List.length_filterMap_le _ _).trans (List.length_filter_le _ _))

/-- A database of schema 3 with ids that are new and room behind the groups it has. -/
structure DbV3.Ready (ids : Workspace × String → Uuid) (db : DbV3) : Prop where
  distinct : Set.InjOn ids {named | Named db.hosts named.1 named.2}
  fresh : ∀ named, Named db.hosts named.1 named.2 → uuidText (ids named) ∉ db.groups.map (·.id)
  few : db.hosts.length < 2 ^ 63
  room : ∀ g ∈ db.groups, g.header.deleted = false → g.position.toInt + db.hosts.length < 2 ^ 63

theorem toV4_ok_of_assign {r : List (Tracked GroupRow) × List BothColumns}
    (h : (groupDesk ids db.vaultId db.deviceId).assign names setGroup (namedBy db.hosts)
      (db.groups.map (track (·.header))) (db.hosts.map bothColumns) = .ok r) : ∃ new, toV4 ids db = .ok new := by
  rw [toV4, h]
  exact ⟨_, rfl⟩

/-- It goes through. -/
theorem toV4_ok (h : db.Ready ids) : ∃ new, toV4 ids db = .ok new := by
  have hlen := length_namedBy_le db.hosts
  have hids : (db.groups.map (track (·.header))).map (·.row.id) = db.groups.map (·.id) := by
    rw [List.map_map]
    rfl
  have hroom : Room ids (namedBy db.hosts) (db.groups.map (track (·.header))) := by
    refine ⟨nodup_namedBy _, fun a ha b hb => h.distinct (mem_namedBy.mp ha) (mem_namedBy.mp hb), fun k hk => ?_, lt_of_le_of_lt hlen h.few, fun g hg hlive => ?_⟩
    · rw [hids]
      exact h.fresh k (mem_namedBy.mp hk)
    · obtain ⟨row, hrow, rfl⟩ := List.mem_map.mp hg
      have hlast := h.room row hrow hlive
      change row.position.toInt + _ < _
      omega
  have hassign : ∃ r, (groupDesk ids db.vaultId db.deviceId).assign names setGroup (namedBy db.hosts)
      (db.groups.map (track (·.header))) (db.hosts.map bothColumns) = .ok r :=
    Intern.assign_ok hroom (fun hready _ => hready.tail) fun hready _ => hready.written
  obtain ⟨r, hr⟩ := hassign
  exact toV4_ok_of_assign hr

end v4

section v2

variable {ids : String → Uuid} {db : DbV2}

theorem mem_namesOf {hosts : List HostV2} {name : String} :
    name ∈ namesOf hosts ↔ Named (hosts.map HostV2.atV3) .private_ name := by
  rw [namesOf, List.mem_insertionSort, List.mem_dedup, Named]
  simp only [List.mem_filterMap, List.mem_filter]
  constructor
  · rintro ⟨host, ⟨hin, hlive⟩, hname⟩
    rw [Bool.not_eq_true'] at hlive
    exact ⟨host.atV3, List.mem_map_of_mem hin, hlive, rfl, hname⟩
  · rintro ⟨_, hin, hlive, -, hname⟩
    obtain ⟨host, hhost, rfl⟩ := List.mem_map.mp hin
    change host.header.deleted = false at hlive
    rw [← Bool.not_eq_true'] at hlive
    exact ⟨host, ⟨hhost, hlive⟩, hname⟩

theorem nodup_namesOf (hosts : List HostV2) : (namesOf hosts).Nodup :=
  (List.perm_insertionSort _ _).nodup_iff.mpr (List.nodup_dedup _)

variable {vaultId : String} {deviceId : ℤ} {names : List String} {made : List GroupRow}

/-- A group that the migration to schema 3 writes. -/
def Written (ids : String → Uuid) (vaultId : String) (deviceId : ℤ) (name : String) (group : GroupRow) : Prop :=
  ∃ position, group = newGroup vaultId deviceId (ids name) .private_ name position

/-- Each name gets a group, in turn, and no two have one id. -/
theorem insertGroups_spec {position : ℕ} {groups result : List GroupRow} (hnodup : (groups.map (·.id)).Nodup)
    (h : insertGroups ids vaultId deviceId position names groups = .ok result) :
    (result.map (·.id)).Nodup ∧
      ∃ made, result = groups ++ made ∧ List.Forall₂ (Written ids vaultId deviceId) names made := by
  induction names generalizing position groups with
  | nil =>
    cases h
    exact ⟨hnodup, [], (List.append_nil _).symm, .nil⟩
  | cons name rest ih =>
    generalize hgroup : newGroup vaultId deviceId (ids name) .private_ name (Int64.ofNat position) = group
    rw [insertGroups, hgroup] at h
    split at h
    · cases h
    · next hfree =>
      have hnew : group.id ∉ groups.map (·.id) := by
        intro hin
        obtain ⟨g, hg, hsame⟩ := List.mem_map.mp hin
        exact hfree (List.any_eq_true.mpr ⟨g, hg, beq_iff_eq.mpr hsame⟩)
      have hnodup' : ((groups ++ [group]).map (·.id)).Nodup := by
        rw [List.map_append, List.map_singleton, List.nodup_append_comm, List.singleton_append, List.nodup_cons]
        exact ⟨hnew, hnodup⟩
      obtain ⟨hresult, made, rfl, hforall⟩ := ih hnodup' h
      exact ⟨hresult, group :: made, by rw [List.append_assoc, List.singleton_append], .cons ⟨_, hgroup.symm⟩ hforall⟩

/-- With an id of its own for each name all groups are written. -/
theorem insertGroups_ok {position : ℕ} {groups : List GroupRow}
    (hids : ∀ a ∈ names, ∀ b ∈ names, ids a = ids b → a = b) (hnodup : names.Nodup)
    (hnew : ∀ name ∈ names, uuidText (ids name) ∉ groups.map (·.id)) :
    ∃ result, insertGroups ids vaultId deviceId position names groups = .ok result := by
  induction names generalizing position groups with
  | nil => exact ⟨groups, rfl⟩
  | cons name rest ih =>
    obtain ⟨hnot, hnodup⟩ := List.nodup_cons.mp hnodup
    generalize hgroup : newGroup vaultId deviceId (ids name) .private_ name (Int64.ofNat position) = group
    have hid : group.id = uuidText (ids name) := by rw [← hgroup, newGroup]
    have hfree : ¬ (groups.any fun g => g.id == group.id) = true := by
      intro hused
      obtain ⟨g, hg, hsame⟩ := List.any_eq_true.mp hused
      exact hnew name List.mem_cons_self (List.mem_map.mpr ⟨g, hg, (beq_iff_eq.mp hsame).trans hid⟩)
    have hrest : ∀ other ∈ rest, uuidText (ids other) ∉ (groups ++ [group]).map (·.id) := by
      intro other hother hin
      rw [List.map_append, List.mem_append, List.map_singleton, List.mem_singleton, hid] at hin
      rcases hin with hin | hsame
      · exact hnew other (List.mem_cons_of_mem _ hother) hin
      · exact hnot (hids other (List.mem_cons_of_mem _ hother) name List.mem_cons_self (uuidText_injective hsame) ▸ hother)
    have hidsRest : ∀ a ∈ rest, ∀ b ∈ rest, ids a = ids b → a = b :=
      fun a ha b hb => hids a (List.mem_cons_of_mem _ ha) b (List.mem_cons_of_mem _ hb)
    obtain ⟨result, hresult⟩ := @ih (position + 1) _ hidsRest hnodup hrest
    refine ⟨result, ?_⟩
    rw [insertGroups, hgroup, if_neg hfree, hresult]

/-- A group that is written is one of its name. -/
theorem length_liveGroups_written (h : List.Forall₂ (Written ids vaultId deviceId) names made) (name : String) :
    (liveGroups made .private_ name).length = names.count name ∧ (liveGroups made .business name).length = 0 := by
  simp only [liveGroups, ← List.countP_eq_length_filter]
  induction h with
  | nil => exact ⟨rfl, rfl⟩
  | @cons first g names made hg _ ih =>
    obtain ⟨position, rfl⟩ := hg
    rw [List.countP_cons, List.countP_cons, List.count_cons, ih.1, ih.2]
    exact ⟨rfl, rfl⟩

/-- One group for each name a live host has, and none beside them. -/
structure OneGroupEach (db : DbV3) : Prop where
  ids : (db.groups.map (·.id)).Nodup
  named : ∀ workspace name, Named db.hosts workspace name → (liveGroups db.groups workspace name).length = 1
  unnamed : ∀ workspace name, ¬ Named db.hosts workspace name → (liveGroups db.groups workspace name).length = 0

/-- What a database of schema 2 has become has a group for each name. -/
theorem toV3_spec {db' : DbV3} (h : toV3 ids db = .ok db') :
    db'.hosts = db.hosts.map HostV2.atV3 ∧ OneGroupEach db' := by
  rw [toV3] at h
  cases hinsert : insertGroups ids db.vaultId db.deviceId 0 (namesOf db.hosts) [] with
  | error e =>
    rw [hinsert] at h
    cases h
  | ok result =>
    rw [hinsert] at h
    cases h
    have hnone : (([] : List GroupRow).map (·.id)).Nodup := List.nodup_nil
    obtain ⟨hunique, made, hmade, hforall⟩ := insertGroups_spec hnone hinsert
    rw [List.nil_append] at hmade
    subst hmade
    refine ⟨rfl, hunique, fun workspace name hname => ?_, fun workspace name hnone => ?_⟩
    · cases workspace with
      | private_ =>
        have hin : name ∈ namesOf db.hosts := mem_namesOf.mpr hname
        exact (length_liveGroups_written hforall name).1.trans (List.count_eq_one_of_mem (nodup_namesOf _) hin)
      | business =>
        obtain ⟨_, hin, -, hbusiness, -⟩ := hname
        obtain ⟨host, -, rfl⟩ := List.mem_map.mp hin
        cases hbusiness
    · cases workspace with
      | private_ =>
        have hnot : name ∉ namesOf db.hosts := fun hin => hnone (mem_namesOf.mp hin)
        exact (length_liveGroups_written hforall name).1.trans (List.count_eq_zero.mpr hnot)
      | business => exact (length_liveGroups_written hforall name).2

theorem toV3_ok (hids : ∀ a ∈ namesOf db.hosts, ∀ b ∈ namesOf db.hosts, ids a = ids b → a = b) :
    ∃ db', toV3 ids db = .ok db' := by
  obtain ⟨result, hresult⟩ := @insertGroups_ok ids db.vaultId db.deviceId _ 0 [] hids (nodup_namesOf db.hosts)
    (fun _ _ => List.not_mem_nil)
  exact ⟨db.repaired result, by rw [toV3, hresult]; rfl⟩

/-- What a database of schema 2 has kept from schema 3 on it has kept. -/
theorem keepsGroups_v2 {db' : DbV3} {new : DbV4} (hhosts : db'.hosts = db.hosts.map HostV2.atV3)
    (hone : OneGroupEach db') (h : KeepsGroups (.v3 db') new) : KeepsGroups (.v2 db) new := by
  obtain ⟨hkept, -, hids, hnamed, hunnamed⟩ := h
  change List.Forall₂ _ db'.hosts _ at hkept
  rw [hhosts] at hkept
  refine ⟨hkept, List.nil_prefix, hids, fun workspace name hname => ?_, fun workspace name hnone => ?_⟩
  · change Named (db.hosts.map HostV2.atV3) workspace name at hname
    rw [← hhosts] at hname
    rw [hnamed workspace name hname]
    change max 1 (liveGroups db'.groups workspace name).length = 1
    rw [hone.named workspace name hname]
    rfl
  · change ¬ Named (db.hosts.map HostV2.atV3) workspace name at hnone
    rw [← hhosts] at hnone
    rw [hunnamed workspace name hnone]
    exact hone.unnamed workspace name hnone

end v2

section migrate

variable {ids : Ids} {old : Stored}

/-- Every name has its group already, so none is written. -/
theorem toV4_ok_of_oneGroupEach {ids : Workspace × String → Uuid} {db : DbV3} (h : OneGroupEach db) :
    ∃ new, toV4 ids db = .ok new := by
  have hrows : (db.groups.map (track (·.header))).map (·.row) = db.groups := by
    rw [List.map_map]
    exact List.map_id _
  have hfound : ∀ k ∈ namedBy db.hosts,
      0 < (groupDesk ids db.vaultId db.deviceId).count k (db.groups.map (track (·.header))) := by
    intro ⟨workspace, name⟩ hk
    rw [count_eq_length_liveGroups, hrows, h.named workspace name (mem_namedBy.mp hk)]
    exact Nat.one_pos
  have hassign : ∃ r, (groupDesk ids db.vaultId db.deviceId).assign names setGroup (namedBy db.hosts)
      (db.groups.map (track (·.header))) (db.hosts.map bothColumns) = .ok r := Intern.assign_ok_of_found hfound
  obtain ⟨r, hr⟩ := hassign
  exact toV4_ok_of_assign hr

/-- A database that is there, with ids that are new, and behind the groups it has room for as many as it has hosts. -/
def Stored.Ready (ids : Ids) : Stored → Prop
  | .v2 db => Set.InjOn ids.v3 {name | Named (db.hosts.map HostV2.atV3) .private_ name}
  | .v3 db => db.Ready ids.v4

/-- After the migration to schema 4 every live host is in a live group of its workspace that has the name it
showed, or in none if it showed none; a name in use has one live group, or as many as it had; and nothing else of a
host changes. With ids that are new and room for the groups the migration goes through. -/
theorem migrate_keeps_groups (hunique : (old.groups.map (·.id)).Nodup) :
    (∀ new, migrate ids old = .ok new → KeepsGroups old new) ∧ (old.Ready ids → ∃ new, migrate ids old = .ok new) := by
  cases old with
  | v2 db =>
    constructor
    · intro new hnew
      rw [migrate] at hnew
      cases hmigrated : toV3 ids.v3 db with
      | error e =>
        rw [hmigrated] at hnew
        cases hnew
      | ok db' =>
        rw [hmigrated] at hnew
        obtain ⟨hhosts, hone⟩ := toV3_spec hmigrated
        exact keepsGroups_v2 hhosts hone (toV4_keeps hone.ids hnew)
    · intro hready
      obtain ⟨db', hmigrated⟩ := @toV3_ok ids.v3 db fun a ha b hb => hready (mem_namesOf.mp ha) (mem_namesOf.mp hb)
      obtain ⟨new, hnew⟩ := @toV4_ok_of_oneGroupEach ids.v4 db' (toV3_spec hmigrated).2
      refine ⟨new, ?_⟩
      rw [migrate, hmigrated]
      exact hnew
  | v3 db => exact ⟨fun new hnew => toV4_keeps hunique hnew, fun hready => toV4_ok hready⟩

/-- Ids of two ranges, by the length of the name. -/
def countingIds : Ids where
  v3 name := BitVec.ofNat 128 (100 + name.length)
  v4 named := BitVec.ofNat 128 (200 + named.2.length)

def someHeader : RowHeader :=
  { vaultId := "v", hlcWallMs := 0, hlcCounter := 0, hlcDevice := 1, rev := 1, deleted := false }

def groupRow (id name : String) (position : Int64) : GroupRow :=
  { id, header := someHeader, workspace := .private_, name, position }

/-- A database of schema 3 with one host that names a group. -/
def oneHost (groupPath : String) (groups : List GroupRow) : DbV3 where
  vaultId := "v"
  deviceId := 1
  hosts := [{ id := "h", header := someHeader, name := "web", address := "web.example", port := 22
              identityId := none, lastConnectedMs := none, groupPath := some groupPath
              workspace := .private_, position := 0, osId := none }]
  groups
  identities := []
  keys := []
  secrets := []

/-- A name whose only group is deleted gets a live one. -/
theorem migrate_deleted_group : ∃ new,
    migrate countingIds (.v3 (oneHost "a" [{ groupRow "g" "a" 0 with header.deleted := true }])) = .ok new ∧
      KeepsGroups (.v3 (oneHost "a" [{ groupRow "g" "a" 0 with header.deleted := true }])) new := by
  have hnamed : ∀ named : Workspace × String,
      Named (oneHost "a" [{ groupRow "g" "a" 0 with header.deleted := true }]).hosts named.1 named.2 →
        named = (.private_, "a") := by
    rintro named ⟨host, hin, -, hworkspace, hname⟩
    rw [oneHost, List.mem_singleton] at hin
    subst hin
    exact Prod.ext hworkspace.symm (Option.some_inj.mp hname).symm
  have hready : Stored.Ready countingIds
      (.v3 (oneHost "a" [{ groupRow "g" "a" 0 with header.deleted := true }])) := by
    refine ⟨fun a ha b hb _ => ?_, fun named h => ?_, by decide, by decide⟩
    · rw [hnamed a ha, hnamed b hb]
    · rw [hnamed named h]
      decide
  have hboth := @migrate_keeps_groups countingIds
    (.v3 (oneHost "a" [{ groupRow "g" "a" 0 with header.deleted := true }])) (by decide)
  obtain ⟨new, hnew⟩ := hboth.2 hready
  exact ⟨new, hnew, hboth.1 new hnew⟩

/-- Two groups of one name are both there afterwards. Behind the last place there is no room for another. -/
theorem twin_groups_stay :
    (∃ new, migrate countingIds (.v3 (oneHost "a" [groupRow "g" "a" 0, groupRow "g2" "a" 1])) = .ok new ∧
      (liveGroups (new.groups.map (·.row)) .private_ "a").length = 2) ∧
    migrate countingIds (.v3 (oneHost "a" [groupRow "g" "b" Int64.maxValue])) = .error .sqlite := by
  refine ⟨⟨_, rfl, by decide⟩, rfl⟩

end migrate

end UwuSsh.Schema

import UwuSsh.Store.Backup
import UwuSsh.Store.ImportFacts
import UwuSsh.Store.LocalEdits

/-!
What an export says, and what reading it in does in the store it was written from: everything is there
already, so that nothing is written.
-/
namespace UwuSsh

open Text Fallible InTx

namespace Store

/-! ### What a file says -/

section said

variable {render : Payload → String} {s : Store} {secrets : Bool}

theorem forall₂_of_getElem? {α β : Type} {p : α → β → Prop} {l : List α} {l' : List β} (h : List.Forall₂ p l l') :
    ∀ {i : ℕ} {b : β}, l'[i]? = some b → ∃ a, l[i]? = some a ∧ p a b := by
  induction h with
  | nil =>
    intro i b hget
    cases hget
  | cons hfirst _ ih =>
    intro i b hget
    cases i with
    | zero => exact ⟨_, rfl, Option.some.inj hget ▸ hfirst⟩
    | succ i => exact ih hget

/-- A host of a file beside the one it was written from. -/
structure HostSaid (record : HostRecord) (host : BackupHost) : Prop where
  address : host.address = record.address
  port : host.port = record.port
  username : host.username = record.username

structure KeySaid (record : KeyRecord) (key : BackupKey) : Prop where
  label : key.label = record.label
  keyType : key.keyType = record.keyType

theorem exportHost_said {keys : List KeyRecord} {record : HostRecord} {host : BackupHost}
    (h : s.exportHost render secrets keys record = .ok host) : HostSaid record host := by
  obtain ⟨password, -, hhost⟩ := bind_ok h
  cases hhost
  exact ⟨rfl, rfl, rfl⟩

theorem exportKey_said {record : KeyRecord} {key : BackupKey} (h : s.exportKey render secrets record = .ok key) :
    KeySaid record key := by
  obtain ⟨halves, -, hkey⟩ := bind_ok h
  cases hkey
  exact ⟨rfl, rfl⟩

/-- What a file has of the store it was written from, and what tells its records apart on the way back. -/
structure Said (s : Store) (backup : Backup) : Prop where
  groups : backup.groups = s.listGroups.map fun group => { workspace := group.workspace, name := group.name }
  hosts : List.Forall₂ HostSaid s.listHosts backup.hosts
  keys : List.Forall₂ KeySaid s.listKeys backup.keys
  snippets : backup.snippets = s.listSnippets
  tunnels : backup.tunnels = s.listTunnels.filterMap (exportTunnel s.listHosts)

theorem said_of_export {backup : Backup} (h : s.exportBackup render secrets = .ok backup) : s.Said backup := by
  unfold exportBackup at h
  split at h
  · cases h
  obtain ⟨keys, hkeys, h⟩ := bind_ok h
  obtain ⟨hosts, hhosts, h⟩ := bind_ok h
  cases h
  exact ⟨rfl, forall₂_of_mapM exportHost_said hhosts, forall₂_of_mapM exportKey_said hkeys, rfl, rfl⟩

end said

/-! ### Back into the same store -/

/-- What the forms see to: no white space around an address, groups called as typed in a workspace there is,
and no two hosts of the same address, port and user. -/
structure Tidy (s : Store) : Prop where
  address : ∀ host ∈ s.listHosts, trim host.address = host.address
  workspace : ∀ e ∈ s.liveRows .group, (Workspace.parse (GroupCols.workspace e.2.cols)).asStr = GroupCols.workspace e.2.cols
  group : ∀ group ∈ s.listGroups, groupName (some group.name) = .ok (some group.name)
  apart : ∀ host ∈ s.listHosts, ∀ other ∈ s.listHosts,
    hostMatch other.address other.port other.username = hostMatch host.address host.port host.username →
      other.id = host.id

section back

variable {s : Store} {backup : Backup}

theorem mem_listHosts {record : HostRecord} (h : record ∈ s.listHosts) :
    ∃ id, ∃ row : Row HostCols, s.live? .host id = some row ∧ s.hostFromRow (id, row) = record := by
  have hmem : record ∈ (s.liveRows .host).map s.hostFromRow := (List.mem_insertionSort _).mp h
  obtain ⟨⟨id, row⟩, hrow, heq⟩ := List.mem_map.mp hmem
  exact ⟨id, row, mem_liveRows.mp hrow, heq⟩

theorem mem_listKeys {record : KeyRecord} (h : record ∈ s.listKeys) :
    ∃ id, ∃ row : Row KeyCols, s.live? .key id = some row ∧ record.label = row.cols.label ∧
      record.keyType = row.cols.keyType := by
  have hmem : record ∈ (s.liveRows .key).map s.keyFromRow := (List.mem_insertionSort _).mp h
  obtain ⟨⟨id, row⟩, hrow, rfl⟩ := List.mem_map.mp hmem
  exact ⟨id, row, mem_liveRows.mp hrow, rfl, rfl⟩

/-- A name that is listed is called so in its workspace. -/
theorem called_of_listed (htidy : s.Tidy) {group : GroupRecord} (hmem : group ∈ s.listGroups) :
    ∃ id, s.Called group.workspace group.name id := by
  unfold listGroups at hmem
  rw [List.mem_insertionSort, List.mem_map] at hmem
  obtain ⟨⟨id, row⟩, hrow, rfl⟩ := hmem
  have hlive := (List.mem_filter.mp hrow).1
  exact ⟨id, row, mem_liveRows.mp hlive, (htidy.workspace (id, row) hlive).symm, rfl⟩

theorem usernameOf_importSet {host : BackupHost} {i : ℕ} (hget : backup.hosts[i]? = some host) :
    backup.importSet.usernameOf (Backup.hostInput i host) = host.username := by
  have hidentity : backup.importSet.identities[i]? = some (backup.loginInput host) := by
    show (backup.hosts.map backup.loginInput)[i]? = _
    rw [List.getElem?_map, hget]
    rfl
  unfold ImportSet.usernameOf ImportSet.loginOf
  show (((some i).bind fun i => backup.importSet.identities[i]?.map fun identity => (i, identity)).bind
    fun e => e.2.username).getD "" = _
  rw [Option.bind_some, hidentity]
  rfl

/-- A user name of a host that an import would take has no white space anywhere. -/
theorem trim_of_isPlausible {host : HostInput} {username : String} (h : isPlausible host username = true) :
    trim username = username := by
  refine trim_of_not_white fun c hc => ?_
  unfold isPlausible at h
  simp only [Bool.and_eq_true, Bool.not_eq_true'] at h
  have hany := h.1.1.1.1.2
  rw [List.any_eq_false] at hany
  have hwhite := hany c hc
  simp only [Bool.or_eq_true, not_or, Bool.not_eq_true] at hwhite
  exact hwhite.1

theorem group_settled (htidy : s.Tidy) (h : s.Said backup) {group : GroupInput}
    (hmem : group ∈ backup.groups) : Writer.GroupSettled group s := by
  rw [h.groups] at hmem
  obtain ⟨record, hlisted, rfl⟩ := List.mem_map.mp hmem
  refine ⟨some record.name, htidy.group record hlisted, fun n hn => ?_⟩
  cases hn
  exact called_of_listed htidy hlisted

theorem host_settled (hs : s.Referential) (htidy : s.Tidy) (h : s.Said backup) {host : BackupHost} {i : ℕ}
    (hget : backup.hosts[i]? = some host) : Writer.Settled backup.importSet (Backup.hostInput i host) s := by
  intro hpasses _
  rw [usernameOf_importSet hget] at hpasses ⊢
  obtain ⟨record, hrecord, hsaid⟩ := forall₂_of_getElem? h.hosts hget
  have hlisted := List.mem_of_getElem? hrecord
  have haddress := htidy.address record hlisted
  obtain ⟨id, row, hlive, rfl⟩ := mem_listHosts hlisted
  have hlogin : s.LogsInAs row.cols.identityId (s.loginName row.cols) :=
    logsInAs_loginName fun target htarget => hs.identity (live?_eq_some.mp hlive).1 htarget
  refine ⟨id, row, hlive, ?_, hsaid.port.symm, ?_⟩
  · show asciiLower row.cols.address = asciiLower (trim host.address)
    rw [hsaid.address]
    exact congrArg asciiLower haddress.symm
  · rw [trim_of_isPlausible hpasses, hsaid.username]
    exact hlogin

theorem key_there (h : s.Said backup) {input : KeyInput} (hmem : input ∈ backup.usableKeys) :
    s.keyExists input = true := by
  obtain ⟨key, hkey, hinput⟩ := List.mem_filterMap.mp hmem
  obtain ⟨privateKey, -, rfl⟩ := Option.map_eq_some_iff.mp hinput
  obtain ⟨i, hget⟩ := List.mem_iff_getElem?.mp hkey
  obtain ⟨record, hrecord, hsaid⟩ := forall₂_of_getElem? h.keys hget
  obtain ⟨id, row, hlive, hlabel, htype⟩ := mem_listKeys (List.mem_of_getElem? hrecord)
  refine List.any_eq_true.mpr ⟨(id, row), mem_liveRows.mpr hlive, ?_⟩
  simp [hsaid.label, hsaid.keyType, hlabel, htype]

theorem snippet_there (h : s.Said backup) {snippet : SnippetInput} (hmem : snippet ∈ backup.snippets) :
    s.snippetExists snippet = true := by
  rw [h.snippets] at hmem
  have hlisted := (List.mem_insertionSort _).mp hmem
  obtain ⟨⟨id, row⟩, hlive, rfl⟩ := List.mem_map.mp hlisted
  refine List.any_eq_true.mpr ⟨(id, row), hlive, ?_⟩
  simp

theorem hosts_importSet {input : HostInput} (h : input ∈ backup.importSet.hosts) :
    ∃ i host, backup.hosts[i]? = some host ∧ input = Backup.hostInput i host := by
  obtain ⟨⟨host, i⟩, hzip, rfl⟩ := List.mem_map.mp h
  exact ⟨i, host, List.mk_mem_zipIdx_iff_getElem?.mp hzip, rfl⟩

/-- Everything a file was written from is there, so there is nothing to import. -/
theorem finished_of_said (hs : s.Referential) (htidy : s.Tidy) (h : s.Said backup) :
    Writer.Finished backup.importSet s where
  groups _ hmem := group_settled htidy h hmem
  hosts _ hmem := by
    obtain ⟨i, host, hget, rfl⟩ := hosts_importSet hmem
    exact host_settled hs htidy h hget
  keys e hmem := .inr (key_there h (List.mem_of_getElem? (List.mk_mem_zipIdx_iff_getElem?.mp hmem)))
  snippets _ hmem := snippet_there h hmem

/-! What each step does when there is nothing to add. -/

theorem hosts_rest {draws : Draws} {set : ImportSet} {tx : Tx} {hosts : List HostInput}
    (h : ∀ host ∈ hosts, Writer.Settled set host tx.store) (haddress : ∀ host ∈ hosts, trim host.address = host.address)
    (w : Writer) : Rests (hosts.foldlM (Writer.host draws set) (w, [])) tx
      ({ w with outcome.hostsSkipped := w.outcome.hostsSkipped + hosts.length }, []) := by
  induction hosts generalizing w with
  | nil => exact rests_pure
  | cons host rest ih =>
    rw [List.foldlM_cons]
    refine (Writer.host_rests draws (h host List.mem_cons_self) (haddress host List.mem_cons_self)).bind ?_
    have hrest := ih (fun other hother => h other (List.mem_cons_of_mem _ hother))
      (fun other hother => haddress other (List.mem_cons_of_mem _ hother)) w.skip
    have hcount : w.skip.outcome.hostsSkipped + rest.length = w.outcome.hostsSkipped + (host :: rest).length := by
      show w.outcome.hostsSkipped + 1 + rest.length = w.outcome.hostsSkipped + (rest.length + 1)
      omega
    rw [hcount] at hrest
    exact hrest

/-- An import with nothing to do skips every host, and adds nothing. -/
theorem write_skips (draws : Draws) {set : ImportSet} {tx : Tx} (h : Writer.Finished set tx.store)
    (haddress : ∀ host ∈ set.hosts, trim host.address = host.address) :
    Rests (Writer.write draws set) tx { hostsSkipped := set.hosts.length } := by
  obtain ⟨_, hgroups, -⟩ := rests_foldlM (fun _ : Unit => True)
    (fun group hgroup _ _ => ⟨(), Writer.writeGroup_rests draws (h.groups group hgroup), trivial⟩) trivial
  obtain ⟨w, hw, hhosts⟩ : ∃ w : Writer, w.outcome = { hostsSkipped := set.hosts.length } ∧
      Rests (set.hosts.foldlM (Writer.host draws set) ({}, [])) tx (w, []) :=
    ⟨_, by simp, hosts_rest h.hosts haddress {}⟩
  obtain ⟨w, hkeys, rfl⟩ := rests_foldlM (fun b : Writer => b = w)
    (fun e he b hb => ⟨b, Writer.spareKey_rests draws (h.keys e he), hb⟩) rfl
  obtain ⟨w, hknown, rfl⟩ := rests_foldlM (fun b : Writer => b = w)
    (fun known (_ : known ∈ set.knownHosts) b hb => ⟨b, Writer.knownHost_rests draws, hb⟩) rfl
  obtain ⟨w, hsnippets, rfl⟩ := rests_foldlM (fun b : Writer => b = w)
    (fun input hinput b hb => ⟨b, Writer.snippet_rests draws (h.snippets input hinput), hb⟩) rfl
  rw [← hw]
  exact hgroups.bind (hhosts.bind (hkeys.bind (hknown.bind (hsnippets.bind rests_pure))))

theorem importTunnels_rests {draws : ℕ → Draws} {hostOf : BackupTunnel → Option Uuid} {before : List Uuid}
    {existing : List (Uuid × String × String × UInt16 × String × UInt16)} {added : ℕ} {tunnels : List BackupTunnel}
    (h : ∀ tunnel ∈ tunnels, ∀ host, hostOf tunnel = some host → tunnel.match_ host ∈ existing) :
    importTunnels draws hostOf before tunnels existing added s = (s, .ok added) := by
  induction tunnels with
  | nil => rfl
  | cons tunnel rest ih =>
    have hrest := ih fun other hother => h other (List.mem_cons_of_mem _ hother)
    unfold importTunnels
    cases hhost : hostOf tunnel with
    | none => exact hrest
    | some host =>
      have hthere := h tunnel List.mem_cons_self host hhost
      show (if existing.contains (tunnel.match_ host) = true then _ else _) = _
      rw [if_pos (List.contains_iff_mem.mpr hthere)]
      exact hrest

theorem mem_of_hostMatching {key : String × UInt16 × String} {id : Uuid} (h : s.hostMatching key = some id) :
    ∃ found ∈ s.listHosts, hostMatch found.address found.port found.username = key ∧ found.id = id := by
  obtain ⟨found, hfound, hid⟩ := Option.map_eq_some_iff.mp h
  have hsame : (hostMatch found.address found.port found.username == key) = true :=
    List.find?_some (p := fun host : HostRecord => hostMatch host.address host.port host.username == key) hfound
  exact ⟨found, List.mem_reverse.mp (List.mem_of_find?_eq_some hfound), eq_of_beq hsame, hid⟩

/-- A tunnel of the file goes back onto the host it was on, and is there. -/
theorem tunnel_there (htidy : s.Tidy) (h : s.Said backup) {tunnel : BackupTunnel} (hmem : tunnel ∈ backup.tunnels)
    {host : Uuid} (hhost : backup.tunnelHosts[tunnel.host]?.bind s.hostMatching = some host) :
    tunnel.match_ host ∈ s.listTunnels.map TunnelRecord.match_ := by
  rw [h.tunnels] at hmem
  obtain ⟨record, hrecord, hexport⟩ := List.mem_filterMap.mp hmem
  obtain ⟨i, hindex, rfl⟩ := Option.map_eq_some_iff.mp hexport
  obtain ⟨hlt, hid, -⟩ := List.findIdx?_eq_some_iff_getElem.mp hindex
  obtain ⟨said, hsaid, hmatching⟩ := Option.bind_eq_some_iff.mp hhost
  have hmap : backup.hosts[i]?.map (fun host => hostMatch host.address host.port host.username) = some said :=
    (List.getElem?_map ..).symm.trans hsaid
  obtain ⟨other, hother, rfl⟩ := Option.map_eq_some_iff.mp hmap
  obtain ⟨owner, howner, hfields⟩ := forall₂_of_getElem? h.hosts hother
  obtain ⟨found, hlisted, hsame, rfl⟩ := mem_of_hostMatching hmatching
  rw [hfields.address, hfields.port, hfields.username] at hsame
  have hfoundId : found.id = owner.id := htidy.apart owner (List.mem_of_getElem? howner) found hlisted hsame
  have hownerId : owner.id = record.hostId := by
    rw [List.getElem?_eq_getElem hlt] at howner
    cases howner
    exact eq_of_beq hid
  rw [hfoundId, hownerId]
  exact List.mem_map.mpr ⟨record, hrecord, rfl⟩

/-- Reading a file into the store it was written from changes nothing, and skips every host; one too
large to read in is refused. -/
theorem export_reads_back {render : Payload → String} {secrets : Bool} (hs : s.Referential) (htidy : s.Tidy)
    (h : s.exportBackup render secrets = .ok backup) (draws : Draws) (tunnelDraws : ℕ → Draws) :
    (s.importBackup draws tunnelDraws backup).1 = s ∧
      (backup.importSet.tooLarge = true → (s.importBackup draws tunnelDraws backup).2 =
        .error (.exportFile "more than 50000 entries of one kind is not something to import")) ∧
      (backup.importSet.tooLarge = false →
        (s.importBackup draws tunnelDraws backup).2 = .ok { hostsSkipped := s.listHosts.length }) := by
  have hsaid := said_of_export h
  have hdone : Writer.Finished backup.importSet ({ store := s, drawn := 0 } : Tx).store := finished_of_said hs htidy hsaid
  have haddress : ∀ host ∈ backup.importSet.hosts, trim host.address = host.address := by
    intro input hmem
    obtain ⟨i, host, hget, rfl⟩ := hosts_importSet hmem
    obtain ⟨record, hrecord, hfields⟩ := forall₂_of_getElem? hsaid.hosts hget
    show trim host.address = host.address
    rw [hfields.address]
    exact htidy.address record (List.mem_of_getElem? hrecord)
  have hlength : backup.importSet.hosts.length = s.listHosts.length := by
    show (backup.hosts.zipIdx.map _).length = _
    rw [List.length_map, List.length_zipIdx]
    exact hsaid.hosts.length_eq.symm
  have hskips := write_skips draws hdone haddress
  rw [hlength] at hskips
  have htunnels : s.importTunnelsOf tunnelDraws backup (s.listHosts.map (·.id)) = (s, .ok 0) :=
    importTunnels_rests fun tunnel hmem host hhost => tunnel_there htidy hsaid hmem hhost
  unfold importBackup
  cases hlarge : backup.importSet.tooLarge with
  | true =>
    have herror : (importInto draws backup.importSet).commit s =
        .error (.exportFile "more than 50000 entries of one kind is not something to import") := by
      rw [importInto, if_pos hlarge]
      rfl
    rw [herror]
    exact ⟨rfl, fun _ => rfl, fun hsmall => absurd hsmall (by simp)⟩
  | false =>
    have hcommit : (importInto draws backup.importSet).commit s = .ok ({ hostsSkipped := s.listHosts.length }, s) := by
      unfold Rests at hskips
      rw [importInto, if_neg (by rw [hlarge]; simp), InTx.commit, hskips]
      rfl
    rw [hcommit]
    dsimp only
    rw [htunnels]
    exact ⟨rfl, fun hbig => absurd hbig (by simp), fun _ => rfl⟩

end back

/-! ### A host with a tunnel -/

section tunnelled

/-- What a tidy store is, run over its lists. -/
def looksTidy (s : Store) : Bool :=
  let groups : List (Uuid × Row GroupCols) := s.liveRows .group
  (s.listHosts.all fun host => trim host.address == host.address) &&
    (groups.all fun e => (Workspace.parse e.2.cols.workspace).asStr == e.2.cols.workspace) &&
    (s.listGroups.all fun group => (groupName (some group.name)).toOption == some (some group.name)) &&
    s.listHosts.all fun host => s.listHosts.all fun other =>
      hostMatch other.address other.port other.username != hostMatch host.address host.port host.username ||
        other.id == host.id

theorem tidy_of_looksTidy {s : Store} (h : s.looksTidy = true) : s.Tidy := by
  unfold looksTidy at h
  simp only [Bool.and_eq_true, List.all_eq_true] at h
  obtain ⟨⟨⟨haddress, hworkspace⟩, hgroup⟩, hapart⟩ := h
  refine ⟨fun host hmem => eq_of_beq (haddress host hmem), fun e hmem => eq_of_beq (List.all_eq_true.mp hworkspace e hmem),
    fun group hmem => ?_, fun host hmem other hother hsame => ?_⟩
  · exact ok_of_toOption (eq_of_beq (hgroup group hmem))
  · rcases Bool.or_eq_true_iff.mp (hapart host hmem other hother) with hne | heq
    · exact absurd hsame (bne_iff_ne.mp hne)
    · exact eq_of_beq heq

def tunnelledDraft : TunnelDraft where
  id := none
  hostId := 1
  name := ""
  kind := "local"
  bindAddress := none
  bindPort := 5433
  targetHost := "db.internal"
  targetPort := 5432
  autostart := true

def tunnelled : Store :=
  (LocalEdit.saveTunnel tunnelledDraft).on laterDraws ((LocalEdit.saveHost webDraft).on countingDraws sharedLogin)

def exportedFile (s : Store) (secrets : Bool) : Except LocalError Backup := s.exportBackup (fun _ => "") secrets

theorem export_reads_back_tunnelled : ∃ backup, exportedFile tunnelled true = .ok backup ∧
    backup.hosts.any (·.password == some "secret") = true ∧ backup.tunnels.length = 1 ∧
    tunnelled.importBackup laterDraws (fun _ => laterDraws) backup = (tunnelled, .ok { hostsSkipped := 2 }) := by
  have hexport : (exportedFile tunnelled true).toOption.any (fun backup =>
      backup.hosts.any (·.password == some "secret") && backup.tunnels.length == 1 &&
        !backup.importSet.tooLarge) = true := by
    decide +kernel
  obtain ⟨backup, hsome, hfacts⟩ := (Option.any_eq_true _ _).mp hexport
  simp only [Bool.and_eq_true, beq_iff_eq, Bool.not_eq_true'] at hfacts
  obtain ⟨⟨hpassword, hone⟩, hsize⟩ := hfacts
  have hs : tunnelled.Referential := Store.referential_of_references (by decide +kernel)
  have htidy : tunnelled.Tidy := tidy_of_looksTidy (by decide +kernel)
  have hlength : tunnelled.listHosts.length = 2 := by decide +kernel
  obtain ⟨hsame, -, hskips⟩ := export_reads_back hs htidy (ok_of_toOption hsome) laterDraws fun _ => laterDraws
  refine ⟨backup, ok_of_toOption hsome, hpassword, hone, Prod.ext hsame ?_⟩
  rw [← hlength]
  exact hskips hsize

end tunnelled

end Store

end UwuSsh

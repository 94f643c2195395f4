import UwuSsh.Team.Contract

/-!
Every program of the teams keeps to the contract. Most only ask, read and write as any
program may; where a key changes or is no longer owed, what was checked before is
carried along: a key that was opened came in a wrap, a key that is taken follows the one that is
held, and a rotation that took effect left out whoever was taken out.
-/
namespace UwuSsh

open Script

namespace Teams

variable {handed : WrapContext → TeamKeys → Prop} {made : VaultKey → Prop}
  {start : Uuid → ℕ × VaultKey → Prop} {g : Ledger} {s : TeamDevice} {team : Uuid} {α : Type}

section basics

theorem keeps_commit {f : TeamDevice → TeamDevice} (h : ∀ g s, LedgerInv handed made start g s →
    LedgerInv handed made start (g.wrote s (f s)) (f s)) :
    Keeps (teamContract handed made start) (commit f) :=
  Keeps.modify fun g s hinv _ => ⟨trivial, h g s hinv⟩

theorem keeps_ask (q : TeamAsk) : Keeps (teamContract handed made start) (ask q) :=
  Keeps.query fun _ _ hinv => ⟨trivial, fun a _ => LedgerInv.asked hinv q a⟩

theorem keeps_expect {answer : TeamScript (Except TeamError α)}
    (h : Keeps (teamContract handed made start) answer) :
    Keeps (teamContract handed made start) (expect answer) :=
  h.bind Keeps.ofExcept

theorem keeps_account : Keeps (teamContract handed made start) account := by
  refine Keeps.get.bind fun d => ?_
  cases d.account with
  | none => exact Keeps.fail _
  | some account => exact Keeps.done account

theorem keeps_ownVault : Keeps (teamContract handed made start) ownVault := by
  refine Keeps.get.bind fun d => ?_
  cases d.ownVault with
  | none => exact Keeps.fail _
  | some vault => exact Keeps.done vault

theorem keeps_teamNoteKey (record : TeamKeyRecord) :
    Keeps (teamContract handed made start) (teamNoteKey team record) :=
  (Keeps.ofExcept _).bind fun _ => keeps_ownVault.bind fun _ =>
    keeps_commit fun _ _ h => h.noteKey _ _

theorem keeps_teamForgetKey : Keeps (teamContract handed made start) (teamForgetKey team) :=
  keeps_commit fun _ _ h => h.noteKey _ _

theorem keeps_teamPin (account : Uuid) :
    Keeps (teamContract handed made start) (teamPin team account) :=
  keeps_ownVault.bind fun _ => Keeps.get.bind fun d => Keeps.done (d.pins team account)

theorem keeps_teamNotePin (account : Uuid) (pin : MemberPin) :
    Keeps (teamContract handed made start) (teamNotePin team account pin) :=
  keeps_ownVault.bind fun _ => keeps_commit fun _ _ h => h.notePin _ _ _

theorem keeps_teamUnpinMember (account : Uuid) :
    Keeps (teamContract handed made start) (teamUnpinMember team account) :=
  keeps_commit fun _ _ h => h.notePin _ _ _

theorem keeps_teamOwesKey : Keeps (teamContract handed made start) (teamOwesKey team) :=
  keeps_ownVault.bind fun _ => Keeps.get.bind fun d => Keeps.done (d.owes team)

/-- Reading the account's own vault changes nothing, whatever a program is held to. -/
theorem ownVault_wp {γ : Type} {c : Contract TeamDevice TeamAsk TeamAnswer γ} {g : γ}
    {post : Except TeamError UnlockedVault → γ → TeamDevice → Prop} (h : ∀ r, post r g s) :
    ownVault.wp c post g s := by
  unfold ownVault
  rw [wp_bind, wp_get]
  dsimp only
  cases s.ownVault <;> exact h _

theorem commit_wp {f : TeamDevice → TeamDevice}
    {post : Except TeamError Unit → Ledger → TeamDevice → Prop}
    (hinv : LedgerInv handed made start (g.wrote s (f s)) (f s)) (herr : ∀ e, post (.error e) g s)
    (hok : post (.ok ()) (g.wrote s (f s)) (f s)) :
    (commit f).wp (teamContract handed made start) post g s :=
  wp_modify.mpr ⟨fun _ => ⟨trivial, hinv, hok⟩, herr _⟩

theorem ask_wp {q : TeamAsk} {post : Except TeamError (TeamAnswer q) → Ledger → TeamDevice → Prop}
    (hinv : LedgerInv handed made start g s)
    (h : ∀ a, Named handed made q a → LedgerInv handed made start (g.asked s q a) s →
      post (.ok a) (g.asked s q a) s) : (ask q).wp (teamContract handed made start) post g s :=
  wp_query.mpr ⟨trivial, fun a ha => ⟨hinv.asked q a, h a ha (hinv.asked q a)⟩⟩

theorem fileOf_wp {post : Except TeamError TeamFile → Ledger → TeamDevice → Prop}
    (hinv : LedgerInv handed made start g s) (herr : ∀ e, post (.error e) g s)
    (hok : ∀ epoch key row space, s.Holds team epoch key row space → post (.ok space.file) g s) :
    (fileOf team).wp (teamContract handed made start) post g s := by
  unfold fileOf
  rw [wp_bind, wp_get]
  dsimp only
  cases hspace : s.teamSpace team with
  | none => exact herr _
  | some space =>
    obtain ⟨epoch, key, row, hhere⟩ := hinv.holds hspace
    exact hok epoch key row space hhere

/-- One transaction on the file of a team's space. -/
theorem onFile_wp {f : TeamFile → Except TxError TeamFile} {epoch : ℕ} {key : VaultKey}
    {row : TeamRow} {space : TeamSpace} {post : Except TeamError Unit → Ledger → TeamDevice → Prop}
    (hhere : s.Holds team epoch key row space) (herr : ∀ e, post (.error e) g s)
    (hok : ∀ file, f space.file = .ok file →
      LedgerInv handed made start (g.wrote s (s.setFile team file)) (s.setFile team file) ∧
        post (.ok ()) (g.wrote s (s.setFile team file)) (s.setFile team file)) :
    (onFile team f).wp (teamContract handed made start) post g s := by
  unfold onFile fileOf
  rw [wp_bind, wp_bind, wp_get]
  dsimp only
  rw [hhere.found]
  dsimp only
  rw [wp_done]
  dsimp only
  rw [wp_bind, wp_ofExcept]
  cases hfile : f space.file with
  | error e => exact herr _
  | ok file =>
    obtain ⟨hnext, hpost⟩ := hok file hfile
    exact commit_wp hnext herr hpost

/-- A device that is as it was, as far as an account, a team's key and its pins go. -/
structure SameTeam (team : Uuid) (s t : TeamDevice) : Prop where
  account : t.account = s.account
  pins : t.pins team = s.pins team
  key : t.keyOf team = s.keyOf team

theorem SameTeam.refl : SameTeam team s s := ⟨rfl, rfl, rfl⟩

theorem SameTeam.trans {t u : TeamDevice} (h : SameTeam team s t) (h' : SameTeam team t u) :
    SameTeam team s u :=
  ⟨h'.account.trans h.account, h'.pins.trans h.pins, h'.key.trans h.key⟩

/-- A transaction on a team's file that leaves its key alone. -/
theorem SameTeam.setFile {epoch : ℕ} {key : VaultKey} {row row' : TeamRow}
    {space : TeamSpace} {file : TeamFile} (hhere : s.Holds team epoch key row space)
    (hfile : file.HoldsKey team epoch key row') : SameTeam team s (s.setFile team file) :=
  ⟨rfl, rfl, by rw [(hhere.setFile hfile).underKey, hhere.underKey]⟩

/-- A transaction that leaves alone what a team's space knows of its key. -/
def Harmless (team : Uuid) (f : TeamFile → Except TxError TeamFile) : Prop :=
  ∀ file file' epoch key row, TeamFile.HoldsKey file team epoch key row → f file = .ok file' →
    ∃ row', TeamFile.HoldsKey file' team epoch key row' ∧
      (∀ pending, row'.pending = some pending → row.pending = some pending) ∧
      (row.rotationOwed = true → row'.rotationOwed = true)

theorem onFile_same_wp {f : TeamFile → Except TxError TeamFile} (hf : Harmless team f)
    {post : Except TeamError Unit → Ledger → TeamDevice → Prop}
    (hinv : LedgerInv handed made start g s) (herr : ∀ e, post (.error e) g s)
    (hok : ∀ g' s', LedgerInv handed made start g' s' → SameTeam team s s' → post (.ok ()) g' s') :
    (onFile team f).wp (teamContract handed made start) post g s := by
  cases hspace : s.teamSpace team with
  | none =>
    unfold onFile fileOf
    rw [wp_bind, wp_bind, wp_get]
    dsimp only
    rw [hspace]
    exact herr _
  | some space =>
    obtain ⟨epoch, key, row, hhere⟩ := hinv.holds hspace
    refine onFile_wp hhere herr fun file hfile => ?_
    obtain ⟨row', hfile', hpending, howed⟩ := hf _ _ epoch key row hhere.file hfile
    have hnext := hinv.setFile hhere hfile' (.inl rfl) (fun pending h => .inl (hpending pending h))
      fun h => .inl (howed h)
    exact ⟨hnext, hok _ _ hnext (.setFile hhere hfile')⟩

theorem keeps_onFile {f : TeamFile → Except TxError TeamFile} (hf : Harmless team f) :
    Keeps (teamContract handed made start) (onFile team f) := fun _ _ hinv =>
  onFile_same_wp hf hinv (fun _ => hinv) fun _ _ h _ => h

theorem harmless_putRecords (records : Store) :
    Harmless team fun file => .ok (putRecords records file) := by
  intro file file' epoch key row hfile hput
  obtain rfl := Except.ok.inj hput
  exact ⟨row, hfile.keep hfile.here rfl rfl rfl rfl, fun _ h => h, fun h => h⟩

theorem harmless_teamRequeue : Harmless team fun file => .ok file.teamRequeue.1 := by
  intro file file' epoch key row hfile hput
  obtain rfl := Except.ok.inj hput
  obtain ⟨row', hfile', hpending, howed, -⟩ := TeamFile.teamRequeue_holds hfile
  exact ⟨row', hfile', fun p h => by rw [← hpending, h], fun h => by rw [howed, h]⟩

theorem harmless_teamForgetRotation : Harmless team fun file => .ok file.teamForgetRotation := by
  intro file file' epoch key row hfile hput
  obtain rfl := Except.ok.inj hput
  exact ⟨_, TeamFile.teamForgetRotation_holds hfile, (fun _ h => by cases h), fun h => h⟩

theorem harmless_teamDropMailboxPin (account : Uuid) (nowMs : UInt64) :
    Harmless team fun file => file.teamDropMailboxPin account nowMs := by
  intro file file' epoch key row hfile hdrop
  exact ⟨row, (TeamFile.teamDropMailboxPin_ok hfile hdrop).1, fun _ h => h, fun h => h⟩

theorem keeps_fileOf : Keeps (teamContract handed made start) (fileOf team) := fun _ _ hinv =>
  fileOf_wp hinv (fun _ => hinv) fun _ _ _ _ _ => hinv

end basics

section server

theorem keeps_identity (make : Bool) (account : Uuid) :
    Keeps (teamContract handed made start) (identity make account) := by
  refine (keeps_expect (keeps_ask _)).bind fun found => ?_
  cases found with
  | some found => exact Keeps.done _
  | none =>
    cases make with
    | false => exact Keeps.done _
    | true =>
      refine (keeps_ask _).bind fun fresh => keeps_ownVault.bind fun vault =>
        (keeps_ask _).bind fun answer => ?_
      cases answer with
      | ok put => exact Keeps.done _
      | error e =>
        dsimp only
        split
        · refine (keeps_expect (keeps_ask _)).bind fun again => ?_
          cases again with
          | some again => exact Keeps.done _
          | none => exact Keeps.fail _
        · exact Keeps.fail _

theorem keeps_member (make : Bool) : Keeps (teamContract handed made start) (member make) := by
  refine keeps_account.bind fun account => (keeps_identity make account).bind fun found => ?_
  cases found with
  | none => exact Keeps.done _
  | some found =>
    dsimp only
    split
    · exact Keeps.fail _
    · refine keeps_ownVault.bind fun vault => ?_
      split
      · exact Keeps.fail _
      · exact Keeps.fail _
      · split
        · exact Keeps.fail _
        · exact Keeps.done _

/-- The wrap that comes with a team is one the server handed out. -/
def HandedTo (handed : WrapContext → TeamKeys → Prop) (wire : WireTeam) : Prop :=
  ∀ context recipient keys, wire.wrappedKey = some (.box context recipient keys) →
    handed context keys

theorem mem_firstOfEach {teams : List WireTeam} {wire : WireTeam} (h : wire ∈ firstOfEach teams) :
    wire ∈ teams := by
  have hfold : ∀ (teams seen : List WireTeam), wire ∈ teams.foldl (fun seen team =>
      if seen.any (·.id = team.id) then seen else seen ++ [team]) seen →
      wire ∈ seen ∨ wire ∈ teams := by
    intro teams
    induction teams with
    | nil => exact fun seen hmem => .inl hmem
    | cons team rest ih =>
      intro seen hmem
      rcases ih _ hmem with hmem | hmem
      · dsimp only at hmem
        split at hmem
        · exact .inl hmem
        · rcases List.mem_append.mp hmem with hmem | hmem
          · exact .inl hmem
          · exact .inr (List.mem_cons.mpr (.inl (List.mem_singleton.mp hmem)))
      · exact .inr (List.mem_cons_of_mem _ hmem)
  exact (hfold teams [] h).resolve_left List.not_mem_nil

theorem listed_wp {post : Except TeamError (List WireTeam) → Ledger → TeamDevice → Prop}
    (hinv : LedgerInv handed made start g s)
    (h : ∀ r g, LedgerInv handed made start g s →
      (∀ teams, r = .ok teams → ∀ wire ∈ teams, HandedTo handed wire) → post r g s) :
    listed.wp (teamContract handed made start) post g s := by
  unfold listed expect
  rw [wp_bind, wp_bind]
  refine ask_wp hinv fun answer hnamed hinv => ?_
  dsimp only
  rw [wp_ofExcept]
  cases answer with
  | error e => exact h _ _ hinv fun _ hr => nomatch hr
  | ok teams =>
    dsimp only
    split
    · exact h _ _ hinv fun _ hr => nomatch hr
    · refine h _ _ hinv fun teams' hr wire hmem => ?_
      obtain rfl := Except.ok.inj hr
      exact hnamed teams rfl wire (mem_firstOfEach hmem)

theorem one_wp {post : Except TeamError WireTeam → Ledger → TeamDevice → Prop}
    (hinv : LedgerInv handed made start g s)
    (h : ∀ r g, LedgerInv handed made start g s →
      (∀ wire, r = .ok wire → wire.id = team ∧ HandedTo handed wire) → post r g s) :
    (one team).wp (teamContract handed made start) post g s := by
  unfold one
  rw [wp_bind]
  refine listed_wp hinv fun r g hinv hteams => ?_
  cases r with
  | error e => exact h _ _ hinv fun _ hr => nomatch hr
  | ok teams =>
    dsimp only
    cases hfound : teams.find? (·.id = team) with
    | none => exact h _ _ hinv fun _ hr => nomatch hr
    | some wire =>
      refine h _ _ hinv fun wire' hr => ?_
      obtain rfl := Except.ok.inj hr
      exact ⟨by simpa using List.find?_some hfound,
        hteams teams rfl wire (List.mem_of_find?_eq_some hfound)⟩

theorem keeps_one : Keeps (teamContract handed made start) (one team) := fun _ _ hinv =>
  one_wp hinv fun _ _ hinv _ => hinv

/-- A key that opens came in a wrap for this account. -/
theorem keysOf_wp {member : MemberKey} {wire : WireTeam} (hwire : HandedTo handed wire)
    {post : Except TeamError TeamKeys → Ledger → TeamDevice → Prop} (herr : ∀ e, post (.error e) g s)
    (hok : ∀ keys, Known handed made s.account wire.id wire.epoch keys → post (.ok keys) g s) :
    (keysOf member wire).wp (teamContract handed made start) post g s := by
  unfold keysOf
  split
  · exact herr _
  · next wrapped hwrapped =>
    unfold account
    rw [wp_bind, wp_bind, wp_get]
    dsimp only
    cases haccount : s.account with
    | none => exact herr _
    | some account =>
      dsimp only
      rw [wp_done]
      dsimp only
      cases hopened : unwrapTeamKey member { team := wire.id, epoch := wire.epoch, account } wrapped with
      | none => exact herr _
      | some keys =>
        have hbox : wire.wrappedKey = some wrapped := (Option.filter_eq_some_iff.mp hwrapped).1
        rw [unwrapTeamKey_some hopened] at hbox
        exact hok keys (.inr ⟨account, haccount, hwire _ _ _ hbox⟩)

end server

section settle

/-- A space that is locked opens with the key it is sealed under, and with no other. -/
theorem unlockSpace_wp {keys : TeamKeys} {wire : WireTeam} {space : TeamSpace}
    {post : Except TeamError Unit → Ledger → TeamDevice → Prop}
    (hinv : LedgerInv handed made start g s) (hfound : s.teamSpace wire.id = some space)
    (herr : ∀ e, post (.error e) g s)
    (hok : ∀ g' s', LedgerInv handed made start g' s' → SameTeam wire.id s s' →
      post (.ok ()) g' s') :
    (unlockSpace keys wire space).wp (teamContract handed made start) post g s := by
  obtain ⟨epoch, key, row, hhere⟩ := hinv.holds hfound
  unfold unlockSpace
  split
  · split
    · exact herr _
    · next file hunlock =>
      obtain ⟨-, -, hfile, -⟩ := TeamFile.teamUnlock_some hhere.file hunlock
      have hnext := hinv.setFile hhere hfile (.inl rfl) (fun _ => .inl) .inl
      exact commit_wp hnext herr (hok _ _ hnext (.setFile hhere hfile))
  · exact hok g s hinv .refl

/-- A rotation this device began and noted takes effect. -/
theorem paid_of_pending {epoch epoch' : ℕ} {key key' : VaultKey} {row row' : TeamRow}
    {space : TeamSpace} {file : TeamFile} {noted : PendingRotation}
    (hinv : LedgerInv handed made start g s) (hhere : s.Holds team epoch key row space)
    (hfile : file.HoldsKey team epoch' key' row') (hnewer : epoch < epoch')
    (hnoted : row.pending = some noted) (hepoch : noted.epoch = epoch')
    (hopen : (UnlockedVault.openStored { vaultId := team, key } (pendingId team noted.epoch) .secret
      noted.box).bind keyOfPlain = some key') : (g.wrote s (s.setFile team file)).Paid team := by
  intro hclean
  have hthere := hhere.setFile hfile
  have heffective : effective team (s.view team) ((s.setFile team file).view team) =
      some noted.wrappedFor := by
    refine @effective_of_pending team _ _ (epoch, key) (epoch', key') noted ?_ ?_ ?_ ?_ hepoch hopen
    · rw [hhere.view]
    · rw [hthere.view]
    · rw [hhere.view]
      exact hnoted
    · intro heq
      have hepochs := congrArg Prod.fst heq
      dsimp only at hepochs
      omega
  exact (hinv.teams team).paid heffective (TeamLedger.wrote_clean hclean).1

/-- Nothing is owed any more, once nobody who was taken out has the key. -/
theorem owesNothing_wp {epoch : ℕ} {key : VaultKey} {row : TeamRow} {space : TeamSpace}
    {post : Except TeamError Unit → Ledger → TeamDevice → Prop}
    (hinv : LedgerInv handed made start g s) (hhere : s.Holds team epoch key row space)
    (hpaid : g.Paid team)
    (herr : ∀ e g' s', LedgerInv handed made start g' s' → post (.error e) g' s')
    (hok : ∀ g' s', LedgerInv handed made start g' s' → s'.account = s.account →
      s'.keyOf team = some (epoch, key) → post (.ok ()) g' s') :
    (owesNothing team).wp (teamContract handed made start) post g s := by
  unfold owesNothing
  rw [wp_bind]
  refine onFile_wp hhere (fun e => herr e _ _ hinv) fun file howe => ?_
  obtain ⟨hfile, -⟩ := TeamFile.teamOweRotation_ok hhere.file howe
  have hnext := hinv.setFile hhere hfile (.inl rfl) (fun _ => .inl) fun _ => .inr (.inr hpaid)
  have hkey : (s.setFile team file).keyOf team = some (epoch, key) := (hhere.setFile hfile).underKey
  refine ⟨hnext, ?_⟩
  dsimp only
  unfold teamOweKey
  rw [wp_bind]
  refine ownVault_wp fun r => ?_
  cases r with
  | error e => exact herr _ _ _ hnext
  | ok vault =>
    have hlast := hnext.noteOwed team false
      fun _ _ => .inr (hpaid.wrote s (s.setFile team file))
    exact commit_wp hlast (fun e => herr e _ _ hnext) (hok _ _ hlast rfl hkey)

/-- A key that is newer than the one held is taken when it comes after it. -/
theorem takeKey_wp {keys : TeamKeys} {wire : WireTeam} {epoch : ℕ} {key : VaultKey} {row : TeamRow}
    {space : TeamSpace} {pending : Option (ℕ × VaultKey)}
    {post : Except TeamError Unit → Ledger → TeamDevice → Prop}
    (hinv : LedgerInv handed made start g s) (hhere : s.Holds wire.id epoch key row space)
    (hfollows : keys.follows wire.epoch epoch key = true)
    (hknown : Known handed made s.account wire.id wire.epoch keys)
    (hpending : space.file.teamPendingRotation = .ok pending)
    (herr : ∀ e g' s', LedgerInv handed made start g' s' → post (.error e) g' s')
    (hok : ∀ g' s' key', LedgerInv handed made start g' s' → s'.account = s.account →
      s'.keyOf wire.id = some (wire.epoch, key') → keyMark key' = keyMark keys.key →
      post (.ok ()) g' s') :
    (takeKey keys wire row pending).wp (teamContract handed made start) post g s := by
  unfold takeKey
  rw [hhere.file.ofEpoch]
  split
  · next hnewer =>
    dsimp only
    rw [wp_bind]
    refine onFile_wp hhere (fun e => herr e g s hinv) fun file hrekey => ?_
    obtain ⟨row', hfile, hnone, howed, -, -⟩ := TeamFile.teamRekey_ok hhere.file hrekey
    have hafter : After handed made s.account wire.id (wire.epoch, keys.key) (epoch, key) :=
      ⟨hnewer, keys, rfl, hfollows, hknown⟩
    have hnext := hinv.setFile hhere hfile (.inr hafter) (fun p hp => by rw [hnone] at hp; cases hp)
      fun h => .inl (howed.trans h)
    have hthere := hhere.setFile hfile
    refine ⟨hnext, ?_⟩
    dsimp only
    split
    · next hmine =>
      have hmine := of_decide_eq_true hmine
      obtain ⟨noted, hnoted, hopens⟩ := TeamFile.teamPendingRotation_ok hhere.file hpending
        (by rw [hmine]; rfl)
      rw [hmine] at hopens
      obtain ⟨key₀, hopen, hsame⟩ := Option.map_eq_some_iff.mp hopens.symm
      obtain ⟨hepoch, rfl⟩ := Prod.mk.inj hsame
      have hpaid := paid_of_pending hinv hhere hfile hnewer hnoted hepoch hopen
      exact owesNothing_wp hnext hthere hpaid herr fun g' s' hinv' haccount hkey =>
        hok g' s' keys.key hinv' haccount hkey rfl
    · exact hok _ _ keys.key hnext rfl hthere.underKey rfl
  · next hold =>
    obtain ⟨hepoch, hmark⟩ := TeamKeys.follows_of_le hfollows (by omega)
    split
    · refine onFile_wp hhere (fun e => herr e g s hinv) fun file hforget => ?_
      obtain rfl := Except.ok.inj hforget
      have hfile := TeamFile.teamForgetRotation_holds hhere.file
      have hnext := hinv.setFile hhere hfile (.inl rfl) (fun _ hp => by cases hp) .inl
      have hkey := (hhere.setFile hfile).underKey
      exact ⟨hnext, hok _ _ key hnext rfl (hepoch ▸ hkey) hmark⟩
    · exact hok g s key hinv rfl (hepoch ▸ hhere.underKey) hmark

theorem SameTeam.updateTeam (label : String) (role : TeamRole) :
    SameTeam team s (s.updateTeam team label role) := by
  refine ⟨rfl, rfl, ?_⟩
  unfold TeamDevice.keyOf
  rw [TeamDevice.teamSpace_updateTeam]
  cases s.teamSpace team with
  | none => rfl
  | some space => simp

theorem relabel_wp {wire : WireTeam} {space : TeamSpace}
    {post : Except TeamError Bool → Ledger → TeamDevice → Prop}
    (hinv : LedgerInv handed made start g s) (herr : ∀ e, post (.error e) g s)
    (hok : ∀ changed g' s', LedgerInv handed made start g' s' → SameTeam wire.id s s' →
      post (.ok changed) g' s') :
    (relabel wire space).wp (teamContract handed made start) post g s := by
  unfold relabel
  generalize cleanLabel (cleanText wire.name maxTeamName) = label
  dsimp only
  split
  · exact hok false g s hinv .refl
  · rw [wp_bind]
    have hnext := hinv.updateTeam wire.id label wire.role
    exact commit_wp hnext herr (hok true _ _ hnext (.updateTeam label wire.role))

theorem settleSpace_wp {keys : TeamKeys} {wire : WireTeam} {space : TeamSpace}
    {post : Except TeamError Bool → Ledger → TeamDevice → Prop}
    (hinv : LedgerInv handed made start g s) (hfound : s.teamSpace wire.id = some space)
    (hknown : Known handed made s.account wire.id wire.epoch keys)
    (herr : ∀ e g' s', LedgerInv handed made start g' s' → post (.error e) g' s')
    (hok : ∀ changed g' s' key', LedgerInv handed made start g' s' → s'.account = s.account →
      s'.keyOf wire.id = some (wire.epoch, key') → keyMark key' = keyMark keys.key →
      post (.ok changed) g' s') :
    (settleSpace keys wire space).wp (teamContract handed made start) post g s := by
  unfold settleSpace
  rw [wp_bind]
  refine unlockSpace_wp hinv hfound (fun e => herr e g s hinv) fun g₁ s₁ hinv₁ hsame => ?_
  dsimp only
  rw [wp_bind]
  refine fileOf_wp hinv₁ (fun e => herr e _ _ hinv₁) fun epoch key row space₁ hhere => ?_
  dsimp only
  rw [hhere.file.here]
  split
  · exact herr _ _ _ hinv₁
  · exact herr _ _ _ hinv₁
  · next row₁ held hrow hvault =>
    obtain rfl := Option.some.inj hrow
    have hheld : held.key = key := by rw [hhere.file.opensWith held hvault]
    rw [hheld, hhere.file.ofEpoch]
    split
    · exact herr _ _ _ hinv₁
    · next hfollows =>
      rw [Bool.not_eq_true, Bool.not_eq_false'] at hfollows
      rw [wp_bind, wp_ofExcept]
      cases hpending : space₁.file.teamPendingRotation with
      | error e => exact herr _ _ _ hinv₁
      | ok pending =>
        dsimp only [Except.mapError]
        rw [wp_bind]
        have hknown₁ : Known handed made s₁.account wire.id wire.epoch keys := by
          rw [hsame.account]
          exact hknown
        refine takeKey_wp hinv₁ hhere hfollows hknown₁ hpending herr ?_
        intro g₂ s₂ key' hinv₂ haccount hkey hmark
        dsimp only
        exact relabel_wp hinv₂ (fun e => herr e _ _ hinv₂) fun changed g₃ s₃ hinv₃ hsame₃ =>
          hok changed g₃ s₃ key' hinv₃ (hsame₃.account.trans (haccount.trans hsame.account))
            (hsame₃.key.trans hkey) hmark

/-- A space that is made holds the key it was made with. -/
theorem addTeam_wp {name : String} {role : TeamRole} {epoch : ℕ} {key : VaultKey}
    {post : Except TeamError Unit → Ledger → TeamDevice → Prop}
    (hinv : LedgerInv handed made start g s)
    (hfirst : Begins handed made s.account team (s.keyRecords team) (epoch, key))
    (herr : ∀ e g', LedgerInv handed made start g' s → post (.error e) g' s)
    (hok : ∀ g' s', LedgerInv handed made start g' s' → s'.account = s.account →
      s'.keyOf team = some (epoch, key) → post (.ok ()) g' s') :
    (addTeam team name role epoch key).wp (teamContract handed made start) post g s := by
  unfold addTeam
  rw [wp_bind, wp_get]
  dsimp only
  split
  · exact herr _ _ hinv
  · next hnone =>
    split
    · exact herr _ _ hinv
    · rw [wp_bind]
      refine ask_wp hinv fun id _ hinv₁ => ?_
      dsimp only
      rw [wp_bind, wp_ofExcept]
      cases hbegin : TeamFile.teamBegin team epoch key
          { store := Store.empty 0 id none, header := none, deviceUnlock := none, lastSyncMs := none,
            other := none } with
      | error e => exact herr _ _ hinv₁
      | ok file =>
        dsimp only [Except.mapError]
        obtain ⟨row, hfile, hpending, -, -⟩ := TeamFile.teamBegin_ok hbegin
        have hgone : s.teamSpace team = none := by simpa using hnone
        have hteam : TeamSpace.team { id, team, label := cleanLabel name, role, file } = team := rfl
        obtain ⟨hnext, hhere⟩ := hinv₁.addSpace hgone hteam hfile hpending hfirst
        exact commit_wp hnext (fun e => herr e _ hinv₁) (hok _ _ hnext rfl hhere.underKey)

/-- After a settling the space is under the key the server handed out. -/
theorem settle_wp {member : MemberKey} {wire : WireTeam} (hwire : HandedTo handed wire)
    {post : Except TeamError (TeamKeys × Bool) → Ledger → TeamDevice → Prop}
    (hinv : LedgerInv handed made start g s)
    (herr : ∀ e g' s', LedgerInv handed made start g' s' → post (.error e) g' s')
    (hok : ∀ keys changed g' s' key', LedgerInv handed made start g' s' → s'.account = s.account →
      s'.keyOf wire.id = some (wire.epoch, key') → keyMark key' = keyMark keys.key →
      post (.ok (keys, changed)) g' s') :
    (settle member wire).wp (teamContract handed made start) post g s := by
  unfold settle
  rw [wp_bind]
  refine keysOf_wp hwire (fun e => herr e g s hinv) fun keys hknown => ?_
  dsimp only
  unfold teamKeyRecord
  rw [wp_bind, wp_bind]
  refine ownVault_wp fun r => ?_
  cases r with
  | error e => exact herr _ _ _ hinv
  | ok vault =>
    dsimp only
    rw [wp_bind, wp_get]
    dsimp only
    rw [wp_pure]
    dsimp only
    split
    · exact herr _ _ _ hinv
    · next hrecord =>
      have hmarks : ∀ record, s.keyRecords wire.id = some record →
          keys.followsMark wire.epoch record.epoch record.mark = true := by
        intro record hsome
        simpa [hsome] using hrecord
      have hnoted : ∀ changed g₁ s₁ key', LedgerInv handed made start g₁ s₁ →
          s₁.account = s.account → s₁.keyOf wire.id = some (wire.epoch, key') →
          keyMark key' = keyMark keys.key →
          Script.wp (teamContract handed made start)
            ((if (s.keyRecords wire.id).all fun r => r.epoch < wire.epoch then
              teamNoteKey wire.id { epoch := wire.epoch, mark := keyMark keys.key }
            else pure ()) >>= fun _ => pure (keys, changed)) post g₁ s₁ := by
        intro changed g₁ s₁ key' hinv₁ haccount hkey hmark
        rw [wp_bind]
        split
        · unfold teamNoteKey
          rw [wp_bind, wp_ofExcept]
          cases epochColumn wire.epoch with
          | error e => exact herr _ _ _ hinv₁
          | ok epoch =>
            dsimp only [Except.mapError]
            rw [wp_bind]
            refine ownVault_wp fun r => ?_
            cases r with
            | error e => exact herr _ _ _ hinv₁
            | ok vault =>
              dsimp only
              have hnext := hinv₁.noteKey wire.id
                (some { epoch := wire.epoch, mark := keyMark keys.key })
              refine commit_wp hnext (fun e => herr e _ _ hinv₁) ?_
              exact hok keys changed _ _ key' hnext haccount hkey hmark
        · exact hok keys changed _ _ key' hinv₁ haccount hkey hmark
      rw [wp_bind]
      unfold settleTeam
      rw [wp_bind, wp_get]
      dsimp only
      cases hspace : s.teamSpace wire.id with
      | some space =>
        refine settleSpace_wp hinv hspace hknown herr fun changed g₁ s₁ key' hinv₁ haccount hkey hmark => ?_
        exact hnoted changed g₁ s₁ key' hinv₁ haccount hkey hmark
      | none =>
        dsimp only
        rw [wp_bind]
        have hfirst : Begins handed made s.account wire.id (s.keyRecords wire.id)
            (wire.epoch, keys.key) := .inr ⟨keys, rfl, hknown, hmarks⟩
        refine addTeam_wp hinv hfirst (fun e g' hinv' => herr e g' s hinv')
          fun g₁ s₁ hinv₁ haccount hkey => ?_
        exact hnoted true g₁ s₁ keys.key hinv₁ haccount hkey rfl

theorem keeps_settle {member : MemberKey} {wire : WireTeam} (hwire : HandedTo handed wire) :
    Keeps (teamContract handed made start) (settle member wire) := fun _ _ hinv =>
  settle_wp hwire hinv (fun _ _ _ h => h) fun _ _ _ _ _ h _ _ _ => h

end settle

section sync

/-- An exchange of a team's records leaves its key alone. -/
theorem syncRounds_wp {wire : WireTeam} {n : ℕ} {changed : Bool} {needs : Option Bool}
    {s₀ : TeamDevice} {post : Except TeamError (Option (Bool × Bool)) → Ledger → TeamDevice → Prop}
    (hinv : LedgerInv handed made start g s) (hsame : SameTeam team s₀ s)
    (hpost : ∀ r g' s', LedgerInv handed made start g' s' → SameTeam team s₀ s' → post r g' s') :
    (syncRounds wire team n changed needs).wp (teamContract handed made start) post g s := by
  induction n generalizing g s changed needs with
  | zero => exact hpost _ g s hinv hsame
  | succ n ih =>
    unfold syncRounds
    rw [wp_bind]
    refine ask_wp hinv fun out _ hinv₁ => ?_
    dsimp only
    rw [wp_bind]
    refine onFile_same_wp (harmless_putRecords _) hinv₁ (fun e => hpost _ _ _ hinv₁ hsame)
      fun g₂ s₂ hinv₂ hsame₂ => ?_
    have hsame₂ := hsame.trans hsame₂
    dsimp only
    split
    · split
      · exact hpost _ _ _ hinv₂ hsame₂
      · exact hpost _ _ _ hinv₂ hsame₂
    · split
      · exact hpost _ _ _ hinv₂ hsame₂
      · split
        · exact hpost _ _ _ hinv₂ hsame₂
        · rw [wp_bind]
          refine fileOf_wp hinv₂ (fun e => hpost _ _ _ hinv₂ hsame₂) fun epoch key row space _ => ?_
          dsimp only
          rw [wp_bind]
          refine onFile_same_wp harmless_teamRequeue hinv₂ (fun e => hpost _ _ _ hinv₂ hsame₂)
            fun g₃ s₃ hinv₃ hsame₃ => ?_
          have hsame₃ := hsame₂.trans hsame₃
          dsimp only
          split
          · exact hpost _ _ _ hinv₃ hsame₃
          · exact ih hinv₃ hsame₃

theorem sync_wp {wire : WireTeam}
    {post : Except TeamError (Option (Bool × Bool)) → Ledger → TeamDevice → Prop}
    (hinv : LedgerInv handed made start g s)
    (hpost : ∀ r g' s', LedgerInv handed made start g' s' → SameTeam team s s' → post r g' s') :
    (sync wire team).wp (teamContract handed made start) post g s :=
  syncRounds_wp hinv .refl hpost

theorem keeps_sync {wire : WireTeam} : Keeps (teamContract handed made start) (sync wire team) :=
  fun _ _ hinv => sync_wp hinv fun _ _ _ h _ => h

end sync

section rotate

theorem activeMembers_wp {post : Except TeamError (List Listed) → Ledger → TeamDevice → Prop}
    (hinv : LedgerInv handed made start g s)
    (hpost : ∀ r g', LedgerInv handed made start g' s → post r g' s) :
    (activeMembers team).wp (teamContract handed made start) post g s := by
  unfold activeMembers expect
  rw [wp_bind, wp_bind]
  refine ask_wp hinv fun answer _ hinv₁ => ?_
  dsimp only
  rw [wp_ofExcept]
  cases answer with
  | error e => exact hpost _ _ hinv₁
  | ok members =>
    dsimp only
    rw [wp_ofExcept]
    exact hpost _ _ hinv₁

/-- A member who is listed with the key this account confirmed, or is this account. -/
def Vetted (member : MemberKey) (account : Uuid) (pins : Uuid → Option MemberPin) (listed : Listed) :
    Prop :=
  if listed.account = account then listed.publicKey = member.publicKey
  else pins listed.account = some (.confirmed listed.publicKey)

/-- Who comes through the check is vetted, and the check changes nothing and asks nobody. -/
theorem checkMembers_wp {γ : Type} {c : Contract TeamDevice TeamAsk TeamAnswer γ} {g : γ}
    {member : MemberKey} {account : Uuid} {members : List Listed} {unconfirmed : Option Listed}
    {post : Except TeamError (Option Listed) → γ → TeamDevice → Prop}
    (herr : ∀ e, post (.error e) g s) (hsome : ∀ listed, post (.ok (some listed)) g s)
    (hnone : unconfirmed = none → (∀ listed ∈ members,
      Vetted member account (s.pins team) listed) → post (.ok none) g s) :
    (checkMembers member account team members unconfirmed).wp c post g s := by
  induction members generalizing unconfirmed with
  | nil =>
    unfold checkMembers
    cases unconfirmed with
    | none => exact hnone rfl fun _ hmem => absurd hmem List.not_mem_nil
    | some listed => exact hsome listed
  | cons listed rest ih =>
    unfold checkMembers
    split
    · next hself =>
      split
      · exact herr _
      · next hsame =>
        refine ih fun hfresh hrest => hnone hfresh (List.forall_mem_cons.mpr ⟨?_, hrest⟩)
        unfold Vetted
        rw [if_pos hself]
        exact not_not.mp hsame
    · next hother =>
      unfold teamPin
      rw [wp_bind, wp_bind]
      refine ownVault_wp fun r => ?_
      cases r with
      | error e => exact herr _
      | ok vault =>
        dsimp only
        rw [wp_bind, wp_get]
        dsimp only
        rw [wp_pure]
        dsimp only
        split
        · next publicKey hpin =>
          split
          · next hsame =>
            refine ih fun hfresh hrest => hnone hfresh (List.forall_mem_cons.mpr ⟨?_, hrest⟩)
            unfold Vetted
            rw [if_neg hother, hpin, hsame]
          · exact herr _
        · exact herr _
        · exact ih fun hfresh _ => absurd hfresh (by simp)

theorem Vetted.not_removed {member : MemberKey} {account : Uuid} {pins : Uuid → Option MemberPin}
    {listed : Listed} (h : Vetted member account pins listed) (hne : listed.account ≠ account) :
    pins listed.account ≠ some .removed := by
  unfold Vetted at h
  rw [if_neg hne] at h
  rw [h]
  exact fun heq => by cases heq

/-- Wrapping leaves a team's key alone, and wraps for who is listed. -/
theorem wrapMembers_wp {epoch : ℕ} {key : VaultKey} {earlier : List Mark} {members : List Listed}
    {s₀ : TeamDevice} {post : Except TeamError (List RotateKey) → Ledger → TeamDevice → Prop}
    (hinv : LedgerInv handed made start g s) (hsame : SameTeam team s₀ s)
    (herr : ∀ e g' s', LedgerInv handed made start g' s' → post (.error e) g' s')
    (hok : ∀ wraps g' s', LedgerInv handed made start g' s' → SameTeam team s₀ s' →
      wraps.map (·.accountId) = members.map (·.account) → post (.ok wraps) g' s') :
    (wrapMembers team epoch key earlier members).wp (teamContract handed made start) post g s := by
  induction members generalizing g s post with
  | nil => exact hok [] g s hinv hsame rfl
  | cons listed rest ih =>
    unfold wrapMembers dropMailboxPin
    rw [wp_bind, wp_bind]
    refine ask_wp hinv fun nowMs _ hinv₁ => ?_
    dsimp only
    refine onFile_same_wp (harmless_teamDropMailboxPin _ _) hinv₁ (fun e => herr _ _ _ hinv₁)
      fun g₂ s₂ hinv₂ hsame₂ => ?_
    dsimp only
    split
    · exact herr _ _ _ hinv₂
    · rw [wp_bind]
      refine ih hinv₂ (hsame.trans hsame₂) herr fun wraps g₃ s₃ hinv₃ hsame₃ hwraps => ?_
      exact hok _ _ _ hinv₃ hsame₃ (by rw [List.map_cons, List.map_cons, hwraps])

/-- The new key becomes the team's, and what was owed is paid. -/
theorem rotated_wp {wire : WireTeam} {epoch epoch' : ℕ} {key key' : VaultKey} {row : TeamRow}
    {space : TeamSpace} {noted : PendingRotation}
    {post : Except TeamError Unit → Ledger → TeamDevice → Prop}
    (hinv : LedgerInv handed made start g s) (hhere : s.Holds wire.id epoch key row space)
    (hafter : After handed made s.account wire.id (epoch', key') (epoch, key))
    (hnoted : row.pending = some noted) (hepoch : noted.epoch = epoch')
    (hopen : (UnlockedVault.openStored { vaultId := wire.id, key } (pendingId wire.id noted.epoch)
      .secret noted.box).bind keyOfPlain = some key')
    (hpost : ∀ r g' s', LedgerInv handed made start g' s' → post r g' s') :
    (rotated wire epoch' key').wp (teamContract handed made start) post g s := by
  unfold rotated
  rw [wp_bind]
  refine onFile_wp hhere (fun e => hpost _ _ _ hinv) fun file hrekey => ?_
  obtain ⟨row', hfile, hnone, howed, -, -⟩ := TeamFile.teamRekey_ok hhere.file hrekey
  have hnext := hinv.setFile hhere hfile (.inr hafter) (fun p hp => by rw [hnone] at hp; cases hp)
    fun h => .inl (howed.trans h)
  have hpaid := paid_of_pending hinv hhere hfile hafter.1 hnoted hepoch hopen
  refine ⟨hnext, ?_⟩
  dsimp only
  rw [wp_bind]
  refine owesNothing_wp hnext (hhere.setFile hfile) hpaid (fun e => hpost _)
    fun g₂ s₂ hinv₂ _ _ => ?_
  refine Keeps.wp ?_ hinv₂ hpost
  exact (keeps_teamNoteKey _).bind fun _ => keeps_sync.bind fun _ => Keeps.done ()

/-- The note of a rotation that did not happen goes. -/
theorem forgetRotation_wp {k : TeamScript α} {post : Except TeamError α → Ledger → TeamDevice → Prop}
    (hinv : LedgerInv handed made start g s) (herr : ∀ e, post (.error e) g s)
    (hok : ∀ g' s', LedgerInv handed made start g' s' → SameTeam team s s' →
      k.wp (teamContract handed made start) post g' s') :
    (onFile team (fun file => .ok file.teamForgetRotation) >>= fun _ => k).wp
      (teamContract handed made start) post g s := by
  rw [wp_bind]
  exact onFile_same_wp harmless_teamForgetRotation hinv herr hok

/-- A fresh key goes to who is vetted, and is noted with whom it was wrapped for. -/
theorem rotateOnce_wp {member : MemberKey} {account : Uuid} {wire : WireTeam} {keys : TeamKeys}
    {held : VaultKey} {post : Except TeamError (Option TeamError) → Ledger → TeamDevice → Prop}
    (hinv : LedgerInv handed made start g s) (haccount : s.account = some account)
    (hkey : s.keyOf wire.id = some (wire.epoch, held)) (hmark : keyMark held = keyMark keys.key)
    (herr : ∀ e g' s', LedgerInv handed made start g' s' → post (.error e) g' s')
    (hnone : ∀ g' s', LedgerInv handed made start g' s' → post (.ok none) g' s')
    (hagain : ∀ e g' s', LedgerInv handed made start g' s' → s'.account = some account →
      post (.ok (some e)) g' s') :
    (rotateOnce member account wire keys).wp (teamContract handed made start) post g s := by
  unfold rotateOnce
  rw [wp_bind]
  refine activeMembers_wp hinv fun r g₁ hinv₁ => ?_
  cases r with
  | error e => exact herr _ _ _ hinv₁
  | ok members =>
    dsimp only
    split
    · exact herr _ _ _ hinv₁
    · rw [wp_bind]
      refine checkMembers_wp (fun e => herr _ _ _ hinv₁) (fun listed => herr _ _ _ hinv₁)
        fun _ hvetted => ?_
      dsimp only
      rw [wp_bind]
      refine ask_wp hinv₁ fun fresh hmade hinv₂ => ?_
      dsimp only
      rw [wp_bind]
      refine wrapMembers_wp hinv₂ .refl herr fun wraps g₃ s₃ hinv₃ hsame hwraps => ?_
      dsimp only
      obtain ⟨row, space, hhere⟩ := hinv₃.holds_of_keyOf (hsame.key.trans hkey)
      rw [wp_bind]
      refine onFile_wp hhere (fun e => herr _ _ _ hinv₃) fun file hnote => ?_
      obtain ⟨row', hfile, howed, -, hnoted⟩ := TeamFile.teamNoteRotation_ok hhere.file hnote
      have hleft : ∀ pending, row'.pending = some pending → row.pending = some pending ∨
          ∀ x ∈ pending.wrappedFor, some x ≠ s₃.account → s₃.pins wire.id x ≠ some .removed := by
        intro pending hpending
        rw [hnoted] at hpending
        obtain rfl := Option.some.inj hpending
        refine .inr fun x hx hne => ?_
        dsimp only at hx
        rw [hwraps] at hx
        obtain ⟨listed, hmem, rfl⟩ := List.mem_map.mp hx
        rw [hsame.pins]
        refine (hvetted listed hmem).not_removed fun heq => hne ?_
        rw [hsame.account, haccount, heq]
      have hinv₄ := hinv₃.setFile hhere hfile (.inl rfl) hleft fun h => .inl (howed.trans h)
      have hthere := hhere.setFile hfile
      refine ⟨hinv₄, ?_⟩
      dsimp only
      rw [wp_bind]
      refine fileOf_wp hinv₄ (fun e => herr _ _ _ hinv₄) fun _ _ _ _ _ => ?_
      dsimp only
      rw [wp_bind]
      refine ask_wp hinv₄ fun answer _ hinv₅ => ?_
      dsimp only
      unfold sent
      cases answer with
      | ok team =>
        dsimp only
        rw [wp_bind]
        have hfollows : TeamKeys.follows { key := fresh, earlier := keys.handedOn } (wire.epoch + 1)
            wire.epoch held = true := by
          unfold TeamKeys.follows
          rw [hmark]
          exact keys.follows_succ fresh wire.epoch
        have hafter : After handed made s₃.account wire.id (wire.epoch + 1, fresh) (wire.epoch, held) :=
          ⟨Nat.lt_succ_self _, _, rfl, hfollows, .inl hmade⟩
        refine rotated_wp hinv₅ hthere hafter hnoted rfl (by simp) fun r g₆ s₆ hinv₆ => ?_
        cases r with
        | ok _ => exact hnone _ _ hinv₆
        | error e => exact herr _ _ _ hinv₆
      | error e =>
        dsimp only
        have haccount₅ : (s₃.setFile wire.id file).account = some account := hsame.account.trans haccount
        split
        · exact forgetRotation_wp hinv₅ (fun e => herr _ _ _ hinv₅) fun g₆ s₆ hinv₆ hsame₆ =>
            hagain e g₆ s₆ hinv₆ (hsame₆.account.trans haccount₅)
        · split
          · exact herr _ _ _ hinv₅
          · exact forgetRotation_wp hinv₅ (fun e => herr _ _ _ hinv₅) fun g₆ s₆ hinv₆ _ =>
              herr _ g₆ s₆ hinv₆

theorem rotateLoop_wp {member : MemberKey} {account : Uuid} {n : ℕ} {last : TeamError}
    (hinv : LedgerInv handed made start g s) (haccount : s.account = some account) :
    (rotateLoop member account team n last).wp (teamContract handed made start)
      (fun _ => LedgerInv handed made start) g s := by
  induction n generalizing g s last with
  | zero => exact hinv
  | succ n ih =>
    unfold rotateLoop
    rw [wp_bind]
    refine one_wp hinv fun r g₁ hinv₁ hwire => ?_
    cases r with
    | error e => exact hinv₁
    | ok wire =>
      obtain ⟨-, hwire⟩ := hwire wire rfl
      dsimp only
      split
      · exact hinv₁
      · rw [wp_bind]
        refine settle_wp hwire hinv₁ (fun _ _ _ h => h)
          fun keys _ g₂ s₂ held hinv₂ haccount₂ hkey hmark => ?_
        dsimp only
        rw [wp_bind]
        refine sync_wp hinv₂ fun r g₃ s₃ hinv₃ hsame => ?_
        have haccount₃ : s₃.account = some account := hsame.account.trans (haccount₂.trans haccount)
        cases r with
        | error e => exact hinv₃
        | ok moved =>
          cases moved with
          | none => exact ih hinv₃ haccount₃
          | some _ =>
            dsimp only
            rw [wp_bind]
            refine rotateOnce_wp hinv₃ haccount₃ (hsame.key.trans hkey) hmark (fun _ _ _ h => h)
              (fun _ _ h => h) fun e g₄ s₄ hinv₄ haccount₄ => ?_
            exact ih hinv₄ haccount₄

theorem keeps_rotate {member : MemberKey} :
    Keeps (teamContract handed made start) (rotate member team) := by
  intro g s hinv
  unfold rotate account
  rw [wp_bind, wp_bind, wp_get]
  dsimp only
  cases haccount : s.account with
  | none => exact hinv
  | some account => exact rotateLoop_wp hinv haccount

end rotate

section pass

theorem keeps_passOne {member : MemberKey} {wire : WireTeam} (hwire : HandedTo handed wire) :
    Keeps (teamContract handed made start) (passOne member wire) := by
  refine (keeps_settle hwire).bind fun _ => keeps_sync.bind fun synced => ?_
  cases synced with
  | none => exact Keeps.done ()
  | some synced =>
    refine keeps_fileOf.bind fun file => ?_
    refine Keeps.bind ?_ fun owed => ?_
    · split
      · exact Keeps.done true
      · exact keeps_teamOwesKey
    · split
      · refine keeps_rotate.attempt.bind fun r => ?_
        cases r with
        | ok _ => exact Keeps.done ()
        | error e =>
          dsimp only
          split
          · exact Keeps.fail e
          · exact Keeps.done ()
      · exact Keeps.done ()

theorem keeps_passTeams {teams : List WireTeam} (hteams : ∀ wire ∈ teams, HandedTo handed wire)
    {member : Option MemberKey} : Keeps (teamContract handed made start) (passTeams member teams) := by
  induction teams with
  | nil => exact Keeps.done ()
  | cons wire rest ih =>
    have hrest := ih fun wire hmem => hteams wire (List.mem_cons_of_mem _ hmem)
    unfold passTeams
    split
    · refine (keeps_passOne (hteams wire (List.mem_cons_self ..))).attempt.bind fun r => ?_
      cases r with
      | ok _ => exact hrest
      | error e =>
        dsimp only
        split
        · exact Keeps.fail e
        · exact hrest
    · exact hrest

theorem keeps_passLeft {spaces : List TeamSpace} :
    Keeps (teamContract handed made start) (passLeft spaces) := by
  induction spaces with
  | nil => exact Keeps.done ()
  | cons space rest ih =>
    refine keeps_fileOf.bind fun file => (keeps_ask _).bind fun answer => ?_
    cases answer with
    | ok _ => exact ih
    | error e =>
      dsimp only
      split
      · exact (keeps_commit fun _ _ h => h.removeTeam _).bind fun _ => ih
      · split
        · exact Keeps.fail e
        · exact ih

theorem keeps_pass : Keeps (teamContract handed made start) pass := by
  refine (keeps_ask _).bind fun answer => ?_
  split
  · exact Keeps.done ()
  · exact Keeps.fail _
  · split
    · exact Keeps.done ()
    · refine (keeps_member _).bind fun member => ?_
      intro g s hinv
      rw [wp_bind]
      refine listed_wp hinv fun r g₁ hinv₁ hteams => ?_
      cases r with
      | error e => exact hinv₁
      | ok teams =>
        refine Keeps.wp ?_ hinv₁ fun _ _ _ h => h
        exact (keeps_passTeams (hteams teams rfl)).bind fun _ => Keeps.get.bind fun d => keeps_passLeft

end pass

section asked

theorem keeps_createRest {account : Uuid} {member : MemberKey} {key : VaultKey} {name : String}
    {wire : WireTeam} (hmade : made key) :
    Keeps (teamContract handed made start) (createRest account member key name wire) := by
  unfold createRest
  dsimp only
  split
  · exact Keeps.fail _
  · split
    · exact Keeps.fail _
    · refine (keeps_expect (keeps_ask _)).bind fun team => Keeps.bind ?_ fun _ =>
        (keeps_teamNoteKey _).bind fun _ => keeps_sync.bind fun _ => Keeps.done ()
      intro g s hinv
      exact addTeam_wp hinv (.inl hmade) (fun _ _ h => h) fun _ _ h _ _ => h

theorem keeps_create {name displayName : String} :
    Keeps (teamContract handed made start) (create name displayName) := by
  refine keeps_account.bind fun account => (keeps_member _).bind fun member => ?_
  cases member with
  | none => exact Keeps.fail _
  | some member =>
    intro g s hinv
    rw [wp_bind]
    refine ask_wp hinv fun key hmade hinv₁ => ?_
    refine Keeps.wp ?_ hinv₁ fun _ _ _ h => h
    refine (keeps_expect (keeps_ask _)).bind fun wire => (keeps_createRest hmade).attempt.bind fun r => ?_
    cases r with
    | ok _ => exact Keeps.done ()
    | error e => exact (keeps_ask _).bind fun _ => Keeps.fail e

theorem keeps_rename {name : String} : Keeps (teamContract handed made start) (rename team name) := by
  refine (keeps_expect (keeps_ask _)).bind fun renamed => Keeps.get.bind fun d => ?_
  split
  · exact keeps_commit fun _ _ h => h.updateTeam _ _ _
  · exact Keeps.done ()

theorem keeps_unpinAll {members : List Uuid} :
    Keeps (teamContract handed made start) (unpinAll team members) := by
  induction members with
  | nil => exact Keeps.done ()
  | cons account rest ih => exact (keeps_teamUnpinMember account).bind fun _ => ih

theorem accounts_wp {post : Except TeamError (List Uuid) → Ledger → TeamDevice → Prop}
    (hinv : LedgerInv handed made start g s)
    (hpost : ∀ r g', LedgerInv handed made start g' s → post r g' s) :
    (accounts team).wp (teamContract handed made start) post g s := by
  unfold accounts
  rw [wp_bind]
  refine ask_wp hinv fun answer _ hinv₁ => ?_
  cases answer with
  | ok members => exact hpost _ _ hinv₁
  | error e => exact hpost _ _ hinv₁

theorem teamOweKey_wp {owed : Bool} {post : Except TeamError Unit → Ledger → TeamDevice → Prop}
    (hinv : LedgerInv handed made start g s)
    (howed : owed = false → s.owes team = true → (s.view team).owedHere = true ∨ g.Paid team)
    (herr : ∀ e, post (.error e) g s)
    (hok : LedgerInv handed made start (g.wrote s (s.noteOwed team owed)) (s.noteOwed team owed) →
      post (.ok ()) (g.wrote s (s.noteOwed team owed)) (s.noteOwed team owed)) :
    (teamOweKey team owed).wp (teamContract handed made start) post g s := by
  unfold teamOweKey
  rw [wp_bind]
  refine ownVault_wp fun r => ?_
  cases r with
  | error e => exact herr _
  | ok vault =>
    have hnext := hinv.noteOwed _ _ howed
    exact commit_wp hnext herr (hok hnext)

/-- What a device has of a team goes, once nothing is owed to the team. -/
theorem forget_wp {members : List Uuid} (hinv : LedgerInv handed made start g s)
    (hpaid : g.Paid team) : (forget team members).wp (teamContract handed made start)
      (fun _ => LedgerInv handed made start) g s := by
  have hrest : ∀ g s, LedgerInv handed made start g s → g.Paid team →
      Script.wp (teamContract handed made start) (teamForgetKey team >>= fun _ =>
        teamOweKey team false >>= fun _ => unpinAll team members)
        (fun _ => LedgerInv handed made start) g s := by
    intro g s hinv hpaid
    rw [wp_bind]
    have hnext := hinv.noteKey team none
    refine commit_wp hnext (fun _ => hinv) ?_
    dsimp only
    rw [wp_bind]
    refine teamOweKey_wp hnext (fun _ _ => .inr (hpaid.wrote _ _)) (fun _ => hnext) fun hlast => ?_
    exact Keeps.wp keeps_unpinAll hlast fun _ _ _ h => h
  unfold forget
  rw [wp_bind, wp_get]
  dsimp only
  rw [wp_bind]
  split
  · have hnext := hinv.removeTeam team
    exact commit_wp hnext (fun _ => hinv) (hrest _ _ hnext (hpaid.wrote _ _))
  · exact hrest g s hinv hpaid

theorem keeps_delete : Keeps (teamContract handed made start) (delete team) := by
  intro g s hinv
  unfold delete expect
  rw [wp_bind]
  refine accounts_wp hinv fun r g₁ hinv₁ => ?_
  cases r with
  | error e => exact hinv₁
  | ok members =>
    dsimp only
    rw [wp_bind, wp_bind]
    refine ask_wp hinv₁ fun answer _ hinv₂ => ?_
    dsimp only
    rw [wp_ofExcept]
    cases answer with
    | error e => exact hinv₂
    | ok _ => exact forget_wp hinv₂ Ledger.paid_deleted

theorem keeps_leave : Keeps (teamContract handed made start) (leave team) := by
  intro g s hinv
  unfold leave account expect
  rw [wp_bind, wp_bind, wp_get]
  dsimp only
  cases haccount : s.account with
  | none => exact hinv
  | some account =>
    dsimp only
    rw [wp_done]
    dsimp only
    rw [wp_bind]
    refine accounts_wp hinv fun r g₁ hinv₁ => ?_
    cases r with
    | error e => exact hinv₁
    | ok members =>
      dsimp only
      rw [wp_bind, wp_bind]
      refine ask_wp hinv₁ fun answer _ hinv₂ => ?_
      dsimp only
      rw [wp_ofExcept]
      cases answer with
      | error e => exact hinv₂
      | ok _ => exact forget_wp hinv₂ (Ledger.paid_left haccount)

theorem keeps_join {code displayName : String} :
    Keeps (teamContract handed made start) (join code displayName) :=
  (keeps_member _).bind fun _ => (keeps_expect (keeps_ask _)).bind fun _ => keeps_teamForgetKey

theorem keeps_memberKey : Keeps (teamContract handed made start) memberKey := by
  refine (keeps_member _).bind fun member => ?_
  cases member with
  | none => exact Keeps.fail _
  | some member => exact Keeps.done member

theorem keeps_dropMailboxPin (account : Uuid) :
    Keeps (teamContract handed made start) (dropMailboxPin team account) :=
  (keeps_ask _).bind fun _ => keeps_onFile (harmless_teamDropMailboxPin _ _)

theorem keeps_confirmLoop {member : MemberKey} {account : Uuid} {seen : String} {n : ℕ}
    {last : TeamError} :
    Keeps (teamContract handed made start) (confirmLoop member team account seen n last) := by
  induction n generalizing last with
  | zero => exact Keeps.fail last
  | succ n ih =>
    intro g s hinv
    unfold confirmLoop
    rw [wp_bind]
    refine one_wp hinv fun r g₁ hinv₁ hwire => ?_
    cases r with
    | error e => exact hinv₁
    | ok wire =>
      refine Keeps.wp ?_ hinv₁ fun _ _ _ h => h
      refine (keeps_settle (hwire wire rfl).2).bind fun settled =>
        (keeps_expect (keeps_ask _)).bind fun listed => ?_
      split
      · exact Keeps.fail _
      · split
        · exact Keeps.fail _
        · split
          · exact Keeps.fail _
          · refine Keeps.bind ?_ fun _ => ?_
            · split
              · exact keeps_dropMailboxPin account
              · exact Keeps.done ()
            · split
              · exact keeps_teamNotePin account _
              · split
                · exact Keeps.fail _
                · refine (keeps_teamNotePin account _).bind fun _ => (keeps_ask _).bind fun answer => ?_
                  split
                  · exact keeps_sync.bind fun _ => Keeps.done ()
                  · split
                    · exact ih
                    · exact Keeps.fail _

theorem keeps_confirm {account : Uuid} {seen : String} :
    Keeps (teamContract handed made start) (confirm team account seen) :=
  keeps_memberKey.bind fun _ => keeps_confirmLoop

/-- A note that a key is owed can go again: the key was not owed before, or is owed elsewhere
as well. -/
def Spare (g : Ledger) (team : Uuid) (s : TeamDevice) : Prop :=
  g.Paid team ∨ s.owes team = true ∧ (s.teamSpace team).isSome = true

theorem Spare.refused {g : Ledger} {x : Uuid} {answer : Except TeamError Unit} (h : Spare g team s)
    (hnot : mayHaveHappened answer = false) : Spare (g.asked s (.removeMember team x) answer) team s :=
  h.imp (fun hpaid => hpaid.refused hnot) id

theorem Spare.notePin {account : Uuid} {pin : Option MemberPin} (h : Spare g team s) :
    Spare (g.wrote s (s.notePin team account pin)) team (s.notePin team account pin) :=
  h.imp (fun hpaid => hpaid.wrote _ _) id

theorem owe_wp {owed : Bool} {post : Except TeamError Bool → Ledger → TeamDevice → Prop}
    (hinv : LedgerInv handed made start g s) (hspare : owed = false → Spare g team s)
    (herr : ∀ e, post (.error e) g s)
    (hok : ∀ before g' s', LedgerInv handed made start g' s' → (before = false → Spare g' team s') →
      post (.ok before) g' s') :
    (owe team owed).wp (teamContract handed made start) post g s := by
  unfold owe
  rw [wp_bind, wp_get]
  dsimp only
  cases hspace : s.teamSpace team with
  | some space =>
    obtain ⟨epoch, key, row, hhere⟩ := hinv.holds hspace
    have hview := hhere.view
    obtain ⟨id, team', label, role, ⟨store, header, deviceUnlock, lastSyncMs, other⟩⟩ := space
    obtain rfl : other = some row := hhere.file.here
    dsimp only
    rw [wp_bind]
    refine onFile_wp hhere herr fun file howe => ?_
    obtain ⟨hfile, -⟩ := TeamFile.teamOweRotation_ok hhere.file howe
    have howed : row.rotationOwed = true → owed = true ∨ s.owes team = true ∨ g.Paid team := by
      intro _
      cases owed with
      | true => exact .inl rfl
      | false =>
        rcases hspare rfl with hpaid | ⟨hnote, -⟩
        · exact .inr (.inr hpaid)
        · exact .inr (.inl hnote)
    have hnext := hinv.setFile hhere hfile (.inl rfl) (fun _ => .inl) howed
    refine ⟨hnext, hok _ _ _ hnext fun hfresh => ?_⟩
    by_cases hnote : s.owes team = true
    · exact .inr ⟨hnote, by rw [(hhere.setFile hfile).found]; rfl⟩
    · refine .inl ((hinv.paid_of_not_owed ?_).wrote _ _)
      rw [hview]
      exact Bool.or_eq_false_iff.mpr ⟨hfresh, by simpa using hnote⟩
  | none =>
    have hview := TeamDevice.view_of_gone hspace
    dsimp only
    unfold teamOwesKey
    rw [wp_bind, wp_bind]
    refine ownVault_wp fun r => ?_
    cases r with
    | error e => exact herr _
    | ok vault =>
      dsimp only
      rw [wp_bind, wp_get]
      dsimp only
      rw [wp_pure]
      dsimp only
      rw [wp_bind]
      refine teamOweKey_wp hinv (fun howed _ => .inr ?_) herr fun hnext => ?_
      · rcases hspare howed with hpaid | ⟨-, hsome⟩
        · exact hpaid
        · rw [hspace] at hsome
          cases hsome
      · refine hok _ _ _ hnext fun hfresh => .inl ((hinv.paid_of_not_owed ?_).wrote _ _)
        rw [hview]
        exact hfresh

theorem keeps_hadKey {account : Uuid} : Keeps (teamContract handed made start) (hadKey team account) := by
  refine (keeps_ask _).bind fun answer => ?_
  cases answer with
  | ok members =>
    dsimp only
    split <;> exact Keeps.done _
  | error e =>
    dsimp only
    split
    · exact Keeps.fail e
    · exact Keeps.done true

theorem keeps_owe : Keeps (teamContract handed made start) (owe team true) := fun _ _ hinv =>
  owe_wp hinv (fun h => by cases h) (fun _ => hinv) fun _ _ _ h _ => h

theorem keeps_payAfter {hadKey : Bool} :
    Keeps (teamContract handed made start) (payAfter team hadKey) := by
  refine keeps_one.attempt.bind fun asked => ?_
  split
  · exact Keeps.done ()
  · refine keeps_owe.bind fun _ => (keeps_memberKey.bind fun _ => keeps_rotate).attempt.bind fun r => ?_
    cases r with
    | ok _ => exact Keeps.done ()
    | error e => exact keeps_owe.bind fun _ => Keeps.done ()

theorem putBack_wp {account : Uuid} {pin : Option MemberPin}
    {post : Except TeamError Unit → Ledger → TeamDevice → Prop}
    (hinv : LedgerInv handed made start g s) (herr : ∀ e, post (.error e) g s)
    (hok : ∀ g' s', LedgerInv handed made start g' s' → (Spare g team s → Spare g' team s') →
      post (.ok ()) g' s') :
    (putBack team account pin).wp (teamContract handed made start) post g s := by
  unfold putBack
  split
  · next publicKey =>
    unfold teamNotePin
    rw [wp_bind]
    refine ownVault_wp fun r => ?_
    cases r with
    | error e => exact herr _
    | ok vault =>
      have hnext := hinv.notePin team account (some (.confirmed publicKey))
      exact commit_wp hnext herr (hok _ _ hnext Spare.notePin)
  · exact hok g s hinv id
  · have hnext := hinv.notePin team account none
    exact commit_wp hnext herr (hok _ _ hnext Spare.notePin)

/-- Taking a member out, once what may be owed is noted. -/
def removeNoted (team account : Uuid) (hadKey : Bool) (pin : Option MemberPin) (owedBefore : Bool) :
    TeamScript Unit := do
  match ← ask (.removeMember team account) with
  | .ok () => payAfter team hadKey
  | .error e =>
      if e.isOffline then fail e
      else do
        putBack team account pin
        (if hadKey && !owedBefore then owe team false >>= fun _ => pure () else pure ())
        fail e

/-- The note that a key is owed goes again only when the removal did not happen. -/
theorem keeps_remove {account : Uuid} : Keeps (teamContract handed made start) (remove team account) := by
  refine keeps_hadKey.bind fun hadKey => (keeps_teamPin account).bind fun pin =>
    (keeps_teamNotePin account _).bind fun _ => ?_
  have hrest : ∀ before g s, LedgerInv handed made start g s →
      (hadKey = true → before = false → Spare g team s) →
      (removeNoted team account hadKey pin before).wp (teamContract handed made start)
        (fun _ => LedgerInv handed made start) g s := by
    intro before g s hinv hspare
    unfold removeNoted
    rw [wp_bind]
    refine ask_wp hinv fun answer _ hinv₁ => ?_
    cases answer with
    | ok _ => exact Keeps.wp keeps_payAfter hinv₁ fun _ _ _ h => h
    | error e =>
      dsimp only
      split
      · exact hinv₁
      · next hrefused =>
        rw [Bool.not_eq_true] at hrefused
        rw [wp_bind]
        refine putBack_wp hinv₁ (fun _ => hinv₁) fun g₂ s₂ hinv₂ hkept => ?_
        dsimp only
        rw [wp_bind]
        split
        · next hback =>
          obtain ⟨hhad, hfresh⟩ := Bool.and_eq_true_iff.mp hback
          have hspare₂ := hkept ((hspare hhad (by simpa using hfresh)).refused hrefused)
          rw [wp_bind]
          exact owe_wp hinv₂ (fun _ => hspare₂) (fun _ => hinv₂) fun _ _ _ h _ => h
        · exact hinv₂
  intro g s hinv
  rw [wp_bind]
  split
  · exact owe_wp hinv (fun h => by cases h) (fun _ => hinv) fun before g' s' hinv' hspare =>
      hrest before g' s' hinv' fun _ => hspare
  · next hnot => exact hrest false g s hinv fun hhad => absurd hhad hnot

end asked

end Teams

end UwuSsh

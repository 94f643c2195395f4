import UwuSsh.Team.Runs

/-!
Whom a rotation wraps for. From the list of members on, a rotation does something only if
everybody who is listed as active is vetted: with the key this account confirmed for them, or, for
this account, with its own key. The new key is wrapped for the list as it stands, one wrap an entry.
What a rotation does before it asks for the list goes on whatever the list says.
-/
namespace UwuSsh

open Script

/-- Everybody who is listed as active is vetted. -/
def Passes (member : MemberKey) (team : Uuid) (s : TeamDevice) (members : List WireMember) : Prop :=
  ∃ listed, Teams.activeOf members = .ok listed ∧ ∀ account, s.account = some account →
    ∀ l ∈ listed, Teams.Vetted member account (s.pins team) l

/-- The last list that came passes, if one came. -/
def LastPasses (member : MemberKey) (team : Uuid) (last : Option (List WireMember))
    (s : TeamDevice) : Prop :=
  ∀ members, last = some members → Passes member team s members

/-- What a device was told last: the teams, the members of a team and, after these, a new key. -/
structure Heard where
  teams : List WireTeam := []
  members : Option (List WireMember) := none
  fresh : Option VaultKey := none

/-- The team's wrap for an account opens to these keys. -/
def WireTeam.Opens (wire : WireTeam) (member : MemberKey) (account : Uuid) (keys : TeamKeys) : Prop :=
  ∃ wrapped, wire.wrappedKey = some wrapped ∧
    unwrapTeamKey member { team := wire.id, epoch := wire.epoch, account } wrapped = some keys

/-- One wrap of the new key for each who is listed, under the key that is listed. -/
def WrapsExactly (team : Uuid) (epoch : ℕ) (keys : TeamKeys) (listed : List Teams.Listed)
    (wraps : List RotateKey) : Prop :=
  List.Forall₂ (fun l wrap => wrap.accountId = l.account ∧
    wrap.wrappedKey = .box { team, epoch, account := l.account } l.publicKey keys) listed wraps

/-- A rotation that a device may send after what it was told: the next epoch of the team as it was listed,
and the key that was drawn after the list of members, wrapped for everybody on the list who is active, with
the marks of the key the team has and of the ones before it. -/
def Leads (member : MemberKey) (team : Uuid) (heard : Heard) (account : Option Uuid) (epoch : ℕ)
    (wraps : List RotateKey) : Prop :=
  ∃ wire ∈ heard.teams, wire.id = team ∧ epoch = wire.epoch + 1 ∧
    ∃ own held, account = some own ∧ wire.Opens member own held ∧
      ∃ members listed fresh, heard.members = some members ∧ Teams.activeOf members = .ok listed ∧
        heard.fresh = some fresh ∧
        WrapsExactly team epoch { key := fresh, earlier := held.handedOn } listed wraps

section contract

variable (member : MemberKey) (team : Uuid)

/-- What a rotation is held to; the history is what the device was told last. -/
def rotateContract : Contract TeamDevice TeamAsk TeamAnswer Heard where
  wrote := fun heard _ _ => heard
  asked := fun heard _ q a => match q, a with
    | .teams, .ok teams => { heard with teams }
    | .members _, .ok members => { heard with members := some members, fresh := none }
    | .newTeamKey, fresh => { heard with fresh := some fresh }
    | _, _ => heard
  rely := fun _ _ _ _ => True
  allowed := fun _ _ _ => True
  guarantee := fun heard s t =>
    LastPasses member team heard.members s ∧ t.account = s.account ∧ t.pins = s.pins
  may := fun heard s q => LastPasses member team heard.members s ∧
    ∀ team' epoch wraps cursor, q = .rotate team' epoch wraps cursor →
      team' = team ∧ Leads member team heard s.account epoch wraps
  inv := fun _ _ => True

/-- A question that tells nothing a rotation goes by, and is not the rotation itself. -/
def TeamAsk.Calm : TeamAsk → Prop
  | .teams => False
  | .members _ => False
  | .newTeamKey => False
  | .rotate .. => False
  | _ => True

/-- The parts of a rotation between one such question and the next. -/
def calmContract (heard₀ : Heard) (account₀ : Option Uuid)
    (pins₀ : Uuid → Uuid → Option MemberPin) : Contract TeamDevice TeamAsk TeamAnswer Heard :=
  { rotateContract member team with
    may := fun heard s q => LastPasses member team heard.members s ∧ q.Calm
    inv := fun heard s => LastPasses member team heard.members s ∧ heard = heard₀ ∧
      s.account = account₀ ∧ s.pins = pins₀ }

end contract

theorem LastPasses.congr {member : MemberKey} {last : Option (List WireMember)} {s t : TeamDevice}
    (h : LastPasses member team last s) (haccount : t.account = s.account) (hpins : t.pins = s.pins) :
    LastPasses member team last t := by
  intro members hlast
  obtain ⟨listed, hlisted, hvetted⟩ := h members hlast
  exact ⟨listed, hlisted, by rw [haccount, hpins]; exact hvetted⟩

namespace Teams

variable {self : MemberKey} {own : Uuid} {heard₀ : Heard} {account₀ : Option Uuid}
  {pins₀ : Uuid → Uuid → Option MemberPin} {team : Uuid} {α : Type}

theorem calm_stricter : (calmContract self own heard₀ account₀ pins₀).Stricter
    (rotateContract self own) where
  wrote := rfl
  asked := rfl
  rely := fun _ _ _ _ h => h
  allowed := fun _ _ _ h => h
  guarantee := fun _ _ _ h => h
  may := fun _ _ q h => ⟨h.1, fun _ _ _ _ hq => by
    rw [hq] at h
    exact h.2.elim⟩
  inv := fun _ _ _ => trivial

section calm

theorem calm_commit {f : TeamDevice → TeamDevice} (haccount : ∀ s, (f s).account = s.account)
    (hpins : ∀ s, (f s).pins = s.pins) :
    Keeps (calmContract self own heard₀ account₀ pins₀) (commit f) :=
  Keeps.modify fun _ s hinv _ => ⟨⟨hinv.1, haccount s, hpins s⟩,
    hinv.1.congr (haccount s) (hpins s), hinv.2.1, (haccount s).trans hinv.2.2.1,
    (hpins s).trans hinv.2.2.2⟩

theorem calm_ask {q : TeamAsk} (hq : q.Calm) :
    Keeps (calmContract self own heard₀ account₀ pins₀) (ask q) := by
  refine Keeps.query fun heard s hinv => ⟨⟨hinv.1, hq⟩, fun a _ => ?_⟩
  have hsame : (rotateContract self own).asked heard s q a = heard := by
    cases q <;> first | rfl | exact hq.elim
  change LastPasses self own ((rotateContract self own).asked heard s q a).members s ∧
    (rotateContract self own).asked heard s q a = heard₀ ∧ _
  rw [hsame]
  exact hinv

theorem calm_ownVault : Keeps (calmContract self own heard₀ account₀ pins₀) ownVault := by
  refine Keeps.get.bind fun d => ?_
  cases d.ownVault with
  | none => exact Keeps.fail _
  | some vault => exact Keeps.done vault

theorem calm_teamNoteKey {record : TeamKeyRecord} :
    Keeps (calmContract self own heard₀ account₀ pins₀) (teamNoteKey team record) :=
  (Keeps.ofExcept _).bind fun _ => calm_ownVault.bind fun _ =>
    calm_commit (fun _ => rfl) fun _ => rfl

theorem calm_teamOweKey {owed : Bool} :
    Keeps (calmContract self own heard₀ account₀ pins₀) (teamOweKey team owed) :=
  calm_ownVault.bind fun _ => calm_commit (fun _ => rfl) fun _ => rfl

theorem calm_fileOf : Keeps (calmContract self own heard₀ account₀ pins₀) (fileOf team) := by
  refine Keeps.get.bind fun d => ?_
  cases d.teamSpace team with
  | none => exact Keeps.fail _
  | some space => exact Keeps.done space.file

theorem calm_onFile {f : TeamFile → Except TxError TeamFile} :
    Keeps (calmContract self own heard₀ account₀ pins₀) (onFile team f) :=
  calm_fileOf.bind fun _ => (Keeps.ofExcept _).bind fun _ => calm_commit (fun _ => rfl) fun _ => rfl

theorem calm_addTeam {name : String} {role : TeamRole} {epoch : ℕ} {key : VaultKey} :
    Keeps (calmContract self own heard₀ account₀ pins₀) (addTeam team name role epoch key) := by
  refine Keeps.get.bind fun d => ?_
  split
  · exact Keeps.fail _
  · split
    · exact Keeps.fail _
    · exact (calm_ask (q := .newSpace) trivial).bind fun _ => (Keeps.ofExcept _).bind fun _ =>
        calm_commit (fun _ => rfl) fun _ => rfl

theorem calm_owesNothing : Keeps (calmContract self own heard₀ account₀ pins₀) (owesNothing team) :=
  calm_onFile.bind fun _ => calm_teamOweKey

theorem calm_takeKey {keys : TeamKeys} {wire : WireTeam} {row : TeamRow}
    {pending : Option (ℕ × VaultKey)} :
    Keeps (calmContract self own heard₀ account₀ pins₀) (takeKey keys wire row pending) := by
  unfold takeKey
  split
  · refine calm_onFile.bind fun _ => ?_
    split
    · exact calm_owesNothing
    · exact Keeps.done ()
  · split
    · exact calm_onFile
    · exact Keeps.done ()

theorem calm_settleSpace {keys : TeamKeys} {wire : WireTeam} {space : TeamSpace} :
    Keeps (calmContract self own heard₀ account₀ pins₀) (settleSpace keys wire space) := by
  refine Keeps.bind ?_ fun _ => calm_fileOf.bind fun file => ?_
  · unfold unlockSpace
    split
    · split
      · exact Keeps.fail _
      · exact calm_commit (fun _ => rfl) fun _ => rfl
    · exact Keeps.done ()
  · split
    · exact Keeps.fail _
    · exact Keeps.fail _
    · split
      · exact Keeps.fail _
      · refine (Keeps.ofExcept _).bind fun pending => calm_takeKey.bind fun _ => ?_
        unfold relabel
        dsimp only
        split
        · exact Keeps.done false
        · exact (calm_commit (fun _ => rfl) fun _ => rfl).bind fun _ => Keeps.done true

theorem gives_account : Gives (calmContract self own heard₀ account₀ pins₀)
    (fun account => account₀ = some account) account := by
  intro heard s hinv
  unfold account
  rw [wp_bind, wp_get]
  dsimp only
  cases haccount : s.account with
  | none => exact ⟨hinv, nofun⟩
  | some account =>
    refine ⟨hinv, fun a ha => ?_⟩
    cases ha
    rw [← hinv.2.2.1, haccount]

theorem gives_keysOf {member : MemberKey} {account : Uuid} {wire : WireTeam} :
    Gives (calmContract self own heard₀ (some account) pins₀) (wire.Opens member account)
      (keysOf member wire) := by
  unfold keysOf
  split
  · exact Gives.fail
  · next wrapped hfilter =>
    have hwrapped := (Option.filter_eq_some_iff.mp hfilter).1
    refine gives_account.bind fun account' haccount => ?_
    obtain rfl := Option.some.inj haccount
    split
    · exact Gives.fail
    · next keys hkeys => exact Gives.done ⟨wrapped, hwrapped, hkeys⟩

/-- A team is settled with the keys that its wrap for this account opens to. -/
theorem gives_settle {member : MemberKey} {account : Uuid} {wire : WireTeam} :
    Gives (calmContract self own heard₀ (some account) pins₀)
      (fun settled => wire.Opens member account settled.1) (settle member wire) := by
  refine gives_keysOf.bind fun keys hkeys => Gives.bind (Gives.of_keeps ?_) fun record _ => ?_
  · exact calm_ownVault.bind fun _ => Keeps.get.bind fun d => Keeps.done (d.keyRecords wire.id)
  · split
    · exact Gives.fail
    · refine Gives.bind (Gives.of_keeps ?_) fun changed _ =>
        Gives.bind (Gives.of_keeps ?_) fun _ _ => Gives.done hkeys
      · refine Keeps.get.bind fun d => ?_
        split
        · exact calm_settleSpace
        · exact calm_addTeam.bind fun _ => Keeps.done true
      · split
        · exact calm_teamNoteKey
        · exact Keeps.done ()

theorem calm_syncRounds {wire : WireTeam} {n : ℕ} {changed : Bool} {needs : Option Bool} :
    Keeps (calmContract self own heard₀ account₀ pins₀) (syncRounds wire team n changed needs) := by
  induction n generalizing changed needs with
  | zero => exact Keeps.done _
  | succ n ih =>
    refine (calm_ask (q := .exchange wire.id wire.epoch wire.role.writes) trivial).bind fun out => calm_onFile.bind fun _ => ?_
    split
    · split
      · exact Keeps.done none
      · exact Keeps.fail _
    · split
      · exact Keeps.done none
      · split
        · exact Keeps.done _
        · refine calm_fileOf.bind fun file => calm_onFile.bind fun _ => ?_
          split
          · exact Keeps.done _
          · exact ih

theorem calm_sync {wire : WireTeam} :
    Keeps (calmContract self own heard₀ account₀ pins₀) (sync wire team) := calm_syncRounds

theorem calm_rotated {wire : WireTeam} {epoch : ℕ} {key : VaultKey} :
    Keeps (calmContract self own heard₀ account₀ pins₀) (rotated wire epoch key) :=
  calm_onFile.bind fun _ => calm_owesNothing.bind fun _ => calm_teamNoteKey.bind fun _ =>
    calm_sync.bind fun _ => Keeps.done ()

end calm

section rotate

variable {heard : Heard} {s : TeamDevice}

/-- A part that asks nothing of the kind leaves what was told and the pins as they were, and comes to
what is known of it. -/
theorem gives_wp {p : TeamScript α} {S : α → Prop}
    (hp : Gives (calmContract self own heard s.account s.pins) S p)
    {post : Except TeamError α → Heard → TeamDevice → Prop}
    (hlast : LastPasses self own heard.members s)
    (hpost : ∀ r t, LastPasses self own heard.members t → t.account = s.account → t.pins = s.pins →
      (∀ a, r = .ok a → S a) → post r heard t) : p.wp (rotateContract self own) post heard s := by
  refine wp_of_stricter calm_stricter (wp_mono (hp heard s ⟨hlast, rfl, rfl, rfl⟩) fun r heard' t h => ?_)
  obtain ⟨⟨hpasses, rfl, haccount, hpins⟩, hgives⟩ := h
  exact hpost r t hpasses haccount hpins hgives

theorem calm_wp {p : TeamScript α} (hp : Keeps (calmContract self own heard s.account s.pins) p)
    {post : Except TeamError α → Heard → TeamDevice → Prop}
    (hlast : LastPasses self own heard.members s)
    (hpost : ∀ r t, LastPasses self own heard.members t → t.account = s.account → t.pins = s.pins →
      post r heard t) : p.wp (rotateContract self own) post heard s :=
  gives_wp (Gives.of_keeps hp) hlast fun r t hlast haccount hpins _ => hpost r t hlast haccount hpins

/-- Everybody who is listed gets one wrap, under the key that is listed. -/
theorem wrapMembers_exactly {epoch : ℕ} {key : VaultKey} {held : TeamKeys}
    {members : List Listed} {post : Except TeamError (List RotateKey) → Heard → TeamDevice → Prop}
    (hlast : LastPasses self own heard.members s)
    (herr : ∀ e t, t.account = s.account → t.pins = s.pins → post (.error e) heard t)
    (hok : ∀ wraps t, LastPasses self own heard.members t → t.account = s.account → t.pins = s.pins →
      WrapsExactly team epoch { key, earlier := held.handedOn } members wraps →
      post (.ok wraps) heard t) :
    (wrapMembers team epoch key held.handedOn members).wp (rotateContract self own) post heard s := by
  induction members generalizing s post with
  | nil => exact hok [] s hlast rfl rfl .nil
  | cons listed rest ih =>
    unfold wrapMembers
    rw [wp_bind]
    have hdrop : Keeps (calmContract self own heard s.account s.pins)
        (dropMailboxPin team listed.account) :=
      (calm_ask (q := .now) trivial).bind fun _ => calm_onFile
    refine calm_wp hdrop hlast fun r t hlast' haccount hpins => ?_
    cases r with
    | error e => exact herr _ _ haccount hpins
    | ok _ =>
      dsimp only
      split
      · exact herr _ _ haccount hpins
      · next wrapped hwrapped =>
        rw [wp_bind]
        refine ih hlast' (fun e u haccount' hpins' => herr e u (haccount'.trans haccount)
          (hpins'.trans hpins)) fun wraps u hlast'' haccount' hpins' hwraps => ?_
        refine hok _ u hlast'' (haccount'.trans haccount) (hpins'.trans hpins) (.cons ⟨rfl, ?_⟩ hwraps)
        unfold wrapTeamKey at hwrapped
        rw [List.take_of_length_le held.length_handedOn_le] at hwrapped
        split at hwrapped
        · cases hwrapped
        · exact (Option.some.inj hwrapped).symm

/-- What is left of a rotation once the server answered. -/
theorem sent_wp {member : MemberKey} {account : Uuid} {wire : WireTeam} {key : VaultKey}
    {answer : Except TeamError WireTeam}
    {post : Except TeamError (Option TeamError) → Heard → TeamDevice → Prop}
    (hlast : LastPasses member wire.id heard.members s) (haccount : s.account = some account)
    (hpost : ∀ r t, (∀ again, r = .ok again → LastPasses member wire.id heard.members t) →
      t.account = some account → t.pins = s.pins → post r heard t) :
    (sent wire key answer).wp (rotateContract member wire.id) post heard s := by
  have hforget : ∀ {k : TeamScript (Option TeamError)} {r : Except TeamError (Option TeamError)},
      (∀ post g s, Script.wp (rotateContract member wire.id) k post g s ↔ post r g s) →
      Script.wp (rotateContract member wire.id)
        (onFile wire.id (fun file => .ok file.teamForgetRotation) >>= fun _ => k) post heard s := by
    intro k r hk
    rw [wp_bind]
    refine calm_wp calm_onFile hlast fun r' t hlast' haccount' hpins => ?_
    cases r' with
    | error e => exact hpost _ t (fun _ hr => nomatch hr) (haccount'.trans haccount) hpins
    | ok _ => exact (hk _ _ _).mpr (hpost r t (fun _ _ => hlast') (haccount'.trans haccount) hpins)
  unfold sent
  split
  · rw [wp_bind]
    refine calm_wp calm_rotated hlast fun r t hlast' haccount' hpins => ?_
    cases r with
    | error e => exact hpost _ t (fun _ hr => nomatch hr) (haccount'.trans haccount) hpins
    | ok _ => exact hpost _ t (fun _ _ => hlast') (haccount'.trans haccount) hpins
  · split
    · exact hforget fun _ _ _ => wp_pure
    · split
      · exact hpost _ s (fun _ hr => nomatch hr) haccount rfl
      · exact hforget fun _ _ _ => wp_fail

/-- From the list on, a rotation goes on only with a list that passes, and leads the team to the key that
was drawn for it. -/
theorem rotateOnce_passes {member : MemberKey} {account : Uuid} {wire : WireTeam} {keys : TeamKeys}
    {post : Except TeamError (Option TeamError) → Heard → TeamDevice → Prop}
    (hlast : LastPasses member wire.id heard.members s) (haccount : s.account = some account)
    (hwire : wire ∈ heard.teams) (hopens : wire.Opens member account keys)
    (hpost : ∀ r heard' t, (∀ again, r = .ok again → LastPasses member wire.id heard'.members t) →
      t.account = some account → t.pins = s.pins → post r heard' t) :
    (rotateOnce member account wire keys).wp (rotateContract member wire.id) post heard s := by
  have herr : ∀ e heard' t, t.account = some account → t.pins = s.pins → post (.error e) heard' t :=
    fun e heard' t haccount hpins => hpost _ _ _ (fun _ hr => nomatch hr) haccount hpins
  unfold rotateOnce activeMembers expect
  rw [wp_bind, wp_bind, wp_bind]
  refine wp_query.mpr ⟨⟨hlast, fun _ _ _ _ hq => by cases hq⟩, fun answer _ => ⟨trivial, ?_⟩⟩
  dsimp only
  rw [wp_ofExcept]
  cases answer with
  | error e => exact herr e _ s haccount rfl
  | ok members =>
    dsimp only
    rw [wp_ofExcept]
    cases hlisted : activeOf members with
    | error e => exact herr e _ s haccount rfl
    | ok listed =>
      dsimp only
      split
      · exact herr _ _ s haccount rfl
      · rw [wp_bind]
        refine checkMembers_wp (fun e => herr _ _ s haccount rfl) (fun l => herr _ _ s haccount rfl)
          fun _ hvetted => ?_
        have hpasses : LastPasses member wire.id (some members) s := by
          intro members' hsame
          obtain rfl := Option.some.inj hsame
          refine ⟨listed, hlisted, fun account' haccount' => ?_⟩
          obtain rfl := Option.some.inj (haccount'.symm.trans haccount)
          exact hvetted
        change Script.wp _ (ask .newTeamKey >>= _) post { heard with members := some members, fresh := none } s
        rw [wp_bind]
        refine wp_query.mpr ⟨⟨hpasses, fun _ _ _ _ hq => by cases hq⟩, fun fresh _ => ⟨trivial, ?_⟩⟩
        change Script.wp _ (wrapMembers _ _ _ _ _ >>= _) post
          { heard with members := some members, fresh := some fresh } s
        rw [wp_bind]
        refine wrapMembers_exactly hpasses (fun e t₂ haccount₂ hpins₂ => herr e _ _
          (haccount₂.trans haccount) hpins₂) fun wraps t₂ hpasses₂ haccount₂ hpins₂ hwraps => ?_
        have haccount₂ := haccount₂.trans haccount
        dsimp only
        rw [wp_bind]
        refine calm_wp calm_onFile hpasses₂ fun r t₃ hpasses₃ haccount₃ hpins₃ => ?_
        have haccount₃ := haccount₃.trans haccount₂
        have hpins₃ := hpins₃.trans hpins₂
        cases r with
        | error e => exact herr e _ _ haccount₃ hpins₃
        | ok _ =>
          dsimp only
          rw [wp_bind]
          refine calm_wp calm_fileOf hpasses₃ fun r t₄ hpasses₄ haccount₄ hpins₄ => ?_
          have haccount₄ := haccount₄.trans haccount₃
          have hpins₄ := hpins₄.trans hpins₃
          cases r with
          | error e => exact herr e _ _ haccount₄ hpins₄
          | ok file =>
            dsimp only
            rw [wp_bind]
            refine wp_query.mpr ⟨⟨hpasses₄, fun team' epoch wraps' cursor hq => ?_⟩, fun answer _ =>
              ⟨trivial, ?_⟩⟩
            · injection hq with hteam hepoch hwraps' _
              subst hteam hepoch hwraps'
              exact ⟨rfl, wire, hwire, rfl, rfl, account, keys, haccount₄, hopens, members, listed, fresh,
                rfl, hlisted, rfl, hwraps⟩
            · exact sent_wp hpasses₄ haccount₄ fun r t hr haccount hpins =>
                hpost r _ t hr haccount (hpins.trans hpins₄)

/-- The team is one of those that are listed. -/
theorem one_listed_wp {post : Except TeamError WireTeam → Heard → TeamDevice → Prop}
    (hlast : LastPasses self own heard.members s) (herr : ∀ e heard', post (.error e) heard' s)
    (hok : ∀ teams wire, wire ∈ teams → wire.id = team → post (.ok wire) { heard with teams } s) :
    (one team).wp (rotateContract self own) post heard s := by
  unfold one listed expect
  rw [wp_bind, wp_bind, wp_bind]
  refine wp_query.mpr ⟨⟨hlast, fun _ _ _ _ hq => by cases hq⟩, fun answer _ => ⟨trivial, ?_⟩⟩
  dsimp only
  rw [wp_ofExcept]
  cases answer with
  | error e => exact herr e _
  | ok teams =>
    dsimp only
    split
    · exact herr _ _
    · rw [wp_pure]
      dsimp only
      cases hfound : (firstOfEach teams).find? (·.id = team) with
      | none => exact herr _ _
      | some wire =>
        exact hok teams wire (mem_firstOfEach (List.mem_of_find?_eq_some hfound))
          (by simpa using List.find?_some hfound)

theorem rotateLoop_passes {member : MemberKey} {account : Uuid} {n : ℕ} {e : TeamError}
    {s₀ : TeamDevice} (hlast : LastPasses member team heard.members s) (haccount : s.account = some account)
    (hpins : s.pins = s₀.pins) :
    (rotateLoop member account team n e).wp (rotateContract member team)
      (fun r heard' t => (r = .ok () → LastPasses member team heard'.members t) ∧ t.pins = s₀.pins) heard s := by
  have hstop : ∀ (e : TeamError) (heard' : Heard) (t : TeamDevice), t.pins = s₀.pins →
      ((.error e : Except TeamError Unit) = .ok () → LastPasses member team heard'.members t) ∧
        t.pins = s₀.pins := fun e heard' t hpins => ⟨(fun hr => nomatch hr), hpins⟩
  induction n generalizing heard s e with
  | zero => exact hstop e heard s hpins
  | succ n ih =>
    unfold rotateLoop
    rw [wp_bind]
    refine one_listed_wp hlast (fun e heard' => hstop e heard' s hpins) fun teams wire hwire hid => ?_
    subst hid
    dsimp only
    split
    · exact hstop _ _ _ hpins
    · rw [wp_bind]
      have hsettle : Gives (calmContract member wire.id { heard with teams } s.account s.pins)
          (fun settled => wire.Opens member account settled.1) (settle member wire) :=
        haccount ▸ gives_settle
      refine gives_wp hsettle hlast fun r t₂ hlast₂ haccount₂ hpins₂ hopens => ?_
      have haccount₂ := haccount₂.trans haccount
      have hpins₂ := hpins₂.trans hpins
      cases r with
      | error e => exact hstop e _ _ hpins₂
      | ok settled =>
        dsimp only
        rw [wp_bind]
        refine calm_wp calm_sync hlast₂ fun r t₃ hlast₃ haccount₃ hpins₃ => ?_
        have haccount₃ := haccount₃.trans haccount₂
        have hpins₃ := hpins₃.trans hpins₂
        cases r with
        | error e => exact hstop e _ _ hpins₃
        | ok moved =>
          cases moved with
          | none => exact ih hlast₃ haccount₃ hpins₃
          | some _ =>
            dsimp only
            rw [wp_bind]
            refine rotateOnce_passes hlast₃ haccount₃ hwire (hopens settled rfl)
              fun r heard₄ t₄ hlast₄ haccount₄ hpins₄ => ?_
            have hpins₄ := hpins₄.trans hpins₃
            cases r with
            | error e => exact hstop e _ _ hpins₄
            | ok again =>
              have hpasses := hlast₄ again rfl
              cases again with
              | none => exact ⟨fun _ => hpasses, hpins₄⟩
              | some e => exact ih hpasses haccount₄ hpins₄

theorem rotate_passes {member : MemberKey} :
    (rotate member team).wp (rotateContract member team)
      (fun r heard' t => (r = .ok () → LastPasses member team heard'.members t) ∧ t.pins = s.pins) {} s := by
  unfold rotate account
  rw [wp_bind, wp_bind, wp_get]
  dsimp only
  cases haccount : s.account with
  | none => exact ⟨(fun hr => nomatch hr), rfl⟩
  | some account =>
    have hnone : LastPasses member team ({} : Heard).members s := fun _ hlast => nomatch hlast
    exact rotateLoop_passes hnone haccount rfl

end rotate

end Teams

section runs

variable {member : MemberKey} {team : Uuid} {s t : TeamDevice}
  {log : List (Entry TeamDevice TeamAsk TeamAnswer Heard)}
  {heard : Heard} {o : Option (Except TeamError Unit)}

/-- A run that ends with a list that does not pass did nothing after that list came. -/
theorem rotate_stops (hrun : Exec (rotateContract member team) (Teams.rotate member team) {} s log
    heard t o) (hlog : ∀ e ∈ log, e.Keeps (rotateContract member team))
    (hfails : ¬ LastPasses member team heard.members t) : ∃ before h team' members,
      log = before ++ [.asked h t (.members team') (.ok members)] ∧ heard.members = some members := by
  rcases hrun.ends with ⟨rfl, rfl, rfl⟩ | ⟨before, e, rfl, hleaves⟩
  · exact absurd (fun _ hlast => nomatch hlast) hfails
  · have hkeeps := hlog e (List.mem_append_right _ (List.mem_singleton_self e))
    cases e with
    | wrote h u v =>
      obtain ⟨rfl, rfl⟩ := hleaves
      exact absurd (hkeeps.1.congr hkeeps.2.1 hkeeps.2.2) hfails
    | asked h u q a =>
      obtain ⟨rfl, rfl⟩ := hleaves
      cases q with
      | members team' =>
        cases a with
        | ok members => exact ⟨before, h, team', members, rfl, rfl⟩
        | error e => exact absurd hkeeps.1 hfails
      | teams =>
        cases a with
        | ok teams => exact absurd hkeeps.1 hfails
        | error e => exact absurd hkeeps.1 hfails
      | _ => exact absurd hkeeps.1 hfails

/-- Whatever lists of members come, a rotation that is cut off anywhere writes and asks only while
the last list passes, and wraps for exactly who is on that list; when the last list does not pass,
nothing was written or asked after it came, and the rotation failed. -/
theorem rotate_wraps_for_vetted
    (hrun : Exec (rotateContract member team) (Teams.rotate member team) {} s log heard t o) :
    (∀ e ∈ log, e.Keeps (rotateContract member team)) ∧
      (¬ LastPasses member team heard.members t → o ≠ some (.ok ()) ∧ ∃ before h team' members,
        log = before ++ [.asked h t (.members team') (.ok members)] ∧ heard.members = some members) := by
  obtain ⟨hlog, -, hend⟩ := hrun.sound Teams.rotate_passes trivial
  refine ⟨hlog, fun hfails => ⟨fun ho => ?_, rotate_stops hrun hlog hfails⟩⟩
  exact hfails ((hend _ ho).1 rfl)

end runs

section samples

/-- The epochs a run rotated to, and what it wrapped for each. -/
def rotationsOf (log : List (Entry TeamDevice TeamAsk TeamAnswer Heard)) : List (ℕ × List RotateKey) :=
  log.filterMap fun
    | .asked _ _ (.rotate _ epoch wraps _) _ => some (epoch, wraps)
    | _ => none

/-- A member of the sample team, as the server lists them. -/
def WireMember.sample (account : Uuid) (publicKey : PublicKey) : WireMember where
  accountId := account
  displayName := "Somebody"
  role := .editor
  state := .active
  publicKey := some publicKey

/-- A device that noted a rotation of which it has not seen the end. -/
def TeamDevice.sampleRotating : TeamDevice :=
  (TeamDevice.sample 5 1 11 8 80).setFile 5 { TeamFile.sample 5 1 11 with
    other := some
      { teamId := 5, epoch := 1
        check := UnlockedVault.sealStored { vaultId := 5, key := 11 } (checkId 5) .secret checkPlain
        requeue := false, rotationOwed := false
        pending := some
          { epoch := 2, wrappedFor := [1, 8]
            box := UnlockedVault.sealStored { vaultId := 5, key := 11 } (pendingId 5 2) .secret
              (keyPlain 12) } } }

/-- A rotation of the sample team with a list of members. -/
def rotateWith (device : TeamDevice) (members : List WireMember) :
    Played TeamDevice TeamAsk TeamAnswer TeamError Unit Heard :=
  (Teams.rotate { publicKey := 9 } 5).play (rotateContract { publicKey := 9 } 5)
    (steadyServer [.sample 5 1 { key := 11, earlier := [] }] members 12 5) {} device

theorem rotateWith_exec (device : TeamDevice) (members : List WireMember) :
    Exec (rotateContract { publicKey := 9 } 5) (Teams.rotate { publicKey := 9 } 5) {} device
      (rotateWith device members).log (rotateWith device members).history
      (rotateWith device members).state (some (rotateWith device members).result) :=
  play_exec (fun _ _ _ => trivial) (fun _ _ _ => trivial) _ _ device

/-- Key 12 follows key 11 of the first epoch. -/
theorem rotate_wraps_for_both : (∀ e ∈ (rotateWith (.sample 5 1 11 8 80)
    [.sample 1 9, .sample 8 80]).log, e.Keeps (rotateContract { publicKey := 9 } 5)) ∧
    rotationsOf (rotateWith (.sample 5 1 11 8 80) [.sample 1 9, .sample 8 80]).log =
      [(2, [{ accountId := 1
              wrappedKey := .box { team := 5, epoch := 2, account := 1 } 9 { key := 12, earlier := [keyMark 11] } },
            { accountId := 8
              wrappedKey := .box { team := 5, epoch := 2, account := 8 } 80
                { key := 12, earlier := [keyMark 11] } }])] :=
  ⟨(rotate_wraps_for_vetted (rotateWith_exec (.sample 5 1 11 8 80) [.sample 1 9, .sample 8 80])).1,
    by decide +kernel⟩

/-- A list without this account gets no wrap for it, and a rotation noted before is forgotten
although the list then does not pass. -/
theorem rotate_deviates : (∃ log last t o,
    Exec (rotateContract { publicKey := 9 } 5) (Teams.rotate { publicKey := 9 } 5) {}
      (.sample 5 1 11 8 80) log last t o ∧ (rotationsOf log).map (fun sent => sent.2.map (·.accountId)) = [[8]] ∧
        (TeamDevice.sample 5 1 11 8 80).account = some 1) ∧
    ∃ log last t o, Exec (rotateContract { publicKey := 9 } 5) (Teams.rotate { publicKey := 9 } 5) {}
      TeamDevice.sampleRotating log last t o ∧ rotationsOf log = [] ∧
        o = some (.error (.memberChanged 8 "Somebody" false)) ∧
        (TeamDevice.sampleRotating.view 5).pending.isSome = true ∧ (t.view 5).pending = none := by
  refine ⟨⟨_, _, _, _, rotateWith_exec (.sample 5 1 11 8 80) [.sample 8 80], ?_, rfl⟩,
    _, _, _, _, rotateWith_exec .sampleRotating [.sample 1 9, .sample 8 81], ?_⟩
  · decide +kernel
  · have hsent : rotationsOf (rotateWith .sampleRotating [.sample 1 9, .sample 8 81]).log = [] := by
      decide +kernel
    have hresult : (rotateWith .sampleRotating [.sample 1 9, .sample 8 81]).result =
        .error (.memberChanged 8 "Somebody" false) := by decide +kernel
    have hnoted : (TeamDevice.sampleRotating.view 5).pending.isSome = true := by decide +kernel
    have hforgot : ((rotateWith .sampleRotating [.sample 1 9, .sample 8 81]).state.view 5).pending =
        none := by decide +kernel
    exact ⟨hsent, by rw [hresult], hnoted, hforgot⟩

end samples

end UwuSsh

import UwuSsh.Team.Runs

/-!
What a server can do to a team's key on a device. For as long as a space stays, its keys form a
chain: each one was made by this device or came in a wrap for its account, and carries the mark of
the one before it at the distance of their epochs. A space that is made anew begins after the key
the account had written down, when it had one.
-/
namespace UwuSsh

open Script

variable {handed : WrapContext → TeamKeys → Prop} {made : VaultKey → Prop}

section chain

variable {account : Option Uuid} {team : Uuid} {first : ℕ × VaultKey → Prop}

/-- Epochs only rise along a chain, so one epoch has one key. -/
theorem Linked.rising {keys : List (ℕ × VaultKey)}
    (h : Linked handed made account team first keys) :
    keys.Pairwise fun later earlier => earlier.1 < later.1 := by
  have hchain : keys.IsChain fun later earlier => earlier.1 < later.1 := by
    induction keys with
    | nil => exact .nil
    | cons key rest ih =>
      cases rest with
      | nil => exact .singleton key
      | cons held rest =>
        obtain ⟨hafter, hrest⟩ := h
        exact .cons_cons hafter.1 (ih hrest)
  exact hchain.pairwise

/-- What a server that does not know the team's keys can hand out: a wrap of one of these keys,
or one that carries no mark of any of them. -/
def Unforged (handed : WrapContext → TeamKeys → Prop) (team : Uuid) (own : VaultKey → Prop) : Prop :=
  ∀ context keys, handed context keys → context.team = team → own keys.key ∨
    ∀ k, own k → keyMark keys.key ≠ keyMark k ∧ keyMark k ∉ keys.earlier

theorem Unforged.of_followsMark {own : VaultKey → Prop} {context : WrapContext} {keys : TeamKeys}
    {epoch heldEpoch : ℕ} {k : VaultKey} (h : Unforged handed team own) (hhanded : handed context keys)
    (hteam : context.team = team) (hown : own k)
    (hfollows : keys.followsMark epoch heldEpoch (keyMark k) = true) : own keys.key := by
  rcases h context keys hhanded hteam with hkey | hmarks
  · exact hkey
  · obtain ⟨hsame, hmem⟩ := hmarks k hown
    unfold TeamKeys.followsMark at hfollows
    split at hfollows
    · exact absurd (beq_iff_eq.mp hfollows) hsame
    · split at hfollows
      · cases hfollows
      · exact absurd (List.mem_of_getElem? (beq_iff_eq.mp hfollows)) hmem

/-- A chain that begins with one of these keys stays among them. -/
theorem Linked.own {keys : List (ℕ × VaultKey)} {own : VaultKey → Prop}
    (h : Linked handed made account team first keys) (hmade : ∀ k, made k → own k)
    (hforged : Unforged handed team own)
    (hfirst : ∀ key, keys.getLast? = some key → first key → own key.2) : ∀ key ∈ keys, own key.2 := by
  induction keys with
  | nil => exact h.elim
  | cons key rest ih =>
    cases rest with
    | nil =>
      intro key' hmem
      obtain rfl := List.mem_singleton.mp hmem
      exact hfirst key' rfl h
    | cons held rest =>
      obtain ⟨⟨-, keys, hkey, hfollows, hknown⟩, hrest⟩ := h
      have hrest := ih hrest fun begun hlast => hfirst begun (by rw [List.getLast?_cons_cons, hlast])
      refine List.forall_mem_cons.mpr ⟨?_, hrest⟩
      rw [← hkey]
      rcases hknown with hours | ⟨a, -, hhanded⟩
      · exact hmade _ hours
      · exact hforged.of_followsMark hhanded rfl (hrest held (List.mem_cons_self ..)) hfollows

end chain

variable {d t : TeamDevice} {g : Ledger} {log : List (Entry TeamDevice TeamAsk TeamAnswer Ledger)}

/-- The keys a team's space has held since it is there form a chain that a server alone cannot
leave. -/
theorem TeamRun.keys_follow (hsound : SpacesSound d) (hrun : TeamRun handed made d log g t)
    {team : Uuid} {key : ℕ × VaultKey} (hkey : t.keyOf team = some key) : ∃ h : Held,
    (g team).held = some h ∧ h.keys.head? = some key ∧
      (h.keys.Pairwise fun later earlier => earlier.1 < later.1) ∧
      Linked handed made t.account team (FirstKey handed made
        (fun team key => d.keyOf team = some key) t.account team h.before) h.keys ∧
      ∀ own : VaultKey → Prop, (∀ k, made k → own k) → Unforged handed team own →
        (∀ begun, d.keyOf team = some begun → own begun.2) →
        ((∃ record k, h.before = some record ∧ record.mark = keyMark k ∧ own k) ∨
          ∀ begun, h.keys.getLast? = some begun → own begun.2) →
        ∀ key ∈ h.keys, own key.2 := by
  have hinv := hrun.inv hsound
  obtain ⟨h, hheld, hhead, hlinked⟩ := (hinv.teams team).held key hkey
  refine ⟨h, hheld, hhead, hlinked.rising, hlinked, fun own hmade hforged hstart hbegan => ?_⟩
  refine hlinked.own hmade hforged fun begun hlast hfirst => ?_
  rcases hbegan with ⟨record, k, hbefore, hmark, hown⟩ | hbegan
  · rcases hfirst with hthere | hours | ⟨keys, hsame, hknown, hfollows⟩
    · exact hstart begun hthere
    · exact hmade _ hours
    · rw [← hsame]
      rcases hknown with hours | ⟨a, -, hhanded⟩
      · exact hmade _ hours
      · have hfollows := hfollows record hbefore
        rw [hmark] at hfollows
        exact hforged.of_followsMark hhanded rfl hown hfollows
  · exact hbegan begun hlast

section samples

/-- What the server names a team it hands out a key of its own for. -/
def forgedKeys : TeamKeys := { key := 99, earlier := [] }

/-- What the server hands out: wraps of the team's keys, and a key of its own. -/
def wrapsAround : List TeamKeys :=
  [{ key := 12, earlier := [keyMark 11] }, { key := 13, earlier := [keyMark 12, keyMark 11] },
    { key := 15, earlier := [keyMark 14, keyMark 13, keyMark 12, keyMark 11] }, forgedKeys]

def handedAround (_ : WrapContext) (keys : TeamKeys) : Prop := keys ∈ wrapsAround

/-- One pass of the sample device, which would call the next key 13. -/
def passAround (before : Ledger × TeamDevice) (wire : WireTeam) : Ledger × TeamDevice :=
  let contract := teamContract handedAround (· = 13) fun team key =>
    (TeamDevice.sample 5 2 11 8 80).keyOf team = some key
  let run := (TeamOp.program .pass).play contract (steadyServer [wire] bothMembers 13 5) before.1 before.2
  (run.history, run.state)

def begunAround : Ledger × TeamDevice := (Ledger.start (.sample 5 2 11 8 80), .sample 5 2 11 8 80)

/-- A key that another member made comes, and a rotation of this device whose answer is lost. -/
def ledAround : Ledger × TeamDevice :=
  passAround begunAround
    { WireTeam.sample 5 3 { key := 12, earlier := [keyMark 11] } with needsRotation := true }

/-- The next passes find that rotation, a key without a mark, which is refused, and one two epochs on. -/
def around : Ledger × TeamDevice :=
  passAround (passAround (passAround ledAround
    (.sample 5 4 { key := 13, earlier := [keyMark 12, keyMark 11] })) (.sample 5 5 forgedKeys))
    (.sample 5 6 { key := 15, earlier := [keyMark 14, keyMark 13, keyMark 12, keyMark 11] })

theorem passed_around (keys : TeamKeys) (wire : WireTeam) {before : Ledger × TeamDevice}
    (h : ∃ log, TeamRun handedAround (· = 13) (.sample 5 2 11 8 80) log before.1 before.2)
    (hkeys : keys ∈ wrapsAround)
    (hwire : wire.wrappedKey = some (.box { team := wire.id, epoch := wire.epoch, account := 1 } 9 keys)) :
    ∃ log, TeamRun handedAround (· = 13) (.sample 5 2 11 8 80) log (passAround before wire).1
      (passAround before wire).2 := by
  obtain ⟨log, hrun⟩ := h
  have hnamed : ∀ q, Named handedAround (· = 13) q (steadyServer [wire] bothMembers 13 5 q) := by
    refine steadyServer_named (fun other hmem context recipient keys' hwrap => ?_) rfl
    obtain rfl := List.mem_singleton.mp hmem
    rw [hwire] at hwrap
    cases hwrap
    exact hkeys
  exact hrun.played hnamed .pass

theorem markless : ([11, 12, 13, 15] : List VaultKey).all (fun k => keyMark 99 != keyMark k) = true := by
  decide +kernel

/-- The server knows none of the team's keys, and has a mark of none on its own. -/
theorem unforged_around : Unforged handedAround 5 (· ∈ ([11, 12, 13, 15] : List VaultKey)) := by
  intro context keys hkeys _
  have hmem : keys ∈ wrapsAround := hkeys
  simp only [wrapsAround, List.mem_cons, List.not_mem_nil, or_false] at hmem
  rcases hmem with rfl | rfl | rfl | rfl
  · exact .inl (by decide)
  · exact .inl (by decide)
  · exact .inl (by decide)
  · exact .inr fun k hk => ⟨bne_iff_ne.mp (List.all_eq_true.mp markless k hk), List.not_mem_nil⟩

theorem around_run : ∃ log,
    TeamRun handedAround (· = 13) (.sample 5 2 11 8 80) log around.1 around.2 := by
  have hstart : ∃ log, TeamRun handedAround (· = 13) (.sample 5 2 11 8 80) log begunAround.1 begunAround.2 :=
    ⟨[], .start⟩
  have hled := passed_around { key := 12, earlier := [keyMark 11] }
    { WireTeam.sample 5 3 { key := 12, earlier := [keyMark 11] } with needsRotation := true }
    hstart (by simp [wrapsAround]) rfl
  have hown := passed_around { key := 13, earlier := [keyMark 12, keyMark 11] }
    (.sample 5 4 { key := 13, earlier := [keyMark 12, keyMark 11] }) hled (by simp [wrapsAround]) rfl
  have hrefused := passed_around forgedKeys (.sample 5 5 forgedKeys) hown (by simp [wrapsAround]) rfl
  exact passed_around _ _ hrefused (by simp [wrapsAround]) rfl

/-- The keys of the team, one of this device and two of others, and none of the server's. -/
theorem TeamRun.keys_follow_around : ∃ log h,
    TeamRun handedAround (· = 13) (.sample 5 2 11 8 80) log around.1 around.2 ∧
      (around.1 5).held = some h ∧ h.keys = [(6, 15), (4, 13), (3, 12), (2, 11)] ∧
      Linked handedAround (· = 13) around.2.account 5 (FirstKey handedAround (· = 13)
        (fun team key => (TeamDevice.sample 5 2 11 8 80).keyOf team = some key) around.2.account 5
        h.before) h.keys ∧
      ∀ key ∈ h.keys, key.2 ∈ ([11, 12, 13, 15] : List VaultKey) := by
  obtain ⟨log, hrun⟩ := around_run
  have hkey : around.2.keyOf 5 = some (6, 15) := by decide +kernel
  obtain ⟨h, hheld, -, -, hlinked, hown⟩ :=
    TeamRun.keys_follow (TeamDevice.sample_sound 5 2 11 8 80) hrun hkey
  have hkeys : (around.1 5).held.map Held.keys = some [(6, 15), (4, 13), (3, 12), (2, 11)] := by decide +kernel
  have hbegun : (TeamDevice.sample 5 2 11 8 80).keyOf 5 = some (2, 11) := by decide +kernel
  rw [hheld] at hkeys
  have hlist := Option.some.inj hkeys
  refine ⟨log, h, hrun, hheld, hlist, hlinked, hown _ (by simp) unforged_around (fun begun hbegun' => ?_)
    (.inr fun begun hlast => ?_)⟩
  · obtain rfl := Option.some.inj (hbegun.symm.trans hbegun')
    simp
  · rw [hlist] at hlast
    obtain rfl := Option.some.inj hlast
    simp

/-- Somebody redeems an invite and the server names a team that is there already; a pass loses
the team, and another one finds it with a key of the server's. -/
def rejoined : Ledger × TeamDevice :=
  let contract := teamContract (fun _ keys => keys = forgedKeys) (· = 12)
    fun team key => (TeamDevice.sample 5 2 11 8 80).keyOf team = some key
  let device := TeamDevice.sample 5 2 11 8 80
  let joined := (TeamOp.program (.join "code" "Me")).play contract (steadyServer [] [] 12 5)
    (Ledger.start device) device
  let gone := (TeamOp.program .pass).play contract (steadyServer [] [] 12 5) joined.history joined.state
  let back := (TeamOp.program .pass).play contract
    (steadyServer [.sample 5 1 forgedKeys] [] 12 5) gone.history gone.state
  (back.history, back.state)

/-- A space can come back under an older epoch and a key of the server's. -/
theorem TeamRun.key_substituted : ∃ log g t,
    TeamRun (fun _ keys => keys = forgedKeys) (· = 12) (TeamDevice.sample 5 2 11 8 80) log g t ∧
      (TeamDevice.sample 5 2 11 8 80).keyOf 5 = some (2, 11) ∧
      t.keyOf 5 = some (1, forgedKeys.key) ∧ forgedKeys.earlier = [] := by
  have hnone : ∀ q, Named (fun _ keys => keys = forgedKeys) (· = 12) q (steadyServer [] [] 12 5 q) :=
    steadyServer_named (fun _ hmem => absurd hmem List.not_mem_nil) rfl
  have hforged : ∀ q, Named (fun _ keys => keys = forgedKeys) (· = 12) q
      (steadyServer [.sample 5 1 forgedKeys] [] 12 5 q) := by
    refine steadyServer_named (fun wire hmem context recipient keys hwrap => ?_) rfl
    obtain rfl := List.mem_singleton.mp hmem
    cases hwrap
    rfl
  have hstart : TeamRun (fun _ keys => keys = forgedKeys) (· = 12) (TeamDevice.sample 5 2 11 8 80) []
      (Ledger.start (TeamDevice.sample 5 2 11 8 80)) (TeamDevice.sample 5 2 11 8 80) := .start
  obtain ⟨log₁, hjoined⟩ := hstart.played hnone (.join "code" "Me")
  obtain ⟨log₂, hgone⟩ := hjoined.played hnone .pass
  obtain ⟨log₃, hback⟩ := hgone.played hforged .pass
  have hfinal : rejoined.2.keyOf 5 = some (1, 99) := by decide +kernel
  exact ⟨log₃, rejoined.1, rejoined.2, hback, by decide +kernel, hfinal, rfl⟩

end samples

end UwuSsh

import UwuSsh.Team.Keys

/-!
A chain of team keys. Each rotation wraps the new key with the marks that the one before hands on,
so a wrap names the last keys of the chain by how far back they are. A device that holds one of them
finds its mark at the right place, and whoever can name no mark of a held key gets no other key taken.
-/
namespace UwuSsh

namespace TeamKeys

/-- What the wraps of a team hold after each rotation, from a first key without marks. -/
def afterRotations (key : ℕ → VaultKey) : ℕ → TeamKeys
  | 0 => { key := key 0, earlier := [] }
  | n + 1 => { key := key (n + 1), earlier := (afterRotations key n).handedOn.take maxEarlier }

/-- The marks a key of the chain is wrapped with. -/
def marksBefore (key : ℕ → VaultKey) : ℕ → List Mark
  | 0 => []
  | n + 1 => (afterRotations key n).handedOn

variable (key : ℕ → VaultKey)

theorem key_afterRotations (n : ℕ) : (afterRotations key n).key = key n := by
  cases n <;> rfl

/-- The mark of the key that many rotations back, as long as the limit reaches. -/
theorem earlier_afterRotations (n back : ℕ) : (afterRotations key n).earlier[back]? =
    if back < n ∧ back < maxEarlier then some (keyMark (key (n - 1 - back))) else none := by
  induction n generalizing back with
  | zero => simp [afterRotations]
  | succ n ih =>
    have hcarried : (afterRotations key (n + 1)).earlier =
        (keyMark (key n) :: (afterRotations key n).earlier).take maxEarlier := by
      show ((keyMark (afterRotations key n).key :: _).take maxEarlier).take maxEarlier = _
      rw [List.take_take, Nat.min_self, key_afterRotations]
    rw [hcarried, List.getElem?_take]
    cases back with
    | zero => simp [maxEarlier]
    | succ back =>
      rw [List.getElem?_cons_succ, ih]
      have hindex : n + 1 - 1 - (back + 1) = n - 1 - back := by omega
      rw [hindex]
      by_cases hlimit : back + 1 < maxEarlier
      · rw [if_pos hlimit]
        have hsame : (back < n ∧ back < maxEarlier) ↔ (back + 1 < n + 1 ∧ back + 1 < maxEarlier) := by
          omega
        rw [if_congr hsame rfl rfl]
      · rw [if_neg hlimit, if_neg (by omega)]

/-- What is wrapped along the chain is what a member opens. -/
theorem unwrap_chain {n : ℕ} {context : WrapContext} {member : MemberKey} {wrapped : Wrapped}
    (h : wrapTeamKey (key n) (marksBefore key n) context member.publicKey = some wrapped) :
    unwrapTeamKey member context wrapped = some (afterRotations key n) := by
  rw [unwrap_wrapTeamKey h]
  cases n <;> rfl

/-- When a device that holds a key takes another, told by what the marks say. -/
theorem follows_iff {keys : TeamKeys} {epoch heldEpoch : ℕ} {held : VaultKey} :
    keys.follows epoch heldEpoch held = true ↔ (epoch = heldEpoch ∧ keyMark keys.key = keyMark held) ∨
      (heldEpoch < epoch ∧ keys.earlier[epoch - heldEpoch - 1]? = some (keyMark held)) := by
  unfold follows followsMark
  split
  · next hsame =>
    subst hsame
    simp
  · next hne =>
    split
    · next holder =>
      have hnot : ¬ heldEpoch < epoch := by omega
      simp [hne, hnot]
    · next hnewer =>
      have hlt : heldEpoch < epoch := by omega
      simp [hne, hlt]

end TeamKeys

open TeamKeys

/-- Whether a member that holds the key of an epoch takes the one in a wrap. -/
def MemberKey.accepts (member : MemberKey) (context : WrapContext) (heldEpoch : ℕ) (held : VaultKey)
    (wrapped : Wrapped) : Bool :=
  (unwrapTeamKey member context wrapped).any fun keys => keys.follows context.epoch heldEpoch held

theorem MemberKey.accepts_of_unwrap {member : MemberKey} {context : WrapContext} {heldEpoch : ℕ}
    {held : VaultKey} {wrapped : Wrapped} {keys : TeamKeys}
    (h : unwrapTeamKey member context wrapped = some keys) :
    member.accepts context heldEpoch held wrapped = keys.follows context.epoch heldEpoch held := by
  rw [accepts, h, Option.any_some]

/-- Along the chain a device takes the keys of the next `maxEarlier` epochs, if the key it holds is the
one of its epoch. Of a wrap anybody made it takes the key it holds, or one whose marks have the mark of
the held key at the right place. -/
theorem marks_tell_the_chain (member : MemberKey) (team account : Uuid) (heldEpoch : ℕ) (held : VaultKey) :
    (∀ (key : ℕ → VaultKey) (first i j : ℕ) (wrapped : Wrapped), i ≤ j → heldEpoch = first + i →
      (keyMark held = keyMark (key i) → held = key i) →
      wrapTeamKey (key j) (marksBefore key j) { team, epoch := first + j, account } member.publicKey =
        some wrapped →
      (member.accepts { team, epoch := first + j, account } heldEpoch held wrapped = true ↔
        held = key i ∧ j - i ≤ maxEarlier)) ∧
    ∀ (epoch : ℕ) (keys : TeamKeys) (wrapped : Wrapped), (keyMark keys.key = keyMark held → keys.key = held) →
      unwrapTeamKey member { team, epoch, account } wrapped = some keys →
      (member.accepts { team, epoch, account } heldEpoch held wrapped = true ↔
        (epoch = heldEpoch ∧ keys.key = held) ∨ (heldEpoch < epoch ∧ epoch - heldEpoch ≤ maxEarlier ∧
          keys.earlier[epoch - heldEpoch - 1]? = some (keyMark held))) := by
  constructor
  · intro key first i j wrapped hle hepoch hmark hwrap
    rw [MemberKey.accepts_of_unwrap (unwrap_chain key hwrap), follows_iff, key_afterRotations,
      earlier_afterRotations]
    have hsame : keyMark (key i) = keyMark held ↔ held = key i :=
      ⟨fun h => hmark h.symm, fun h => by rw [h]⟩
    rcases Nat.eq_or_lt_of_le hle with rfl | hlt
    · simp [hepoch, hsame]
    · have hback : first + j - heldEpoch - 1 = j - i - 1 := by omega
      have hplace : j - 1 - (j - i - 1) = i := by omega
      have hne : ¬ first + j = heldEpoch := by omega
      have hnewer : heldEpoch < first + j := by omega
      rw [hback, hplace]
      by_cases hreach : j - i ≤ maxEarlier
      · have hindex : j - i - 1 < j ∧ j - i - 1 < maxEarlier := by
          unfold maxEarlier at hreach ⊢
          omega
        simp [hne, hnewer, hindex, hsame, hreach]
      · have hindex : ¬ (j - i - 1 < j ∧ j - i - 1 < maxEarlier) := by omega
        rw [if_neg hindex]
        simp [hne, hreach]
  · intro epoch keys wrapped hmark hopen
    rw [MemberKey.accepts_of_unwrap hopen, follows_iff]
    have hsame : keyMark keys.key = keyMark held ↔ keys.key = held := ⟨hmark, fun h => by rw [h]⟩
    have hfew : keys.earlier.length ≤ maxEarlier := by
      rw [unwrapTeamKey_some hopen] at hopen
      dsimp only [unwrapTeamKey] at hopen
      split at hopen
      · next hfits => exact hfits.1
      · cases hopen
    have hplace : keys.earlier[epoch - heldEpoch - 1]? = some (keyMark held) →
        heldEpoch < epoch → epoch - heldEpoch ≤ maxEarlier := by
      intro hsome hnewer
      obtain ⟨hlt, -⟩ := List.getElem?_eq_some_iff.mp hsome
      omega
    rw [hsame]
    constructor
    · rintro (hheld | ⟨hnewer, hsome⟩)
      · exact .inl hheld
      · exact .inr ⟨hnewer, hplace hsome hnewer, hsome⟩
    · rintro (hheld | ⟨hnewer, -, hsome⟩)
      · exact .inl hheld
      · exact .inr ⟨hnewer, hsome⟩

section examples

/-- A member whose public key is no point of small order. -/
def someMember : MemberKey := { publicKey := 9 }

/-- Two keys, one after the other. -/
def twoKeys (n : ℕ) : VaultKey := if n = 0 then 1 else 2

def wrapContext (epoch : ℕ) : WrapContext := { team := 3, epoch, account := 4 }

/-- A new key at each rotation. -/
def countedKeys (n : ℕ) : VaultKey := n + 1

/-- Of a long chain the first key's holder takes the eighth after it and not the ninth. -/
theorem second_key_accepted :
    someMember.accepts (wrapContext 9) 1 1 (.box (wrapContext 9) 9 (afterRotations countedKeys 8)) = true ∧
    someMember.accepts (wrapContext 10) 1 1 (.box (wrapContext 10) 9 (afterRotations countedKeys 9)) = false ∧
    (someMember.accepts (wrapContext 2) 1 1 (.box (wrapContext 2) 9 { key := 2, earlier := [keyMark 1] }) = true ↔
      (1 : VaultKey) = twoKeys 0 ∧ 1 - 0 ≤ maxEarlier) ∧
    (someMember.accepts (wrapContext 1) 1 1 (.box (wrapContext 1) 9 { key := 1, earlier := [] }) = true ↔
      (1 = 1 ∧ (1 : VaultKey) = 1) ∨ (1 < 1 ∧ 1 - 1 ≤ maxEarlier ∧ ([] : List Mark)[1 - 1 - 1]? = some (keyMark 1))) := by
  have h := marks_tell_the_chain someMember 3 4 1 1
  have heighth := h.1 countedKeys 1 0 8 (.box (wrapContext 9) 9 (afterRotations countedKeys 8)) (by decide) rfl
    (fun _ => rfl) rfl
  have hninth := h.1 countedKeys 1 0 9 (.box (wrapContext 10) 9 (afterRotations countedKeys 9)) (by decide) rfl
    (fun _ => rfl) rfl
  refine ⟨heighth.mpr ⟨rfl, by decide⟩, ?_, ?_⟩
  · rw [← Bool.not_eq_true]
    exact mt hninth.mp (by decide)
  exact ⟨h.1 twoKeys 1 0 1 _ (by decide) rfl (fun _ => rfl) rfl, h.2 1 { key := 1, earlier := [] } _ (fun _ => rfl) rfl⟩

/-- Who knows the mark of a held key gets a key of their own taken as the next one. -/
theorem made_up_key_accepted : ¬ ∀ (member : MemberKey) (team account : Uuid) (key : ℕ → VaultKey)
    (first i epoch : ℕ) (other : VaultKey) (marks : List Mark) (wrapped : Wrapped), (∀ n, other ≠ key n) →
    wrapTeamKey other marks { team, epoch, account } member.publicKey = some wrapped →
    member.accepts { team, epoch, account } (first + i) (key i) wrapped = false := by
  intro h
  have hoff : ∀ n, (3 : VaultKey) ≠ twoKeys n := by
    intro n
    unfold twoKeys
    split <;> decide
  have hrejected := h someMember 3 4 twoKeys 1 0 2 3 [keyMark 1] _ hoff rfl
  have haccepted : someMember.accepts (wrapContext 2) (1 + 0) (twoKeys 0)
      (.box (wrapContext 2) 9 { key := 3, earlier := [keyMark 1] }) = true := by
    have hopen : unwrapTeamKey someMember (wrapContext 2)
        (.box (wrapContext 2) 9 { key := 3, earlier := [keyMark 1] }) =
          some { key := 3, earlier := [keyMark 1] } := rfl
    rw [MemberKey.accepts_of_unwrap hopen, follows_iff]
    exact .inr ⟨by decide, rfl⟩
  exact absurd (haccepted.symm.trans hrejected) (by decide)

end examples

end UwuSsh

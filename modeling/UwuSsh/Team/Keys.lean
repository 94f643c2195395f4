import UwuSsh.Store.Apply

/-!
Team keys. A team's records are sealed under one key. It reaches each member in a box
sealed to the member's public key and bound to the team, the number of the key and the
member's account. Anybody can seal a box, so a wrap also carries marks of the keys that came
before, newest first; whoever holds a key takes a newer one only when the mark of the
held key stands at the right distance.
-/
namespace UwuSsh

open Text

/-- An X25519 public key: its 32 bytes, read as a little-endian number. -/
abbrev PublicKey := BitVec 256

abbrev Mark := BitVec 256

/-- As many earlier keys as a wrap carries a mark of. -/
def maxEarlier : ℕ := 8

/-- `version || ephemeral public key || nonce || sealed team key`, without marks. -/
def wrappedLen : ℕ := 1 + 32 + 24 + 32 + 16

/-- A hash of a key under a label of its own. -/
def keyMark (key : VaultKey) : Mark :=
  .ofNat 256 (BigEndian.ofBytes (Sha256.digest (utf8Bytes "uwussh/team/key-mark/v1" ++
    BigEndian.toBytes 32 key.toNat)))

/-- An account's private member key; the private half is whatever the public one belongs to. -/
structure MemberKey where
  publicKey : PublicKey
deriving DecidableEq

/-- The private key as the server keeps it, sealed under the account's vault. -/
inductive SealedMember
  | box (key : VaultKey) (vaultId account : Uuid) (member : MemberKey)
  | raw (bytes : List UInt8)
deriving DecidableEq

namespace MemberKey

def sealFor (member : MemberKey) (vault : UnlockedVault) (account : Uuid) : SealedMember :=
  .box vault.key vault.vaultId account member

/-- Fails for another vault, another account and anything changed on the way. -/
def openSealed (vault : UnlockedVault) (account : Uuid) : SealedMember → Option MemberKey
  | .box key vaultId account' member =>
      if key = vault.key ∧ vaultId = vault.vaultId ∧ account' = account then some member else none
  | .raw _ => none

end MemberKey

/-- Whom a wrapped team key is for, and which key of which team it is. -/
structure WrapContext where
  team : Uuid
  epoch : ℕ
  account : Uuid
deriving DecidableEq

/-- What a wrap holds: the team key, and the marks of the ones before it, newest first. -/
structure TeamKeys where
  key : VaultKey
  earlier : List Mark
deriving DecidableEq

namespace TeamKeys

/-- Whether these keys, being those of an epoch, come after a key of which the mark was kept. -/
def followsMark (keys : TeamKeys) (epoch heldEpoch : ℕ) (held : Mark) : Bool :=
  if epoch = heldEpoch then keyMark keys.key == held
  else if epoch < heldEpoch then false
  else keys.earlier[epoch - heldEpoch - 1]? == some held

/-- The same, for a device that has the key. -/
def follows (keys : TeamKeys) (epoch heldEpoch : ℕ) (held : VaultKey) : Bool :=
  keys.followsMark epoch heldEpoch (keyMark held)

/-- The marks a wrap of the key after this one carries. -/
def handedOn (keys : TeamKeys) : List Mark := (keyMark keys.key :: keys.earlier).take maxEarlier

theorem length_handedOn_le (keys : TeamKeys) : keys.handedOn.length ≤ maxEarlier :=
  List.length_take_le ..

/-- The next key of a chain follows the one it was handed on from. -/
theorem follows_succ (keys : TeamKeys) (key : VaultKey) (epoch : ℕ) :
    TeamKeys.follows { key, earlier := keys.handedOn } (epoch + 1) epoch keys.key = true := by
  simp [follows, followsMark, handedOn, maxEarlier]

/-- A key that is no newer follows only as the one that is held. -/
theorem follows_of_le {keys : TeamKeys} {epoch heldEpoch : ℕ} {held : VaultKey}
    (h : keys.follows epoch heldEpoch held = true) (hle : epoch ≤ heldEpoch) :
    epoch = heldEpoch ∧ keyMark held = keyMark keys.key := by
  unfold follows followsMark at h
  split at h
  · next heq => exact ⟨heq, (beq_iff_eq.mp h).symm⟩
  · next hne =>
    rw [if_pos (by omega)] at h
    cases h

end TeamKeys

/-- A sealed box as it travels, or bytes that open for nobody. -/
inductive Wrapped
  | box (context : WrapContext) (recipient : PublicKey) (keys : TeamKeys)
  | raw (bytes : List UInt8)
deriving DecidableEq

def Wrapped.length : Wrapped → ℕ
  | .box _ _ keys => wrappedLen + 32 * keys.earlier.length
  | .raw bytes => bytes.length

/-- Points that give every sender the same secret. -/
def smallOrder (key : PublicKey) : Bool :=
  let p := 2 ^ 255 - 19
  (key.toNat % 2 ^ 255 % p) ∈ [0, 1, p - 1,
    325606250916557431795983626356110631294008115727848805560023387167927233504,
    39382357235489614581723060781553021112529911719440698176882885853963445705823]

/-- Wrap a team key for one member, with the marks of the keys before it. -/
def wrapTeamKey (key : VaultKey) (earlier : List Mark) (context : WrapContext)
    (recipient : PublicKey) : Option Wrapped :=
  if smallOrder recipient then none
  else some (.box context recipient { key, earlier := earlier.take maxEarlier })

/-- Open a team key wrapped for exactly this team, epoch, account and key. -/
def unwrapTeamKey (member : MemberKey) (context : WrapContext) : Wrapped → Option TeamKeys
  | .box context' recipient keys =>
      if keys.earlier.length ≤ maxEarlier ∧ context' = context ∧ recipient = member.publicKey then
        some keys
      else none
  | .raw _ => none

/-- What opens is a box for exactly this team, epoch and account. -/
theorem unwrapTeamKey_some {member : MemberKey} {context : WrapContext} {wrapped : Wrapped}
    {keys : TeamKeys} (h : unwrapTeamKey member context wrapped = some keys) :
    wrapped = .box context member.publicKey keys := by
  cases wrapped with
  | raw bytes => cases h
  | box context' recipient keys' =>
    dsimp only [unwrapTeamKey] at h
    split at h
    · next hfits =>
      obtain ⟨-, hcontext, hrecipient⟩ := hfits
      rw [hcontext, hrecipient, Option.some.inj h]
    · cases h

/-- What was wrapped for a member is what the member opens. -/
theorem unwrap_wrapTeamKey {key : VaultKey} {earlier : List Mark} {context : WrapContext}
    {member : MemberKey} {wrapped : Wrapped}
    (h : wrapTeamKey key earlier context member.publicKey = some wrapped) :
    unwrapTeamKey member context wrapped = some { key, earlier := earlier.take maxEarlier } := by
  unfold wrapTeamKey at h
  split at h
  · cases h
  · cases h
    simp [unwrapTeamKey]

/-- What two people compare: sixteen bytes of a hash of the public key, in hex. -/
def fingerprint (publicKey : PublicKey) : String :=
  let digest := Sha256.digest (utf8Bytes "uwussh/team/fingerprint/v1" ++
    (BigEndian.toBytes 32 publicKey.toNat).reverse)
  let digits := (hexChars 32 (BigEndian.ofBytes (digest.take 16))).map Char.toUpper
  String.intercalate " " ((List.range 8).map fun i =>
    String.ofList ((digits.drop (4 * i)).take 4))

/-- Whether two fingerprints name the same key, whatever the spacing or case. -/
def sameFingerprint (a b : String) : Bool :=
  let norm := fun s : String => (s.toList.filter isAsciiAlphanumeric).map Char.toUpper
  (norm a).length == 32 && norm a == norm b

end UwuSsh

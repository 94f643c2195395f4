import UwuSsh.Spaces.State

/-!
Which server is main. The main store's vault opens with the key this device keeps, sealed by
the operating system; every other vault's key is sealed by the main one's. Another server is
made main in two halves: the personal records go over and every key is prepared beside the one in
use, up to a swap of the registry in one rename; after it the prepared keys take their
places and the old main lets go of the personal records. A start finishes the second half.
-/
namespace UwuSsh

open Script Text

/-- Sealed with the real vault key next to the protected copy. -/
def deviceCheck : List UInt8 := utf8Bytes "uwussh/device-unlock/v1"

/-- The record id the check value is sealed under, derived from the vault's. -/
def KeptKey.checkId (vaultId : Uuid) : Uuid := vaultId ^^^ 0x75777573_73682d64_65766963_652d636b#128

/-- The id a space's key is sealed under by the main vault, derived from the space's. -/
def chainId (space : String) : Uuid :=
  .ofNat 128 (BigEndian.ofBytes
    ((Sha256.digest (utf8Bytes "uwussh/space-chain/v1" ++ 0 :: utf8Bytes space)).take 16))

def keyBytes (key : VaultKey) : List UInt8 := BigEndian.toBytes 32 key.toNat

namespace UnlockedVault

/-- Seal another space's vault key with this vault's, bound to that space's id. -/
def sealForSpace (vault : UnlockedVault) (space : String) (key : VaultKey) : Sealed :=
  vault.sealStored (chainId space) .secret (.bytes (keyBytes key))

/-- What is kept of this vault's key, once it is protected. -/
def keptKey (vault : UnlockedVault) (protected_ : Protected) : KeptKey where
  vaultId := vault.vaultId
  protected_
  check := vault.sealStored (KeptKey.checkId vault.vaultId) .secret (.bytes deviceCheck)

end UnlockedVault

namespace SpaceFile

def stage (staged : Staged) (file : SpaceFile) : SpaceFile := { file with staged := some staged }

/-- Put what was staged in place. -/
def promote (file : SpaceFile) : SpaceFile :=
  match file.staged with
  | none => file
  | some .forget => { file with kept := none, staged := none }
  | some (.keep key) => { file with kept := some key, staged := none }

def dropStaged (file : SpaceFile) : SpaceFile := { file with staged := none }

end SpaceFile

namespace Spaces

/-- Prepare what the key of an open vault becomes. -/
def stageUnlock (space : RegistryEntry) (protect : VaultKey → SpacesScript Protected) : SpacesScript Unit := do
  match (← get).store space |>.vault with
  | none => fail .vaultLocked
  | some vault => do
      let protected_ ← protect vault.key
      modify .sqlite fun s => s.setFile space (.stage (.keep (vault.keptKey protected_)))

/-- Prepare that nothing is kept. -/
def stageForget (space : RegistryEntry) : SpacesScript Unit :=
  modify .sqlite fun s => s.setFile space (.stage .forget)

/-- The operating system seals a key. -/
def bySystem (key : VaultKey) : SpacesScript Protected := do
  let answer : Option (List UInt8) ← query (SpacesAsk.protect_ key)
  match answer with
  | none => fail .device
  | some bytes => return .bySystem bytes

/-- The vault of the new main server seals the key of a space. -/
def byVaultOf (new : RegistryEntry) (space : String) (key : VaultKey) : SpacesScript Protected := do
  match (← get).store new |>.vault with
  | none => fail .device
  | some vault => return .byVault (vault.sealForSpace space key)

/-- Prepare the keys of the spaces whose vaults are open. -/
def stageChained (new : RegistryEntry) : List SpaceHandle → SpacesScript Unit
  | [] => return ()
  | space :: rest => do
      if ← vaultOpen space.toRegistryEntry then
        stageUnlock space.toRegistryEntry (byVaultOf new space.id)
      stageChained new rest

/-- Prepare every key this device keeps for the new order. -/
def prepare (old new : RegistryEntry) : SpacesScript Unit := do
  let remembered ← reading fun s => (s.file old).kept.isSome
  if remembered then stageUnlock new bySystem else stageForget new
  stageChained new ((← get).inner.all.filter fun space => space.id != new.id)

/-- A prepared key that could not be cleared away stays. -/
def dropStagedOf : List SpaceHandle → SpacesScript Unit
  | [] => return ()
  | space :: rest => do
      .write (fun s => s.setFile space.toRegistryEntry .dropStaged) (.done ()) (.done ())
      dropStagedOf rest

def dropStaged : SpacesScript Unit := do
  dropStagedOf (← get).inner.all

def mainEntry : SpacesScript RegistryEntry := do
  let inner := (← get).inner
  match (inner.entries.find? fun entry => entry.id == inner.main).or inner.entries.head? with
  | none => fail unknownSpace
  | some entry => return entry

/-- The swap itself; one that could not be written is taken back. -/
def swapRegistry (id : String) : SpacesScript Unit := do
  let before := (← get).inner.main
  set fun inner => { inner with main := id, handover := some before }
  match ← persist.attempt with
  | .ok () => return ()
  | .error e => do
      set fun inner => { inner with main := before, handover := none }
      dropStaged
      fail e

/-- The first half of making another server main: up to and including the swap. -/
def swapMain (id : String) : SpacesScript Unit := do
  let new ← getSpace id
  if new.main then return ()
  else if !new.isServer then fail unknownSpace
  else do
    writable new
    let old ← mainEntry
    requireOpen old
    requireOpen new.toRegistryEntry
    let exported ← reading fun s => (s.store old).exportPersonal
    let personal ← ofExcept exported
    transact new.toRegistryEntry fun draws store => store.importPersonal draws personal
    match ← (prepare old new.toRegistryEntry).attempt with
    | .error e => do
        dropStaged
        fail e
    | .ok () => swapRegistry id

def promoteAll : List SpaceHandle → SpacesScript Unit
  | [] => return ()
  | space :: rest => do
      modify .sqlite fun s => s.setFile space.toRegistryEntry .promote
      promoteAll rest

/-- Take the personal records out of a store, if it is still in the list. -/
def clearPersonal (id : String) : SpacesScript Unit := do
  match (← get).inner.get id with
  | none => return ()
  | some space => do
      transact space.toRegistryEntry fun draws store => .ok (store.clearPersonal draws)
      transact space.toRegistryEntry fun draws store => .ok (store.clearAssistCache draws)

/-- The second half, and what a start does when the first half was the last thing that
happened. Without a swap to finish, keys prepared for one that never happened go. -/
def settleHandover : SpacesScript Unit := do
  match (← get).inner.handover with
  | none => dropStaged
  | some old => do
      promoteAll (← get).inner.all
      clearPersonal old
      set fun inner => { inner with handover := none }
      persist

end Spaces

end UwuSsh

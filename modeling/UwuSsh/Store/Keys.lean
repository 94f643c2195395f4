import UwuSsh.Store.Records
import UwuSsh.Store.Transact

/-!
Keys kept in the vault. A key is a label, its type and its public half in the clear, and its
private half and passphrase sealed as secrets. A key a host logs in with is not deleted.
-/
namespace UwuSsh

open Text Fallible InTx

/-- A label as typed, or the type of the key. -/
def labelOrType (label keyType : String) : Except LocalError String :=
  let label := trim label
  if label.toList.any isControl ∨ 120 < label.length then .error (.invalid "label" "invalid")
  else .ok (if label.isEmpty then keyType else label)

def openVault : InTx UnlockedVault := do
  match ← read (·.vault) with
  | none => throw .vaultLocked
  | some vault => pure vault

section operations

variable (draws : Draws)

def sealText (vault : UnlockedVault) (text : String) : InTx Uuid :=
  InTx.sealSecret draws vault (.bytes (utf8Bytes text))

/-- Forget a secret, if there is one. -/
def forgetAny (secret : Option Uuid) : InTx Unit := do
  match secret with
  | none => pure ()
  | some secret => forgetSecret draws secret

/-- Seal a key into the vault. -/
def addKey (draft : KeyDraft) : InTx KeyRecord := do
  if (trim draft.privateKey).isEmpty then throw (.invalid "privateKey" "required")
  else
    let label ← lift (labelOrType draft.label draft.keyType)
    let vault ← openVault
    let privateSecret ← sealText draws vault draft.privateKey
    let passphrase ← (draft.passphrase.filter fun p => !p.isEmpty).mapM (sealText draws vault)
    let id ← newId draws
    let clock ← InTx.tick draws
    insert .key id
      ({ label, keyType := draft.keyType, publicKey := trim draft.publicKey
         privateSecretId := some privateSecret, passphraseSecretId := passphrase
         syncExtra := [] } : KeyCols) clock
    match ← read (·.getKey id) with
    | none => throw .sqlite
    | some record => pure record

def renameKey (id : Uuid) (label : String) : InTx Unit := do
  match ← read (·.live? .key id) with
  | none => throw (.unknownKey id)
  | some (row : Row KeyCols) =>
    let label ← lift (labelOrType label row.cols.keyType)
    let clock ← InTx.tick draws
    update .key id fun (row : Row KeyCols) => row.edited clock { row.cols with label }

/-- Delete a key and its sealed halves. Refused while a host logs in with it. -/
def deleteKey (id : Uuid) : InTx Unit := do
  match ← read (·.live? .key id) with
  | none => throw (.unknownKey id)
  | some (row : Row KeyCols) =>
    let hosts ← read (·.hostsOfKey id)
    if 0 < hosts then throw (.keyInUse hosts)
    else
      forgetAny draws row.cols.privateSecretId
      forgetAny draws row.cols.passphraseSecretId
      let clock ← InTx.tick draws
      update .key id (·.tombed clock)

end operations

end UwuSsh

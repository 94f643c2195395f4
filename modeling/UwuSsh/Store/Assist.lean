import UwuSsh.Store.Hosts
import UwuSsh.Store.Keys

/-!
The command assistant's records: its settings under a fixed id, and an answer cache with a
fixed number of slots under fixed ids. A new answer takes a free slot or the one used longest
ago, and clearing a slot writes it empty rather than deleting it.
-/
namespace UwuSsh

open Text Fallible InTx

section maps

variable {α : Type}

/-- What an ordered map has for a name. -/
def entryOf (name : String) (map : List (String × α)) : Option α :=
  (map.find? fun e => e.1 == name).map (·.2)

/-- An ordered map with an entry put in, over the one of its name. -/
def putEntry (name : String) (value : α) : List (String × α) → List (String × α)
  | [] => [(name, value)]
  | e :: rest =>
      if e.1 = name then (name, value) :: rest
      else if name < e.1 then (name, value) :: e :: rest
      else e :: putEntry name value rest

theorem entryOf_putEntry_self (name : String) (value : α) (map : List (String × α)) :
    entryOf name (putEntry name value map) = some value := by
  induction map with
  | nil => simp [entryOf, putEntry]
  | cons e rest ih =>
    unfold putEntry
    split
    · simp [entryOf]
    · next hne =>
      split
      · simp [entryOf]
      · have hskip : entryOf name (e :: putEntry name value rest) =
            entryOf name (putEntry name value rest) := by simp [entryOf, hne]
        exact hskip.trans ih

theorem entryOf_putEntry_of_ne {name other : String} (h : other ≠ name) (value : α)
    (map : List (String × α)) : entryOf other (putEntry name value map) = entryOf other map := by
  induction map with
  | nil => simp [entryOf, putEntry, h.symm]
  | cons e rest ih =>
    unfold putEntry
    split
    · next heq => simp [entryOf, heq, h.symm]
    · split
      · simp [entryOf, h.symm]
      · unfold entryOf at ih ⊢
        by_cases he : e.1 = other
        · simp [he]
        · simpa [he] using ih

end maps

/-- How many answers the cache keeps. -/
def assistCacheSlots : ℕ := 200

def assistBase : ℕ := 0x7577_7373_6801_8000_a000_0000_0000_0000

/-- The id the assistant's settings live under, in every vault. -/
def assistConfigId : Uuid := BitVec.ofNat 128 assistBase

/-- The id of one cache slot. -/
def assistCacheSlotId (slot : ℕ) : Uuid := BitVec.ofNat 128 (assistBase + 1 + slot)

structure AssistProviderSettings where
  model : String
  baseUrl : Option String
  /-- A key is kept in the vault for this provider. -/
  hasKey : Bool
deriving DecidableEq

/-- What the settings page shows: everything but the keys. -/
structure AssistSettings where
  provider : String
  providers : List (String × AssistProviderSettings)
deriving DecidableEq

/-- What the settings page saves for one provider. -/
structure AssistProviderDraft where
  active : String
  kind : String
  model : String
  baseUrl : Option String
  key : PasswordChange
deriving DecidableEq

structure AssistCacheEntry where
  id : Uuid
  platform : String
  request : String
  normalized : String
  command : String
  explanation : String
  dangerous : Bool
  createdMs : UInt64
  usedMs : UInt64
  hits : ℕ
deriving DecidableEq

/-- An answer on its way into the cache. -/
structure NewCacheEntry where
  platform : String
  request : String
  normalized : String
  command : String
  explanation : String
  dangerous : Bool
deriving DecidableEq

/-- A draft as it is kept: trimmed, every field within its bounds. -/
@[irreducible] def AssistProviderDraft.validated (draft : AssistProviderDraft) :
    Except LocalError AssistProviderDraft := do
  let kind := trim draft.kind
  let model := trim draft.model
  let baseUrl := blankToNone draft.baseUrl
  if kind.isEmpty ∨ 40 < kind.length then .error (.invalid "provider" "invalid")
  else if 200 < model.length ∨ model.toList.any isControl then .error (.invalid "model" "invalid")
  else if baseUrl.any fun url => 2048 < url.length then .error (.invalid "baseUrl" "too-long")
  else
  let key ← match draft.key with
    | .set value =>
      let value := trim value
      if value.isEmpty ∨ 4096 < value.length ∨ value.toList.any isControl then
        .error (.invalid "apiKey" "invalid")
      else .ok (.set value)
    | change => .ok change
  return { active := trim draft.active, kind, model, baseUrl, key }

namespace Store

/-- Whether a secret is there and not forgotten. -/
def secretAlive (s : Store) (id : Uuid) : Bool :=
  (s.live? .secret id).any fun (row : Row Sealed) => row.cols.blob.length != 0

/-- The settings as stored, or the empty ones. -/
def loadConfig (s : Store) : AssistConfigPayload :=
  ((s.live? .assistConfig assistConfigId).map fun row => row.cols).getD {}

def settingsOf (s : Store) (config : AssistConfigPayload) : AssistSettings where
  provider := config.provider
  providers := config.providers.map fun e =>
    (e.1, { model := e.2.model, baseUrl := e.2.baseUrl
            hasKey := e.2.keySecretId.any s.secretAlive })

/-- The cache slots with an answer in them. -/
def answers (s : Store) : List (Uuid × AssistCacheCols) :=
  let rows : List (Uuid × Row AssistCacheCols) := s.liveRows .assistCache
  (rows.map fun e => (e.1, e.2.cols)).filter fun e => e.2.command != ""

end Store

/-- When an answer was used, or made, as the database compares it. -/
def AssistCacheCols.lastUse (cols : AssistCacheCols) : Int :=
  max cols.usedMs.toInt64.toInt cols.createdMs.toInt64.toInt

namespace Store

/-- The slot a new answer goes into: the first one never used or emptied, else the one whose
answer was used longest ago. -/
def freeOrOldestSlot (s : Store) : Uuid :=
  let slots := (List.range assistCacheSlots).map assistCacheSlotId
  let taken := fun id => ((s.answers.find? fun e => e.1 == id).map fun e => e.2.lastUse)
  match slots.find? fun id => (taken id).isNone with
  | some free => free
  | none =>
      let earlier := fun id oldest => (taken id).getD 0 < (taken oldest).getD 0
      (slots.foldl (List.argAux earlier) none).getD (assistCacheSlotId 0)

/-- The slot that has the answer to a question on a platform, the last used if several do. -/
def slotOf (s : Store) (platform normalized : String) : Option Uuid :=
  let hits := s.answers.filter fun e => e.2.platform == platform && e.2.normalized == normalized
  (hits.foldl (List.argAux fun e latest => latest.2.lastUse < e.2.lastUse) none).map (·.1)

/-- The slot an answer goes into: the one it had, or the next. -/
def slotFor (s : Store) (entry : NewCacheEntry) : Uuid :=
  (s.slotOf entry.platform entry.normalized).getD s.freeOrOldestSlot

end Store

def AssistCacheCols.entry (id : Uuid) (cols : AssistCacheCols) : AssistCacheEntry where
  id
  platform := cols.platform
  request := cols.request
  normalized := cols.normalized
  command := cols.command
  explanation := cols.explanation
  dangerous := cols.dangerous
  createdMs := cols.createdMs
  usedMs := cols.usedMs
  hits := cols.hits

section operations

variable (draws : Draws)

/-- The secret something has after a change; the one it had before is forgotten. -/
def replaceSecret (change : PasswordChange) (old : Option Uuid) : InTx (Option Uuid) := do
  match change with
  | .keep => pure old
  | .forget =>
    forgetAny draws old
    pure none
  | .set value =>
    let vault ← openVault
    forgetAny draws old
    let id ← sealText draws vault value
    pure (some id)

/-- Save one provider's settings and which provider is in use. -/
def saveAssistSettings (draft : AssistProviderDraft) : InTx AssistSettings := do
  let draft ← lift draft.validated
  needsVault draft.key
  let config ← read (·.loadConfig)
  let previous := (entryOf draft.kind config.providers).getD {}
  let keySecretId ← replaceSecret draws draft.key previous.keySecretId
  let config : AssistConfigPayload := { config with
    provider := draft.active
    providers := putEntry draft.kind
      { model := draft.model, baseUrl := draft.baseUrl, keySecretId, extra := previous.extra }
      config.providers }
  let clock ← InTx.tick draws
  upsert .assistConfig assistConfigId config clock
  read (·.settingsOf config)

/-- Keep an answer. The same question on the same platform takes the slot it had. -/
def putAssistCache (entry : NewCacheEntry) : InTx AssistCacheEntry := do
  if (trim entry.command).isEmpty then throw (.invalid "command" "empty")
  else
    let cut := fun (text : String) => String.ofList (text.toList.take 4000)
    let slot ← read (·.slotFor entry)
    let clock ← InTx.tick draws
    let now ← InTx.now draws
    let cols : AssistCacheCols :=
      { platform := cut entry.platform, request := cut entry.request
        normalized := cut entry.normalized, command := cut entry.command
        explanation := cut entry.explanation, dangerous := entry.dangerous, createdMs := now
        usedMs := now, hits := 0, syncExtra := [] }
    upsert .assistCache slot cols clock
    pure (cols.entry slot)

/-- Note that an answer was used here. Local only. -/
def touchAssistCache (id : Uuid) : InTx Unit := do
  let now ← InTx.now draws
  update .assistCache id fun (row : Row AssistCacheCols) =>
    { row with cols := { row.cols with usedMs := now, hits := row.cols.hits + 1 } }

/-- Write a slot empty. -/
def clearSlot (id : Uuid) : InTx Unit := do
  let clock ← InTx.tick draws
  update .assistCache id fun (row : Row AssistCacheCols) => row.edited clock
    { row.cols with
      platform := "", request := "", normalized := "", command := "", explanation := ""
      dangerous := false, usedMs := 0, hits := 0, syncExtra := [] }

def clearSlots : List Uuid → InTx Unit
  | [] => pure ()
  | id :: rest => do
    clearSlot draws id
    clearSlots rest

/-- Empty one slot, on every device. -/
def clearAssistCacheEntry (id : Uuid) : InTx Bool := do
  let cleared ← read fun s => (s.answers.map (·.1)).filter fun other => other == id
  clearSlots draws cleared
  pure !cleared.isEmpty

/-- Empty the whole cache, on every device, and count the answers that went. -/
def clearAssistCache : InTx ℕ := do
  let cleared ← read fun s => s.answers.map (·.1)
  clearSlots draws cleared
  pure cleared.length

end operations

end UwuSsh

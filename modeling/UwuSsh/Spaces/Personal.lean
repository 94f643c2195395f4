import UwuSsh.Store.Local

/-!
What belongs to the person rather than to a server: snippets, key bindings, the
assistant's settings and its cache. They live in the main store. When another server is
made main they are read out of the old one with their secrets opened, written into the new
one where the newer of two stays, and taken out of the old one. Records under fixed
ids are emptied there, not deleted: a tombstone would keep them from ever being used again.
-/
namespace UwuSsh

/-- The tables that hold one record under a fixed id. -/
inductive DocTable
  | keymaps
  | assistConfig
deriving DecidableEq

namespace DocTable

def all : List DocTable := [.keymaps, .assistConfig]

def kind : DocTable → EntityKind
  | .keymaps => .keymap
  | .assistConfig => .assistConfig

abbrev Body (table : DocTable) : Type := Cols table.kind

/-- The secrets a record points at. -/
def secrets : (table : DocTable) → table.Body → List Uuid
  | .keymaps, body =>
      let keymap := KeymapBody.read body
      keymap.texts.filterMap fun text => text.2.secretId
  | .assistConfig, body =>
      let config : AssistConfigPayload := body
      config.providers.filterMap fun provider => provider.2.keySecretId

/-- The record with its secrets pointing at their copies in another vault. One that has no
copy is let go of. -/
def withSecrets (copies : List (Uuid × Uuid)) : (table : DocTable) → table.Body → table.Body
  | .keymaps, body =>
      let keymap := KeymapBody.read body
      let texts := keymap.texts.map fun text =>
        (text.1, { text.2 with secretId := text.2.secretId.bind fun id => List.lookup id copies })
      ({ keymap with texts } : KeymapPayload).written
  | .assistConfig, body =>
      let config : AssistConfigPayload := body
      let providers := config.providers.map fun provider =>
        (provider.1, { provider.2 with keySecretId := provider.2.keySecretId.bind fun id => List.lookup id copies })
      ({ config with providers } : AssistConfigPayload)

/-- The record as it is when nothing was ever set. -/
def empty : (table : DocTable) → table.Body
  | .keymaps => ({} : KeymapPayload).written
  | .assistConfig => ({} : AssistConfigPayload)

instance (table : DocTable) : DecidableEq table.Body := inferInstanceAs (DecidableEq (Cols table.kind))

end DocTable

structure Doc where
  table : DocTable
  id : Uuid
  body : table.Body
  clock : Hlc

structure SnippetRow where
  id : Uuid
  label : String
  body : String
  groupPath : Option String
  clock : Hlc

structure CacheRow where
  id : Uuid
  platform : String
  request : String
  normalized : String
  command : String
  explanation : String
  dangerous : Bool
  createdMs : UInt64
  usedMs : UInt64
  hits : ℕ
  clock : Hlc

/-- What is read out of the old main store, with its secrets opened. -/
structure Personal where
  snippets : List SnippetRow
  docs : List Doc
  cache : List CacheRow
  secrets : List (Uuid × Plain)

/-- One record of a person. -/
inductive PersonalItem
  | snippet (row : SnippetRow)
  | doc (doc : Doc)
  | cached (row : CacheRow)

def Personal.items (personal : Personal) : List PersonalItem :=
  personal.snippets.map .snippet ++ personal.docs.map .doc ++ personal.cache.map .cached

def PersonalItem.key : PersonalItem → EntityKind × Uuid
  | .snippet row => (.snippet, row.id)
  | .doc record => (record.table.kind, record.id)
  | .cached row => (.assistCache, row.id)

def SnippetRow.ofRow (e : Uuid × Row SnippetCols) : SnippetRow where
  id := e.1
  label := e.2.cols.label
  body := e.2.cols.body
  groupPath := e.2.cols.groupPath
  clock := e.2.updatedAt

def CacheRow.ofRow (e : Uuid × Row AssistCacheCols) : CacheRow where
  id := e.1
  platform := e.2.cols.platform
  request := e.2.cols.request
  normalized := e.2.cols.normalized
  command := e.2.cols.command
  explanation := e.2.cols.explanation
  dangerous := e.2.cols.dangerous
  createdMs := e.2.cols.createdMs
  usedMs := e.2.cols.usedMs
  hits := e.2.cols.hits
  clock := e.2.updatedAt

namespace Store

def liveSnippets (s : Store) : List (Uuid × Row SnippetCols) :=
  (s.rows .snippet).filter fun e => !e.2.deleted

/-- The live records of a table that were ever set. -/
def setDocs (s : Store) (table : DocTable) : List (Uuid × Row table.Body) :=
  (s.rows table.kind).filter fun e => !e.2.deleted && e.2.cols != table.empty

def usedCache (s : Store) : List (Uuid × Row AssistCacheCols) :=
  (s.rows .assistCache).filter fun e => !e.2.deleted && e.2.cols.command != ""

/-- A secret that is there, as it is sealed. -/
def sealedSecret (s : Store) (id : Uuid) : Option (Uuid × Sealed) :=
  ((s.row? .secret id).filter holdsSecret).map fun row => (id, row.cols)

def exportPersonal (s : Store) : Except LocalError Personal :=
  let docs := DocTable.all.flatMap fun table => (s.setDocs table).map fun e =>
    ({ table, id := e.1, body := e.2.cols, clock := e.2.updatedAt } : Doc)
  let sealedBoxes := docs.flatMap fun doc => (doc.table.secrets doc.body).filterMap s.sealedSecret
  let personal := fun secrets =>
    { snippets := s.liveSnippets.map .ofRow, docs, cache := s.usedCache.map .ofRow, secrets : Personal }
  if sealedBoxes.isEmpty then .ok (personal [])
  else
    match s.vault with
    | none => .error .vaultLocked
    -- One that does not open is left behind, not a reason to stop.
    | some vault => .ok (personal (sealedBoxes.filterMap fun e =>
        (vault.openStored e.1 .secret e.2).map fun plain => (e.1, plain)))

end Store

namespace Tx

variable (draws : Draws)

/-- Write a record under its id, over the one that is there. -/
def writeDoc (table : DocTable) (id : Uuid) (body : table.Body) (tx : Tx) : Tx :=
  let (tx, clock) := tx.tick draws
  tx.onStore fun s => s.putRow table.kind id <| match s.row? table.kind id with
    | none => s.newRow clock body
    | some row => { row with cols := body, updatedAt := clock, dirty := true, rev := row.rev + 1 }

/-- A snippet that is here already, by what it says. -/
def hasTwin (tx : Tx) (snippet : SnippetRow) : Bool :=
  (tx.store.rows .snippet).any fun e =>
    let cols : SnippetCols := e.2.cols
    !e.2.deleted && cols.label == snippet.label && cols.body == snippet.body

def importSnippet (tx : Tx) (snippet : SnippetRow) : Except LocalError Tx :=
  let cols : SnippetCols :=
    { label := snippet.label, body := snippet.body, groupPath := snippet.groupPath, syncExtra := [] }
  match tx.store.row? .snippet snippet.id with
  | none =>
      let (tx, clock) := tx.tick draws
      tx.insert .snippet snippet.id cols clock
  | some row =>
      if row.deleted then
        -- A tombstone here keeps its id for good.
        if tx.hasTwin snippet then .ok tx
        else (tx.newId draws).bind fun (tx, id) =>
          let (tx, clock) := tx.tick draws
          tx.insert .snippet id cols clock
      else if row.updatedAt < snippet.clock then
        let (tx, clock) := tx.tick draws
        let local_ : SnippetCols := row.cols
        .ok (tx.onStore fun s => s.putRow .snippet snippet.id
          { row with
            cols := ({ cols with syncExtra := local_.syncExtra } : SnippetCols)
            rev := row.rev + 1, dirty := true, updatedAt := clock })
      else .ok tx

/-- Seal one secret again for this vault, if it was opened in the other. -/
def copySecret (vault : UnlockedVault) (secrets : List (Uuid × Plain)) (secret : Uuid) :
    Transaction.Statement (Tx × List (Uuid × Uuid)) LocalError := fun (tx, copies) =>
  match List.lookup secret secrets with
  | none => .ok (tx, copies)
  | some plain => (tx.sealSecret draws vault plain).map fun (tx, copy) => (tx, (secret, copy) :: copies)

/-- The secrets a record points at, as far as they could be opened, with their copies here. -/
def copySecrets (secrets : List (Uuid × Plain)) (ids : List Uuid) (tx : Tx) :
    Except LocalError (Tx × List (Uuid × Uuid)) :=
  match tx.store.vault with
  | none => .ok (tx, [])
  | some vault => Transaction.play (ids.map (copySecret draws vault secrets)) (tx, [])

def importDoc (secrets : List (Uuid × Plain)) (tx : Tx) (doc : Doc) : Except LocalError Tx :=
  let row := tx.store.row? doc.table.kind doc.id
  -- Nothing written over a tombstone would ever reach another device.
  if row.any (·.deleted) then .ok tx
  else if row.any fun row => row.cols != doc.table.empty && doc.clock ≤ row.updatedAt then .ok tx
  else (tx.copySecrets draws secrets (doc.table.secrets doc.body)).map fun (tx, copies) =>
    let old := row.elim [] fun row => doc.table.secrets row.cols
    let tx := old.foldl (fun tx secret => tx.forgetSecret draws secret) tx
    tx.writeDoc draws doc.table doc.id (doc.table.withSecrets copies doc.body)

def importCached (tx : Tx) (cached : CacheRow) : Tx :=
  let cols : Extra → AssistCacheCols := fun syncExtra =>
    { platform := cached.platform, request := cached.request, normalized := cached.normalized
      command := cached.command, explanation := cached.explanation, dangerous := cached.dangerous
      createdMs := cached.createdMs, syncExtra, usedMs := cached.usedMs, hits := cached.hits }
  match tx.store.row? .assistCache cached.id with
  | none =>
      let (tx, clock) := tx.tick draws
      tx.onStore fun s => s.putRow .assistCache cached.id (s.newRow clock (cols []))
  | some row =>
      let local_ : AssistCacheCols := row.cols
      if row.deleted ∨ (local_.command ≠ "" ∧ cached.clock ≤ row.updatedAt) then tx
      else
        let (tx, clock) := tx.tick draws
        tx.onStore fun s => s.putRow .assistCache cached.id
          { row with
            cols := cols local_.syncExtra, updatedAt := clock, dirty := true, rev := row.rev + 1 }

def importItem (secrets : List (Uuid × Plain)) : PersonalItem → Transaction.Statement Tx LocalError
  | .snippet snippet, tx => tx.importSnippet draws snippet
  | .doc doc, tx => tx.importDoc draws secrets doc
  | .cached cached, tx => .ok (tx.importCached draws cached)

/-- Let go of a record under a fixed id and of its secrets. -/
def clearDoc (table : DocTable) (e : Uuid × Row table.Body) (tx : Tx) : Tx :=
  ((table.secrets e.2.cols).foldl (fun tx secret => tx.forgetSecret draws secret) tx).writeDoc draws
    table e.1 table.empty

def clearCached (id : Uuid) (tx : Tx) : Tx :=
  let (tx, clock) := tx.tick draws
  tx.onStore fun s => s.updateRow .assistCache id fun row =>
    let cols : AssistCacheCols := row.cols
    { row with
      cols := ({ cols with
                 platform := "", request := "", normalized := "", command := "", explanation := ""
                 dangerous := false, usedMs := 0, hits := 0, syncExtra := [] } : AssistCacheCols)
      dirty := true, rev := row.rev + 1, updatedAt := clock }

end Tx

namespace Store

variable (draws : Draws)

/-- Take the personal records of another store in, keeping their ids. Where this store has
the same record, the newer one stays; a record that was only ever emptied here gives way. -/
def importPersonal (personal : Personal) (s : Store) : Except LocalError Store :=
  if !personal.secrets.isEmpty && s.vault.isNone then .error .vaultLocked
  else (Transaction.play (personal.items.map (Tx.importItem draws personal.secrets))
    { store := s, drawn := 0 }).map Tx.store

/-- Take the personal records out of a store that is no longer main: the snippets, and what
is kept under fixed ids. The cache is a transaction of its own. -/
def clearPersonal (s : Store) : Store :=
  let tx : Tx := { store := s, drawn := 0 }
  let (tx, clock) := tx.tick draws
  let tx := tx.onStore fun s => s.mapTable .snippet fun row =>
    if row.deleted then row
    else { row with deleted := true, rev := row.rev + 1, dirty := true, updatedAt := clock }
  (DocTable.all.foldl (fun tx table =>
    (tx.store.setDocs table).foldl (fun tx e => tx.clearDoc draws table e) tx) tx).store

/-- Empty the whole cache, on every device. -/
def clearAssistCache (s : Store) : Store :=
  (s.usedCache.foldl (fun tx e => tx.clearCached draws e.1) ({ store := s, drawn := 0 } : Tx)).store

end Store

end UwuSsh

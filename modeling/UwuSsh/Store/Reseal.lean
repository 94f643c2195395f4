import UwuSsh.Lib.Transaction
import UwuSsh.Store.ApplyFacts
import UwuSsh.Store.Manifests

/-!
A whole database and a change of its key. Beside the records the file holds the vault's
header, the key this device sealed for itself, when it synced last, and tables of
other parts of the program. A change of key opens every live secret with the old key and
seals it with the new one, one statement each, and then goes over every synced table.
-/
namespace UwuSsh

structure KdfParams where
  memoryKib : UInt32
  timeCost : UInt32
  parallelism : UInt32
deriving DecidableEq

/-- Everything stored about a vault but its records. -/
structure VaultHeader where
  vaultId : Uuid
  kdf : KdfParams
  salt : BitVec 128
  wrappedKey : Sealed
  needsAccountKey : Bool
deriving DecidableEq

/-- A store with the rest of its file; `other` are tables of which nothing here knows more. -/
structure Database (α : Type) where
  store : Store
  header : Option VaultHeader
  /-- The key as this device sealed it for itself. -/
  deviceUnlock : Option Sealed
  lastSyncMs : Option UInt64
  other : α

/-- What can go wrong in a transaction beside the store's own errors. -/
inductive TxError
  | store (e : StoreError)
  | decrypt
  | noVault
  | vaultExists
  | sqlite
deriving DecidableEq

namespace Store

/-- `UPDATE` of every row of a table. -/
def mapTable (s : Store) (kind : EntityKind) (f : Row (Cols kind) → Row (Cols kind)) : Store :=
  s.setTable kind
    { entries := (s.tables kind).entries.map (.map id fun _ => f)
      nodupKeys := by
        rw [List.NodupKeys, List.keys, List.map_map]
        exact (s.tables kind).nodupKeys }

section mapping

variable (s : Store) {kind kind' : EntityKind} (f : Row (Cols kind) → Row (Cols kind)) (id : Uuid)

@[simp] theorem row?_mapTable_self : (s.mapTable kind f).row? kind id = (s.row? kind id).map f := by
  simp only [row?, mapTable, setTable, Function.update_self]
  exact List.dlookup_map₂ id

theorem row?_mapTable_of_ne (h : kind' ≠ kind) :
    (s.mapTable kind f).row? kind' id = s.row? kind' id := by
  simp [row?, mapTable, setTable, h]

/-- One statement for each table. -/
def mapTables (s : Store) (kinds : List EntityKind)
    (f : (kind : EntityKind) → Row (Cols kind) → Row (Cols kind)) : Store :=
  kinds.foldl (fun s kind => s.mapTable kind (f kind)) s

theorem row?_mapTables {kinds : List EntityKind} (hkinds : kinds.Nodup)
    (f : (kind : EntityKind) → Row (Cols kind) → Row (Cols kind)) (kind : EntityKind) :
    (s.mapTables kinds f).row? kind id =
      if kind ∈ kinds then (s.row? kind id).map (f kind) else s.row? kind id := by
  induction kinds generalizing s with
  | nil => rfl
  | cons k rest ih =>
    obtain ⟨hnot, hrest⟩ := List.nodup_cons.mp hkinds
    have hstep := ih (s.mapTable k (f k)) hrest
    rw [mapTables, List.foldl_cons, ← mapTables, hstep]
    by_cases hk : kind = k
    · subst hk
      simp [hnot]
    · simp [hk, row?_mapTable_of_ne]

end mapping

/-- What a table's rows are left out of: the fields of a store beside its tables. -/
theorem mapTables_frame (s : Store) (kinds : List EntityKind)
    (f : (kind : EntityKind) → Row (Cols kind) → Row (Cols kind)) :
    s.mapTables kinds f = { s with tables := (s.mapTables kinds f).tables } := by
  induction kinds generalizing s with
  | nil => rfl
  | cons k rest ih => exact ih (s.mapTable k (f k))

theorem updateRow_frame (s : Store) {kind : EntityKind} {id : Uuid}
    (f : Row (Cols kind) → Row (Cols kind)) :
    s.updateRow kind id f = { s with tables := (s.updateRow kind id f).tables } := by
  unfold updateRow
  split <;> rfl

/-- `WHERE deleted = 0 AND length(blob) > 0`. -/
def holdsSecret (row : Row Sealed) : Bool := !row.deleted && 0 < row.cols.blob.length

def sealedSecrets (s : Store) : List (Uuid × Sealed) :=
  ((s.tables .secret).entries.map fun e => ((e.1, e.2) : Uuid × Row Sealed)).filterMap fun e =>
    if holdsSecret e.2 then some (e.1, e.2.cols) else none

/-- Forget every manifest and what was found against them. -/
def forgetManifests (s : Store) : Store :=
  { s.setTable .manifest ∅ with superseded := ∅, violations := [], floor := none }

end Store

namespace Database

variable {α : Type}

/-- A step on the records. -/
def onStore (f : Store → Store) (db : Database α) : Database α := { db with store := f db.store }

theorem foldl_onStore {β : Type} (f : β → Store → Store) (items : List β) (db : Database α) :
    items.foldl (fun db b => db.onStore (f b)) db =
      db.onStore fun s => items.foldl (fun s b => f b s) s := by
  induction items generalizing db with
  | nil => rfl
  | cons b rest ih => exact ih (db.onStore (f b))

/-- Open one secret with the old key and seal it with the new one. -/
def resealOne (old new : UnlockedVault) (secret : Uuid × Sealed) :
    Transaction.Statement (Database α) TxError := fun db =>
  match old.openStored secret.1 .secret secret.2 with
  | none => .error .decrypt
  | some plain => .ok (db.onStore fun s => s.updateRow .secret secret.1 fun row =>
      { row with cols := new.sealStored secret.1 .secret plain })

/-- Every live secret moves to another key, which takes the old one if there is any. -/
def resealAll (old : Option UnlockedVault) (new : UnlockedVault) (s : Store) :
    List (Transaction.Statement (Database α) TxError) :=
  match old, s.sealedSecrets with
  | _, [] => []
  | none, _ :: _ => [fun _ => .error (.store .vaultLocked)]
  | some old, secrets => secrets.map (resealOne old new)

end Database

/-- A row of the secrets before and after its key changed. -/
structure Resealed (old : Option UnlockedVault) (new : UnlockedVault) (id : Uuid)
    (row row' : Row (Cols .secret)) : Prop where
  header : { row' with cols := row.cols } = row
  opens : row.deleted = false → new.openStored id .secret row'.cols =
    old.bind fun vault => vault.openStored id .secret row.cols
  readable : Store.holdsSecret row = true → (new.openStored id .secret row'.cols).isSome

namespace Resealed

variable {old : Option UnlockedVault} {new : UnlockedVault} {id : Uuid} {row row' : Row (Cols .secret)}

theorem version (h : Resealed old new id row row') : row'.version = row.version := by
  rw [← h.header]
  rfl

theorem rev (h : Resealed old new id row row') : row'.rev = row.rev := by
  rw [← h.header]

theorem dirty (h : Resealed old new id row row') : row'.dirty = row.dirty := by
  rw [← h.header]

end Resealed

namespace Database

variable {α : Type} {old : Option UnlockedVault} {new : UnlockedVault} {db t : Database α}

theorem mem_sealedSecrets {s : Store} {id : Uuid} {box : Sealed} :
    (id, box) ∈ s.sealedSecrets ↔ ∃ row : Row (Cols .secret), s.row? .secret id = some row ∧
      Store.holdsSecret row = true ∧ row.cols = box := by
  simp only [Store.sealedSecrets, List.mem_filterMap, List.mem_map]
  constructor
  · rintro ⟨_, ⟨⟨id', row⟩, hmem, rfl⟩, hsome⟩
    dsimp only at hsome
    split at hsome
    · next hholds =>
      cases hsome
      exact ⟨row, AList.mem_lookup_iff.mpr hmem, hholds, rfl⟩
    · cases hsome
  · rintro ⟨row, hrow, hholds, rfl⟩
    exact ⟨_, ⟨⟨id, row⟩, AList.mem_lookup_iff.mp hrow, rfl⟩, by simp [hholds]⟩

theorem nodup_sealedSecrets (s : Store) : (s.sealedSecrets.map Prod.fst).Nodup := by
  have hkeys : ((s.tables .secret).entries.map Sigma.fst).Nodup := (s.tables .secret).nodupKeys
  refine hkeys.sublist ?_
  unfold Store.sealedSecrets
  induction (s.tables .secret).entries with
  | nil => exact List.Sublist.slnil
  | cons e rest ih =>
    rw [List.map_cons, List.filterMap_cons]
    split
    · exact ih.cons _
    · next hsome =>
      split at hsome
      · cases hsome
        exact ih.cons_cons _
      · cases hsome

/-- Only the rows of the tables differ. -/
structure SameButRows (s t : Database α) : Prop where
  store : t.store = { s.store with tables := t.store.tables }
  file : t = { s with store := t.store }

namespace SameButRows

variable {s t u : Database α}

theorem refl (s : Database α) : SameButRows s s := ⟨rfl, rfl⟩

theorem trans (hst : SameButRows s t) (htu : SameButRows t u) : SameButRows s u where
  store := by rw [htu.store, hst.store]
  file := by rw [htu.file, hst.file]

theorem onStore {f : Store → Store} (h : f s.store = { s.store with tables := (f s.store).tables }) :
    SameButRows s (s.onStore f) := ⟨h, rfl⟩

end SameButRows

/-- What sealing some secrets again does to the rows. -/
structure ResealedAll (old new : UnlockedVault) (secrets : List (Uuid × Sealed))
    (s t : Database α) : Prop where
  frame : SameButRows s t
  others : ∀ kind id, kind ≠ .secret → t.store.row? kind id = s.store.row? kind id
  rest : ∀ id, id ∉ secrets.map Prod.fst → t.store.row? .secret id = s.store.row? .secret id
  resealed : ∀ secret ∈ secrets, ∃ plain, old.openStored secret.1 .secret secret.2 = some plain ∧
    t.store.row? .secret secret.1 = (s.store.row? .secret secret.1).map fun row =>
      { row with cols := new.sealStored secret.1 .secret plain }

theorem resealed_of_play {old : UnlockedVault} {secrets : List (Uuid × Sealed)}
    (hnodup : (secrets.map Prod.fst).Nodup)
    (h : Transaction.play (secrets.map (resealOne old new)) db = .ok t) :
    ResealedAll old new secrets db t := by
  induction secrets generalizing db with
  | nil =>
    cases h
    exact ⟨.refl _, fun _ _ _ => rfl, fun _ _ => rfl, by simp⟩
  | cons secret rest ih =>
    obtain ⟨hnot, hnodup⟩ := List.nodup_cons.mp hnodup
    obtain ⟨u, hu, hrest⟩ := Transaction.play_cons.mp h
    have hspec := ih hnodup hrest
    unfold resealOne at hu
    split at hu
    · cases hu
    next plain hopen =>
    cases hu
    have hother : ∀ kind id, (kind, id) ≠ (EntityKind.secret, secret.1) →
        (db.store.updateRow .secret secret.1 fun row =>
          { row with cols := new.sealStored secret.1 .secret plain }).row? kind id =
            db.store.row? kind id := fun kind id hne =>
      Store.row?_updateRow_of_pair_ne _ _ _ _ fun heq => hne (Prod.ext heq.1 heq.2)
    refine ⟨(SameButRows.onStore (Store.updateRow_frame ..)).trans hspec.frame, ?_, ?_, ?_⟩
    · intro kind id hkind
      rw [hspec.others kind id hkind]
      exact hother kind id fun heq => hkind (congrArg Prod.fst heq)
    · intro id hid
      rw [List.map_cons, List.mem_cons, not_or] at hid
      rw [hspec.rest id hid.2]
      exact hother .secret id fun heq => hid.1 (congrArg Prod.snd heq)
    · intro secret' hmem
      rcases List.mem_cons.mp hmem with rfl | hmem
      · refine ⟨plain, hopen, ?_⟩
        rw [hspec.rest _ hnot]
        exact Store.row?_updateRow_self ..
      · obtain ⟨plain', hopen', hrow⟩ := hspec.resealed secret' hmem
        refine ⟨plain', hopen', ?_⟩
        rw [hrow]
        refine congrArg (Option.map _) (hother .secret secret'.1 fun heq => hnot ?_)
        have hid : secret'.1 = secret.1 := congrArg Prod.snd heq
        exact hid ▸ List.mem_map_of_mem hmem

/-- After a change of key every secret is what it was, under the new key. -/
theorem resealAll_spec (h : Transaction.play (resealAll old new db.store) db = .ok t) :
    SameButRows db t ∧ (∀ kind id, kind ≠ .secret → t.store.row? kind id = db.store.row? kind id) ∧
      ∀ id, Option.Rel (Resealed old new id) (db.store.row? .secret id) (t.store.row? .secret id) := by
  -- A live secret that is not sealed has no ciphertext, and no key opens that.
  have hempty : ∀ (vault : UnlockedVault) (id : Uuid) (box : Sealed), box.blob.length = 0 →
      vault.openStored id .secret box = none := by
    intro vault id box hzero
    unfold UnlockedVault.openStored UnlockedVault.decrypt
    cases hblob : box.blob with
    | raw bytes => rfl
    | sealedWith key nonce aad plain =>
      rw [hblob] at hzero
      simp [Blob.length] at hzero
  have hsame : ∀ id (row : Row (Cols .secret)), Store.holdsSecret row = false →
      Resealed old new id row row := by
    intro id row hfree
    refine ⟨rfl, fun hlive => ?_, fun hholds => ?_⟩
    · have hzero : (Sealed.blob row.cols).length = 0 := by
        simpa [Store.holdsSecret, hlive] using hfree
      rw [hempty new id row.cols hzero]
      cases old with
      | none => rfl
      | some vault => exact (hempty vault id row.cols hzero).symm
    · rw [hfree] at hholds
      cases hholds
  cases hsecrets : db.store.sealedSecrets with
  | nil =>
    have hdb : t = db := by
      unfold resealAll at h
      rw [hsecrets] at h
      cases h
      rfl
    subst hdb
    refine ⟨.refl _, fun _ _ _ => rfl, fun id => ?_⟩
    cases hrow : t.store.row? .secret id with
    | none => exact .none
    | some row =>
      refine .some (hsame id row ?_)
      by_contra hholds
      have hmem := mem_sealedSecrets.mpr ⟨row, hrow, by simpa using hholds, rfl⟩
      rw [hsecrets] at hmem
      cases hmem
  | cons first rest =>
    cases hold : old with
    | none =>
      unfold resealAll at h
      rw [hsecrets, hold] at h
      cases h
    | some vault =>
      have hplay : Transaction.play (db.store.sealedSecrets.map (resealOne vault new)) db = .ok t := by
        unfold resealAll at h
        rw [hsecrets, hold] at h
        rw [hsecrets]
        exact h
      have hspec := resealed_of_play (nodup_sealedSecrets db.store) hplay
      refine ⟨hspec.frame, hspec.others, fun id => ?_⟩
      cases hrow : db.store.row? .secret id with
      | none =>
        have hgone : t.store.row? .secret id = none := by
          rw [hspec.rest id ?_, hrow]
          intro hmem
          obtain ⟨secret, hsecret, rfl⟩ := List.mem_map.mp hmem
          obtain ⟨row, hsome, -⟩ := mem_sealedSecrets.mp hsecret
          rw [hrow] at hsome
          cases hsome
        rw [hgone]
        exact .none
      | some row =>
        by_cases hholds : Store.holdsSecret row = true
        · obtain ⟨plain, hopen, hnew⟩ := hspec.resealed (id, row.cols)
            (mem_sealedSecrets.mpr ⟨row, hrow, hholds, rfl⟩)
          dsimp only at hopen hnew
          rw [hnew, hrow]
          refine .some ⟨rfl, fun _ => ?_, fun _ => ?_⟩
          · rw [UnlockedVault.openStored_sealStored]
            exact hopen.symm
          · rw [UnlockedVault.openStored_sealStored]
            rfl
        · have hkept : t.store.row? .secret id = some row := by
            rw [hspec.rest id ?_, hrow]
            intro hmem
            obtain ⟨secret, hsecret, rfl⟩ := List.mem_map.mp hmem
            obtain ⟨row', hsome, hholds', -⟩ := mem_sealedSecrets.mp hsecret
            rw [hrow] at hsome
            cases hsome
            exact hholds hholds'
          rw [hkept]
          exact .some (hold ▸ hsame id row (by simpa using hholds))

end Database

end UwuSsh

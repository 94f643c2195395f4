import UwuSsh.Spaces.Personal
import UwuSsh.Spaces.Registry

/-!
Several stores side by side, and the steps that reach across them. Each store lies in a file
of its own and is written in transactions; the registry is a file that is replaced in one
rename. What is open in memory is written to the registry after it changed, so the two may
differ for a moment, and a start knows only what is on disk.
-/
namespace UwuSsh

open Script Text

/-- What became of a vault's key so that it can be kept: sealed by the operating system, or by
another vault. -/
inductive Protected
  | bySystem (bytes : List UInt8)
  | byVault (box : Sealed)
deriving DecidableEq

/-- A vault's key as it is kept on this device, with a value that tells it from a wrong one. -/
structure KeptKey where
  vaultId : Uuid
  protected_ : Protected
  check : Sealed
deriving DecidableEq

/-- What takes the place of a kept key when another server is made main. -/
inductive Staged
  | forget
  | keep (key : KeptKey)
deriving DecidableEq

/-- A store with what this device keeps beside it. -/
structure SpaceFile where
  store : Store
  kept : Option KeptKey
  staged : Option Staged

structure Spaces where
  paths : Paths
  registry : OnDisk
  /-- A registry that did not read lies beside the one in use. -/
  aside : Bool
  inner : Inner
  /-- A path nobody wrote to holds an empty store, as opening it would make it. -/
  files : StorePath → SpaceFile

/-- A store as it lies on disk: no vault is open. -/
def Store.locked (s : Store) : Store := { s with vault := none }

namespace Spaces

def path (s : Spaces) (entry : RegistryEntry) : StorePath := (s.paths.resolve entry.file).getD .base

def file (s : Spaces) (entry : RegistryEntry) : SpaceFile := s.files (s.path entry)

def store (s : Spaces) (entry : RegistryEntry) : Store := (s.file entry).store

def setFile (s : Spaces) (entry : RegistryEntry) (f : SpaceFile → SpaceFile) : Spaces :=
  { s with files := Function.update s.files (s.path entry) (f (s.file entry)) }

def setStore (s : Spaces) (entry : RegistryEntry) (store : Store) : Spaces :=
  s.setFile entry fun file => { file with store }

def edit (f : Inner → Inner) (s : Spaces) : Spaces := { s with inner := f s.inner }

/-- A start: what is open is what the registry on disk says, and every vault is locked. -/
def reopened (s : Spaces) : Spaces :=
  { s with
    inner := Inner.ofDisk s.paths s.registry
    files := fun path => { s.files path with store := (s.files path).store.locked } }

end Spaces

/-- What a step across stores is told from outside. -/
inductive SpacesAsk
  /-- New ids and the time, for one transaction. -/
  | draws
  /-- The operating system seals a key. -/
  | protect_ (key : VaultKey)
  /-- Whether a read goes through. -/
  | reads
  /-- Whether the folder of the registry could be synced after the rename. -/
  | folderSynced
  /-- Nothing answers this: memory does not fail. -/
  | never

abbrev SpacesAnswer : SpacesAsk → Type
  | .draws => Draws
  | .protect_ _ => Option (List UInt8)
  | .reads => Bool
  | .folderSynced => Bool
  | .never => Empty

abbrev SpacesScript := Script Spaces SpacesAsk SpacesAnswer LocalError

namespace Spaces

/-- A change of what is in memory. -/
def set (f : Inner → Inner) : SpacesScript Unit :=
  .write (edit f) (.done ()) (.ask .never nofun)

/-- A read of a database. -/
def reading {α : Type} (f : Spaces → α) : SpacesScript α := do
  if ← query .reads then return f (← get) else fail .sqlite

/-- One transaction on the store of a space. -/
def transact (entry : RegistryEntry) (f : Draws → Store → Except LocalError Store) : SpacesScript Unit := do
  let draws ← query .draws
  let store ← ofExcept (f draws ((← get).store entry))
  modify .sqlite fun s => s.setStore entry store

/-- A registry that did not read is set aside, if it is there. -/
def setAside : SpacesScript Unit :=
  .write (fun s => { s with aside := true, registry := .missing }) (.done ()) (.done ())

/-- Write the registry. A crash leaves either the old one or the new one. -/
def persist : SpacesScript Unit := do
  if (← get).inner.unreadable then
    setAside
    set fun inner => { inner with unreadable := false }
  modify .io fun s => { s with registry := .file s.inner.file }
  if ← query .folderSynced then return () else fail .io

def unknownSpace : LocalError := .invalid "space" "unknown"

/-- A team this account only reads takes no write. -/
def writable (space : SpaceHandle) : SpacesScript Unit :=
  if space.readOnly then fail (.invalid "space" "read-only") else return ()

/-- Whether the vault of a space is open; where it is not, its header is read. -/
def vaultOpen (entry : RegistryEntry) : SpacesScript Bool := do
  if ((← get).store entry).vault.isSome then return true else reading fun _ => false

/-- A step that needs a vault open. -/
def requireOpen (entry : RegistryEntry) : SpacesScript Unit := do
  if ← vaultOpen entry then return () else fail .vaultLocked

def getSpace (id : String) : SpacesScript SpaceHandle := do
  ofExcept (((← get).inner.get id).elim (.error unknownSpace) .ok)

end Spaces

end UwuSsh

import UwuSsh.Lib.Script
import UwuSsh.Sftp.RootCommand

/-!
A download: a remote file, or a folder with all that is in it, copied into a local folder. The server
picks every name and may list something else each time, and every local operation may fail. A program
that has used up its fuel asks a question without answers, so it is followed no further there.
-/
namespace UwuSsh.Sftp

inductive Platform
  | posix
  | windows
deriving DecidableEq

/-- A path that names were pushed onto. -/
structure LocalPath where
  root : String
  names : List String
deriving DecidableEq

/-- Whether a name takes the place of what it is pushed onto: an absolute one, and on Windows also one
with a root or a drive. -/
def replaces (platform : Platform) (name : String) : Bool :=
  match platform, name.toList with
  | .posix, c :: _ => c == '/'
  | .windows, c :: rest =>
    c == '/' || c == '\\' ||
      (Text.isAsciiAlphanumeric c && !Text.isAsciiDigit c && rest.head? == some ':')
  | _, [] => false

namespace LocalPath

/-- `Path::join`. -/
def join (platform : Platform) (path : LocalPath) (name : String) : LocalPath :=
  if replaces platform name then { root := name, names := [] } else { path with names := path.names ++ [name] }

/-- A stream of the file, as Windows writes it. -/
def stream (path : LocalPath) (name : String) : LocalPath :=
  match path.names.getLast? with
  | some last => { path with names := path.names.dropLast ++ [last ++ ":" ++ name] }
  | none => { path with root := path.root ++ ":" ++ name }

def display (platform : Platform) (path : LocalPath) : String :=
  let separator := if platform = .windows then "\\" else "/"
  path.names.foldl (fun text name =>
    if text = "" ∨ endsWith text "/" ∨ endsWith text separator then text ++ name
    else text ++ separator ++ name) path.root

end LocalPath

/-- Windows' device names, with the superscript digits that it counts as digits. -/
def reserved : List String :=
  ["con", "prn", "aux", "nul", "conin$", "conout$", "clock$",
    "com0", "com1", "com2", "com3", "com4", "com5", "com6", "com7", "com8", "com9", "com\u00b9", "com\u00b2",
    "com\u00b3",
    "lpt0", "lpt1", "lpt2", "lpt3", "lpt4", "lpt5", "lpt6", "lpt7", "lpt8", "lpt9", "lpt\u00b9", "lpt\u00b2",
    "lpt\u00b3"]

/-- What stands before the first dot, without the blanks there. -/
def stemOf (name : String) : List Char :=
  (name.toList.takeWhile (· != '.')).rdropWhile (· == ' ')

/-- A remote name as a local one, or an error when it could reach outside its folder or is no name here.
`lowercase` is `str::to_lowercase`. -/
def safeLocalName (lowercase : String → String) (name : String) : Except SftpError String :=
  if name = "" ∨ name = "." ∨ name = ".." ∨ 255 < name.utf8ByteSize ∨ endsWith name " " ∨ endsWith name "." ∨
      name.toList.any (fun c => Text.isControl c || ['/', '\\', ':', '*', '?', '"', '<', '>', '|'].contains c) ∨
      lowercase (String.ofList (stemOf name)) ∈ reserved then
    .error (.unsafeName (String.ofList ((name.toList.filter fun c => !Text.isControl c).take 120)))
  else .ok name

/-- The last part of a remote path. -/
def baseName (path : String) : String :=
  match ((path.toList.rdropWhile (· == '/')).splitOn '/').getLast? with
  | some (c :: name) => String.ofList (c :: name)
  | _ => "download"

example : baseName "/var/log/" = "log" ∧ baseName "/" = "download" := by decide

def downloadTarget (platform : Platform) (lowercase : String → String) (path : String) (into : LocalPath) :
    Except SftpError LocalPath := do
  let name ← safeLocalName lowercase (baseName path)
  pure (into.join platform name)

inductive FileType
  | dir
  | file
  | symlink
  | other
deriving DecidableEq

/-- What the server lists, with the path it has for the library. -/
structure RemoteEntry where
  name : String
  path : String
  kind : FileType
deriving DecidableEq

/-- Why a local operation failed. -/
inductive LocalFault
  | alreadyExists
  | other (message : String)
deriving DecidableEq

/-- What a download asks of the server, of the local system and of the one who may cancel it. -/
inductive DownloadAsk
  | metadata (path : String)
  | readDir (path : String)
  | openRemote (path : String)
  | readRemote (path : String)
  | cancelled
  | symlinkMetadata (path : LocalPath)
  | createDir (path : LocalPath)
  | openLocal (path : LocalPath) (createNew : Bool)
  | writeAll (path : LocalPath) (bytes : List UInt8)
  | flush (path : LocalPath)
  | removeFile (path : LocalPath)
  /-- A named stream of the file, as Windows has them. -/
  | writeStream (path : LocalPath) (name content : String)
  | outOfFuel
deriving DecidableEq

@[reducible] def DownloadAnswer : DownloadAsk → Type
  -- Whether it is a folder.
  | .metadata _ => Except SftpError Bool
  | .readDir _ => Except SftpError (List RemoteEntry)
  | .openRemote _ => Except SftpError Unit
  | .readRemote _ => Except String (List UInt8)
  | .cancelled => Bool
  | .symlinkMetadata _ => Option FileType
  | .createDir _ => Except LocalFault Unit
  | .openLocal _ _ => Except LocalFault Unit
  -- How many bytes were written, and why not all of them.
  | .writeAll _ _ => ℕ × Option String
  | .flush _ => Option String
  | .removeFile _ => Bool
  -- How much of it was written, if it could be opened.
  | .writeStream _ _ _ => Option ℕ
  | .outOfFuel => Empty

abbrev DownloadScript := Script Unit DownloadAsk DownloadAnswer SftpError

/-- A local error, with "already exists" named as such. -/
def localAt (platform : Platform) (path : LocalPath) : LocalFault → SftpError
  | .alreadyExists => .alreadyExists (path.display platform)
  | .other message => .local (path.display platform ++ ": " ++ message)

open Script

def asking (question : DownloadAsk) : DownloadScript (DownloadAnswer question) := query question

def checkCancel : DownloadScript Unit := do
  let cancelled : Bool ← asking .cancelled
  if cancelled then fail .cancelled else pure ()

def outOfFuel {α : Type} : DownloadScript α := ask .outOfFuel fun answer => answer.elim

/-- Copy what the server gives until it gives nothing more. -/
def copyAll (path : String) (target : LocalPath) : ℕ → DownloadScript Unit
  | 0 => outOfFuel
  | fuel + 1 => do
    checkCancel
    let read : Except String (List UInt8) ← asking (.readRemote path)
    match read with
    | .error message => fail (.failed (path ++ ": " ++ message))
    | .ok [] => do
      let flushed : Option String ← asking (.flush target)
      match flushed with
      | some message => fail (.local message)
      | none => pure ()
    | .ok bytes => do
      let written : ℕ × Option String ← asking (.writeAll target bytes)
      match written.2 with
      | some message => fail (.local message)
      | none => copyAll path target fuel

/-- Mark a download as coming from elsewhere, where the system has a mark for it. -/
def markAsDownloaded (platform : Platform) (path : LocalPath) : DownloadScript Unit :=
  match platform with
  | .windows => do
    let _ ← asking (.writeStream path "Zone.Identifier" "[ZoneTransfer]\r\nZoneId=3\r\n")
    pure ()
  | .posix => pure ()

section Programs

variable (platform : Platform) (lowercase : String → String) (overwrite : Bool) (fuel : ℕ)

def downloadFile (path : String) (target : LocalPath) : DownloadScript Unit := do
  let source : Except SftpError Unit ← asking (.openRemote path)
  match source with
  | .error error => fail error
  | .ok () => do
    let sink : Except LocalFault Unit ← asking (.openLocal target !overwrite)
    match sink with
    | .error fault => fail (localAt platform target fault)
    | .ok () => do
      let copied ← (copyAll path target fuel).attempt
      match copied with
      | .error error => do
        let _ ← asking (.removeFile target)
        fail error
      | .ok () => markAsDownloaded platform target

/-- One listing: files are copied, folders are put off, links and devices are not followed. -/
def downloadEntries (localDir : LocalPath) :
    List RemoteEntry → List (String × LocalPath) → DownloadScript (List (String × LocalPath))
  | [], pending => pure pending
  | entry :: rest, pending => do
    checkCancel
    let name ← ofExcept (safeLocalName lowercase entry.name)
    let child := localDir.join platform name
    match entry.kind with
    | .dir => downloadEntries localDir rest ((entry.path, child) :: pending)
    | .file => do
      downloadFile platform overwrite fuel entry.path child
      downloadEntries localDir rest pending
    | _ => downloadEntries localDir rest pending

/-- A folder that is there already is only gone into when it may be overwritten, and is no link. -/
def mayMerge (localDir : LocalPath) : DownloadScript Bool :=
  if overwrite then do
    let found : Option FileType ← asking (.symlinkMetadata localDir)
    pure (found == some .dir)
  else pure false

def createOrMerge (localDir : LocalPath) : DownloadScript Unit := do
  let created : Except LocalFault Unit ← asking (.createDir localDir)
  match created with
  | .ok () => pure ()
  | .error fault => do
    let merge ← mayMerge overwrite localDir
    if merge then pure () else fail (localAt platform localDir fault)

/-- The folders put off, the last one first. -/
def downloadFolders : ℕ → List (String × LocalPath) → DownloadScript Unit
  | _, [] => pure ()
  | 0, _ => outOfFuel
  | turns + 1, (dir, localDir) :: pending => do
    checkCancel
    createOrMerge platform overwrite localDir
    let listed : Except SftpError (List RemoteEntry) ← asking (.readDir dir)
    match listed with
    | .error error => fail error
    | .ok entries => do
      let pending ← downloadEntries platform lowercase overwrite fuel localDir entries pending
      downloadFolders turns pending

/-- What is at the target already, where that matters. -/
def alreadyThere (target : LocalPath) : DownloadScript (Option FileType) :=
  if overwrite then pure none else asking (.symlinkMetadata target)

/-- Copy a remote file or folder into a local folder. -/
def download (path : String) (into : LocalPath) : DownloadScript LocalPath := do
  let target ← ofExcept (downloadTarget platform lowercase path into)
  let found ← alreadyThere overwrite target
  match found with
  | some _ => fail (.alreadyExists (target.display platform))
  | none => do
    let metadata : Except SftpError Bool ← asking (.metadata path)
    match metadata with
    | .error error => fail error
    | .ok false => do
      downloadFile platform overwrite fuel path target
      pure target
    | .ok true => do
      downloadFolders platform lowercase overwrite fuel fuel [(path, target)]
      pure target

end Programs

end UwuSsh.Sftp

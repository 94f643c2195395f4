import Mathlib.Logic.Function.Basic
import UwuSsh.Sftp.Download

/-!
Where a download writes. Paths are read by the rules of both systems; what is on the local disk is told
by place, and which paths name the same place is left open, so letters may be folded and folders may be
links. Without overwriting, whatever was there before stays as it was, wherever the download stops.
-/
namespace UwuSsh.Sftp

/-- Windows' device names: what stands before the first dot, in any case, is enough. -/
def deviceNames : List String :=
  ["con", "prn", "aux", "nul", "conin$", "conout$"] ++
    ["com", "lpt"].flatMap fun port =>
      ["0", "1", "2", "3", "4", "5", "6", "7", "8", "9", "\u00b9", "\u00b2", "\u00b3"].map (port ++ ·)

/-- A name that POSIX takes for one component, neither the folder itself nor the one above. -/
structure PosixName (name : String) : Prop where
  ordinary : Ordinary name
  noNul : '\x00' ∉ name.toList

/-- A name that Windows takes for one component and for no device, and that it does not shorten: no
separator, no colon of a drive or a stream, no wildcard, no dot or blank at the end. -/
structure WindowsName (name : String) : Prop where
  some : name ≠ ""
  plain : ∀ c ∈ name.toList, 32 ≤ c.toNat ∧ c ∉ ['/', '\\', ':', '*', '?', '"', '<', '>', '|']
  whole : ∀ c ∈ name.toList.getLast?, c ≠ ' ' ∧ c ≠ '.'
  noDevice : Text.asciiLower (String.ofList (stemOf name)) ∉ deviceNames

/-- A folder with one or more ordinary names behind it. -/
def Inside (into path : LocalPath) : Prop :=
  path.root = into.root ∧ ∃ names, names ≠ [] ∧ path.names = into.names ++ names ∧
    ∀ name ∈ names, PosixName name ∧ WindowsName name

/-- `str::to_lowercase`, as far as it is used here: what is ASCII goes by the ASCII letters, and the
superscript digits stay. -/
def LowersAscii (lowercase : String → String) : Prop :=
  ∀ text : String, (∀ c ∈ text.toList, c.toNat < 0x80 ∨ c ∈ ['\u00b9', '\u00b2', '\u00b3']) →
    lowercase text = Text.asciiLower text

section Names

variable {lowercase : String → String}

theorem mem_reserved_of_mem_deviceNames : ∀ name ∈ deviceNames, name ∈ reserved := by decide +kernel

theorem deviceNames_narrow : ∀ name ∈ deviceNames, ∀ c ∈ name.toList,
    c.toNat < 0x80 ∨ c ∈ ['\u00b9', '\u00b2', '\u00b3'] := by
  have hall : deviceNames.all (fun name => name.toList.all fun c =>
      decide (c.toNat < 0x80 ∨ c ∈ ['\u00b9', '\u00b2', '\u00b3'])) = true := by decide +kernel
  intro name hname c hc
  simpa using List.all_eq_true.mp (List.all_eq_true.mp hall name hname) c hc

theorem lowercase_mem_reserved (hlower : LowersAscii lowercase) {stem : String}
    (h : Text.asciiLower stem ∈ deviceNames) : lowercase stem ∈ reserved := by
  have hnarrow : ∀ c ∈ stem.toList, c.toNat < 0x80 ∨ c ∈ ['\u00b9', '\u00b2', '\u00b3'] := by
    intro c hc
    have hlow : Text.asciiLowerChar c ∈ (Text.asciiLower stem).toList := by
      rw [Text.asciiLower, String.toList_ofList]
      exact List.mem_map_of_mem hc
    have hd := deviceNames_narrow _ h _ hlow
    rw [Text.asciiLowerChar] at hd
    split at hd
    · rename_i hupper
      have hle : c.toNat ≤ 'Z'.toNat := hupper.2
      have hz : 'Z'.toNat = 90 := rfl
      exact .inl (by omega)
    · exact hd
  rw [hlower stem hnarrow]
  exact mem_reserved_of_mem_deviceNames _ h

theorem safeLocalName_ok (hlower : LowersAscii lowercase) {name safe : String}
    (h : safeLocalName lowercase name = .ok safe) : safe = name ∧ PosixName name ∧ WindowsName name := by
  rw [safeLocalName] at h
  split at h
  · cases h
  rename_i hsafe
  cases h
  simp only [not_or] at hsafe
  obtain ⟨hsome, hdown, hup, -, hblank, hdot, hchars, hstem⟩ := hsafe
  have hplain : ∀ c ∈ name.toList,
      Text.isControl c = false ∧ c ∉ ['/', '\\', ':', '*', '?', '"', '<', '>', '|'] := by
    intro c hc
    have hgood : ¬ (Text.isControl c ||
        ['/', '\\', ':', '*', '?', '"', '<', '>', '|'].contains c) = true :=
      fun hbad => hchars (List.any_eq_true.mpr ⟨c, hc, hbad⟩)
    rw [Bool.or_eq_true, not_or, Bool.not_eq_true, List.contains_iff_mem] at hgood
    exact hgood
  have hcontrol : ∀ c ∈ name.toList, 32 ≤ c.toNat := by
    intro c hc
    have h := (hplain c hc).1
    simp only [Text.isControl, Bool.or_eq_false_iff, decide_eq_false_iff_not] at h
    omega
  refine ⟨rfl, ⟨⟨hsome, hdown, hup, fun hslash => ?_⟩, fun hnul => ?_⟩, hsome,
    fun c hc => ⟨hcontrol c hc, (hplain c hc).2⟩, fun c hlast => ⟨?_, ?_⟩, fun hdevice => ?_⟩
  · exact absurd ((hplain '/' hslash).2) (by decide)
  · exact absurd (hcontrol '\x00' hnul) (by decide)
  · rintro rfl
    obtain ⟨front, hfront⟩ := List.getLast?_eq_some_iff.mp hlast
    exact hblank (List.isSuffixOf_iff_suffix.mpr ⟨front, hfront.symm⟩)
  · rintro rfl
    obtain ⟨front, hfront⟩ := List.getLast?_eq_some_iff.mp hlast
    exact hdot (List.isSuffixOf_iff_suffix.mpr ⟨front, hfront.symm⟩)
  · exact hstem (lowercase_mem_reserved hlower hdevice)

/-- A safe name goes behind what it is pushed onto. -/
theorem replaces_of_windowsName {name : String} (h : WindowsName name) (platform : Platform) :
    replaces platform name = false := by
  have hplain : ∀ c ∈ name.toList, c ≠ '/' ∧ c ≠ '\\' ∧ c ≠ ':' := by
    intro c hc
    have := (h.plain c hc).2
    simp only [List.mem_cons, not_or] at this
    exact ⟨this.1, this.2.1, this.2.2.1⟩
  cases hname : name.toList with
  | nil => cases platform <;> simp [replaces, hname]
  | cons c rest =>
    have hc := hplain c (by simp [hname])
    cases platform with
    | posix => simp [replaces, hname, hc.1]
    | windows =>
      have hcolon : rest.head? ≠ some ':' := by
        intro hhead
        cases rest with
        | nil => simp at hhead
        | cons d tail => exact (hplain d (by simp [hname])).2.2 (by simpa using hhead)
      simp [replaces, hname, hc.1, hc.2.1, hcolon]

theorem join_of_safe (hlower : LowersAscii lowercase) {name safe : String}
    (h : safeLocalName lowercase name = .ok safe) (platform : Platform) (path : LocalPath) :
    path.join platform safe = { path with names := path.names ++ [name] } ∧ PosixName name ∧
      WindowsName name := by
  obtain ⟨rfl, hposix, hwindows⟩ := safeLocalName_ok hlower h
  refine ⟨?_, hposix, hwindows⟩
  rw [LocalPath.join, replaces_of_windowsName hwindows, if_neg Bool.false_ne_true]

theorem inside_join (hlower : LowersAscii lowercase) {name safe : String}
    (h : safeLocalName lowercase name = .ok safe) (platform : Platform) {into path : LocalPath}
    (hpath : path = into ∨ Inside into path) : Inside into (path.join platform safe) := by
  obtain ⟨hjoin, hposix, hwindows⟩ := join_of_safe hlower h platform path
  rw [hjoin]
  rcases hpath with rfl | ⟨hroot, names, hnone, hnames, hall⟩
  · exact ⟨rfl, [name], by simp, rfl, by simpa using ⟨hposix, hwindows⟩⟩
  · refine ⟨hroot, names ++ [name], by simp, by simp [hnames], fun other hother => ?_⟩
    rcases List.mem_append.mp hother with hold | hnew
    · exact hall other hold
    · rw [List.mem_singleton.mp hnew]
      exact ⟨hposix, hwindows⟩

theorem inside_downloadTarget (hlower : LowersAscii lowercase) {platform : Platform} {path : String}
    {into target : LocalPath} (h : downloadTarget platform lowercase path into = .ok target) :
    Inside into target := by
  simp only [downloadTarget, bind, Except.bind] at h
  cases hsafe : safeLocalName lowercase (baseName path) with
  | error error => simp [hsafe] at h
  | ok safe =>
    simp only [hsafe, pure, Except.pure, Except.ok.injEq] at h
    rw [← h]
    exact inside_join hlower hsafe platform (.inl rfl)

end Names

/-- What a place on the local disk holds, a file with its named streams; what a link or a device leads to
is not told. -/
inductive Node
  | folder
  | file (content : List UInt8) (streams : List (String × String))
  | other
deriving DecidableEq

def Node.writeStream (name content : String) : Node → Node
  | .file bytes streams => .file bytes ((name, content) :: streams.filter (·.1 ≠ name))
  | node => node

section Disks

variable {P : Type} [DecidableEq P] (place : LocalPath → P)

/-- The disk, the places that were made since the start, and how far copies are. -/
structure Disk (P : Type) where
  files : P → Option Node
  made : List P := []
  /-- All that was read since a file was opened went into it. -/
  intact : Bool := false
  /-- There was no more to read. -/
  ended : Bool := false
  /-- Files whose copy went through since they were opened. -/
  copied : List P := []

/-- What a local operation that is answered so does to the disk. To write a stream of a file that is not
there makes the file. -/
def Disk.after (disk : Disk P) : (question : DownloadAsk) → DownloadAnswer question → Disk P
  | .createDir path, .ok () =>
    { disk with
      files := Function.update disk.files (place path) (some .folder), made := place path :: disk.made }
  | .openLocal path _, .ok () =>
    let opened := if disk.files (place path) = some .other then .other else .file [] []
    { files := Function.update disk.files (place path) (some opened), made := place path :: disk.made
      intact := true, ended := false, copied := disk.copied.filter (· ≠ place path) }
  | .readRemote _, .error _ => { disk with intact := false }
  | .readRemote _, .ok bytes => { disk with ended := bytes.isEmpty }
  | .writeAll path bytes, (count, fault) =>
    let intact := disk.intact && fault.isNone
    match disk.files (place path) with
    | some (.file content streams) =>
      let written := content ++ bytes.take count
      { disk with files := Function.update disk.files (place path) (some (.file written streams)), intact }
    | _ => { disk with intact }
  | .flush path, none =>
    if disk.intact && disk.ended then { disk with copied := place path :: disk.copied } else disk
  | .removeFile path, true => { disk with files := Function.update disk.files (place path) none }
  | .writeStream path name content, some count =>
    let node := (disk.files (place path)).getD (.file [] [])
    let written := node.writeStream name (String.ofList (content.toList.take count))
    { disk with files := Function.update disk.files (place path) (some written) }
  | _, _ => disk

/-- What the local system promises: a folder is made, and a file made anew, only where nothing was, and
what is written without a fault is written whole. -/
def Disk.possible (disk : Disk P) : (question : DownloadAsk) → DownloadAnswer question → Prop
  | .createDir path, .ok () => disk.files (place path) = none
  | .openLocal path createNew, .ok () =>
    if createNew then disk.files (place path) = none else disk.files (place path) ≠ some .folder
  | .symlinkMetadata path, some kind => disk.files (place path) ≠ none ∧
    (kind = .dir ↔ disk.files (place path) = some .folder)
  | .writeAll _ bytes, (count, none) => count = bytes.length
  | _, _ => True

/-- The path by which an operation creates, writes or removes. -/
def DownloadAsk.changes : DownloadAsk → Option LocalPath
  | .createDir path => some path
  | .openLocal path _ => some path
  | .writeAll path _ => some path
  | .removeFile path => some path
  | .writeStream path name _ => some (path.stream name)
  | _ => none

/-- What a download may do: create, write and remove behind the folder it was asked to write into, and on
Windows mark a file there whose copy went through. -/
def MayDo (platform : Platform) (into : LocalPath) (disk : Disk P) : DownloadAsk → Prop
  | .writeStream path name _ => platform = .windows ∧ name = "Zone.Identifier" ∧ Inside into path ∧
    place path ∈ disk.copied
  | question => ∀ path, question.changes = some path → Inside into path

/-- What was on the disk at the start is as it was, files with their streams. -/
def Untouched (initial : P → Option Node) (disk : Disk P) : Prop :=
  ∀ p node, initial p = some node → disk.files p = some node

/-- A download that stays where it was asked to write, and without overwriting leaves what was there. -/
def staysInside (may : Disk P → DownloadAsk → Prop) (overwrite : Bool) (initial : P → Option Node) :
    Script.Contract Unit DownloadAsk DownloadAnswer (Disk P) where
  wrote disk _ _ := disk
  asked disk _ question answer := disk.after place question answer
  rely disk _ question answer := disk.possible place question answer
  allowed _ _ _ := True
  guarantee _ _ _ := True
  may disk _ question := may disk question
  inv disk _ := overwrite = false → Untouched initial disk

/-- Every place that is not as it was is one that was made. -/
def Accounted (overwrite : Bool) (initial : P → Option Node) (disk : Disk P) : Prop :=
  overwrite = false → ∀ p, if p ∈ disk.made then initial p = none else disk.files p = initial p

theorem untouched_of_accounted {overwrite : Bool} {initial : P → Option Node} {disk : Disk P}
    (h : Accounted overwrite initial disk) (hover : overwrite = false) : Untouched initial disk := by
  intro p node hnode
  have hp := h hover p
  split at hp
  · rw [hp] at hnode
    cases hnode
  · rw [hp, hnode]

open Script

/-- The same contract with what is known on the way: every change is accounted for, and the places held
were made since the start. -/
def accounting (platform : Platform) (into : LocalPath) (overwrite : Bool) (initial : P → Option Node)
    (held : List P) : Contract Unit DownloadAsk DownloadAnswer (Disk P) :=
  { staysInside place (MayDo place platform into) overwrite initial with
    inv := fun disk _ => Accounted overwrite initial disk ∧ ∀ p ∈ held, p ∈ disk.made }

section Programs

variable {place} {platform : Platform} {into : LocalPath} {overwrite : Bool} {initial : P → Option Node}
  {held : List P}

theorem stricter_accounting (held : List P) : (accounting place platform into overwrite initial held).Stricter
    (staysInside place (MayDo place platform into) overwrite initial) :=
  ⟨rfl, rfl, fun _ _ _ _ h => h, fun _ _ _ h => h, fun _ _ _ h => h, fun _ _ _ h => h,
    fun _ _ h => untouched_of_accounted h.1⟩

theorem stricter_held (held : List P) : (accounting place platform into overwrite initial held).Stricter
    (accounting place platform into overwrite initial []) :=
  ⟨rfl, rfl, fun _ _ _ _ h => h, fun _ _ _ h => h, fun _ _ _ h => h, fun _ _ _ h => h,
    fun _ _ h => ⟨h.1, by simp⟩⟩

/-- A question by which nothing changes on the disk. -/
theorem after_of_no_change {question : DownloadAsk} (h : question.changes = none) (disk : Disk P)
    (answer : DownloadAnswer question) : (disk.after place question answer).files = disk.files ∧
      (disk.after place question answer).made = disk.made := by
  cases question with
  | readRemote path => cases answer <;> exact ⟨rfl, rfl⟩
  | flush path =>
    cases answer with
    | some message => exact ⟨rfl, rfl⟩
    | none =>
      simp only [Disk.after]
      split <;> exact ⟨rfl, rfl⟩
  | metadata _ | readDir _ | openRemote _ | cancelled | symlinkMetadata _ | outOfFuel => exact ⟨rfl, rfl⟩
  | createDir _ | openLocal _ _ | writeAll _ _ | removeFile _ | writeStream _ _ _ => cases h

theorem accounted_made {disk : Disk P} (h : Accounted overwrite initial disk) {p : P} (node : Option Node)
    (hp : overwrite = false → disk.files p = none ∨ p ∈ disk.made) :
    Accounted overwrite initial
      { disk with files := Function.update disk.files p node, made := p :: disk.made } := by
  intro hover q
  have hq := h hover q
  by_cases hqp : q = p
  · subst hqp
    rw [if_pos List.mem_cons_self]
    rcases hp hover with hnone | hmade
    · split at hq
      · exact hq
      · rw [← hq, hnone]
    · rwa [if_pos hmade] at hq
  · simpa [hqp] using hq

/-- A place that was made may be changed again. -/
theorem accounted_again {disk : Disk P} (h : Accounted overwrite initial disk) {p : P} (node : Option Node)
    (hp : p ∈ disk.made) :
    Accounted overwrite initial { disk with files := Function.update disk.files p node } := by
  intro hover q
  have hq := h hover q
  by_cases hqp : q = p
  · subst hqp
    rw [if_pos hp] at hq ⊢
    exact hq
  · simpa [hqp] using hq

theorem may_of_no_change {question : DownloadAsk} (h : question.changes = none) (disk : Disk P) (s : Unit) :
    (accounting place platform into overwrite initial held).may disk s question := by
  cases question with
  | writeStream path name content => cases h
  | _ =>
    intro path hpath
    rw [h] at hpath
    cases hpath

theorem inv_of_no_change (question : DownloadAsk) (h : question.changes = none) {disk : Disk P} {s : Unit}
    (hinv : (accounting place platform into overwrite initial held).inv disk s)
    (answer : DownloadAnswer question) :
    (accounting place platform into overwrite initial held).inv (disk.after place question answer) s := by
  obtain ⟨hfiles, hmade⟩ := @after_of_no_change _ _ place question h disk answer
  refine ⟨fun hover p => ?_, fun p hp => hmade ▸ hinv.2 p hp⟩
  rw [hfiles, hmade]
  exact hinv.1 hover p

theorem keeps_look {question : DownloadAsk} (h : question.changes = none) :
    Keeps (accounting place platform into overwrite initial held) (asking question) :=
  Keeps.query fun disk _ hinv => ⟨may_of_no_change h disk _, fun answer _ => inv_of_no_change question h hinv answer⟩

theorem keeps_outOfFuel {α : Type} :
    Keeps (accounting place platform into overwrite initial held) (outOfFuel : DownloadScript α) :=
  fun disk _ _ => ⟨may_of_no_change rfl disk _, fun answer => answer.elim⟩

theorem wp_checkCancel {disk : Disk P} {s : Unit} {post : Except SftpError Unit → Disk P → Unit → Prop}
    (hinv : (accounting place platform into overwrite initial held).inv disk s)
    (hcancel : post (.error .cancelled) disk s) (hok : post (.ok ()) disk s) :
    checkCancel.wp (accounting place platform into overwrite initial held) post disk s := by
  refine wp_bind.mpr (wp_query.mpr ⟨may_of_no_change rfl disk _, fun cancelled _ => ⟨hinv, ?_⟩⟩)
  cases cancelled with
  | true => exact hcancel
  | false => exact hok

theorem keeps_checkCancel : Keeps (accounting place platform into overwrite initial held) checkCancel :=
  fun _ _ hinv => wp_checkCancel hinv hinv hinv

theorem keeps_createDir {path : LocalPath} (hpath : Inside into path) :
    Keeps (accounting place platform into overwrite initial held) (asking (.createDir path)) := by
  refine Keeps.query fun disk s hinv => ⟨fun other hother => ?_, fun answer hanswer => ?_⟩
  · cases hother
    exact hpath
  · cases answer with
    | error fault => exact hinv
    | ok made =>
      exact ⟨accounted_made hinv.1 _ fun _ => .inl hanswer,
        fun p hp => List.mem_cons_of_mem _ (hinv.2 p hp)⟩

theorem keeps_removeFile {path : LocalPath} (hpath : Inside into path) (hheld : place path ∈ held) :
    Keeps (accounting place platform into overwrite initial held) (asking (.removeFile path)) := by
  refine Keeps.query fun disk s hinv => ⟨fun other hother => ?_, fun answer _ => ?_⟩
  · cases hother
    exact hpath
  · cases answer with
    | false => exact hinv
    | true => exact ⟨accounted_again hinv.1 _ (hinv.2 _ hheld), hinv.2⟩

theorem inv_writeAll {path : LocalPath} {bytes : List UInt8} {disk : Disk P} {s : Unit}
    (hheld : place path ∈ held) (hinv : (accounting place platform into overwrite initial held).inv disk s)
    (answer : ℕ × Option String) : (accounting place platform into overwrite initial held).inv
      (disk.after place (.writeAll path bytes) answer) s := by
  simp only [Disk.after]
  split
  · exact ⟨accounted_again hinv.1 _ (hinv.2 _ hheld), hinv.2⟩
  · exact hinv

theorem intact_writeAll {path : LocalPath} {bytes : List UInt8} {disk : Disk P} {count : ℕ}
    (hintact : disk.intact = true) : (disk.after place (.writeAll path bytes) (count, none)).intact = true := by
  simp only [Disk.after]
  split <;> exact (Bool.and_true _).trans hintact

/-- A copy that goes through leaves the file on the list of those whose copy went through. -/
theorem wp_copyAll {path : String} {target : LocalPath} (hpath : Inside into target)
    (hheld : place target ∈ held) (fuel : ℕ) {disk : Disk P} {s : Unit}
    (hinv : (accounting place platform into overwrite initial held).inv disk s) (hintact : disk.intact = true) :
    (copyAll path target fuel).wp (accounting place platform into overwrite initial held)
      (fun r disk s => (accounting place platform into overwrite initial held).inv disk s ∧
        (r = .ok () → place target ∈ disk.copied)) disk s := by
  induction fuel generalizing disk with
  | zero => exact ⟨may_of_no_change rfl disk _, fun answer => answer.elim⟩
  | succ fuel ih =>
    refine wp_bind.mpr (wp_checkCancel hinv ⟨hinv, nofun⟩ ?_)
    refine wp_bind.mpr (wp_query.mpr ⟨may_of_no_change rfl disk _, fun read _ => ⟨inv_of_no_change _ rfl hinv _, ?_⟩⟩)
    rcases read with message | bytes
    · exact ⟨inv_of_no_change (.readRemote path) rfl hinv (.error message), nofun⟩
    cases bytes with
    | nil =>
      have hread := inv_of_no_change (.readRemote path) rfl hinv (.ok [])
      refine wp_bind.mpr (wp_query.mpr
        ⟨may_of_no_change rfl _ _, fun flushed _ => ⟨inv_of_no_change _ rfl hread _, ?_⟩⟩)
      cases flushed with
      | some message => exact ⟨inv_of_no_change (.flush target) rfl hread (some message), nofun⟩
      | none =>
        refine ⟨inv_of_no_change (.flush target) rfl hread none, fun _ => ?_⟩
        have hwhole : (disk.intact && ([] : List UInt8).isEmpty) = true := by rw [hintact]; rfl
        change place target ∈ (if (disk.intact && ([] : List UInt8).isEmpty) = true then _ else _ : Disk P).copied
        rw [if_pos hwhole]
        exact List.mem_cons_self
    | cons byte rest =>
      have hread := inv_of_no_change (.readRemote path) rfl hinv (.ok (byte :: rest))
      refine wp_bind.mpr (wp_query.mpr ⟨fun other hother => ?_, fun written _ => ⟨inv_writeAll hheld hread _, ?_⟩⟩)
      · cases hother
        exact hpath
      · obtain ⟨count, fault⟩ := written
        cases fault with
        | some message => exact ⟨inv_writeAll hheld hread (count, some message), nofun⟩
        | none => exact ih (inv_writeAll hheld hread (count, none)) (intact_writeAll hintact)

theorem wp_markAsDownloaded {path : LocalPath} {disk : Disk P} {s : Unit} (hpath : Inside into path)
    (hheld : place path ∈ held) (hcopied : place path ∈ disk.copied)
    (hinv : (accounting place platform into overwrite initial held).inv disk s) :
    (markAsDownloaded platform path).wp (accounting place platform into overwrite initial held)
      (fun _ => (accounting place platform into overwrite initial held).inv) disk s := by
  cases platform with
  | posix => exact hinv
  | windows =>
    refine wp_bind.mpr (wp_query.mpr ⟨⟨rfl, rfl, hpath, hcopied⟩, fun answer _ => ?_⟩)
    cases answer with
    | none => exact ⟨hinv, hinv⟩
    | some count =>
      have hafter := accounted_again hinv.1 (some (((disk.files (place path)).getD (.file [] [])).writeStream
        "Zone.Identifier" (String.ofList ("[ZoneTransfer]\r\nZoneId=3\r\n".toList.take count)))) (hinv.2 _ hheld)
      exact ⟨⟨hafter, hinv.2⟩, hafter, hinv.2⟩

/-- What follows an opened file may count on it: the file was made by the download, and is empty. -/
theorem keeps_after_open {α : Type} {target : LocalPath} {rest : Except LocalFault Unit → DownloadScript α}
    (hpath : Inside into target)
    (hfault : ∀ fault, Keeps (accounting place platform into overwrite initial []) (rest (.error fault)))
    (hopen : ∀ disk s, (accounting place platform into overwrite initial [place target]).inv disk s →
      disk.intact = true → (rest (.ok ())).wp (accounting place platform into overwrite initial [place target])
        (fun _ => (accounting place platform into overwrite initial [place target]).inv) disk s) :
    Keeps (accounting place platform into overwrite initial []) (asking (.openLocal target !overwrite) >>= rest) := by
  intro disk s hinv
  rw [wp_bind]
  refine wp_query.mpr ⟨fun path hchange => ?_, fun answer hanswer => ?_⟩
  · cases hchange
    exact hpath
  · cases answer with
    | error fault => exact ⟨hinv, hfault fault _ s hinv⟩
    | ok made =>
      have hnone : overwrite = false → disk.files (place target) = none ∨ place target ∈ disk.made := by
        rintro rfl
        exact .inl hanswer
      have hafter : (accounting place platform into overwrite initial [place target]).inv
          (disk.after place (.openLocal target !overwrite) (.ok ())) s :=
        ⟨accounted_made hinv.1 _ hnone, fun p hp => by
          rw [List.mem_singleton.mp hp]
          exact List.mem_cons_self⟩
      refine ⟨⟨hafter.1, by simp⟩, wp_of_stricter (stricter_held [place target]) ?_⟩
      exact wp_mono (hopen _ s hafter rfl) fun _ _ _ h => ⟨h.1, by simp⟩

theorem keeps_downloadFile {fuel : ℕ} {path : String} {target : LocalPath} (hpath : Inside into target) :
    Keeps (accounting place platform into overwrite initial []) (downloadFile platform overwrite fuel path target) := by
  refine Keeps.bind (keeps_look rfl) fun source => ?_
  cases source with
  | error error => exact Keeps.fail error
  | ok opened =>
    refine keeps_after_open hpath (fun fault => Keeps.fail _) fun disk s hinv hintact => ?_
    rw [wp_bind, wp_attempt]
    refine wp_mono (wp_copyAll hpath List.mem_cons_self fuel hinv hintact) fun copied disk s hcopied => ?_
    cases copied with
    | error error =>
      exact Keeps.bind (keeps_removeFile hpath List.mem_cons_self) (fun _ => Keeps.fail error) disk s hcopied.1
    | ok done => exact wp_markAsDownloaded hpath List.mem_cons_self (hcopied.2 rfl) hcopied.1

end Programs

section Trees

variable {place} {platform : Platform} {lowercase : String → String} (hlower : LowersAscii lowercase)
  {overwrite : Bool} {fuel : ℕ} {initial : P → Option Node} {into : LocalPath}

theorem keeps_mayMerge {localDir : LocalPath} :
    Keeps (accounting place platform into overwrite initial []) (mayMerge overwrite localDir) := by
  rw [mayMerge]
  split
  · exact Keeps.bind (keeps_look rfl) fun found => Keeps.done _
  · exact Keeps.done false

theorem keeps_createOrMerge {localDir : LocalPath} (hdir : Inside into localDir) :
    Keeps (accounting place platform into overwrite initial [])
      (createOrMerge platform overwrite localDir) := by
  refine Keeps.bind (keeps_createDir hdir) fun created => ?_
  cases created with
  | ok made => exact Keeps.done ()
  | error fault =>
    refine Keeps.bind keeps_mayMerge fun merge => ?_
    split
    · exact Keeps.done ()
    · exact Keeps.fail _

theorem keeps_alreadyThere {target : LocalPath} :
    Keeps (accounting place platform into overwrite initial []) (alreadyThere overwrite target) := by
  rw [alreadyThere]
  split
  · exact Keeps.done none
  · exact keeps_look rfl

include hlower

/-- Every folder put off is inside, whatever the server listed. -/
theorem gives_downloadEntries {localDir : LocalPath} (hdir : Inside into localDir)
    (entries : List RemoteEntry) (pending : List (String × LocalPath))
    (hpending : ∀ folder ∈ pending, Inside into folder.2) :
    Gives (accounting place platform into overwrite initial [])
      (fun pending => ∀ folder ∈ pending, Inside into folder.2)
      (downloadEntries platform lowercase overwrite fuel localDir entries pending) := by
  induction entries generalizing pending with
  | nil => exact Gives.done hpending
  | cons entry rest ih =>
    refine Gives.bind (Gives.of_keeps keeps_checkCancel) fun _ _ => ?_
    refine Gives.bind (Gives.ofExcept (safeLocalName lowercase entry.name)) fun name hsafe => ?_
    have hchild : Inside into (localDir.join platform name) :=
      inside_join hlower hsafe platform (.inr hdir)
    dsimp only
    split
    · refine ih _ fun folder hfolder => ?_
      rcases List.mem_cons.mp hfolder with rfl | hold
      · exact hchild
      · exact hpending folder hold
    · exact Gives.bind (Gives.of_keeps (keeps_downloadFile hchild)) fun _ _ => ih pending hpending
    · exact ih pending hpending

theorem keeps_downloadFolders (turns : ℕ) (pending : List (String × LocalPath))
    (hpending : ∀ folder ∈ pending, Inside into folder.2) :
    Keeps (accounting place platform into overwrite initial [])
      (downloadFolders platform lowercase overwrite fuel turns pending) := by
  induction turns generalizing pending with
  | zero =>
    cases pending with
    | nil => exact Keeps.done ()
    | cons folder pending => exact keeps_outOfFuel
  | succ turns ih =>
    cases pending with
    | nil => exact Keeps.done ()
    | cons folder pending =>
      obtain ⟨dir, localDir⟩ := folder
      have hdir : Inside into localDir := hpending _ List.mem_cons_self
      refine Keeps.bind keeps_checkCancel fun _ => Keeps.bind (keeps_createOrMerge hdir) fun _ =>
        Keeps.bind (keeps_look rfl) fun listed => ?_
      cases listed with
      | error error => exact Keeps.fail error
      | ok entries =>
        exact Gives.keeps_bind (gives_downloadEntries hlower hdir entries pending fun folder hfolder =>
          hpending folder (List.mem_cons_of_mem _ hfolder)) fun more hmore => ih more hmore

theorem keeps_download (path : String) :
    Keeps (accounting place platform into overwrite initial [])
      (download platform lowercase overwrite fuel path into) := by
  refine Gives.keeps_bind (Gives.ofExcept (downloadTarget platform lowercase path into))
    fun target htarget => ?_
  have hinside := inside_downloadTarget hlower htarget
  refine Keeps.bind keeps_alreadyThere fun found => ?_
  cases found with
  | some kind => exact Keeps.fail _
  | none =>
    refine Keeps.bind (keeps_look rfl) fun metadata => ?_
    rcases metadata with error | folder
    · exact Keeps.fail error
    cases folder with
    | false => exact Keeps.bind (keeps_downloadFile hinside) fun _ => Keeps.done target
    | true =>
      refine Keeps.bind (keeps_downloadFolders hlower fuel _ fun folder hfolder => ?_) fun _ =>
        Keeps.done target
      rw [List.mem_singleton.mp hfolder]
      exact hinside

end Trees

/-- A download creates, writes and removes nothing but paths with one or more ordinary names behind the
folder it was asked to write into, and the marks on files there whose copy went through; without
overwriting, what was on the disk stays as it was, files with their streams, wherever the download ends or
is cut off, and whatever the server says. -/
theorem download_stays_inside (platform : Platform) {lowercase : String → String}
    (hlower : LowersAscii lowercase) (overwrite : Bool) (fuel : ℕ) (path : String) (into : LocalPath)
    (initial : P → Option Node) :
    (download platform lowercase overwrite fuel path into).wp
      (staysInside place (MayDo place platform into) overwrite initial)
      (fun _ disk _ => overwrite = false → Untouched initial disk) { files := initial } () := by
  have hstart : (accounting place platform into overwrite initial []).inv { files := initial } () := by
    refine ⟨fun _ p => ?_, fun p hp => ?_⟩
    · rw [if_neg List.not_mem_nil]
    · exact absurd hp List.not_mem_nil
  refine wp_of_stricter (stricter_accounting []) ?_
  exact (keeps_download hlower path).wp hstart fun _ _ _ h => untouched_of_accounted h.1

end Disks

theorem lowersAscii_asciiLower : LowersAscii Text.asciiLower := fun _ _ => rfl

def downloads : LocalPath := { root := "C:\\Users\\uwu", names := ["Downloads"] }

/-- A file with a mark of its own, in the folder that is written into. -/
def downloadsDisk (path : LocalPath) : Option Node :=
  if path = { downloads with names := ["Downloads", "old.txt"] } then
    some (.file [7] [("Zone.Identifier", "[ZoneTransfer]\r\nZoneId=4\r\n")])
  else none

/-- A server with one file in a folder, and a system on which all goes well that can. -/
def plainAnswers (disk : Disk LocalPath) : (question : DownloadAsk) → Option (DownloadAnswer question)
  | .metadata _ => some (.ok true)
  | .readDir dir => some (.ok [{ name := "a.txt", path := dir ++ "/a.txt", kind := .file }])
  | .openRemote _ => some (.ok ())
  | .readRemote _ => some (.ok [])
  | .cancelled => some false
  | .symlinkMetadata path => if (disk.files path).isNone then some none else none
  | .createDir path => if disk.files path = none then some (.ok ()) else none
  | .openLocal path _ => if disk.files path = none then some (.ok ()) else some (.error .alreadyExists)
  | .writeAll _ bytes => some (bytes.length, none)
  | .flush _ => some none
  | .removeFile _ => some true
  | .writeStream _ _ content => some (some content.length)
  | .outOfFuel => none

theorem possible_plainAnswers {disk : Disk LocalPath} {question : DownloadAsk} {answer : DownloadAnswer question}
    (h : plainAnswers disk question = some answer) : disk.possible id question answer := by
  cases question with
  | symlinkMetadata path =>
    simp only [plainAnswers] at h
    split at h
    · cases h
      trivial
    · cases h
  | createDir path =>
    simp only [plainAnswers] at h
    split at h
    · next hnone =>
      cases h
      exact hnone
    · cases h
  | openLocal path createNew =>
    simp only [plainAnswers] at h
    split at h
    · next hnone =>
      cases h
      cases createNew with
      | true => exact hnone
      | false => exact fun hfolder => Option.some_ne_none _ (hfolder.symm.trans hnone)
    · cases h
      trivial
  | writeAll path bytes =>
    cases h
    rfl
  | _ => trivial

/-- A folder with an empty file comes beside what is there: the file gets its mark, and the other one and
the mark on it stay. -/
theorem download_stays_inside_downloads : ∃ log, ∃ disk : Disk LocalPath,
    Script.Exec (staysInside id (MayDo id .windows downloads) false downloadsDisk)
      (download .windows Text.asciiLower false 4 "/srv/www" downloads) { files := downloadsDisk } () log disk ()
      (some (.ok { downloads with names := ["Downloads", "www"] })) ∧
    disk.files { downloads with names := ["Downloads", "www", "a.txt"] } =
      some (.file [] [("Zone.Identifier", "[ZoneTransfer]\r\nZoneId=3\r\n")]) ∧
    disk.files { downloads with names := ["Downloads", "old.txt"] } =
      some (.file [7] [("Zone.Identifier", "[ZoneTransfer]\r\nZoneId=4\r\n")]) := by
  obtain ⟨log, hrun⟩ := @Script.follow_exec _ _ _ _ _ _
    (staysInside id (MayDo id .windows downloads) false downloadsDisk) plainAnswers (fun _ _ _ _ h => possible_plainAnswers h) (fun _ _ _ => trivial)
    (download .windows Text.asciiLower false 4 "/srv/www" downloads) 20 { files := downloadsDisk } ()
  have hdone : ((download .windows Text.asciiLower false 4 "/srv/www" downloads).follow
      (staysInside id (MayDo id .windows downloads) false downloadsDisk) plainAnswers 20
      { files := downloadsDisk } ()).2.2 = some (.ok { downloads with names := ["Downloads", "www"] }) := by
    decide +kernel
  rw [hdone] at hrun
  have hinside := download_stays_inside id .windows lowersAscii_asciiLower false 4 "/srv/www" downloads downloadsDisk
  have hsound := hrun.sound hinside fun _ p node hnode => hnode
  refine ⟨log, _, hrun, by decide +kernel, ?_⟩
  exact hsound.2.1 rfl _ _ (by decide +kernel)

/-- On Windows a file that was copied gets its mark, and that path has a stream's colon in it. -/
theorem mark_has_a_colon :
    ¬ (download .windows Text.asciiLower false 2 "/a" { root := "C:\\", names := [] }).wp
      (staysInside id (fun _ question => ∀ path, question.changes = some path →
        Inside { root := "C:\\", names := [] } path) false fun _ => none) (fun _ _ _ => True)
      { files := fun _ => none } () := by
  intro h
  have htarget : downloadTarget .windows Text.asciiLower "/a" { root := "C:\\", names := [] } =
      .ok { root := "C:\\", names := ["a"] } := by decide +kernel
  rw [download, htarget] at h
  -- Nothing is there, the remote file is empty, and every local step succeeds.
  have hnew := (h.2 (none : Option FileType) trivial).2
  have hfile := (hnew.2 (.ok false : Except SftpError Bool) trivial).2
  have hopen := (hfile.2 (.ok () : Except SftpError Unit) trivial).2
  have hcopy := (hopen.2 (.ok () : Except LocalFault Unit) rfl).2
  have hread := (hcopy.2 false trivial).2
  have hflush := (hread.2 (.ok [] : Except String (List UInt8)) trivial).2
  have hmark := (hflush.2 (none : Option String) trivial).2
  obtain ⟨-, names, -, hnames, hall⟩ := hmark.1 { root := "C:\\", names := ["a:Zone.Identifier"] } (by decide)
  have hone : names = ["a:Zone.Identifier"] := by simpa using hnames.symm
  have hwindows := (hall "a:Zone.Identifier" (by simp [hone])).2
  exact (hwindows.plain ':' (by decide)).2 (by decide)

end UwuSsh.Sftp

import UwuSsh.Lib.Shell
import UwuSsh.Lib.Text

/-!
Commands run as root on the server: what they are aimed at, and the line that is sent. A target is a
folder, in the form it has when every link on the way to it has been followed, and one name in it. The
script stands in single quotes on the line, so it holds none itself.
-/
namespace UwuSsh.Sftp

inductive SftpError
  | refused (reason : String)
  | sudoPasswordRequired
  | sudoPasswordRejected
  | sudoRefused (message : String)
  | noSftpServer
  | notFound (path : String)
  | permissionDenied (path : String)
  | alreadyExists (path : String)
  | link (path : String)
  | failed (message : String)
  | unsafeName (name : String)
  | cancelled
  | local (message : String)
deriving DecidableEq

def sudoPrompt : String := "UWUSSH-SUDO-PROMPT:"

def ready : String := "UWUSSH-SFTP-READY"

def missing : String := "UWUSSH-SFTP-MISSING"

def removed : String := "UWUSSH-REMOVED"

def notRemoved : String := "UWUSSH-NOT-REMOVED"

def changed : String := "UWUSSH-CHANGED"

def notChanged : String := "UWUSSH-NOT-CHANGED"

/-- The start of every root command: change into the folder, and go on only where no link was on the way
there. -/
def pin : String :=
  "pin() \x7b \x7b cd -P -- \"$1\" && [ \"$(pwd -P)\" = \"$1\" ]; \x7d || \x7b printf \"\\n%s is not the folder " ++
    "that was listed: a link is on the way there\\n\" \"$1\"; return 1; \x7d; \x7d; pin \"$1\""

/-- `rm -rf` on a name in the pinned folder. -/
def removeScript : String :=
  pin ++ " && rm -rf -- \"./$2\" && printf \"\\n" ++ removed ++ "\\n\" || printf \"\\n" ++ notRemoved ++ "\\n\""

/-- `chmod` on a name in the pinned folder. It follows a link, so a folder is pinned itself, and a file
is changed only where nobody but root could put a link in its place. -/
def chmodScript : String :=
  pin ++ " && if [ -L \"./$2\" ]; then printf \"\\n%s is a link\\n\" \"$2\"; false; elif [ -d \"./$2\" ]; then " ++
    "pin \"$\x7b1%/\x7d/$2\" && chmod \"$3\" .; elif [ -n \"$(find . -prune \\( ! -user 0 -o -perm -020 -o " ++
    "-perm -002 \\))\" ]; then printf \"\\nothers can write to %s, so a file in it could be swapped for a " ++
    "link: change it as its owner\\n\" \"$1\"; false; else chmod \"$3\" \"./$2\"; fi && printf \"\\n" ++
    changed ++ "\\n\" || printf \"\\n" ++ notChanged ++ "\\n\""

/-- `str::replace` of one character. -/
def replaceChar (text : String) (c : Char) (new : String) : String :=
  String.ofList (text.toList.flatMap fun d => if d = c then new.toList else [d])

/-- A string as one word for a POSIX shell. -/
def quote (text : String) : String := "'" ++ replaceChar text '\'' "'\\''" ++ "'"

/-- A script run as root, its arguments quoted. -/
def asRoot (script : String) (args : List String) : String :=
  "sudo -p '" ++ sudoPrompt ++ "' -- sh -c '" ++ script ++ "' uwussh " ++ " ".intercalate (args.map quote)

structure RootTarget where
  parent : String
  name : String
deriving DecidableEq

/-- The parts of a path that are neither empty nor `.`. -/
def pathParts (path : String) : List String :=
  ((path.toList.splitOn '/').map String.ofList).filter fun part => part ≠ "" ∧ part ≠ "."

def endsWith (path ending : String) : Bool := ending.toList.isSuffixOf path.toList

/-- Split an absolute path for a root command, or refuse what one should never be pointed at. -/
def rootTarget (path action : String) : Except SftpError RootTarget :=
  let parts := pathParts path
  let refused := .error (.failed (path ++ ": not something to " ++ action))
  if path.toList.head? ≠ some '/' ∨ endsWith path "/" ∨ endsWith path "/." ∨ ".." ∈ parts ∨
      path.toList.any Text.isControl then refused
  else
    match parts.getLast? with
    | none => refused
    | some name => .ok { parent := "/" ++ "/".intercalate parts.dropLast, name }

/-- The line a root delete sends. -/
def removeCommand (path : String) : Except SftpError String := do
  let target ← rootTarget path "delete"
  pure (asRoot removeScript [target.parent, target.name])

/-- Five octal digits. With four, a folder would keep its setgid bit. -/
def octalMode (mode : UInt32) : String :=
  String.ofList ((Nat.toDigits 8 (mode &&& 0o7777).toNat).leftpad 5 '0')

/-- The line a change of permissions sends. -/
def chmodCommand (path : String) (mode : UInt32) : Except SftpError String := do
  let target ← rootTarget path "change as root"
  pure (asRoot chmodScript [target.parent, target.name, octalMode mode])

example : rootTarget "//srv/./www//it's" "delete" = .ok { parent := "/srv/www", name := "it's" } := by
  decide +kernel

/-- One component of a path that is neither the folder itself nor the one above it. -/
structure Ordinary (name : String) : Prop where
  some : name ≠ ""
  down : name ≠ "."
  notUp : name ≠ ".."
  single : '/' ∉ name.toList

/-- An absolute folder without a detour: the root, or ordinary components behind one slash each. -/
structure Straight (folder : String) : Prop where
  absolute : folder.toList.head? = some '/'
  ordinary : folder = "/" ∨ ∀ part ∈ (folder.toList.splitOn '/').tail, Ordinary (String.ofList part)
  closed : folder = "/" ∨ folder.toList.getLast? ≠ some '/'

theorem not_mem_of_mem_splitOn {text part : List Char} {c : Char} (h : part ∈ text.splitOn c) :
    c ∉ part := by
  induction text generalizing part with
  | nil => simp_all
  | cons d rest ih =>
    rw [List.splitOn_cons_eq_if_modifyHead] at h
    split at h
    · rcases List.mem_cons.mp h with rfl | h
      · simp
      · exact ih h
    · rename_i hd
      obtain ⟨first, others, hsplit⟩ := List.exists_cons_of_ne_nil (List.splitOn_ne_nil c rest)
      rw [hsplit, List.modifyHead_cons] at h
      rcases List.mem_cons.mp h with rfl | h
      · have hfirst := ih (hsplit ▸ List.mem_cons_self)
        simp only [List.mem_cons, not_or]
        exact ⟨fun heq => hd (by rw [heq, beq_self_eq_true]), hfirst⟩
      · exact ih (hsplit ▸ List.mem_cons_of_mem _ h)

theorem ordinary_of_mem_pathParts {path part : String} (h : part ∈ pathParts path) (hup : part ≠ "..") :
    Ordinary part := by
  obtain ⟨hmem, hkept⟩ := List.mem_filter.mp h
  obtain ⟨chars, hchars, rfl⟩ := List.mem_map.mp hmem
  simp only [decide_eq_true_eq] at hkept
  exact ⟨hkept.1, hkept.2, hup, by simpa using not_mem_of_mem_splitOn hchars⟩

/-- What a folder made of ordinary components is split into. -/
theorem splitOn_joined {folders : List String} (h : ∀ part ∈ folders, Ordinary part) :
    ("/" ++ "/".intercalate folders).toList.splitOn '/' =
      [] :: if folders = [] then [[]] else folders.map String.toList := by
  have hline : ("/" ++ "/".intercalate folders).toList =
      [] ++ '/' :: ['/'].intercalate (folders.map String.toList) := by
    simp [String.toList_intercalate]
  rw [hline, List.splitOn_append_cons_self_of_not_mem (by simp)]
  congr 1
  split
  · rename_i hnone
    simp [hnone]
  · rename_i hsome
    refine List.splitOn_intercalate '/' ?_ (by simpa using hsome)
    intro part hpart
    obtain ⟨folder, hfolder, rfl⟩ := List.mem_map.mp hpart
    exact (h folder hfolder).single

theorem pathParts_joined {folders : List String} (h : ∀ part ∈ folders, Ordinary part) :
    pathParts ("/" ++ "/".intercalate folders) = folders := by
  have hkept : folders.filter (fun part => part ≠ "" ∧ part ≠ ".") = folders := by
    refine List.filter_eq_self.mpr fun part hpart => ?_
    exact decide_eq_true ⟨(h part hpart).some, (h part hpart).down⟩
  rw [pathParts, splitOn_joined h]
  split
  · simp_all
  · simp only [List.map_cons, List.map_map]
    have hid : (String.ofList ∘ String.toList) = id := funext fun part => String.ofList_toList
    rw [hid, List.map_id, List.filter_cons_of_neg (by simp), hkept]

theorem straight_joined {folders : List String} (h : ∀ part ∈ folders, Ordinary part) :
    Straight ("/" ++ "/".intercalate folders) := by
  rcases List.eq_nil_or_concat folders with rfl | ⟨before, last, rfl⟩
  · exact ⟨by simp, .inl rfl, .inl rfl⟩
  · refine ⟨by simp, .inr fun part hpart => ?_, .inr ?_⟩
    · rw [splitOn_joined h, if_neg (by simp), List.tail_cons] at hpart
      obtain ⟨folder, hfolder, rfl⟩ := List.mem_map.mp hpart
      simpa using h folder hfolder
    · have hlast := h last (by simp)
      have hshape : ∃ front, ("/" ++ "/".intercalate (before ++ [last])).toList = front ++ last.toList := by
        rcases before with _ | ⟨first, before⟩
        · exact ⟨['/'], by simp⟩
        · rw [String.intercalate_append_of_ne_nil (by simp) (by simp)]
          exact ⟨_, by rw [String.intercalate_singleton, ← String.append_assoc, String.toList_append]⟩
      obtain ⟨front, hfront⟩ := hshape
      have hne : last.toList ≠ [] := by simpa using hlast.some
      rw [List.concat_eq_append, hfront, List.getLast?_append_of_ne_nil front hne]
      intro hslash
      exact hlast.single (List.mem_of_getLast? hslash)

/-- A script that can stand between single quotes. -/
def Quotable (script : String) : Prop := '\'' ∉ script.toList

instance (script : String) : Decidable (Quotable script) := inferInstanceAs (Decidable (_ ∉ _))

theorem quotable_ofList {chars : List Char} (h : '\'' ∉ chars) : Quotable (String.ofList chars) := by
  rw [Quotable, String.toList_ofList]
  exact h

theorem quotable_append {first second : String} : Quotable (first ++ second) ↔ Quotable first ∧ Quotable second := by
  rw [Quotable, String.toList_append, List.mem_append, not_or]
  rfl

theorem quotable_pin : Quotable pin :=
  quotable_append.mpr ⟨quotable_ofList (by decide), quotable_ofList (by decide)⟩

theorem quotable_removeScript : Quotable removeScript := by
  simp only [removeScript, quotable_append, and_assoc]
  refine ⟨quotable_pin, ?_, ?_, ?_, ?_, ?_⟩
  all_goals exact quotable_ofList (by decide)

theorem quotable_chmodScript : Quotable chmodScript := by
  simp only [chmodScript, quotable_append, and_assoc]
  refine ⟨quotable_pin, ?_, ?_, ?_, ?_, ?_, ?_, ?_, ?_⟩
  all_goals exact quotable_ofList (by decide)

theorem toList_quote (text : String) : (quote text).toList = Shell.quoted text.toList := by
  simp [quote, replaceChar, Shell.quoted]

/-- One of the bare words of a line. -/
theorem renders_word {word : String} (h : word.toList ≠ [] ∧ word.toList.all Shell.isBare = true) :
    Shell.Renders word.toList word.toList :=
  Shell.renders_bare h.1 (List.all_eq_true.mp h.2)

theorem renders_script {script : String} (h : Quotable script) :
    Shell.Renders ('\'' :: script.toList ++ ['\'']) script.toList := by
  have hquoted : Shell.quoted script.toList = '\'' :: script.toList ++ ['\''] := by
    have hsame : script.toList.flatMap (fun c => if c = '\'' then ['\'', '\\', '\'', '\''] else [c]) =
        script.toList.flatMap fun c => [c] := by
      refine List.flatMap_congr fun c hc => if_neg ?_
      rintro rfl
      exact h hc
    rw [Shell.quoted, hsame, List.flatMap_singleton']
  rw [← hquoted]
  exact Shell.renders_quoted script.toList

theorem renders_args (args : List String) :
    List.Forall₂ Shell.Renders ((args.map quote).map String.toList) (args.map String.toList) := by
  induction args with
  | nil => exact .nil
  | cons arg rest ih => exact .cons (toList_quote arg ▸ Shell.renders_quoted arg.toList) ih

/-- A root command is read as the words it was made of. -/
theorem split_asRoot {script : String} (h : Quotable script) (args : List String) :
    Shell.split (asRoot script args).toList =
      some ((["sudo", "-p", sudoPrompt, "--", "sh", "-c", script, "uwussh"] ++ args).map String.toList) := by
  have hline : (asRoot script args).toList =
      "sudo".toList ++ ' ' :: ("-p".toList ++ ' ' :: (('\'' :: sudoPrompt.toList ++ ['\'']) ++ ' ' ::
        ("--".toList ++ ' ' :: ("sh".toList ++ ' ' :: ("-c".toList ++ ' ' ::
          (('\'' :: script.toList ++ ['\'']) ++ ' ' :: ("uwussh".toList ++ ' ' ::
            [' '].intercalate ((args.map quote).map String.toList)))))))) := by
    simp [asRoot, String.toList_intercalate]
  obtain ⟨reader, hread, hplain, hwords⟩ := Shell.read_pieces (renders_args args)
    (["sudo", "-p", sudoPrompt, "--", "sh", "-c", script, "uwussh"].map String.toList)
  have hall : Shell.read (.between []) (asRoot script args).toList = some reader := by
    rw [hline, Shell.read_word (renders_word (by decide)), Shell.read_word (renders_word (by decide)),
      Shell.read_word (renders_script (by decide)), Shell.read_word (renders_word (by decide)),
      Shell.read_word (renders_word (by decide)), Shell.read_word (renders_word (by decide)),
      Shell.read_word (renders_script h), Shell.read_word (renders_word (by decide))]
    exact hread
  rw [Shell.split_of_read hall hplain, hwords, List.map_append]

theorem intercalate_concat {before : List (List Char)} (hbefore : before ≠ []) (c : Char) (last : List Char) :
    [c].intercalate (before ++ [last]) = [c].intercalate before ++ c :: last := by
  induction before with
  | nil => exact absurd rfl hbefore
  | cons first rest ih =>
    rcases rest with _ | ⟨second, rest⟩
    · simp
    · have hrest := ih (List.cons_ne_nil second rest)
      simp only [List.cons_append] at hrest ⊢
      rw [List.intercalate_cons_cons, hrest, List.intercalate_cons_cons]
      simp

/-- The last component as it is written stands behind the last slash. -/
theorem exists_front {text last : List Char} (hslash : '/' ∈ text)
    (hlast : (text.splitOn '/').getLast? = some last) : ∃ front, text = front ++ '/' :: last := by
  obtain ⟨before, hsplit⟩ : ∃ before, text.splitOn '/' = before ++ [last] :=
    ⟨_, (List.dropLast_append_getLast? last hlast).symm⟩
  have hjoined := @List.intercalate_splitOn _ text _ _ '/'
  rw [hsplit] at hjoined
  have hbefore : before ≠ [] := by
    rintro rfl
    have hmem : '/' ∉ last := not_mem_of_mem_splitOn (by rw [hsplit]; simp)
    rw [List.nil_append, List.intercalate_singleton] at hjoined
    exact hmem (hjoined ▸ hslash)
  exact ⟨['/'].intercalate before, by rw [← hjoined, intercalate_concat hbefore]⟩

theorem endsWith_iff {path ending : String} :
    endsWith path ending = true ↔ ∃ front, path.toList = front ++ ending.toList := by
  rw [endsWith, List.isSuffixOf_iff_suffix]
  exact ⟨fun ⟨front, hfront⟩ => ⟨front, hfront.symm⟩, fun ⟨front, hfront⟩ => ⟨front, hfront.symm⟩⟩

/-- A path that ends neither in a slash nor in `/.` is written with its name at the end. -/
theorem getLast?_splitOn {path name : String} (hslash : '/' ∈ path.toList)
    (hname : (pathParts path).getLast? = some name) (hclosed : ¬ endsWith path "/" = true)
    (hdot : ¬ endsWith path "/." = true) :
    (path.toList.splitOn '/').getLast? = some name.toList := by
  obtain ⟨before, last, hsplit⟩ : ∃ before last, path.toList.splitOn '/' = before ++ [last] :=
    ⟨_, _, (List.dropLast_concat_getLast (List.splitOn_ne_nil '/' path.toList)).symm⟩
  have hlast : (path.toList.splitOn '/').getLast? = some last := by rw [hsplit, List.getLast?_concat]
  obtain ⟨front, hfront⟩ := exists_front hslash hlast
  have hsome : String.ofList last ≠ "" := by
    intro heq
    have hnil : last = [] := by simpa using heq
    exact hclosed (endsWith_iff.mpr ⟨front, by rw [hfront, hnil]; rfl⟩)
  have hdown : String.ofList last ≠ "." := by
    intro heq
    have hone : last = ['.'] := by rw [← String.toList_ofList (l := last), heq]; rfl
    exact hdot (endsWith_iff.mpr ⟨front, by rw [hfront, hone]; rfl⟩)
  have hkept : pathParts path = ((before.map String.ofList).filter fun part => part ≠ "" ∧ part ≠ ".") ++
      [String.ofList last] := by
    rw [pathParts, hsplit, List.map_append, List.filter_append]
    simp [hsome, hdown]
  rw [hkept, List.getLast?_concat] at hname
  rw [hlast, ← Option.some.inj hname, String.toList_ofList]

/-- What a target is when the path is not refused: ordinary components only, in a straight folder, and
the same path as the one given, whose last component as written is the name. -/
theorem rootTarget_ok {path action : String} {target : RootTarget}
    (h : rootTarget path action = .ok target) :
    Straight target.parent ∧ Ordinary target.name ∧ path.toList.head? = some '/' ∧
      (path.toList.splitOn '/').getLast? = some target.name.toList ∧
      pathParts target.parent ++ [target.name] = pathParts path := by
  simp only [rootTarget] at h
  split at h
  · simp at h
  rename_i hchecked
  simp only [not_or, not_not] at hchecked
  obtain ⟨habsolute, hclosed, hdot, hup, -⟩ := hchecked
  split at h
  · simp at h
  rename_i name hlast
  have htarget := Except.ok.inj h
  subst htarget
  have hparts := List.dropLast_append_getLast? name hlast
  have hordinary : ∀ part ∈ pathParts path, Ordinary part := fun part hpart =>
    ordinary_of_mem_pathParts hpart fun heq => hup (heq ▸ hpart)
  have hfolders : ∀ part ∈ (pathParts path).dropLast, Ordinary part := fun part hpart =>
    hordinary part (List.dropLast_subset _ hpart)
  have hslash : '/' ∈ path.toList := List.mem_of_head? habsolute
  refine ⟨straight_joined hfolders, hordinary name (List.mem_of_getLast? hlast), habsolute,
    getLast?_splitOn hslash hlast hclosed hdot, ?_⟩
  rw [pathParts_joined hfolders]
  exact hparts

theorem rootTarget_error {path action : String} {error : SftpError}
    (h : rootTarget path action = .error error) :
    error = .failed (path ++ ": not something to " ++ action) := by
  simp only [rootTarget] at h
  split at h
  · exact (Except.error.inj h).symm
  · split at h
    · exact (Except.error.inj h).symm
    · simp at h

/-- A root command is aimed at one name in a straight folder, the place the absolute path names, or not
sent, and a shell reads it as the words it was made of. -/
theorem root_commands_exact :
    (∀ path action : String,
      rootTarget path action = .error (.failed (path ++ ": not something to " ++ action)) ∨
        ∃ target, rootTarget path action = .ok target ∧ Straight target.parent ∧ Ordinary target.name ∧
          path.toList.head? = some '/' ∧ (path.toList.splitOn '/').getLast? = some target.name.toList ∧
          pathParts target.parent ++ [target.name] = pathParts path) ∧
    ∀ script ∈ [removeScript, chmodScript], ∀ args : List String,
      Shell.split (asRoot script args).toList =
        some ((["sudo", "-p", sudoPrompt, "--", "sh", "-c", script, "uwussh"] ++ args).map
          String.toList) := by
  constructor
  · intro path action
    cases htarget : rootTarget path action with
    | error error => exact .inl (by rw [rootTarget_error htarget])
    | ok target => exact .inr ⟨target, rfl, rootTarget_ok htarget⟩
  · intro script hscript args
    have hquotable : Quotable script := by
      rcases List.mem_cons.mp hscript with rfl | hscript
      · exact quotable_removeScript
      · rw [List.mem_singleton.mp hscript]
        exact quotable_chmodScript
    exact split_asRoot hquotable args

end UwuSsh.Sftp

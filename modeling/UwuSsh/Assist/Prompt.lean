import Mathlib.Algebra.GroupWithZero.Nat
import Mathlib.Data.List.Infix
import UwuSsh.Lib.Text

/-!
How the assistant's answer is read: the first JSON object in the model's text, its command cleaned of control
characters, trimmed and shortened, and the flag that says whether the command is dangerous. The model's own word
is a hint; the rules over the words and the letters of the command line are the floor.
-/
namespace UwuSsh.Prompt

open Text

abbrev Chars := List Char

def maxCommandChars : ℕ := 2000
def maxExplanationChars : ℕ := 400

/-! ### The command line -/

/-- A command line in lower case, and its words. -/
structure Line where
  lower : Chars
  words : List Chars

def isBreak (c : Char) : Bool := isWhite c || "|;&()`$".toList.contains c

def wordsOf (lower : Chars) : List Chars := (lower.splitOnP isBreak).filter fun word => !word.isEmpty

def lineOf (command : Chars) : Line where
  lower := command.map asciiLowerChar
  words := wordsOf (command.map asciiLowerChar)

namespace Line

variable (l : Line)

def has (word : String) : Bool := l.words.contains word.toList

def hasAny (list : List String) : Bool := list.any l.has

def contains (part : String) : Bool := decide (part.toList <:+: l.lower)

def containsAny (list : List String) : Bool := list.any l.contains

end Line

def startsWith (start : String) (word : Chars) : Bool := start.toList.isPrefixOf word

/-- A recursive or forced flag of `rm`. -/
def isRecursiveOrForce (flag : Chars) : Bool :=
  flag == "--recursive".toList || flag == "--force".toList ||
    (!startsWith "--" flag && (flag.contains 'r' || flag.contains 'f'))

/-- `rm` with a recursive or forced flag, from some word on. -/
def isRm : List Chars → Bool
  | [] => false
  | word :: rest => word == "rm".toList && (rest.takeWhile (startsWith "-")).any isRecursiveOrForce

/-- `format d:`, not the word in a grep. -/
def isFormat : List Chars → Bool
  | word :: drive :: _ =>
    word == "format".toList && (drive.map Char.utf8Size).sum == 2 && drive.getLast? == some ':'
  | _ => false

/-- The rules after the one for `rm`. -/
def otherRules : List (Line → Bool) := [
  fun l => l.hasAny [
    "shutdown", "reboot", "poweroff", "halt", "mkfs", "wipefs", "fdisk", "sfdisk", "parted", "gdisk", "shred",
    "userdel", "deluser", "groupdel", "killall", "pkill", "diskpart", "format-volume", "clear-disk",
    "initialize-disk", "remove-partition", "stop-computer", "restart-computer", "remove-localuser",
    "stop-process", "erase"],
  fun l => l.words.any (startsWith "mkfs."),
  fun l => l.words.tails.any isFormat,
  fun l => l.has "dd" && l.contains "of=",
  fun l => l.has "kill" && l.contains "-9",
  fun l => l.has "init" && (l.has "0" || l.has "6"),
  fun l => (l.has "chmod" || l.has "chown" || l.has "chgrp") && (l.has "-r" || l.has "--recursive"),
  fun l => l.has "remove-item" && l.containsAny ["-recurse", "-force"],
  fun l => (l.has "del" || l.has "erase") && l.containsAny ["/s", "/q"],
  fun l => (l.has "rd" || l.has "rmdir") && l.contains "/s",
  fun l => l.has "systemctl" && l.hasAny ["stop", "disable", "mask", "kill", "poweroff", "reboot", "halt"],
  fun l => l.has "service" && l.has "stop",
  fun l => l.has "iptables" && l.containsAny ["-f", "--flush", "-x", "-p input drop"],
  fun l => l.has "ufw" && l.hasAny ["disable", "reset"],
  fun l => l.has "nft" && l.contains "flush",
  fun l => l.hasAny ["apt", "apt-get", "dnf", "yum", "pacman", "zypper", "apk", "brew", "winget"] &&
    l.hasAny ["remove", "purge", "autoremove", "erase", "uninstall", "-r", "-rns", "del"],
  fun l => l.has "docker" && l.hasAny ["rm", "rmi", "prune"],
  fun l => l.has "git" && (l.has "clean" || (l.has "reset" && l.has "--hard")),
  fun l => l.containsAny [":()\x7b", "> /dev/sd", ">/dev/sd", "> /dev/nvme", "of=/dev/"],
  fun l => l.has "write" && l.has "erase",
  fun l => l.has "delete" && l.containsAny ["flash:", "nvram:"],
  fun l => l.has "reload",
  fun l => l.containsAny ["reset-configuration", "/system reboot", "/system shutdown"]]

def Line.rm (l : Line) : Bool := l.words.tails.any isRm

/-- Commands that destroy or cut off, recognised without asking anyone. -/
def looksDangerous (command : Chars) : Bool :=
  let l := lineOf command
  l.rm || otherRules.any fun rule => rule l

/-! ### The answer -/

/-- A JSON value, as far as an answer is read. -/
inductive Value
  | string (text : Chars)
  | bool (flag : Bool)
  | object (fields : List (String × Value))
  | other

/-- The JSON reader: a whole text as one value, and the value that a text begins with. -/
structure JsonReader where
  fromStr : Chars → Option Value
  first : Chars → Option Value

structure Answer where
  command : Chars
  explanation : Chars
  dangerous : Bool
  deriving DecidableEq

inductive AnswerError
  | noJson
  | multiline
  deriving DecidableEq

def trimmed (text : Chars) : Chars := trimEnd (trimStart text)

def objectOf : Option Value → Option (List (String × Value))
  | some (.object fields) => some fields
  | _ => none

/-- The first JSON object in a text; every brace is a possible start. -/
def jsonObject (reader : JsonReader) (text : Chars) : Option (List (String × Value)) :=
  let text := trimmed text
  match objectOf (reader.fromStr text) with
  | some fields => some fields
  | none => (text.tails.filter fun rest => rest.head? == some '\x7b').findSome? fun rest => objectOf (reader.first rest)

def shorten (text : Chars) (max : ℕ) : Chars := text.take max

def field (fields : List (String × Value)) (name : String) : Chars :=
  match fields.lookup name with
  | some (.string text) => text
  | _ => []

/-- The command as it is shown: tabs flattened, other control characters left out. -/
def cleaned (raw : Chars) : Chars :=
  shorten (trimmed ((raw.map fun c => if c = '\t' then ' ' else c).filter fun c => !isControl c)) maxCommandChars

def parseAnswer (reader : JsonReader) (text : Chars) : Except AnswerError Answer :=
  match jsonObject reader text with
  | none => .error .noJson
  | some fields =>
    let raw := trimmed (field fields "command")
    if '\n' ∈ raw ∨ '\r' ∈ raw then .error .multiline
    else
      let command := cleaned raw
      let explanation := (field fields "explanation").map fun c => if isControl c then ' ' else c
      let said := match fields.lookup "dangerous" with
        | some (.bool flag) => flag
        | some (.string flag) => flag.map asciiLowerChar == "true".toList
        | _ => false
      .ok {
        command
        explanation := shorten (trimmed explanation) maxExplanationChars
        dangerous := said || looksDangerous command }

end UwuSsh.Prompt

import UwuSsh.Lib.Feed
import UwuSsh.Lib.Utf8
import UwuSsh.Sftp.RootCommand

/-!
The conversation with sudo on the server's terminal. Bytes come one at a time; after each one the whole
of what was read is looked at again, for the marker of success, the marker of failure and sudo's prompt.
The password is written when the prompt stands at the end and was not answered before. A terminal gives
its bytes in chunks, and then closes or breaks; one that falls silent is left to the caller's timeout.
-/
namespace UwuSsh.Sftp

/-- The most a failed conversation prints before it is not read any further. -/
def elevationOutputLimit : ℕ := 16 * 1024

/-- One marker for success, one for failure. -/
structure Markers where
  done : String
  failed : String
deriving DecidableEq

namespace Markers

def elevate : Markers := { done := ready, failed := missing }

def remove : Markers := { done := removed, failed := notRemoved }

def change : Markers := { done := changed, failed := notChanged }

end Markers

/-- `str::as_bytes` of a text that is ASCII. -/
def asBytes (text : String) : List UInt8 := Utf8.asciiBytes text.toList

inductive ElevationStep
  | wait
  | password
  | rejected
  | ready
  | missing
deriving DecidableEq

/-- The text without the blanks and line ends behind it. -/
def trimEndMatches (text : List Char) : List Char :=
  text.rdropWhile fun c => c == ' ' || c == '\r' || c == '\n'

def elevationStep (seen : List UInt8) (answered : Bool) (markers : Markers) : ElevationStep :=
  let text := Utf8.decodeLossy seen
  if Search.contains markers.done.toList text then .ready
  else if Search.contains markers.failed.toList text then .missing
  -- sudo waits behind its prompt, so a prompt that something follows is none.
  else if ¬ sudoPrompt.toList <:+ trimEndMatches text then .wait
  else if Search.matchesAfter sudoPrompt.toList 0 text = 1 then if answered then .wait else .password
  else .rejected

/-- `str::replace` of a text by nothing. -/
def eraseAfter (pattern : List Char) : ℕ → List Char → List Char
  | _, [] => []
  | 0, c :: rest =>
    if pattern <+: c :: rest then eraseAfter pattern (pattern.length - 1) rest
    else c :: eraseAfter pattern 0 rest
  | skip + 1, _ :: rest => eraseAfter pattern skip rest

/-- The last lines of what the server printed, for an error message. -/
def lastWords (seen : List UInt8) (otherwise : String) : String :=
  let text := [sudoPrompt, ready, missing, removed, notRemoved, changed, notChanged].foldl
    (fun text marker => eraseAfter marker.toList 0 text) (Utf8.decodeLossy seen)
  let lines := ((text.splitOn '\n').map fun line => Text.trim (String.ofList line)).filter (· ≠ "")
  let tail := " ".intercalate (lines.drop (lines.length - 3))
  let tail := String.ofList ((tail.toList.filter fun c => !Text.isControl c).take 300)
  if tail = "" then otherwise else tail

/-- How a conversation ended, with everything it read. -/
inductive Outcome
  | done (seen : List UInt8)
  | failed (seen : List UInt8)
deriving DecidableEq

/-- The password's line, and what had been read when it was written. -/
structure Answer where
  seen : List UInt8
  line : List UInt8
deriving DecidableEq

structure Conversation where
  seen : List UInt8
  answered : Bool
  written : List Answer
deriving DecidableEq

def Conversation.start : Conversation := { seen := [], answered := false, written := [] }

inductive TerminalEnd
  | closed
  | broken (message : String)
deriving DecidableEq

/-- What a terminal does: the bytes it gives, how it ends, and whether it takes what is written. -/
structure Terminal where
  chunks : List (List UInt8)
  ending : TerminalEnd
  writeError : Option String
deriving DecidableEq

namespace Terminal

def bytes (terminal : Terminal) : List UInt8 := terminal.chunks.flatten

end Terminal

/-- The password goes to the prompt that stands at the end of what was read. -/
def Conversation.answer (password : Option (List UInt8)) (writeError : Option String)
    (conversation : Conversation) : Conversation ⊕ (Conversation × Except SftpError Outcome) :=
  match password with
  | none => .inr (conversation, .error .sudoPasswordRequired)
  | some password =>
    let written := conversation.written ++ [{ seen := conversation.seen, line := password ++ [10] }]
    match writeError with
    | some message => .inr ({ conversation with written }, .error (.local message))
    | none => .inl { conversation with answered := true, written }

/-- One byte more. -/
def Conversation.read (markers : Markers) (password : Option (List UInt8)) (writeError : Option String)
    (conversation : Conversation) (byte : UInt8) :
    Conversation ⊕ (Conversation × Except SftpError Outcome) :=
  let seen := conversation.seen ++ [byte]
  let conversation := { conversation with seen }
  match elevationStep seen conversation.answered markers with
  | .wait =>
    if elevationOutputLimit < seen.length then
      .inr (conversation, .error (.sudoRefused (lastWords seen "sudo said too much")))
    else .inl conversation
  | .ready => .inr (conversation, .ok (.done seen))
  | .missing => .inr (conversation, .ok (.failed seen))
  | .rejected => .inr (conversation, .error .sudoPasswordRejected)
  | .password => conversation.answer password writeError

/-- Answer sudo's prompt, once, and read until the command says it is done or that it failed. What is
left of the terminal's bytes is the last part. -/
def sudoConversation (terminal : Terminal) (password : Option (List UInt8)) (markers : Markers) :
    Conversation × Except SftpError Outcome × List (List UInt8) :=
  match Feed.feedChunks (Conversation.read markers password terminal.writeError) .start terminal.chunks with
  | .stopped (conversation, result) rest => (conversation, result, rest)
  | .waiting conversation =>
    match terminal.ending with
    | .closed =>
      (conversation,
        .error (.sudoRefused (lastWords conversation.seen "sudo ended without starting the command")), [])
    | .broken message => (conversation, .error (.local message), [])

/-- Run a root command on a terminal of its own and wait for its marker. -/
def runAsRoot (server : String → Except String Terminal) (command : String)
    (password : Option (List UInt8)) (markers : Markers) (tool : String) : Except SftpError Unit :=
  match server command with
  | .error reason => .error (.refused reason)
  | .ok terminal =>
    match (sudoConversation terminal password markers).2.1 with
    | .error error => .error error
    | .ok (.done _) => .ok ()
    | .ok (.failed seen) => .error (.failed (lastWords seen (tool ++ " ended without saying why")))

/-- Delete a file, link or folder as root. -/
def removeAsRoot (server : String → Except String Terminal) (path : String)
    (password : Option (List UInt8)) : Except SftpError Unit := do
  let command ← removeCommand path
  runAsRoot server command password .remove "rm"

/-- Set a file's or folder's permissions as root. -/
def chmodAsRoot (server : String → Except String Terminal) (path : String) (mode : UInt32)
    (password : Option (List UInt8)) : Except SftpError Unit := do
  let command ← chmodCommand path mode
  runAsRoot server command password .change "chmod"

/-- What followed the marker; nothing when nothing did. -/
def afterMarker (marker : List UInt8) : List UInt8 → List UInt8
  | [] => []
  | b :: rest => if marker <+: b :: rest then (b :: rest).drop marker.length else afterMarker marker rest

/-- One byte from a terminal, with what it leaves. -/
def readByte : List (List UInt8) → Option (UInt8 × List (List UInt8))
  | [] => none
  | [] :: chunks => readByte chunks
  | (b :: rest) :: chunks => some (b, rest :: chunks)

/-- One byte behind `rest`, with the error for a terminal that ended. -/
def readInto (terminal : Terminal) (rest : List UInt8) (chunks : List (List UInt8)) :
    Except SftpError (List UInt8 × List (List UInt8)) :=
  match readByte chunks with
  | some (b, left) => .ok (rest ++ [b], left)
  | none =>
    match terminal.ending with
    | .closed => .error .noSftpServer
    | .broken message => .error (.local message)

/-- Read what sudo and the wrapper print until the SFTP stream starts, which is what is left. -/
def elevate (terminal : Terminal) (password : Option (List UInt8)) :
    Except SftpError (List (List UInt8)) :=
  let (_, result, left) := sudoConversation terminal password .elevate
  match result with
  | .error error => .error error
  | .ok (.failed _) => .error .noSftpServer
  | .ok (.done seen) => do
    let rest := afterMarker (asBytes ready) seen
    let (rest, left) ← if rest = [] then readInto terminal rest left else pure (rest, left)
    let (rest, left) ← if rest = [13] then readInto terminal rest left else pure (rest, left)
    if rest = [10] ∨ rest = [13, 10] then pure left
    else .error (.refused "unexpected output before the SFTP stream")

end UwuSsh.Sftp

import UwuSsh.Lib.Sections
import UwuSsh.Lib.Text

/-!
Hosts from an OpenSSH client config: the lines of the text, each an option and its value, and a host for every
`Host` line that names one. Beside it, what OpenSSH itself reads: how it splits a line, where a block ends and
which of several lines for one option counts.
-/
namespace UwuSsh.SshConfig

open Text

abbrev Chars := List Char

structure ImportedHost where
  name : Chars
  address : Chars
  port : ℕ
  username : Option Chars
  keyPath : Option Chars
  jumpHost : Option Chars
  remoteCommand : Option Chars
  extras : List (Chars × Chars)
deriving DecidableEq

/-- What becomes of a `Host` line. The result's two lists are kept as one, in the order they are filled. -/
inductive Outcome
  | host (host : ImportedHost)
  | skipped (name : Chars) (why : String)
deriving DecidableEq

inductive ImportError
  | empty
deriving DecidableEq

structure ImportResult where
  hosts : List ImportedHost
  skipped : List (Chars × String)
deriving DecidableEq

def trimmed (cs : Chars) : Chars := trimEnd (trimStart cs)

/-- The first of a value's words. -/
def firstWord (value : Chars) : Option Chars :=
  match (trimStart value).takeWhile fun c => !isWhite c with
  | [] => none
  | word => some word

/-- `Key value` and `Key=value` are both legal. -/
def splitOption (line : Chars) : Option (Chars × Chars) :=
  if '=' ∈ line then
    some (trimmed (line.takeWhile (· ≠ '=')), trimmed ((line.dropWhile (· ≠ '=')).drop 1))
  else
    match line.dropWhile fun c => !isWhite c with
    | [] => none
    | _ :: rest => some (trimmed (line.takeWhile fun c => !isWhite c), trimmed rest)

/-- `trim_matches('"')` -/
def stripQuotes (value : Chars) : Chars := (value.dropWhile (· = '"')).rdropWhile (· = '"')

def lower (key : Chars) : Chars := key.map asciiLowerChar

def isPattern (name : Chars) : Bool := '*' ∈ name || '?' ∈ name

/-- A host as its `Host` line leaves it: without a HostName the alias is the address. -/
def ImportedHost.named (name : Chars) : ImportedHost where
  name
  address := name
  port := 22
  username := none
  keyPath := none
  jumpHost := none
  remoteCommand := none
  extras := []

/-- The options that a host has a place for. -/
inductive Keyword
  | hostName
  | port
  | user
  | identityFile
  | proxyJump
  | remoteCommand
  | other
deriving DecidableEq

def keywordOf (key : Chars) : Keyword :=
  if key = "hostname".toList then .hostName
  else if key = "port".toList then .port
  else if key = "user".toList then .user
  else if key = "identityfile".toList then .identityFile
  else if key = "proxyjump".toList then .proxyJump
  else if key = "remotecommand".toList then .remoteCommand
  else .other

def ImportedHost.set (host : ImportedHost) (key value : Chars) : ImportedHost :=
  match keywordOf key with
  | .hostName => { host with address := value }
  | .port =>
    match parseUnsigned 16 value with
    | some port => { host with port }
    | none => host
  | .user => { host with username := some value }
  | .identityFile => { host with keyPath := some (stripQuotes value) }
  | .proxyJump => { host with jumpHost := some value }
  | .remoteCommand => { host with remoteCommand := some value }
  | .other => { host with extras := host.extras ++ [(key, value)] }

/-- `push` -/
def ImportedHost.outcome (host : ImportedHost) : Outcome :=
  if trimmed host.address = [] then .skipped host.name "no address" else .host host

structure State where
  outcomes : List Outcome
  current : Option ImportedHost

/-- The host that was being read, if any, is done. -/
def State.take (st : State) : List Outcome := st.outcomes ++ st.current.toList.map ImportedHost.outcome

def importLine (st : State) (raw : Chars) : State :=
  let line := trimmed raw
  if line = [] ∨ line.head? = some '#' then st
  else
    match splitOption line with
    | none => st
    | some (key, value) =>
      if lower key = "host".toList then
        match firstWord value with
        | none => { outcomes := st.take, current := none }
        | some name =>
          if isPattern name then { outcomes := st.take ++ [.skipped name "pattern, not a host"], current := none }
          else { outcomes := st.take, current := some (.named name) }
      else { st with current := st.current.map fun host => host.set (lower key) value }

def outcomes (text : Chars) : List Outcome :=
  ((text.splitOn '\n').foldl importLine { outcomes := [], current := none }).take

/-- What is handed back: hosts and skipped ones apart, and no file without a host. -/
def resultOf (outcomes : List Outcome) : Except ImportError ImportResult :=
  let hosts := outcomes.filterMap fun
    | .host host => some host
    | .skipped _ _ => none
  let skipped := outcomes.filterMap fun
    | .host _ => none
    | .skipped name why => some (name, why)
  if hosts = [] then .error .empty else .ok { hosts, skipped }

def importText (text : Chars) : Except ImportError ImportResult := resultOf (outcomes text)

/-! ### What OpenSSH reads -/

/-- Space, and an equals sign. -/
def separates (c : Char) : Bool := isWhite c || c == '='

def skipEquals : Chars → Chars
  | '=' :: value => value
  | value => value

/-- The keyword goes up to the first space or equals sign; one equals sign may stand before the value. -/
def splitDirective (line : Chars) : Option (Chars × Chars) :=
  match line.dropWhile fun c => !separates c with
  | [] => none
  | rest => some (line.takeWhile fun c => !separates c, trimmed (skipEquals (trimStart rest)))

def isHost (directive : Chars × Chars) : Bool := lower directive.1 = "host".toList

def isMatch (directive : Chars × Chars) : Bool := lower directive.1 = "match".toList

def keyword (directive : Chars × Chars) : Keyword := keywordOf (lower directive.1)

/-- The values that a block's lines give an option. -/
def valuesOf (option : Keyword) (options : List (Chars × Chars)) : List Chars :=
  (options.filter fun d => keyword d = option).map Prod.snd

/-- The lines that a host has no place for. -/
def extrasOf (options : List (Chars × Chars)) : List (Chars × Chars) :=
  (options.filter fun d => keyword d = .other).map fun d => (lower d.1, d.2)

/-- The host that a block describes: the first line counts for an option that has one value. An identity file
may be given several times. -/
def hostOf (name : Chars) (options : List (Chars × Chars)) : ImportedHost where
  name
  address := (valuesOf .hostName options).head?.getD name
  port := ((valuesOf .port options).head?.bind (parseUnsigned 16)).getD 22
  username := (valuesOf .user options).head?
  keyPath := (valuesOf .identityFile options).getLast?.map stripQuotes
  jumpHost := (valuesOf .proxyJump options).head?
  remoteCommand := (valuesOf .remoteCommand options).head?
  extras := extrasOf options

/-- What becomes of a block, of which `host` makes a host. -/
def outcomeOf (host : Chars → List (Chars × Chars) → ImportedHost) (block : (Chars × Chars) × List (Chars × Chars)) :
    Option Outcome :=
  (firstWord block.1.2).map fun name =>
    if isPattern name then .skipped name "pattern, not a host" else (host name block.2).outcome

/-- The lines that say something. -/
def linesOf (text : Chars) : List Chars :=
  ((text.splitOn '\n').map trimmed).filter fun line => !(line = [] ∨ line.head? = some '#')

/-- Every host block of the text, read as OpenSSH does. -/
def openSshOutcomes (text : Chars) : List Outcome :=
  (Sections.sections isHost (fun d => isHost d || isMatch d) ((linesOf text).filterMap splitDirective)).filterMap
    (outcomeOf hostOf)

end UwuSsh.SshConfig

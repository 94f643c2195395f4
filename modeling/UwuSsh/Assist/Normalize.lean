import Mathlib.Algebra.Order.Field.Rat
import Mathlib.Data.Char
import Mathlib.Data.Finset.Basic
import Mathlib.Data.List.Lex
import Mathlib.Data.List.Sort
import UwuSsh.Lib.EditDistance
import UwuSsh.Lib.Text

/-!
Requests that ask for the same thing: folded to lower case, cut into words, fillers left out, each other word
taken to its meaning or its stem. Two such sets of tokens are as alike as the part they share, where words of
five letters and more match within one typo; literals must be the same.
-/
namespace UwuSsh.Assist

open Text

abbrev Chars := List Char

/-- What Rust's `char` says of a character; white space is not alphanumeric. -/
structure Unicode where
  toLowercase : Char → Chars
  isAlphanumeric : Char → Bool
  white : ∀ c, isWhite c = true → isAlphanumeric c = false

def threshold : ℚ := 3 / 4

/-- Words that carry no meaning for a command. -/
def fillers : List String := [
  "bitte", "mir", "mich", "mal", "doch", "alle", "allen", "alles", "aller", "die", "der", "das", "den", "dem",
  "des", "ein", "eine", "einen", "einem", "einer", "eines", "und", "oder", "auf", "an", "am", "in", "im",
  "von", "vom", "zu", "zum", "zur", "mit", "fuer", "nach", "ueber", "aus", "ist", "sind", "gibt", "es", "wie",
  "was", "welche", "welcher", "welches", "wo", "ich", "du", "mein", "meine", "meinen", "meiner", "dieser",
  "diese", "dieses", "hier", "jetzt", "aktuell", "aktuelle", "aktuellen", "gerade", "kann", "koennen",
  "kannst", "moechte", "will", "soll", "sollen", "wuerde", "bei", "auch", "nur", "dann", "da", "einmal",
  "viel", "gerne", "lass", "sehen", "anzeigen", "zeig", "zeige", "zeigen", "liste", "listen", "auflisten",
  "aufliste", "gib", "gebe", "ausgeben", "ausgabe", "pruefe", "pruefen", "checke", "ob", "sich", "befehl",
  "kommando", "the", "a", "an", "all", "every", "please", "me", "my", "show", "list", "display", "print",
  "give", "get", "of", "to", "for", "on", "at", "with", "from", "and", "or", "is", "are", "what", "which",
  "how", "currently", "current", "i", "you", "can", "could", "would", "want", "need", "see", "view", "check",
  "do", "does", "there", "that", "this", "these", "those", "some", "any", "command", "now", "just"]

/-- One word for each meaning, and the words that are taken for it. -/
def synonyms : List (String × List String) := [
  ("user", [
    "benutzer", "nutzer", "user", "users", "konto", "konten", "account", "accounts", "benutzerkonto",
    "benutzerkonten", "anwender", "login", "logins"]),
  ("group", ["gruppe", "gruppen", "group", "groups"]),
  ("process", ["prozess", "prozesse", "process", "processes", "task", "tasks", "programme", "pid"]),
  ("disk", [
    "festplatte", "festplatten", "platte", "platten", "disk", "disks", "speicher", "speicherplatz",
    "plattenplatz", "storage", "laufwerk", "laufwerke", "drive", "drives", "datentraeger",
    "festplattenspeicher", "partition", "partitionen", "partitions", "space"]),
  ("memory", ["arbeitsspeicher", "ram", "memory", "mem", "hauptspeicher"]),
  ("file", ["datei", "dateien", "file", "files"]),
  ("folder", [
    "ordner", "verzeichnis", "verzeichnisse", "directory", "directories", "folder", "folders", "dir", "dirs"]),
  ("delete", [
    "loesche", "loeschen", "loesch", "entferne", "entfernen", "delete", "remove", "rm", "del", "erase",
    "wegmachen"]),
  ("create", [
    "erstelle", "erstellen", "anlegen", "lege", "erzeuge", "erzeugen", "create", "make", "add", "hinzufuegen",
    "fuege"]),
  ("restart", ["neustarten", "neustart", "restart", "reboot", "rebooten", "neu"]),
  ("start", ["starte", "starten", "start", "launch", "run", "ausfuehren", "fuehre"]),
  ("stop", [
    "stoppe", "stoppen", "stop", "beende", "beenden", "halte", "anhalten", "kill", "toete", "abschiessen",
    "terminate"]),
  ("shutdown", ["herunterfahren", "runterfahren", "ausschalten", "shutdown", "poweroff", "fahre"]),
  ("install", ["installiere", "installieren", "install", "einrichten"]),
  ("update", ["aktualisiere", "aktualisieren", "update", "updates", "upgrade", "upgrades"]),
  ("find", ["finde", "finden", "suche", "suchen", "search", "find", "locate", "grep", "durchsuche"]),
  ("size", ["groesse", "size", "sizes", "belegt", "belegung", "usage", "verbrauch", "verbraucht", "used"]),
  ("largest", ["groesste", "groessten", "groesster", "largest", "biggest"]),
  ("count", ["zaehle", "zaehlen", "anzahl", "count", "viele", "many", "number"]),
  ("port", ["port", "ports"]),
  ("network", [
    "netzwerk", "network", "ip", "ips", "interface", "interfaces", "schnittstelle", "schnittstellen",
    "netzwerkkarte", "adresse", "adressen", "address", "addresses"]),
  ("service", ["dienst", "dienste", "service", "services", "daemon", "daemons", "unit", "units"]),
  ("log", ["log", "logs", "protokoll", "protokolle", "logdatei", "logdateien", "journal"]),
  ("package", ["paket", "pakete", "package", "packages", "software", "programm"]),
  ("free", ["frei", "freie", "freien", "free", "verfuegbar", "available"]),
  ("last", [
    "letzte", "letzten", "letzter", "last", "recent", "neueste", "neuesten", "newest", "latest", "tail"]),
  ("open", ["offen", "offene", "offenen", "open", "listening", "lauschen", "lauschende"]),
  ("permission", ["rechte", "berechtigung", "berechtigungen", "permission", "permissions", "zugriffsrechte"]),
  ("owner", ["besitzer", "eigentuemer", "owner", "owners"]),
  ("system", ["system", "server", "rechner", "computer", "maschine", "machine", "host", "geraet"]),
  ("time", ["zeit", "uhrzeit", "time", "datum", "date"]),
  ("cpu", ["cpu", "prozessor", "processor", "auslastung", "load"]),
  ("connection", ["verbindung", "verbindungen", "connection", "connections"]),
  ("hidden", ["versteckt", "versteckte", "versteckten", "hidden", "dotfiles"]),
  ("running", ["laufend", "laufende", "laufenden", "running", "aktiv", "aktive", "active"]),
  ("sort", ["sortiert", "sortiere", "sortieren", "sort", "sorted", "geordnet"]),
  ("line", ["zeile", "zeilen", "line", "lines"]),
  ("version", ["version", "versionen", "release"]),
  ("kernel", ["kernel", "kern"]),
  ("home", ["home", "heimverzeichnis", "homeverzeichnis"]),
  ("password", ["passwort", "kennwort", "password", "passwd"]),
  ("firewall", ["firewall", "iptables", "nftables", "ufw"]),
  ("container", ["container", "docker", "containers"]),
  ("uptime", ["uptime", "laufzeit", "betriebszeit"])]

/-- German and English endings. -/
def suffixes : List String := ["ungen", "ung", "ing", "en", "er", "es", "ed", "em", "e", "n", "s", "t"]

def foldChar : Char → Chars
  | 'ä' => ['a', 'e']
  | 'ö' => ['o', 'e']
  | 'ü' => ['u', 'e']
  | 'ß' => ['s', 's']
  | 'à' | 'á' | 'â' | 'ã' | 'å' => ['a']
  | 'è' | 'é' | 'ê' | 'ë' => ['e']
  | 'ì' | 'í' | 'î' | 'ï' => ['i']
  | 'ò' | 'ó' | 'ô' | 'õ' => ['o']
  | 'ù' | 'ú' | 'û' => ['u']
  | 'ç' => ['c']
  | 'ñ' => ['n']
  | c => [c]

def fold (unicode : Unicode) (text : Chars) : Chars := (text.flatMap unicode.toLowercase).flatMap foldChar

def isFiller (word : Chars) : Bool := fillers.any fun filler => filler.toList = word

def synonym (word : Chars) : Option Chars :=
  (synonyms.find? fun entry => entry.2.any fun other => other.toList = word).map fun entry => entry.1.toList

def isSpecial (c : Char) : Bool := "/.~-_*:@=\\".toList.contains c

/-- A token that is more than a word: a number, a path, an option, a file name. -/
def isLiteral (token : Chars) : Bool := token.any fun c => isAsciiDigit c || isSpecial c

/-- The endings cut off in turn: what one leaves may have a meaning, or be a filler; else the first stem stays. -/
def cutSuffixes (word : Chars) : List String → Option Chars → Option Chars
  | [], stem => some (stem.getD word)
  | suffix :: rest, stem =>
    if suffix.toList <:+ word ∧ 4 ≤ word.length - suffix.length then
      let cut := word.take (word.length - suffix.length)
      match synonym cut with
      | some meaning => some meaning
      | none => if isFiller cut then none else cutSuffixes word rest (stem.or (some cut))
    else cutSuffixes word rest stem

/-- One word, as the cache compares it: its meaning, or its stem, or nothing for a filler. -/
def canonical (word : Chars) : Option Chars :=
  if word = [] ∨ isFiller word then none
  else if isLiteral word then some word
  else
    match synonym word with
    | some meaning => some meaning
    | none => cutSuffixes word suffixes none

/-- `trim_matches` -/
def trimMatches (p : Char → Bool) (word : Chars) : Chars := (word.dropWhile p).rdropWhile p

/-- `BTreeSet::insert`; the set is the list of its members in order. -/
def insertWord (set : List Chars) (word : Chars) : List Chars :=
  if word ∈ set then set else List.orderedInsert (· ≤ ·) word set

/-- The tokens in a request, as they come. -/
def foundTokens (unicode : Unicode) (request : Chars) : List Chars :=
  ((fold unicode request).splitOnP fun c => !(unicode.isAlphanumeric c || isSpecial c)).filterMap fun raw =>
    canonical (trimMatches (fun c => ".:-_=".toList.contains c) raw)

/-- The set of tokens a request comes down to. -/
def tokens (unicode : Unicode) (request : Chars) : List Chars :=
  let set := (foundTokens unicode request).foldl insertWord []
  if "start".toList ∈ set ∧ "restart".toList ∈ set then set.filter (· ≠ "start".toList) else set

def joined (words : List Chars) : Chars := [' '].intercalate words

def normalize (unicode : Unicode) (request : Chars) : Chars := joined (tokens unicode request)

/-- `split_whitespace` -/
def wordsOf (text : Chars) : List Chars := (text.splitOnP isWhite).filter (· ≠ [])

/-- The rows of the Levenshtein table, stopped early: only at most one matters. -/
def closeRows (b : Chars) : Chars → ℕ → List ℕ → Bool
  | [], _, previous => (previous.getLast?.getD 0) ≤ 1
  | ca :: a, i, previous =>
    let current := (i + 1) :: EditDistance.nextRow ca b previous (i + 1)
    if current.all (1 < ·) then false else closeRows b a (i + 1) current

/-- Whether two words are the same allowing one typo, for words long enough. -/
def close (a b : Chars) : Bool :=
  if a = b then true
  else if isLiteral a || isLiteral b || a.length < 5 || b.length < 5 then false
  else if 1 < a.length - b.length ∨ 1 < b.length - a.length then false
  else closeRows b a 0 (List.range (b.length + 1))

def literals (set : List Chars) : Finset Chars := (set.filter isLiteral).toFinset

def shared (a b : List Chars) : ℕ := (a.filter fun token => b.any (close token)).length

/-- How alike two normalized requests are. -/
def similarity (a b : Chars) : ℚ :=
  let a := wordsOf a
  let b := wordsOf b
  if a = [] ∨ b = [] then 0
  else if literals a ≠ literals b then 0
  else (shared a b : ℚ) / (a.length + b.length - shared a b : ℕ)

/-- One candidate after another: a better one takes the place. -/
def better {T : Type} (normalized : Chars) (best : Option (T × ℚ)) (candidate : Chars × T) : Option (T × ℚ) :=
  let score := similarity normalized candidate.1
  if threshold ≤ score ∧ best.all (fun top => top.2 < score) then some (candidate.2, score) else best

def bestMatch {T : Type} (normalized : Chars) (candidates : List (Chars × T)) : Option (T × ℚ) :=
  candidates.foldl (better normalized) none

end UwuSsh.Assist

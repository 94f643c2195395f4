import UwuSsh.Lib.Dictionary
import UwuSsh.Lib.Loop

/-!
The keyboard shortcuts of the app: the chords that actions have out of the box, for the Mac and for everything
else, and the user's own, one list per action that stands in place of its defaults. A default that another
action's list holds is hidden.
-/
namespace UwuSsh.Shortcut

/-- The shortcuts that are a plain key combination. -/
inductive BoundAction
  | newShell | closeTab | duplicateTab | nextTab | previousTab | moveTabLeft | moveTabRight | splitView
  | copy | selectAll | clearTerminal | typePassword | assist | openFiles | fontBigger | fontSmaller | fontReset
  | reconnect
  | commandPalette | settings | shortcuts | toggleSidebar | focusSearch | newHost | tunnels
  deriving DecidableEq

def BoundAction.kind : BoundAction → String
  | newShell => "new-shell"
  | closeTab => "close-tab"
  | duplicateTab => "duplicate-tab"
  | nextTab => "next-tab"
  | previousTab => "previous-tab"
  | moveTabLeft => "move-tab-left"
  | moveTabRight => "move-tab-right"
  | splitView => "split-view"
  | copy => "copy"
  | selectAll => "select-all"
  | clearTerminal => "clear-terminal"
  | typePassword => "type-password"
  | assist => "assist"
  | openFiles => "open-files"
  | fontBigger => "font-bigger"
  | fontSmaller => "font-smaller"
  | fontReset => "font-reset"
  | reconnect => "reconnect"
  | commandPalette => "command-palette"
  | settings => "settings"
  | shortcuts => "shortcuts"
  | toggleSidebar => "toggle-sidebar"
  | focusSearch => "focus-search"
  | newHost => "new-host"
  | tunnels => "tunnels"

/-- Tabs, terminal and app, in the order the settings list them. -/
def actionGroups : List (List BoundAction) := [
  [.newShell, .closeTab, .duplicateTab, .nextTab, .previousTab, .moveTabLeft, .moveTabRight, .splitView],
  [.copy, .selectAll, .clearTerminal, .typePassword, .assist, .openFiles, .fontBigger, .fontSmaller, .fontReset,
    .reconnect],
  [.commandPalette, .settings, .shortcuts, .toggleSidebar, .focusSearch, .newHost, .tunnels]]

inductive ShortcutAction
  | bound (kind : BoundAction)
  | selectTab (index : ℕ)
  /-- Connects to this host in a new tab. -/
  | host (id : String)
  /-- Types one of the user's texts. -/
  | text (id : String)
  deriving DecidableEq

inductive Platform
  | macos | windows | linux

/-- The user's keys are kept per family. -/
inductive Family
  | mac | other
  deriving DecidableEq

def familyOf : Platform → Family
  | .macos => .mac
  | _ => .other

structure KeyLike where
  key : String
  code : String
  ctrlKey : Bool
  shiftKey : Bool
  altKey : Bool
  metaKey : Bool
  isComposing : Bool := false
  keyCode : Option ℕ := none

/-- Which modifiers to hold, exactly, which physical key, and the characters that count as this key too. -/
structure Chord where
  ctrl : Bool := false
  shift : Bool := false
  alt : Bool := false
  metaMod : Bool := false
  code : String
  keys : List String := []
  deriving DecidableEq

/-- An action's id and the chords it has instead of its defaults. -/
abbrev Overrides := Dictionary String (List Chord)

def cmd (code : String) : Chord := { metaMod := true, code }

def shiftCmd (code : String) (keys : List String) : Chord := { metaMod := true, shift := true, code, keys }

def ctrl (code : String) : Chord := { ctrl := true, code }

def ctrlShift (code : String) : Chord := { ctrl := true, shift := true, code }

def tabNumbers : List String := ["1", "2", "3", "4", "5", "6", "7", "8", "9"]

def tabActions : List String := tabNumbers.map fun n => "select-tab-" ++ n

structure Defaults where
  mac : List Chord
  other : List Chord

def Defaults.of (d : Defaults) : Family → List Chord
  | .mac => d.mac
  | .other => d.other

def defaults : List (String × Defaults) := [
  ("new-shell", { mac := [cmd "KeyT"], other := [ctrlShift "KeyT"] }),
  ("close-tab", { mac := [cmd "KeyW"], other := [ctrlShift "KeyW"] }),
  ("duplicate-tab", { mac := [cmd "KeyD"], other := [ctrlShift "KeyD"] }),
  ("next-tab", {
    mac := [shiftCmd "BracketRight" ["]", "\x7d"], ctrl "Tab", { metaMod := true, alt := true, code := "ArrowRight" }]
    other := [ctrl "Tab", ctrl "PageDown"] }),
  ("previous-tab", {
    mac := [shiftCmd "BracketLeft" ["[", "\x7b"], ctrlShift "Tab", { metaMod := true, alt := true, code := "ArrowLeft" }]
    other := [ctrlShift "Tab", ctrl "PageUp"] }),
  ("settings", { mac := [cmd "Comma"], other := [ctrl "Comma"] }),
  ("open-files", { mac := [shiftCmd "KeyF" []], other := [ctrlShift "KeyF"] }),
  ("type-password", { mac := [shiftCmd "KeyP" []], other := [ctrlShift "KeyP"] }),
  ("copy", { mac := [cmd "KeyC"], other := [ctrlShift "KeyC"] }),
  ("select-all", { mac := [cmd "KeyA"], other := [] }),
  ("command-palette", { mac := [cmd "KeyK"], other := [ctrlShift "KeyK"] }),
  ("toggle-sidebar", { mac := [cmd "KeyB"], other := [ctrlShift "KeyB"] }),
  ("new-host", { mac := [cmd "KeyN"], other := [] })] ++
  tabNumbers.map fun n => ("select-tab-" ++ n, { mac := [cmd ("Digit" ++ n)], other := [ctrlShift ("Digit" ++ n)] })

def builtIn : List String := actionGroups.flatten.map BoundAction.kind ++ tabActions

def startsWith (id start : String) : Bool := start.toList.isPrefixOf id.toList

def sliceFrom (id : String) (n : ℕ) : String := String.ofList (id.toList.drop n)

/-- What an id in the keymap stands for. -/
def actionOf (id : String) : Option ShortcutAction :=
  if startsWith id "host:" then some (.host (sliceFrom id 5))
  else if startsWith id "text:" then some (.text (sliceFrom id 5))
  else
    match tabActions.findIdx? (· == id) with
    | some index => some (.selectTab index)
    | none => (actionGroups.flatten.find? fun action => action.kind == id).map .bound

/-- The chords an action has out of the box. -/
def defaultChords (id : String) (family : Family) : List Chord :=
  match defaults.lookup id with
  | some d => d.of family
  | none => []

/-- A chord as one string, to compare and to look up. -/
def chordKey (chord : Chord) : String :=
  (if chord.ctrl then "ctrl+" else "") ++ (if chord.alt then "alt+" else "") ++
    (if chord.shift then "shift+" else "") ++ (if chord.metaMod then "meta+" else "") ++ chord.code

/-- The chords an action has now: the user's, or the defaults minus any that a user's binding holds. -/
def chordsFor (id : String) (family : Family) (overrides : Overrides) : List Chord :=
  match overrides.get id with
  | some own => own
  | none =>
    let held := overrides.values.flatten.map chordKey
    (defaultChords id family).filter fun chord => !held.contains (chordKey chord)

/-- Ctrl, Shift and their kind: keys that are held, not pressed. -/
def isModifierCode (code : String) : Bool :=
  ["ControlLeft", "ControlRight", "ShiftLeft", "ShiftRight", "AltLeft", "AltRight", "MetaLeft", "MetaRight", "OSLeft",
    "OSRight", "CapsLock", "Fn", "AltGraph"].contains code

/-- `matches` in the source. -/
def isMatch (event : KeyLike) (chord : Chord) : Bool :=
  if event.ctrlKey != chord.ctrl then false
  else if event.altKey != chord.alt then false
  else if event.metaKey != chord.metaMod then false
  else if chord.keys.contains event.key then true
  else if event.shiftKey != chord.shift then false
  else event.code == chord.code

def composing (event : KeyLike) : Bool := event.isComposing || event.keyCode == some 229

/-- Every action that has keys: the user's first. -/
def boundIds (overrides : Overrides) : List String :=
  overrides.keys ++ builtIn.filter fun id => !overrides.keys.contains id

/-- The action that has this chord, if any; `except` leaves one action out. -/
def holderOf (chord : Chord) (family : Family) (overrides : Overrides) (except : Option String) : Option String :=
  (boundIds overrides).find? fun id =>
    some id != except && (chordsFor id family overrides).any fun held => chordKey held == chordKey chord

/-- An id where a loop or a test asks for one: the empty string does not count. -/
def truthy : Option String → Option String
  | some "" => none
  | id => id

def plain (chord : Chord) : Chord := { chord with keys := [] }

/-- Same chords, in the same order. -/
def sameChords (a b : List Chord) : Bool :=
  a.length == b.length && (a.zip b).all fun pair => chordKey pair.1 == chordKey pair.2

/-- Back at the defaults, or a host or text with no key left: no entry needed. -/
def withChords (overrides : Overrides) (family : Family) (id : String) (chords : List Chord) : Overrides :=
  let standard := defaultChords id family
  if sameChords chords standard ∧ (0 < standard.length ∨ (defaults.lookup id).isNone) then overrides.erase id
  else overrides.set id (chords.map plain)

/-- Takes a chord away from an action. -/
def unbind (overrides : Overrides) (family : Family) (id : String) (chord : Chord) : Overrides :=
  withChords overrides family id
    ((chordsFor id family overrides).filter fun held => chordKey held != chordKey chord)

/-- Whatever had the chord loses it. -/
def freeTurn (family : Family) (id : String) (chord : Chord) (next : Overrides) : Overrides ⊕ Overrides :=
  match truthy (holderOf chord family next (some id)) with
  | none => .inl next
  | some holder => .inr (unbind next family holder chord)

/-- Gives an action a chord, in at most so many turns of the loop. -/
def bind (turns : ℕ) (overrides : Overrides) (family : Family) (id : String) (chord : Chord) : Option Overrides :=
  match Loop.turns (freeTurn family id chord) turns overrides with
  | .inr _ => none
  | .inl next =>
    let held := chordsFor id family next
    if held.any fun one => chordKey one == chordKey chord then some next
    else some (withChords next family id (held ++ [plain chord]))

/-- An action back to its defaults; one that another action has taken since stays with that action. -/
def resetAction (overrides : Overrides) (family : Family) (id : String) : Overrides :=
  let next := overrides.erase id
  withChords next family id
    ((defaultChords id family).filter fun chord => (truthy (holderOf chord family next (some id))).isNone)

/-- Drops what belongs to hosts and texts that no longer exist. -/
def pruneOverrides (overrides : Overrides) (known : String → Bool) : Overrides :=
  overrides.filter fun id => !(startsWith id "host:" || startsWith id "text:") || known id

/-- The first action with a chord for the event: what the loop returns, if it does. -/
def firstAction (event : KeyLike) (hasSelection : Bool) (family : Family) (overrides : Overrides) :
    List String → Option (Option ShortcutAction)
  | [] => none
  | id :: ids =>
    if (chordsFor id family overrides).any (isMatch event) = false then
      firstAction event hasSelection family overrides ids
    else if id = "copy" ∧ hasSelection = false then some none
    else
      match actionOf id with
      | some action => some (some action)
      | none => firstAction event hasSelection family overrides ids

/-- The app's shortcut for this key, or none when the key belongs to whatever has focus. -/
def shortcutFor (event : KeyLike) (ctrlCCopies hasSelection : Bool) (system : Platform) (overrides : Overrides) :
    Option ShortcutAction :=
  if composing event ∨ isModifierCode event.code then none
  else
    match firstAction event hasSelection (familyOf system) overrides (boundIds overrides) with
    | some answer => answer
    | none =>
      if familyOf system = .other ∧ ctrlCCopies ∧ hasSelection ∧ isMatch event (ctrl "KeyC") then some (.bound .copy)
      else none

end UwuSsh.Shortcut

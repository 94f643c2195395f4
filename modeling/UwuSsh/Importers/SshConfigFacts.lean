import UwuSsh.Importers.SshConfig

/-!
Where the importer reads a config as OpenSSH does. Its loop makes a host of the lines up to the next `Host`
line, and the last line counts; so the two agree on a text just when the keyword before an equals sign is
always one word, no `Match` line stands in a block, and the lines that repeat an option say the same again.
-/
namespace UwuSsh.SshConfig

open Text Sections

/-! ### The loop, block by block -/

def State.step (st : State) (d : Chars × Chars) : State :=
  if isHost d then
    match firstWord d.2 with
    | none => { outcomes := st.take, current := none }
    | some name =>
      if isPattern name then { outcomes := st.take ++ [.skipped name "pattern, not a host"], current := none }
      else { outcomes := st.take, current := some (.named name) }
  else { st with current := st.current.map fun host => host.set (lower d.1) d.2 }

/-- A host with all lines of its block put into it. -/
def readHost (host : ImportedHost) (options : List (Chars × Chars)) : ImportedHost :=
  options.foldl (fun host d => host.set (lower d.1) d.2) host

theorem foldl_importLine (raws : List Chars) (st : State) :
    raws.foldl importLine st =
      (((raws.map trimmed).filter fun line => !(line = [] ∨ line.head? = some '#')).filterMap splitOption).foldl
        State.step st := by
  induction raws generalizing st with
  | nil => rfl
  | cons raw raws ih =>
    rw [List.foldl_cons, ih, List.map_cons, List.filter_cons]
    by_cases hskip : trimmed raw = [] ∨ (trimmed raw).head? = some '#'
    · have hline : importLine st raw = st := by
        unfold importLine
        exact if_pos hskip
      rw [hline, if_neg (by simp [hskip])]
    · have hline : importLine st raw = match splitOption (trimmed raw) with
          | none => st
          | some d => st.step d := by
        unfold importLine
        rw [if_neg hskip]
        cases splitOption (trimmed raw) with
        | none => rfl
        | some d =>
          by_cases hd : lower d.1 = "host".toList
          · exact (if_pos hd).trans (if_pos (decide_eq_true hd)).symm
          · exact (if_neg hd).trans (if_neg (by simpa [isHost] using hd)).symm
      rw [hline, if_pos (by simp [hskip])]
      cases hsplit : splitOption (trimmed raw) with
      | none => rw [List.filterMap_cons_none hsplit]
      | some d => rw [List.filterMap_cons_some hsplit, List.foldl_cons]

/-- What the loop comes to from where a host may be half read. -/
theorem take_foldl_step (ds : List (Chars × Chars)) (st : State) :
    (ds.foldl State.step st).take =
      st.outcomes ++ (st.current.map fun host => (readHost host (ds.takeWhile fun d => !isHost d)).outcome).toList ++
        (sections isHost isHost ds).filterMap (outcomeOf fun name options => readHost (.named name) options) := by
  induction ds generalizing st with
  | nil =>
    cases hcurrent : st.current <;> simp [State.take, hcurrent, sections, readHost]
  | cons d ds ih =>
    rw [List.foldl_cons, ih]
    cases hd : isHost d with
    | false =>
      have hstep : st.step d = { st with current := st.current.map fun host => host.set (lower d.1) d.2 } := by
        simp [State.step, hd]
      rw [hstep, sections_other hd]
      simp [hd, readHost, Function.comp_def]
    | true =>
      have htake : st.take = st.outcomes ++
          (st.current.map fun host => (readHost host ((d :: ds).takeWhile fun d => !isHost d)).outcome).toList := by
        cases hcurrent : st.current <;> simp [State.take, hcurrent, hd, readHost]
      rw [← htake, sections_head hd, List.filterMap_cons]
      cases hname : firstWord d.2 with
      | none => simp [State.step, hd, hname, outcomeOf]
      | some name =>
        cases hpattern : isPattern name <;> simp [State.step, hd, hname, hpattern, outcomeOf]

theorem outcomes_eq (text : Chars) : outcomes text =
    (sections isHost isHost ((linesOf text).filterMap splitOption)).filterMap
      (outcomeOf fun name options => readHost (.named name) options) := by
  rw [outcomes, foldl_importLine, take_foldl_step]
  rfl

/-! ### What the lines of a block come to -/

theorem valuesOf_concat (option : Keyword) (options : List (Chars × Chars)) (d : Chars × Chars) :
    valuesOf option (options ++ [d]) = valuesOf option options ++ if keyword d = option then [d.2] else [] := by
  by_cases h : keyword d = option <;> simp [valuesOf, h]

theorem extrasOf_concat (options : List (Chars × Chars)) (d : Chars × Chars) :
    extrasOf (options ++ [d]) = extrasOf options ++ if keyword d = .other then [(lower d.1, d.2)] else [] := by
  by_cases h : keyword d = .other <;> simp [extrasOf, h]

/-- The last line counts, for a port the last that is a number. -/
def lastHost (name : Chars) (options : List (Chars × Chars)) : ImportedHost where
  name
  address := (valuesOf .hostName options).getLast?.getD name
  port := ((valuesOf .port options).filterMap (parseUnsigned 16)).getLast?.getD 22
  username := (valuesOf .user options).getLast?
  keyPath := (valuesOf .identityFile options).getLast?.map stripQuotes
  jumpHost := (valuesOf .proxyJump options).getLast?
  remoteCommand := (valuesOf .remoteCommand options).getLast?
  extras := extrasOf options

theorem readHost_eq (name : Chars) (options : List (Chars × Chars)) :
    readHost (.named name) options = lastHost name options := by
  induction options using List.reverseRecOn with
  | nil => rfl
  | append_singleton options d ih =>
    have hstep : readHost (.named name) (options ++ [d]) = (lastHost name options).set (lower d.1) d.2 := by
      rw [readHost, List.foldl_concat]
      exact congrArg (fun host => host.set (lower d.1) d.2) ih
    rw [hstep, lastHost, lastHost]
    simp only [valuesOf_concat, extrasOf_concat]
    unfold ImportedHost.set
    cases hkeyword : keywordOf (lower d.1) with
    | port =>
      have hd : keyword d = .port := hkeyword
      cases hparse : parseUnsigned 16 d.2 <;> simp [hd, hparse]
    | _ =>
      have hd := hkeyword
      rw [← keyword] at hd
      simp [hd]

/-! ### Where a line is split -/

/-- What stands before an equals sign is one word. -/
def OneWord (line : Chars) : Prop :=
  '=' ∈ line → ∀ c ∈ trimmed (line.takeWhile (· ≠ '=')), isWhite c = false

theorem trimmed_of_not_white {cs : Chars} (h : ∀ c ∈ cs, isWhite c = false) : trimmed cs = cs := by
  have hstart : trimStart cs = cs := by
    cases cs with
    | nil => rfl
    | cons c cs => exact List.dropWhile_cons_of_neg (by simp [h c List.mem_cons_self])
  have hback : cs.reverse.dropWhile isWhite = cs.reverse := by
    cases hrev : cs.reverse with
    | nil => rfl
    | cons c rest =>
      have hc : c ∈ cs := List.mem_reverse.mp (hrev ▸ List.mem_cons_self)
      exact List.dropWhile_cons_of_neg (by simp [h c hc])
  rw [trimmed, hstart, trimEnd, hback, List.reverse_reverse]

/-- Space at the end goes. -/
theorem trimEnd_append_white {w r : Chars} (hr : ∀ c ∈ r, isWhite c = true) : trimEnd (w ++ r) = trimEnd w := by
  have hr' : ∀ c ∈ r.reverse, isWhite c = true := fun c hc => hr c (List.mem_reverse.mp hc)
  rw [trimEnd, List.reverse_append, List.dropWhile_append_of_pos hr', trimEnd]

theorem trimmed_append_white {w r : Chars} (hw : ∀ c ∈ w, isWhite c = false) (hr : ∀ c ∈ r, isWhite c = true) :
    trimmed (w ++ r) = w := by
  cases w with
  | nil =>
    have hnone : trimStart r = [] := List.dropWhile_eq_nil_iff.mpr hr
    rw [List.nil_append, trimmed, hnone]
    rfl
  | cons c w =>
    have hstart : trimStart (c :: w ++ r) = c :: w ++ r :=
      List.dropWhile_cons_of_neg (by simp [hw c List.mem_cons_self])
    rw [trimmed, hstart, trimEnd_append_white hr]
    have hself := trimmed_of_not_white hw
    rwa [trimmed, trimStart, List.dropWhile_cons_of_neg (by simp [hw c List.mem_cons_self])] at hself

/-- What stands before something that is no space stays. -/
theorem start_trimEnd {w r : Chars} {c : Char} (hc : isWhite c = false) : w ++ [c] <+: trimEnd (w ++ c :: r) := by
  have hsuffix : c :: w.reverse <:+ (r.reverse ++ c :: w.reverse).dropWhile isWhite := by
    induction r.reverse with
    | nil => exact ⟨[], (List.dropWhile_cons_of_neg (by simp [hc])).symm⟩
    | cons x rest ih =>
      rw [List.cons_append, List.dropWhile_cons]
      split
      · exact ih
      · exact (List.suffix_append rest _).trans (List.suffix_cons x _)
  obtain ⟨front, hfront⟩ := hsuffix
  have hline : (w ++ c :: r).reverse = r.reverse ++ c :: w.reverse := by simp
  refine ⟨front.reverse, ?_⟩
  rw [trimEnd, hline, ← hfront]
  simp

theorem firstWord_trimmed {c : Char} {r : Chars} (hc : isWhite c = false) :
    (firstWord (trimmed (c :: r))).isSome = true := by
  have hstart : trimStart (c :: r) = c :: r := List.dropWhile_cons_of_neg (by simp [hc])
  obtain ⟨rest, hrest⟩ := @start_trimEnd [] r c hc
  have hkept : trimmed (c :: r) = c :: rest := by
    rw [trimmed, hstart]
    exact hrest.symm
  rw [hkept, firstWord, trimStart, List.dropWhile_cons_of_neg (by simp [hc]), List.takeWhile_cons_of_pos (by simp [hc])]
  rfl

theorem head_of_dropWhile {p : Char → Bool} {l rest : Chars} {c : Char} (h : l.dropWhile p = c :: rest) : p c = false := by
  have hhead := List.head?_dropWhile_not p l
  rw [h] at hhead
  exact hhead

theorem takeWhile_append_cons {p : Char → Bool} {w r : Chars} {c : Char} (hw : ∀ b ∈ w, p b = true) (hc : p c = false) :
    (w ++ c :: r).takeWhile p = w ∧ (w ++ c :: r).dropWhile p = c :: r := by
  rw [List.takeWhile_append_of_pos hw, List.dropWhile_append_of_pos hw,
    List.takeWhile_cons_of_neg (by simp [hc]), List.dropWhile_cons_of_neg (by simp [hc]), List.append_nil]
  exact ⟨rfl, rfl⟩

/-- A line in the order OpenSSH reads it: a keyword, space, and what comes then. -/
theorem exists_parts (line : Chars) : ∃ word space rest, line = word ++ space ++ rest ∧
    (∀ c ∈ word, separates c = false) ∧ (∀ c ∈ space, isWhite c = true) ∧
    (∀ c ∈ rest.head?, isWhite c = false) ∧ (space = [] → ∀ c ∈ rest.head?, c = '=') := by
  refine ⟨line.takeWhile fun c => !separates c, (line.dropWhile fun c => !separates c).takeWhile isWhite,
    (line.dropWhile fun c => !separates c).dropWhile isWhite, ?_, ?_, ?_, ?_, ?_⟩
  · rw [List.append_assoc, List.takeWhile_append_dropWhile, List.takeWhile_append_dropWhile]
  · intro c hc
    simpa using List.mem_takeWhile_imp hc
  · intro c hc
    exact List.mem_takeWhile_imp hc
  · intro c hc
    cases hrest : (line.dropWhile fun c => !separates c).dropWhile isWhite with
    | nil => simp [hrest] at hc
    | cons x rest =>
      rw [hrest] at hc
      cases hc
      exact head_of_dropWhile hrest
  · intro hspace c hc
    cases hline : line.dropWhile fun c => !separates c with
    | nil => simp [hline] at hc
    | cons x rest =>
      rw [hline] at hspace hc
      have hx : isWhite x = false := by
        by_contra hwhite
        rw [List.takeWhile_cons_of_pos (by simpa using hwhite)] at hspace
        cases hspace
      rw [List.dropWhile_cons_of_neg (by simp [hx])] at hc
      cases hc
      have hhead := head_of_dropWhile hline
      simpa [separates, hx] using hhead

theorem not_separates {c : Char} : separates c = false ↔ isWhite c = false ∧ c ≠ '=' := by
  simp [separates]

theorem skipEquals_of_ne {x : Char} {tail : Chars} (h : x ≠ '=') : skipEquals (x :: tail) = x :: tail := by
  unfold skipEquals
  split
  · rename_i heq
    cases heq
    exact absurd rfl h
  · rfl

/-- What OpenSSH makes of a line in three parts. -/
theorem splitDirective_parts {word space rest : Chars} (hword : ∀ c ∈ word, separates c = false)
    (hspace : ∀ c ∈ space, isWhite c = true) (hrest : ∀ c ∈ rest.head?, isWhite c = false)
    (hequals : space = [] → ∀ c ∈ rest.head?, c = '=') :
    splitDirective (word ++ space ++ rest) =
      if space = [] ∧ rest = [] then none
      else some (word, trimmed (skipEquals rest)) := by
  have hword' : ∀ c ∈ word, (!separates c) = true := fun c hc => by simp [hword c hc]
  have hstart : trimStart (space ++ rest) = rest := by
    rw [trimStart, List.dropWhile_append_of_pos hspace]
    cases rest with
    | nil => rfl
    | cons x rest => exact List.dropWhile_cons_of_neg (by simp [hrest x rfl])
  have hsplit : ∀ tail : Chars, (∀ c ∈ tail.head?, separates c = true) →
      (word ++ tail).dropWhile (fun c => !separates c) = tail ∧
        (word ++ tail).takeWhile (fun c => !separates c) = word := by
    intro tail htail
    cases tail with
    | nil => exact ⟨by simpa using hword, by simpa using hword⟩
    | cons x tail =>
      have hx : (!separates x) = false := by simp [htail x rfl]
      exact ⟨(takeWhile_append_cons hword' hx).2, (takeWhile_append_cons hword' hx).1⟩
  have htail : ∀ c ∈ (space ++ rest).head?, separates c = true := by
    intro c hc
    cases space with
    | nil => simp [separates, hequals rfl c hc]
    | cons x space =>
      cases hc
      have hwhite := hspace c List.mem_cons_self
      simp [separates, hwhite]
  rw [List.append_assoc, splitDirective, (hsplit _ htail).1, (hsplit _ htail).2]
  cases hboth : space ++ rest with
  | nil =>
    obtain ⟨rfl, rfl⟩ := List.append_eq_nil_iff.mp hboth
    rfl
  | cons x tail =>
    have hne : ¬ (space = [] ∧ rest = []) := by
      rintro ⟨rfl, rfl⟩
      cases hboth
    rw [hboth] at hstart
    dsimp only
    rw [if_neg hne, hstart]

/-- Both ways to split a line agree, or the code takes more than a word for the keyword. -/
theorem split_cases {line : Chars} (htrim : trimmed line = line) :
    (OneWord line ∧ splitOption line = splitDirective line) ∨
    (¬ OneWord line ∧ ∃ key value word rest, splitOption line = some (key, value) ∧ (∃ c ∈ key, isWhite c = true) ∧
      splitDirective line = some (word, rest) ∧ (firstWord rest).isSome = true) := by
  obtain ⟨word, space, rest, rfl, hword, hspace, hrest, hequals⟩ := exists_parts line
  have hspec := splitDirective_parts hword hspace hrest hequals
  have hwordWhite : ∀ c ∈ word, isWhite c = false := fun c hc => (not_separates.mp (hword c hc)).1
  have hfront : ∀ c ∈ word ++ space, c ≠ '=' := by
    intro c hc
    rcases List.mem_append.mp hc with hw | hs
    · exact (not_separates.mp (hword c hw)).2
    · rintro rfl
      exact absurd (hspace '=' hs) (by decide)
  have hkey : trimmed (word ++ space) = word := trimmed_append_white hwordWhite hspace
  by_cases hmem : '=' ∈ word ++ space ++ rest
  · have hmemRest : '=' ∈ rest := by
      rcases List.mem_append.mp hmem with hw | hr
      · exact absurd rfl (hfront '=' hw)
      · exact hr
    obtain ⟨x, tail, rfl⟩ := List.exists_cons_of_ne_nil (List.ne_nil_of_mem hmemRest)
    by_cases hx : x = '='
    · subst hx
      -- The sign stands behind the keyword.
      have hcut := @takeWhile_append_cons (fun c => decide (c ≠ '=')) (word ++ space) tail '='
        (fun c hc => by simpa using hfront c hc) (by simp)
      left
      refine ⟨fun _ => ?_, ?_⟩
      · rw [hcut.1, hkey]
        exact hwordWhite
      · rw [hspec, splitOption, if_pos hmem, hcut.1, hcut.2, hkey, if_neg (by simp)]
        rfl
    · -- The sign stands in the value, behind a space.
      right
      have hxWhite : isWhite x = false := hrest x rfl
      obtain ⟨b, blank, rfl⟩ : ∃ b blank, space = b :: blank := by
        cases space with
        | nil => exact absurd (hequals rfl x rfl) hx
        | cons b blank => exact ⟨b, blank, rfl⟩
      have hb : isWhite b = true := hspace b List.mem_cons_self
      obtain ⟨c, word', rfl⟩ : ∃ c word', word = c :: word' := by
        cases word with
        | cons c word' => exact ⟨c, word', rfl⟩
        | nil =>
          have hlen := congrArg List.length htrim
          have hle := (List.rdropWhile_prefix isWhite (trimStart (b :: blank ++ x :: tail))).length_le
          have hdrop : (trimStart (b :: blank ++ x :: tail)).length ≤ (blank ++ x :: tail).length := by
            rw [trimStart, List.cons_append, List.dropWhile_cons_of_pos hb]
            exact (List.dropWhile_suffix _).length_le
          simp only [trimmed, trimEnd, List.rdropWhile, List.nil_append, List.length_append, List.length_cons] at hlen hle hdrop
          omega
      have hxTake : (x :: tail).takeWhile (fun c => decide (c ≠ '=')) =
          x :: tail.takeWhile (fun c => decide (c ≠ '=')) := List.takeWhile_cons_of_pos (by simpa using hx)
      have hpre : ((c :: word') ++ (b :: blank) ++ x :: tail).takeWhile (fun c => decide (c ≠ '=')) =
          ((c :: word') ++ (b :: blank)) ++ x :: tail.takeWhile (fun c => decide (c ≠ '=')) := by
        rw [List.takeWhile_append_of_pos (fun c hc => by simpa using hfront c hc), hxTake]
      have hstart : trimStart (((c :: word') ++ (b :: blank)) ++ x :: tail.takeWhile fun c => decide (c ≠ '=')) =
          ((c :: word') ++ (b :: blank)) ++ x :: tail.takeWhile fun c => decide (c ≠ '=') :=
        List.dropWhile_cons_of_neg (by simp [hwordWhite c List.mem_cons_self])
      have hblank : b ∈ trimmed (((c :: word') ++ (b :: blank) ++ x :: tail).takeWhile fun c => decide (c ≠ '=')) := by
        rw [hpre, trimmed, hstart]
        exact (start_trimEnd hxWhite).subset (by simp)
      refine ⟨fun hone => ?_, _, _, c :: word', _, by rw [splitOption, if_pos hmem], ⟨b, hblank, hb⟩,
        by rw [hspec, if_neg (by simp)], ?_⟩
      · exact absurd (hone hmem b hblank) (by simp [hb])
      · rw [skipEquals_of_ne hx]
        exact firstWord_trimmed hxWhite
  · left
    refine ⟨fun h => absurd h hmem, ?_⟩
    have hrestEquals : ∀ c ∈ rest.head?, c ≠ '=' := by
      intro c hc hequal
      subst hequal
      exact hmem (List.mem_append_right _ (List.mem_of_mem_head? hc))
    have hwordKept : ∀ c ∈ word, (!isWhite c) = true := fun c hc => by simp [hwordWhite c hc]
    cases space with
    | nil =>
      have hnil : rest = [] := by
        cases rest with
        | nil => rfl
        | cons x rest => exact absurd (hequals rfl x rfl) (hrestEquals x rfl)
      subst hnil
      have hnone : (word ++ [] ++ []).dropWhile (fun c => !isWhite c) = [] := by
        rw [List.append_nil, List.append_nil]
        exact List.dropWhile_eq_nil_iff.mpr hwordKept
      rw [hspec, splitOption, if_neg hmem, hnone, if_pos ⟨rfl, rfl⟩]
    | cons b blank =>
      have hb : isWhite b = true := hspace b List.mem_cons_self
      have hcut := @takeWhile_append_cons (fun c => !isWhite c) word (blank ++ rest) b hwordKept (by simp [hb])
      have hline : word ++ b :: blank ++ rest = word ++ b :: (blank ++ rest) := by simp
      have hskip : skipEquals rest = rest := by
        cases rest with
        | nil => rfl
        | cons x rest => exact skipEquals_of_ne (hrestEquals x rfl)
      have hvalue : trimmed (blank ++ rest) = trimmed rest := by
        have hstart : trimStart (blank ++ rest) = trimStart rest := by
          rw [trimStart, trimStart, List.dropWhile_append_of_pos fun c hc => hspace c (List.mem_cons_of_mem b hc)]
        rw [trimmed, hstart, trimmed]
      rw [hspec, splitOption, if_neg hmem, hline, hcut.1, hcut.2, if_neg (by simp), hskip,
        trimmed_of_not_white hwordWhite]
      dsimp only
      rw [hvalue]

/-- OpenSSH's keywords have no space in them. -/
theorem keyword_not_white {line key value : Chars} (h : splitDirective line = some (key, value)) :
    ∀ c ∈ key, isWhite c = false := by
  unfold splitDirective at h
  split at h
  · cases h
  · cases h
    intro c hc
    exact (not_separates.mp (by simpa using List.mem_takeWhile_imp hc)).1

theorem white_lower {key : Chars} : (∃ c ∈ lower key, isWhite c = true) ↔ ∃ c ∈ key, isWhite c = true := by
  simp [lower, isWhite_asciiLowerChar]

/-! ### One block -/

/-- The first line for an option says what the last one says. -/
structure Agrees (options : List (Chars × Chars)) : Prop where
  hostName : (valuesOf .hostName options).head? = (valuesOf .hostName options).getLast?
  port : ((valuesOf .port options).head?.bind (parseUnsigned 16)).getD 22 =
    ((valuesOf .port options).filterMap (parseUnsigned 16)).getLast?.getD 22
  user : (valuesOf .user options).head? = (valuesOf .user options).getLast?
  proxyJump : (valuesOf .proxyJump options).head? = (valuesOf .proxyJump options).getLast?
  remoteCommand : (valuesOf .remoteCommand options).head? = (valuesOf .remoteCommand options).getLast?

def hostLine (line : Chars) : Bool := (splitOption line).any isHost

def matchLine (line : Chars) : Bool := (splitDirective line).any isMatch

/-- A block that there is one way to read. -/
structure Clean (lines : List Chars) : Prop where
  oneWord : ∀ line ∈ lines, OneWord line
  noMatch : ∀ line ∈ lines, matchLine line = false
  agrees : Agrees (lines.filterMap splitDirective)

/-- The options of a block that OpenSSH takes to be its own. -/
def ownOptions (lines : List Chars) : List (Chars × Chars) :=
  (lines.filterMap splitDirective).takeWhile fun d => !(isHost d || isMatch d)

/-- The block's address is blank, by its last HostName and by its first. -/
def Addressless (name : Chars) (lines : List Chars) : Prop :=
  trimmed ((valuesOf .hostName (lines.filterMap splitOption)).getLast?.getD name) = [] ∧
    trimmed ((valuesOf .hostName (ownOptions lines)).head?.getD name) = []

theorem mem_extrasOf {options : List (Chars × Chars)} {d : Chars × Chars} (h : d ∈ extrasOf options) :
    ∃ option ∈ options, d = (lower option.1, option.2) := by
  obtain ⟨option, hoption, rfl⟩ := List.mem_map.mp h
  exact ⟨option, (List.mem_filter.mp hoption).1, rfl⟩

theorem mem_extrasOf_of_other {options : List (Chars × Chars)} {d : Chars × Chars} (h : d ∈ options)
    (hother : keyword d = .other) : (lower d.1, d.2) ∈ extrasOf options :=
  List.mem_map.mpr ⟨d, List.mem_filter.mpr ⟨h, by simp [hother]⟩, rfl⟩

/-- A keyword with a space in it is none that a host has a place for. -/
theorem keyword_of_white {d : Chars × Chars} (h : ∃ c ∈ d.1, isWhite c = true) : keyword d = .other := by
  obtain ⟨c, hc, hwhite⟩ := white_lower.mpr h
  have hne : ∀ known : Chars, (known.all fun c => !isWhite c) = true → lower d.1 ≠ known := by
    rintro known hknown rfl
    exact absurd (eq_false_of_all_not hknown c hc) (by simp [hwhite])
  unfold keyword keywordOf
  rw [if_neg (hne _ (by decide)), if_neg (hne _ (by decide)), if_neg (hne _ (by decide)), if_neg (hne _ (by decide)),
    if_neg (hne _ (by decide)), if_neg (hne _ (by decide))]

theorem not_isHost_of_white {d : Chars × Chars} (h : ∃ c ∈ d.1, isWhite c = true) : isHost d = false := by
  obtain ⟨c, hc, hwhite⟩ := white_lower.mpr h
  have hhost : ∀ c ∈ "host".toList, isWhite c = false := eq_false_of_all_not (by decide)
  refine decide_eq_false fun heq => ?_
  rw [heq] at hc
  exact absurd (hhost c hc) (by simp [hwhite])

theorem keyword_of_match {d : Chars × Chars} (h : isMatch d = true) : keyword d = .other := by
  have hkey : lower d.1 = "match".toList := by simpa [isMatch] using h
  rw [keyword, hkey]
  decide

theorem filterMap_split {lines : List Chars} (htrim : ∀ line ∈ lines, trimmed line = line)
    (h : ∀ line ∈ lines, OneWord line) : lines.filterMap splitOption = lines.filterMap splitDirective := by
  apply List.filterMap_congr
  intro line hline
  rcases split_cases (htrim line hline) with hgood | hbad
  · exact hgood.2
  · exact absurd (h line hline) hbad.1

theorem any_eq_false_of_mem {lines : List Chars} {p : Chars × Chars → Bool} {d : Chars × Chars}
    (h : ∀ line ∈ lines, (splitDirective line).any p = false) (hd : d ∈ lines.filterMap splitDirective) : p d = false := by
  obtain ⟨line, hline, hsplit⟩ := List.mem_filterMap.mp hd
  have hline' := h line hline
  rwa [hsplit, Option.any_some] at hline'

theorem ownOptions_of_noMatch {lines : List Chars} (hhost : ∀ line ∈ lines, (splitDirective line).any isHost = false)
    (hmatch : ∀ line ∈ lines, matchLine line = false) : ownOptions lines = lines.filterMap splitDirective := by
  apply List.takeWhile_eq_self_iff.mpr
  intro d hd
  simp [any_eq_false_of_mem hhost hd, any_eq_false_of_mem hmatch hd]

theorem getD_getLast_eq_iff {values : List Chars} {name : Chars} :
    values.getLast?.getD name = values.head?.getD name ↔ values.head? = values.getLast? := by
  cases values with
  | nil => simp
  | cons value values =>
    rw [List.getLast?_cons, List.head?_cons, Option.getD_some, Option.getD_some, Option.some.injEq, eq_comm]

/-- The last lines make the host that the first lines make where they say the same. -/
theorem lastHost_eq_iff {name : Chars} {options : List (Chars × Chars)} :
    lastHost name options = hostOf name options ↔ Agrees options := by
  rw [lastHost, hostOf]
  simp only [ImportedHost.mk.injEq, true_and, and_true, getD_getLast_eq_iff]
  constructor
  · rintro ⟨haddress, hport, huser, hjump, hcommand⟩
    exact ⟨haddress, hport.symm, huser.symm, hjump.symm, hcommand.symm⟩
  · intro h
    exact ⟨h.hostName, h.port.symm, h.user.symm, h.proxyJump.symm, h.remoteCommand.symm⟩

/-- A host that is imported shows every line that was read another way. -/
theorem clean_of_eq {name : Chars} {lines : List Chars} (htrim : ∀ line ∈ lines, trimmed line = line)
    (hhost : ∀ line ∈ lines, (splitDirective line).any isHost = false)
    (h : lastHost name (lines.filterMap splitOption) = hostOf name (ownOptions lines)) : Clean lines := by
  have hextras : extrasOf (lines.filterMap splitOption) = extrasOf (ownOptions lines) := congrArg ImportedHost.extras h
  have hown : ∀ d ∈ ownOptions lines, (∀ c ∈ d.1, isWhite c = false) ∧ isMatch d = false := by
    intro d hd
    obtain ⟨line, -, hsplit⟩ := List.mem_filterMap.mp ((List.takeWhile_sublist _).subset hd)
    have hkept := List.mem_takeWhile_imp hd
    simp only [Bool.not_eq_true', Bool.or_eq_false_iff] at hkept
    exact ⟨keyword_not_white hsplit, hkept.2⟩
  have honeWord : ∀ line ∈ lines, OneWord line := by
    intro line hline
    rcases split_cases (htrim line hline) with hgood | ⟨-, key, value, word, rest, hsplit, hwhite, -, -⟩
    · exact hgood.1
    · exfalso
      have hmem : (key, value) ∈ lines.filterMap splitOption := List.mem_filterMap.mpr ⟨line, hline, hsplit⟩
      have hextra := mem_extrasOf_of_other hmem (keyword_of_white hwhite)
      rw [hextras] at hextra
      obtain ⟨d, hd, heq⟩ := mem_extrasOf hextra
      have hkey : lower key = lower d.1 := congrArg Prod.fst heq
      obtain ⟨c, hc, hcWhite⟩ := white_lower.mp (hkey ▸ white_lower.mpr hwhite : ∃ c ∈ lower d.1, isWhite c = true)
      exact absurd ((hown d hd).1 c hc) (by simp [hcWhite])
  have hsplit := filterMap_split htrim honeWord
  have hnoMatch : ∀ line ∈ lines, matchLine line = false := by
    intro line hline
    by_contra hmatch
    obtain ⟨d, hd, hisMatch⟩ := (Option.any_eq_true _ _).mp (by simpa [matchLine] using hmatch)
    have hmem : d ∈ lines.filterMap splitOption := by
      rw [hsplit]
      exact List.mem_filterMap.mpr ⟨line, hline, hd⟩
    have hextra := mem_extrasOf_of_other hmem (keyword_of_match hisMatch)
    rw [hextras] at hextra
    obtain ⟨d', hd', heq⟩ := mem_extrasOf hextra
    have hkey : lower d.1 = lower d'.1 := congrArg Prod.fst heq
    have hno := (hown d' hd').2
    rw [isMatch, ← hkey] at hno
    rw [isMatch, hno] at hisMatch
    cases hisMatch
  rw [hsplit, ownOptions_of_noMatch hhost hnoMatch] at h
  exact ⟨honeWord, hnoMatch, lastHost_eq_iff.mp h⟩

theorem outcome_eq_iff {name : Chars} {lines : List Chars} (htrim : ∀ line ∈ lines, trimmed line = line)
    (hhost : ∀ line ∈ lines, (splitDirective line).any isHost = false) :
    (lastHost name (lines.filterMap splitOption)).outcome = (hostOf name (ownOptions lines)).outcome ↔
      Clean lines ∨ Addressless name lines := by
  constructor
  · intro h
    unfold ImportedHost.outcome at h
    by_cases hlast : trimmed (lastHost name (lines.filterMap splitOption)).address = [] <;>
      by_cases hfirst : trimmed (hostOf name (ownOptions lines)).address = []
    · exact Or.inr ⟨hlast, hfirst⟩
    · rw [if_pos hlast, if_neg hfirst] at h
      cases h
    · rw [if_neg hlast, if_pos hfirst] at h
      cases h
    · rw [if_neg hlast, if_neg hfirst] at h
      exact Or.inl (clean_of_eq htrim hhost (Outcome.host.inj h))
  · rintro (hclean | ⟨hlast, hfirst⟩)
    · rw [filterMap_split htrim hclean.oneWord, ownOptions_of_noMatch hhost hclean.noMatch,
        lastHost_eq_iff.mpr hclean.agrees]
    · rw [ImportedHost.outcome, ImportedHost.outcome, if_pos (show trimmed (lastHost name _).address = [] from hlast),
        if_pos (show trimmed (hostOf name _).address = [] from hfirst)]
      rfl

/-! ### Whole texts -/

theorem trimmed_trimmed (cs : Chars) : trimmed (trimmed cs) = trimmed cs := by
  have hstart : trimStart (trimStart cs) = trimStart cs := List.dropWhile_idempotent _ _
  have hkept := trimStart_trimEnd hstart
  have hback : trimEnd (trimEnd (trimStart cs)) = trimEnd (trimStart cs) := by
    simp only [trimEnd, List.reverse_reverse]
    rw [List.dropWhile_idempotent]
  rw [trimmed, trimmed, hkept, hback]

theorem trimmed_of_mem_linesOf {text line : Chars} (h : line ∈ linesOf text) : trimmed line = line := by
  obtain ⟨raw, -, rfl⟩ := List.mem_map.mp (List.mem_filter.mp h).1
  exact trimmed_trimmed raw

/-- Where the importer reads every host as OpenSSH does: no `Host` line has an equals sign among its names, and
each block can be read in one way or has no address in either. -/
structure Readable (text : Chars) : Prop where
  hosts : ∀ line ∈ linesOf text, (splitDirective line).any isHost = true → OneWord line
  blocks : ∀ block ∈ sections hostLine hostLine (linesOf text), ∀ d name, splitOption block.1 = some d →
    firstWord d.2 = some name → isPattern name = false → Clean block.2 ∨ Addressless name block.2

/-- With every `Host` line read as OpenSSH reads it, both find the same blocks. -/
theorem hostLine_eq {text line : Chars} (h : ∀ line ∈ linesOf text, (splitDirective line).any isHost = true → OneWord line)
    (hline : line ∈ linesOf text) : hostLine line = (splitDirective line).any isHost := by
  rcases split_cases (trimmed_of_mem_linesOf hline) with hgood | ⟨hbad, key, value, word, rest, hsplit, hwhite, -, -⟩
  · rw [hostLine, hgood.2]
  · have hspec : (splitDirective line).any isHost = false := by
      by_contra hhost
      exact hbad (h line hline (by simpa using hhost))
    rw [hspec, hostLine, hsplit, Option.any_some]
    exact not_isHost_of_white hwhite

/-- What the importer makes of a block, and what OpenSSH makes of it. -/
theorem outcomes_of_blocks (text : Chars) : outcomes text =
    (sections hostLine hostLine (linesOf text)).filterMap fun block =>
      (splitOption block.1).bind fun d => outcomeOf lastHost (d, block.2.filterMap splitOption) := by
  have hread : (fun name options => readHost (.named name) options) = lastHost := by
    funext name options
    exact readHost_eq name options
  rw [outcomes_eq, hread, @sections_filterMap _ _ hostLine (linesOf text) splitOption isHost fun _ _ => rfl,
    List.filterMap_filterMap]
  congr 1
  funext block
  cases splitOption block.1 <;> rfl

theorem openSshOutcomes_of_blocks {text : Chars}
    (h : ∀ line ∈ linesOf text, (splitDirective line).any isHost = true → OneWord line) : openSshOutcomes text =
    (sections hostLine hostLine (linesOf text)).filterMap fun block =>
      (splitDirective block.1).bind fun d => outcomeOf hostOf (d, ownOptions block.2) := by
  have hends : ∀ d, isHost d = true → (isHost d || isMatch d) = true := fun d hd => by simp [hd]
  rw [openSshOutcomes, sections_ends hends,
    @sections_filterMap _ _ hostLine (linesOf text) splitDirective isHost fun line hline => hostLine_eq h hline,
    List.map_filterMap, List.filterMap_filterMap]
  congr 1
  funext block
  cases splitDirective block.1 <;> rfl

theorem length_outcomes {host : Chars → List (Chars × Chars) → ImportedHost} {ends : Chars × Chars → Bool}
    (ds : List (Chars × Chars)) : ((sections isHost ends ds).filterMap (outcomeOf host)).length =
      ds.countP fun d => isHost d && (firstWord d.2).isSome := by
  induction ds with
  | nil => rfl
  | cons d ds ih =>
    rw [List.countP_cons, ← ih]
    cases hd : isHost d with
    | false => simp [sections_other hd]
    | true =>
      rw [sections_head hd, List.filterMap_cons]
      cases hname : firstWord d.2 <;> simp [outcomeOf, hname]

/-- Whoever counts more of a list's members counts more. -/
theorem countP_lt {p q : Chars → Bool} {lines : List Chars} {line : Chars} (hpq : ∀ l ∈ lines, p l = true → q l = true)
    (hline : line ∈ lines) (hp : p line = false) (hq : q line = true) : lines.countP p < lines.countP q := by
  induction lines with
  | nil => cases hline
  | cons l lines ih =>
    have hrest : ∀ l ∈ lines, p l = true → q l = true := fun x hx => hpq x (List.mem_cons_of_mem l hx)
    have hhead := hpq l List.mem_cons_self
    rw [List.countP_cons, List.countP_cons]
    rcases List.mem_cons.mp hline with rfl | hmem
    · have hle := List.countP_mono_left hrest
      rw [hp, hq]
      simp
      omega
    · have hlt := ih hrest hmem
      cases hpl : p l with
      | false => cases q l <;> simp <;> omega
      | true =>
        rw [hhead hpl]
        simp
        omega

theorem outcomes_eq_iff_readable (text : Chars) : outcomes text = openSshOutcomes text ↔ Readable text := by
  by_cases hhosts : ∀ line ∈ linesOf text, (splitDirective line).any isHost = true → OneWord line
  · have hblock : ∀ block ∈ sections hostLine hostLine (linesOf text),
        splitDirective block.1 = splitOption block.1 ∧ (∀ line ∈ block.2, trimmed line = line) ∧
          ∀ line ∈ block.2, (splitDirective line).any isHost = false := by
      intro block hmem
      obtain ⟨hline, hhead, hbody⟩ := mem_of_section hmem
      refine ⟨?_, fun line hl => trimmed_of_mem_linesOf (hbody line hl).1, fun line hl => ?_⟩
      · have hone := hhosts block.1 hline ((hostLine_eq hhosts hline) ▸ hhead)
        rcases split_cases (trimmed_of_mem_linesOf hline) with hgood | hbad
        · exact hgood.2.symm
        · exact absurd hone hbad.1
      · rw [← hostLine_eq hhosts (hbody line hl).1]
        exact (hbody line hl).2
    have heach : ∀ block ∈ sections hostLine hostLine (linesOf text),
        ((splitOption block.1).bind fun d => outcomeOf lastHost (d, block.2.filterMap splitOption)) =
            ((splitDirective block.1).bind fun d => outcomeOf hostOf (d, ownOptions block.2)) ↔
          ∀ d name, splitOption block.1 = some d → firstWord d.2 = some name → isPattern name = false →
            Clean block.2 ∨ Addressless name block.2 := by
      intro block hmem
      obtain ⟨hsplit, htrim, hbody⟩ := hblock block hmem
      rw [hsplit]
      cases hd : splitOption block.1 with
      | none => simp
      | some d =>
        have hnamed : outcomeOf lastHost (d, block.2.filterMap splitOption) = outcomeOf hostOf (d, ownOptions block.2) ↔
            ∀ name, firstWord d.2 = some name → isPattern name = false → Clean block.2 ∨ Addressless name block.2 := by
          unfold outcomeOf
          cases hname : firstWord d.2 with
          | none => simp
          | some name =>
            cases hpattern : isPattern name with
            | true => simp [hpattern]
            | false => simpa [hpattern] using @outcome_eq_iff name _ htrim hbody
        rw [Option.bind_some, Option.bind_some, hnamed]
        constructor
        · rintro h _ name ⟨⟩
          exact h name
        · intro h name
          exact h d name rfl
    rw [outcomes_of_blocks, openSshOutcomes_of_blocks hhosts, filterMap_eq_iff]
    · constructor
      · intro h
        exact ⟨hhosts, fun block hmem => (heach block hmem).mp (h block hmem)⟩
      · intro h block hmem
        exact (heach block hmem).mpr (h.blocks block hmem)
    · intro block hmem
      rw [(hblock block hmem).1]
      cases splitOption block.1 <;> simp [outcomeOf]
  · refine ⟨fun heq => ?_, fun h => absurd h.hosts hhosts⟩
    exfalso
    push Not at hhosts
    obtain ⟨line, hline, hhost, hbad⟩ := hhosts
    have hcount := congrArg List.length heq
    rw [outcomes_eq, openSshOutcomes, length_outcomes, length_outcomes, List.countP_filterMap,
      List.countP_filterMap] at hcount
    rcases split_cases (trimmed_of_mem_linesOf hline) with hgood | ⟨-, key, value, word, rest, hcode, hwhite, hspec, hname⟩
    · exact hbad hgood.1
    refine absurd hcount (Nat.ne_of_lt (countP_lt (fun l hl hp => ?_) hline ?_ ?_))
    · rcases split_cases (trimmed_of_mem_linesOf hl) with hgood' | ⟨-, key', value', _, _, hcode', hwhite', -, -⟩
      · rw [← hgood'.2]
        exact hp
      · rw [hcode', Option.map_some, Option.getD_some, not_isHost_of_white hwhite'] at hp
        cases hp
    · rw [hcode, Option.map_some, Option.getD_some, not_isHost_of_white hwhite]
      rfl
    · rw [hspec, Option.any_some] at hhost
      rw [hspec, Option.map_some, Option.getD_some, hhost, hname]
      rfl

/-- The importer reads every host's own options, as OpenSSH does, in these texts and no others, and what it hands
back is then what OpenSSH's reading comes to. -/
theorem outcomes_eq_openSsh_iff (text : Chars) :
    (outcomes text = openSshOutcomes text ↔ Readable text) ∧
      (Readable text → importText text = resultOf (openSshOutcomes text)) := by
  refine ⟨outcomes_eq_iff_readable text, fun hreadable => ?_⟩
  rw [importText, (outcomes_eq_iff_readable text).mpr hreadable]

/-- An equals sign in a value, a `Match` line in a block, and an option said twice. -/
theorem outcomes_not_openSsh :
    outcomes "Host a\nRemoteCommand LANG=C sh\n".toList ≠ openSshOutcomes "Host a\nRemoteCommand LANG=C sh\n".toList ∧
    outcomes "Host a\nMatch user root\nPort 2222\n".toList ≠
      openSshOutcomes "Host a\nMatch user root\nPort 2222\n".toList ∧
    outcomes "Host a\nUser root\nUser lorin\n".toList ≠ openSshOutcomes "Host a\nUser root\nUser lorin\n".toList := by
  decide +kernel

end UwuSsh.SshConfig

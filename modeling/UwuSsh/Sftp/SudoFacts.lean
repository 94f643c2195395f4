import UwuSsh.Sftp.SudoConversation

/-!
What a conversation with sudo comes to. As long as nothing was decided, neither marker was read, and the
prompt at most once, and then the password was written right behind it. Each byte more decides by what
the bytes read end with, so a whole output is told from its last line just when nothing in it is a marker
or a prompt that cannot be answered, and it is not too long.
-/
namespace UwuSsh.Sftp

open Search

/-- The bytes of sudo's prompt. -/
def promptBytes : List UInt8 := asBytes sudoPrompt

/-- A text whose bytes can be looked for one by one. -/
def Findable (text : String) : Prop := Utf8.IsAscii text.toList ∧ text.toList ≠ []

instance (text : String) : Decidable (Findable text) :=
  inferInstanceAs (Decidable (Utf8.IsAscii text.toList ∧ text.toList ≠ []))

/-- Two markers that can be told apart while they come in: on the way to either of them nothing else ends,
and no line end is in them. -/
structure Markers.Distinct (markers : Markers) : Prop where
  done : Findable markers.done
  failed : Findable markers.failed
  apart : ∀ whole ∈ [asBytes markers.done, asBytes markers.failed], ∀ k < whole.length,
    ∀ part ∈ [asBytes markers.done, asBytes markers.failed, promptBytes], ¬ part <:+ whole.take k
  other : ¬ asBytes markers.done <:+ asBytes markers.failed ∧ ¬ promptBytes <:+ asBytes markers.failed
  inLine : ∀ part ∈ [asBytes markers.done, asBytes markers.failed, promptBytes], 10 ∉ part

theorem findable_sudoPrompt : Findable sudoPrompt := by decide

theorem distinct_markers (markers : Markers) (h : markers ∈ [Markers.elevate, .remove, .change]) :
    markers.Distinct := by
  rcases List.mem_cons.mp h with rfl | h
  · constructor <;> decide +kernel
  rcases List.mem_cons.mp h with rfl | h
  · constructor <;> decide +kernel
  · rw [List.mem_singleton.mp h]
    constructor <;> decide +kernel

theorem borderless_sudoPrompt : Borderless sudoPrompt.toList := by decide +kernel

theorem asBytes_ne_nil {text : String} (h : Findable text) : asBytes text ≠ [] := by
  simpa [asBytes, Utf8.asciiBytes] using h.2

theorem occurrences_text {text : String} (h : Findable text) (seen : List UInt8) :
    occurrences text.toList (Utf8.decodeLossy seen) = occurrences (asBytes text) seen :=
  Utf8.occurrences_decodeLossy h.1 h.2 seen

theorem contains_text {text : String} (h : Findable text) (seen : List UInt8) :
    contains text.toList (Utf8.decodeLossy seen) = true ↔ 0 < occurrences (asBytes text) seen := by
  rw [contains, occurrences_text h, decide_eq_true_eq]

theorem trimEndMatches_start (text : List Char) : trimEndMatches text <+: text :=
  List.rdropWhile_prefix _ text

/-- Behind the prompt the text ends with it. -/
theorem prompted_of_suffix {seen : List UInt8} (h : promptBytes <:+ seen) :
    sudoPrompt.toList <:+ trimEndMatches (Utf8.decodeLossy seen) := by
  obtain ⟨front, rfl⟩ := h
  have htext : Utf8.decodeLossy (front ++ promptBytes) = Utf8.decodeLossy front ++ sudoPrompt.toList :=
    Utf8.decodeLossy_append_ascii findable_sudoPrompt.1 front
  have hlast : sudoPrompt.toList = sudoPrompt.toList.dropLast ++ [':'] := by decide
  have hkeep : trimEndMatches (Utf8.decodeLossy front ++ sudoPrompt.toList) =
      Utf8.decodeLossy front ++ sudoPrompt.toList := by
    rw [hlast, ← List.append_assoc]
    exact List.rdropWhile_concat_neg _ _ _ (by decide)
  rw [htext, hkeep]
  exact List.suffix_append _ _

/-- Where the text ends with the prompt, the prompt was read. -/
theorem occurs_of_prompted {seen : List UInt8}
    (h : sudoPrompt.toList <:+ trimEndMatches (Utf8.decodeLossy seen)) : 0 < occurrences promptBytes seen := by
  have hin : sudoPrompt.toList <:+: Utf8.decodeLossy seen :=
    h.isInfix.trans (trimEndMatches_start _).isInfix
  rw [promptBytes, ← occurrences_text findable_sudoPrompt]
  exact (occurrences_pos_iff findable_sudoPrompt.2).mpr hin

section Steps

variable {markers : Markers} (h : markers.Distinct) {seen : List UInt8} {answered : Bool}
include h

theorem elevationStep_ready (hdone : 0 < occurrences (asBytes markers.done) seen) :
    elevationStep seen answered markers = .ready := by
  simp only [elevationStep, (contains_text h.done seen).mpr hdone, if_true]

theorem not_contains_done (hdone : occurrences (asBytes markers.done) seen = 0) :
    ¬ contains markers.done.toList (Utf8.decodeLossy seen) = true := by
  rw [contains_text h.done]
  omega

theorem elevationStep_missing (hdone : occurrences (asBytes markers.done) seen = 0)
    (hfailed : 0 < occurrences (asBytes markers.failed) seen) :
    elevationStep seen answered markers = .missing := by
  simp only [elevationStep, not_contains_done h hdone, (contains_text h.failed seen).mpr hfailed, if_true, Bool.false_eq_true,
    if_false]

/-- Without a marker it is up to the prompt. -/
theorem elevationStep_quiet (hdone : occurrences (asBytes markers.done) seen = 0)
    (hfailed : occurrences (asBytes markers.failed) seen = 0) :
    elevationStep seen answered markers =
      if ¬ sudoPrompt.toList <:+ trimEndMatches (Utf8.decodeLossy seen) then .wait
      else if occurrences promptBytes seen = 1 then if answered then .wait else .password
      else .rejected := by
  have hnot : ¬ contains markers.failed.toList (Utf8.decodeLossy seen) = true := by
    rw [contains_text h.failed]
    omega
  have hcount : matchesAfter sudoPrompt.toList 0 (Utf8.decodeLossy seen) = occurrences promptBytes seen := by
    rw [matches_eq borderless_sudoPrompt, occurrences_text findable_sudoPrompt, promptBytes]
  simp only [elevationStep, not_contains_done h hdone, hnot, hcount, Bool.false_eq_true, if_false]

end Steps

/-- A conversation in which nothing was decided. -/
structure Sound (markers : Markers) (conversation : Conversation) : Prop where
  noDone : occurrences (asBytes markers.done) conversation.seen = 0
  noFailed : occurrences (asBytes markers.failed) conversation.seen = 0
  prompts : occurrences promptBytes conversation.seen = conversation.written.length
  answered : conversation.answered = !conversation.written.isEmpty
  once : conversation.written.length ≤ 1

theorem sound_start (markers : Markers) : Sound markers .start :=
  ⟨rfl, rfl, rfl, rfl, Nat.zero_le 1⟩

/-- A part not read so far was read with the byte that ends it. -/
theorem occurrences_read {part seen : List UInt8} (hne : part ≠ []) (hnone : occurrences part seen = 0)
    (byte : UInt8) :
    occurrences part (seen ++ [byte]) = if part <:+ seen ++ [byte] then 1 else 0 := by
  rw [occurrences_append_singleton hne, hnone, Nat.zero_add]

theorem promptBytes_ne_nil : promptBytes ≠ [] := asBytes_ne_nil findable_sudoPrompt

section Reading

variable {markers : Markers} (h : markers.Distinct) {conversation : Conversation}
  (hs : Sound markers conversation) (password : Option (List UInt8)) (writeError : Option String)
  {byte : UInt8}
include h hs

theorem read_done (hdone : asBytes markers.done <:+ conversation.seen ++ [byte]) :
    conversation.read markers password writeError byte =
      .inr ({ conversation with seen := conversation.seen ++ [byte] },
        .ok (.done (conversation.seen ++ [byte]))) := by
  have hocc := occurrences_read (asBytes_ne_nil h.done) hs.noDone byte
  rw [if_pos hdone] at hocc
  have hstep : elevationStep (conversation.seen ++ [byte]) conversation.answered markers = .ready :=
    elevationStep_ready h (by rw [hocc]; exact Nat.one_pos)
  simp only [Conversation.read, hstep]

theorem read_failed (hdone : ¬ asBytes markers.done <:+ conversation.seen ++ [byte])
    (hfailed : asBytes markers.failed <:+ conversation.seen ++ [byte]) :
    conversation.read markers password writeError byte =
      .inr ({ conversation with seen := conversation.seen ++ [byte] },
        .ok (.failed (conversation.seen ++ [byte]))) := by
  have hnone := occurrences_read (asBytes_ne_nil h.done) hs.noDone byte
  have hocc := occurrences_read (asBytes_ne_nil h.failed) hs.noFailed byte
  rw [if_neg hdone] at hnone
  rw [if_pos hfailed] at hocc
  have hstep : elevationStep (conversation.seen ++ [byte]) conversation.answered markers = .missing :=
    elevationStep_missing h hnone (by rw [hocc]; exact Nat.one_pos)
  simp only [Conversation.read, hstep]

/-- Where neither marker ends, the step is about the prompt. -/
theorem step_quiet (hdone : ¬ asBytes markers.done <:+ conversation.seen ++ [byte])
    (hfailed : ¬ asBytes markers.failed <:+ conversation.seen ++ [byte]) :
    elevationStep (conversation.seen ++ [byte]) conversation.answered markers =
      if ¬ sudoPrompt.toList <:+ trimEndMatches (Utf8.decodeLossy (conversation.seen ++ [byte])) then .wait
      else if occurrences promptBytes (conversation.seen ++ [byte]) = 1 then
        if conversation.answered then .wait else .password
      else .rejected := by
  have hnone := occurrences_read (asBytes_ne_nil h.done) hs.noDone byte
  have hnone' := occurrences_read (asBytes_ne_nil h.failed) hs.noFailed byte
  rw [if_neg hdone] at hnone
  rw [if_neg hfailed] at hnone'
  exact elevationStep_quiet h hnone hnone'

theorem read_prompt (hdone : ¬ asBytes markers.done <:+ conversation.seen ++ [byte])
    (hfailed : ¬ asBytes markers.failed <:+ conversation.seen ++ [byte])
    (hprompt : promptBytes <:+ conversation.seen ++ [byte]) (hnone : conversation.written = []) :
    conversation.read markers password writeError byte =
      ({ conversation with seen := conversation.seen ++ [byte] } : Conversation).answer password
        writeError := by
  have hocc : occurrences promptBytes (conversation.seen ++ [byte]) = 1 := by
    rw [occurrences_append_singleton promptBytes_ne_nil, if_pos hprompt, hs.prompts, hnone, List.length_nil]
  have hanswered : conversation.answered = false := by rw [hs.answered, hnone]; rfl
  have hstep : elevationStep (conversation.seen ++ [byte]) conversation.answered markers = .password := by
    rw [step_quiet h hs hdone hfailed, if_neg (not_not.mpr (prompted_of_suffix hprompt)), if_pos hocc,
      hanswered, if_neg Bool.false_ne_true]
  simp only [Conversation.read, hstep]

theorem read_again (hdone : ¬ asBytes markers.done <:+ conversation.seen ++ [byte])
    (hfailed : ¬ asBytes markers.failed <:+ conversation.seen ++ [byte])
    (hprompt : promptBytes <:+ conversation.seen ++ [byte]) (hsome : conversation.written ≠ []) :
    conversation.read markers password writeError byte =
      .inr ({ conversation with seen := conversation.seen ++ [byte] }, .error .sudoPasswordRejected) := by
  have hlen : 0 < conversation.written.length := List.length_pos_iff.mpr hsome
  have hocc : occurrences promptBytes (conversation.seen ++ [byte]) ≠ 1 := by
    rw [occurrences_append_singleton promptBytes_ne_nil, if_pos hprompt, hs.prompts]
    omega
  have hstep : elevationStep (conversation.seen ++ [byte]) conversation.answered markers = .rejected := by
    rw [step_quiet h hs hdone hfailed, if_neg (not_not.mpr (prompted_of_suffix hprompt)), if_neg hocc]
  simp only [Conversation.read, hstep]

/-- A byte that ends nothing is waited behind, also where the answered prompt still stands at the end. -/
theorem read_other (hdone : ¬ asBytes markers.done <:+ conversation.seen ++ [byte])
    (hfailed : ¬ asBytes markers.failed <:+ conversation.seen ++ [byte])
    (hprompt : ¬ promptBytes <:+ conversation.seen ++ [byte]) :
    conversation.read markers password writeError byte =
      if elevationOutputLimit < (conversation.seen ++ [byte]).length then
        .inr ({ conversation with seen := conversation.seen ++ [byte] },
          .error (.sudoRefused (lastWords (conversation.seen ++ [byte]) "sudo said too much")))
      else .inl { conversation with seen := conversation.seen ++ [byte] } := by
  have hocc : occurrences promptBytes (conversation.seen ++ [byte]) = conversation.written.length := by
    rw [occurrences_append_singleton promptBytes_ne_nil, if_neg hprompt, hs.prompts, Nat.add_zero]
  have hstep : elevationStep (conversation.seen ++ [byte]) conversation.answered markers = .wait := by
    rw [step_quiet h hs hdone hfailed]
    by_cases hstands : sudoPrompt.toList <:+ trimEndMatches (Utf8.decodeLossy (conversation.seen ++ [byte]))
    · have hpos := occurs_of_prompted hstands
      have hone : occurrences promptBytes (conversation.seen ++ [byte]) = 1 := by
        have := hs.once
        omega
      have hsome : conversation.written ≠ [] := by
        rw [← List.length_pos_iff]
        omega
      have hanswered : conversation.answered = true := by rw [hs.answered]; simpa using hsome
      rw [if_neg (not_not.mpr hstands), if_pos hone, if_pos hanswered]
    · rw [if_pos hstands]
  simp only [Conversation.read, hstep]

end Reading

/-- What was written: the password's line, once, right behind the first prompt. -/
structure Answered (password : Option (List UInt8)) (conversation : Conversation) : Prop where
  once : conversation.written.length ≤ 1
  toPrompt : ∀ answer ∈ conversation.written, answer.seen <+: conversation.seen ∧
    promptBytes <:+ answer.seen ∧ occurrences promptBytes answer.seen = 1 ∧
      ∃ secret, password = some secret ∧ answer.line = secret ++ [10]

/-- How many prompts can be answered. -/
def answers (password : Option (List UInt8)) (writeError : Option String) : ℕ :=
  if password.isSome ∧ writeError = none then 1 else 0

/-- A conversation that waits for more. -/
structure Waiting (markers : Markers) (password : Option (List UInt8)) (writeError : Option String)
    (conversation : Conversation) : Prop where
  sound : Sound markers conversation
  answered : Answered password conversation
  able : conversation.written.length ≤ answers password writeError

theorem waiting_start (markers : Markers) (password : Option (List UInt8)) (writeError : Option String) :
    Waiting markers password writeError .start :=
  ⟨sound_start markers, ⟨Nat.zero_le 1, by simp [Conversation.start]⟩, Nat.zero_le _⟩

/-- What decided a conversation that waited: what the bytes read end with, or their number. -/
inductive Decided (markers : Markers) (password : Option (List UInt8)) (writeError : Option String)
    (seen : List UInt8) : Except SftpError Outcome → Prop
  | done (h : asBytes markers.done <:+ seen) : Decided markers password writeError seen (.ok (.done seen))
  | failed (h : asBytes markers.failed <:+ seen) :
      Decided markers password writeError seen (.ok (.failed seen))
  | prompt (error : SftpError) (h : promptBytes <:+ seen)
      (hmany : answers password writeError < occurrences promptBytes seen) :
      Decided markers password writeError seen (.error error)
  | limit (error : SftpError) (h : elevationOutputLimit < seen.length) :
      Decided markers password writeError seen (.error error)

theorem Answered.longer {password : Option (List UInt8)} {conversation : Conversation}
    (h : Answered password conversation) {seen : List UInt8} (hle : conversation.seen <+: seen) :
    Answered password { conversation with seen } :=
  ⟨h.once, fun answer hanswer => ⟨(h.toPrompt answer hanswer).1.trans hle, (h.toPrompt answer hanswer).2⟩⟩

section Turns

variable {markers : Markers} (h : markers.Distinct) {password : Option (List UInt8)}
  {writeError : Option String} {conversation : Conversation}
  (hw : Waiting markers password writeError conversation) {byte : UInt8}
include h hw

/-- A prompt that is answered, or cannot be. -/
theorem answer_cases (hdone : ¬ asBytes markers.done <:+ conversation.seen ++ [byte])
    (hfailed : ¬ asBytes markers.failed <:+ conversation.seen ++ [byte])
    (hprompt : promptBytes <:+ conversation.seen ++ [byte]) (hnone : conversation.written = []) :
    (∃ next, conversation.read markers password writeError byte = .inl next ∧
        Waiting markers password writeError next ∧ next.seen = conversation.seen ++ [byte]) ∨
      ∃ last result, conversation.read markers password writeError byte = .inr (last, result) ∧
        last.seen = conversation.seen ++ [byte] ∧ Answered password last ∧
        Decided markers password writeError (conversation.seen ++ [byte]) result := by
  have hs := hw.sound
  have hread := read_prompt h hs password writeError hdone hfailed hprompt hnone
  have hocc : occurrences promptBytes (conversation.seen ++ [byte]) = 1 := by
    rw [occurrences_append_singleton promptBytes_ne_nil, if_pos hprompt, hs.prompts, hnone, List.length_nil]
  have hwritten : ∀ secret, password = some secret → ∀ answered : Bool, Answered password
      { seen := conversation.seen ++ [byte], answered := answered
        written := [{ seen := conversation.seen ++ [byte], line := secret ++ [10] }] } := by
    intro secret hsecret answered
    refine ⟨Nat.le_refl 1, fun answer hanswer => ?_⟩
    rw [List.mem_singleton.mp hanswer]
    exact ⟨List.prefix_rfl, hprompt, hocc, secret, hsecret, rfl⟩
  rw [hread]
  cases password with
  | none =>
    have hmany : answers none writeError < occurrences promptBytes (conversation.seen ++ [byte]) := by
      rw [hocc]
      exact Nat.one_pos
    exact .inr ⟨_, _, rfl, rfl, hw.answered.longer (List.prefix_append _ _), .prompt _ hprompt hmany⟩
  | some secret =>
    cases writeError with
    | some message =>
      have hmany : answers (some secret) (some message) <
          occurrences promptBytes (conversation.seen ++ [byte]) := by
        rw [hocc]
        exact Nat.one_pos
      refine .inr ⟨_, _, rfl, rfl, ?_, .prompt _ hprompt hmany⟩
      simpa [hnone] using hwritten secret rfl conversation.answered
    | none =>
      refine .inl ⟨_, rfl, ⟨⟨?_, ?_, ?_, ?_, ?_⟩, ?_, ?_⟩, rfl⟩
      · rw [occurrences_read (asBytes_ne_nil h.done) hs.noDone, if_neg hdone]
      · rw [occurrences_read (asBytes_ne_nil h.failed) hs.noFailed, if_neg hfailed]
      · simpa [hnone] using hocc
      · simp
      · simp [hnone]
      · simpa [hnone] using hwritten secret rfl true
      · simp [hnone, answers]

/-- One byte more: still waiting, or decided. -/
theorem read_cases :
    (∃ next, conversation.read markers password writeError byte = .inl next ∧
        Waiting markers password writeError next ∧ next.seen = conversation.seen ++ [byte]) ∨
      ∃ last result, conversation.read markers password writeError byte = .inr (last, result) ∧
        last.seen = conversation.seen ++ [byte] ∧ Answered password last ∧
        Decided markers password writeError (conversation.seen ++ [byte]) result := by
  have hs := hw.sound
  have hlonger := hw.answered.longer (List.prefix_append conversation.seen [byte])
  by_cases hdone : asBytes markers.done <:+ conversation.seen ++ [byte]
  · exact .inr ⟨_, _, read_done h hs password writeError hdone, rfl, hlonger, .done hdone⟩
  by_cases hfailed : asBytes markers.failed <:+ conversation.seen ++ [byte]
  · exact .inr ⟨_, _, read_failed h hs password writeError hdone hfailed, rfl, hlonger, .failed hfailed⟩
  by_cases hprompt : promptBytes <:+ conversation.seen ++ [byte]
  · by_cases hnone : conversation.written = []
    · exact answer_cases h hw hdone hfailed hprompt hnone
    · have hlen : 0 < conversation.written.length := List.length_pos_iff.mpr hnone
      have hmany : answers password writeError < occurrences promptBytes (conversation.seen ++ [byte]) := by
        rw [occurrences_append_singleton promptBytes_ne_nil, if_pos hprompt, hs.prompts, answers]
        split <;> omega
      exact .inr ⟨_, _, read_again h hs password writeError hdone hfailed hprompt hnone, rfl, hlonger,
        .prompt _ hprompt hmany⟩
  · have hread := read_other h hs password writeError hdone hfailed hprompt
    split at hread
    · rename_i hlimit
      exact .inr ⟨_, _, hread, rfl, hlonger, .limit _ hlimit⟩
    · refine .inl ⟨_, hread, ⟨⟨?_, ?_, ?_, hs.answered, hs.once⟩, hlonger, hw.able⟩, rfl⟩
      · rw [occurrences_read (asBytes_ne_nil h.done) hs.noDone, if_neg hdone]
      · rw [occurrences_read (asBytes_ne_nil h.failed) hs.noFailed, if_neg hfailed]
      · rw [occurrences_append_singleton promptBytes_ne_nil, if_neg hprompt, hs.prompts, Nat.add_zero]

theorem waiting_of_feed {next : Conversation} {stream : List UInt8}
    (hfeed : Feed.feed (Conversation.read markers password writeError) conversation stream = .waiting next) :
    Waiting markers password writeError next ∧ next.seen = conversation.seen ++ stream := by
  induction stream generalizing conversation with
  | nil =>
    cases hfeed
    exact ⟨hw, (List.append_nil _).symm⟩
  | cons byte rest ih =>
    rcases @read_cases markers h password writeError conversation hw byte with
      ⟨middle, hread, hmiddle, hseen⟩ | ⟨last, result, hread, -⟩
    · simp only [Feed.feed, hread] at hfeed
      obtain ⟨hnext, hall⟩ := ih hmiddle hfeed
      exact ⟨hnext, by rw [hall, hseen, List.append_assoc, List.singleton_append]⟩
    · simp [Feed.feed, hread] at hfeed

/-- A conversation is decided by the bytes up to one of them, and nothing behind it was read. -/
theorem decided_of_feed {last : Conversation} {result : Except SftpError Outcome}
    {stream left : List UInt8}
    (hfeed : Feed.feed (Conversation.read markers password writeError) conversation stream =
      .stopped (last, result) left) :
    ∃ front byte before, stream = front ++ byte :: left ∧
      Waiting markers password writeError before ∧ before.seen = conversation.seen ++ front ∧
      last.seen = conversation.seen ++ front ++ [byte] ∧ Answered password last ∧
      Decided markers password writeError (conversation.seen ++ front ++ [byte]) result := by
  obtain ⟨front, byte, before, hstream, hfront, hlast⟩ := Feed.exists_of_stopped _ hfeed
  obtain ⟨hbefore, hseen⟩ := waiting_of_feed h hw hfront
  rcases @read_cases markers h password writeError before hbefore byte with
    ⟨middle, hread, -⟩ | ⟨last', result', hread, hlast', hanswered, hdecided⟩
  · rw [hread] at hlast
    cases hlast
  · rw [hread] at hlast
    cases hlast
    rw [hseen] at hlast' hdecided
    exact ⟨front, byte, before, hstream, hbefore, hseen, hlast', hanswered, hdecided⟩

end Turns

/-- An output that decides nothing by itself: no marker in it, no prompt but one that is answered, and
room for the marker behind it. -/
structure Undecided (markers : Markers) (password : Option (List UInt8)) (writeError : Option String)
    (output : List UInt8) : Prop where
  noDone : occurrences (asBytes markers.done) output = 0
  noFailed : occurrences (asBytes markers.failed) output = 0
  prompts : occurrences promptBytes output ≤ answers password writeError
  short : output.length + (asBytes markers.done).length ≤ elevationOutputLimit + 1

/-- Lines, each with its end. -/
def IsLines (output : List UInt8) : Prop := output = [] ∨ output.getLast? = some 10

instance (output : List UInt8) : Decidable (IsLines output) := inferInstanceAs (Decidable (_ ∨ _))

section Outputs

variable {markers : Markers} (h : markers.Distinct) {password : Option (List UInt8)}
  {writeError : Option String} {output : List UInt8}

/-- What ends in the next line ends there, not before it. -/
theorem suffix_of_lines {part line : List UInt8} (hlines : IsLines output) (hpart : 10 ∉ part)
    (hsuf : part <:+ output ++ line) : part <:+ line := by
  rcases hlines with rfl | hlast
  · exact hsuf
  · obtain ⟨front, rfl⟩ := List.getLast?_eq_some_iff.mp hlast
    rw [List.append_assoc] at hsuf
    exact isSuffix_of_not_mem hpart hsuf

include h

theorem waiting_of_undecided (hund : Undecided markers password writeError output) :
    ∃ conversation, Feed.feed (Conversation.read markers password writeError) .start output =
      .waiting conversation := by
  cases hfeed : Feed.feed (Conversation.read markers password writeError) .start output with
  | waiting conversation => exact ⟨conversation, rfl⟩
  | stopped final left =>
    exfalso
    obtain ⟨last, result⟩ := final
    obtain ⟨front, byte, before, hstream, hbefore, hseen, -, -, hdecided⟩ :=
      decided_of_feed h (waiting_start markers password writeError) hfeed
    have hstream' : output = front ++ [byte] ++ left := by rw [hstream, List.append_assoc]; rfl
    have hle : ∀ part, occurrences part (front ++ [byte]) ≤ occurrences part output := fun part => by
      rw [hstream']
      exact occurrences_le_append part _ left
    have hpos : ∀ part, part ≠ [] → part <:+ front ++ [byte] → 0 < occurrences part output :=
      fun part hne hsuf => Nat.lt_of_lt_of_le ((occurrences_pos_iff hne).mpr hsuf.isInfix) (hle part)
    simp only [Conversation.start, List.nil_append] at hdecided
    cases hdecided with
    | done hsuf => exact absurd hund.noDone (Nat.ne_of_gt (hpos _ (asBytes_ne_nil h.done) hsuf))
    | failed hsuf => exact absurd hund.noFailed (Nat.ne_of_gt (hpos _ (asBytes_ne_nil h.failed) hsuf))
    | prompt error hsuf hmany => exact absurd (hmany.trans_le (hle _)) (Nat.not_lt.mpr hund.prompts)
    | limit error hlimit =>
      have hlen : (front ++ [byte]).length ≤ output.length := by
        rw [hstream']
        simp only [List.length_append]
        omega
      have hshort := hund.short
      have hmarker : 0 < (asBytes markers.done).length := List.length_pos_iff.mpr (asBytes_ne_nil h.done)
      omega

/-- Inside a marker's line only the number of bytes decides. -/
theorem read_inside {conversation : Conversation} (hw : Waiting markers password writeError conversation)
    (hlines : IsLines output) {whole : List UInt8}
    (hwhole : whole ∈ [asBytes markers.done, asBytes markers.failed]) {k : ℕ} (hk : k + 1 < whole.length)
    (hseen : conversation.seen = output ++ whole.take k) :
    conversation.read markers password writeError whole[k] =
      if elevationOutputLimit < (output ++ whole.take (k + 1)).length then
        .inr ({ conversation with seen := output ++ whole.take (k + 1) },
          .error (.sudoRefused (lastWords (output ++ whole.take (k + 1)) "sudo said too much")))
      else .inl { conversation with seen := output ++ whole.take (k + 1) } := by
  have hnext : conversation.seen ++ [whole[k]] = output ++ whole.take (k + 1) := by
    rw [hseen, List.append_assoc, List.take_append_getElem]
  have hnone : ∀ part ∈ [asBytes markers.done, asBytes markers.failed, promptBytes],
      ¬ part <:+ conversation.seen ++ [whole[k]] := by
    intro part hpart hsuf
    rw [hnext] at hsuf
    exact h.apart whole hwhole (k + 1) hk part hpart (suffix_of_lines hlines (h.inLine part hpart) hsuf)
  have hread := read_other h hw.sound password writeError (hnone _ (by simp)) (hnone _ (by simp))
    (hnone _ (by simp))
  rw [hnext] at hread
  exact hread

theorem waiting_inside {conversation : Conversation}
    (hw : Waiting markers password writeError conversation) (hseen : conversation.seen = output)
    (hlines : IsLines output) {whole : List UInt8}
    (hwhole : whole ∈ [asBytes markers.done, asBytes markers.failed]) {k : ℕ} (hk : k < whole.length)
    (hshort : k = 0 ∨ output.length + k ≤ elevationOutputLimit) :
    ∃ next, Feed.feed (Conversation.read markers password writeError) conversation (whole.take k) =
      .waiting next := by
  induction k with
  | zero => exact ⟨conversation, rfl⟩
  | succ k ih =>
    obtain ⟨middle, hmiddle⟩ := ih (by omega) (by omega)
    obtain ⟨hwaits, hall⟩ := waiting_of_feed h hw hmiddle
    rw [hseen] at hall
    have hread := read_inside h hwaits hlines hwhole hk hall
    have hlen : (output ++ whole.take (k + 1)).length ≤ elevationOutputLimit := by
      rw [List.length_append, List.length_take]
      omega
    rw [if_neg (Nat.not_lt.mpr hlen)] at hread
    refine ⟨{ middle with seen := output ++ whole.take (k + 1) }, ?_⟩
    have hnext : whole.take (k + 1) = whole.take k ++ [whole[k]] := (List.take_append_getElem (by omega)).symm
    have hfeed : Feed.feed (Conversation.read markers password writeError) conversation
        (whole.take k ++ [whole[k]]) = .waiting { middle with seen := output ++ whole.take (k + 1) } := by
      rw [Feed.feed_append_of_waiting _ hmiddle]
      simp only [Feed.feed, hread]
    rw [hnext] at hfeed ⊢
    exact hfeed

/-- A marker's line that is read to its end gives the marker's outcome. -/
theorem feed_whole {conversation : Conversation} (hw : Waiting markers password writeError conversation)
    (hseen : conversation.seen = output) (hlines : IsLines output) {whole : List UInt8}
    (hwhole : whole ∈ [asBytes markers.done, asBytes markers.failed])
    (hshort : output.length + whole.length ≤ elevationOutputLimit + 1) (left : List UInt8) :
    ∃ last, Feed.feed (Conversation.read markers password writeError) conversation (whole ++ left) =
      .stopped (last, .ok (if whole = asBytes markers.done then .done (output ++ whole)
        else .failed (output ++ whole))) left := by
  have hpos : 0 < whole.length := by
    rcases List.mem_cons.mp hwhole with rfl | hwhole
    · exact List.length_pos_iff.mpr (asBytes_ne_nil h.done)
    · rw [List.mem_singleton.mp hwhole]
      exact List.length_pos_iff.mpr (asBytes_ne_nil h.failed)
  have hk : whole.length - 1 < whole.length := by omega
  obtain ⟨middle, hmiddle⟩ := waiting_inside h hw hseen hlines hwhole hk (by omega)
  obtain ⟨hwaits, hall⟩ := waiting_of_feed h hw hmiddle
  have hsplit : whole.take (whole.length - 1) ++ [whole[whole.length - 1]] = whole := by
    rw [List.take_append_getElem hk, Nat.sub_add_cancel hpos, List.take_length]
  have hend : middle.seen ++ [whole[whole.length - 1]] = output ++ whole := by
    rw [hall, hseen, List.append_assoc, hsplit]
  have hline : whole ++ left = whole.take (whole.length - 1) ++ whole[whole.length - 1] :: left := by
    rw [List.append_cons, hsplit]
  rw [hline, Feed.feed_append_of_waiting _ hmiddle]
  by_cases hdone : whole = asBytes markers.done
  · have hread := @read_done markers h middle hwaits.sound password writeError whole[whole.length - 1]
      (by rw [hend, ← hdone]; exact List.suffix_append _ _)
    rw [hend] at hread
    exact ⟨{ middle with seen := output ++ whole }, by simp only [Feed.feed, hread, if_pos hdone]⟩
  · have hfailed : whole = asBytes markers.failed := by simpa [hdone] using hwhole
    have hnot : ¬ asBytes markers.done <:+ middle.seen ++ [whole[whole.length - 1]] := by
      rw [hend]
      intro hsuf
      have hin := suffix_of_lines hlines (h.inLine _ (by simp)) hsuf
      rw [hfailed] at hin
      exact h.other.1 hin
    have hread := @read_failed markers h middle hwaits.sound password writeError whole[whole.length - 1]
      hnot (by rw [hend, ← hfailed]; exact List.suffix_append _ _)
    rw [hend] at hread
    exact ⟨{ middle with seen := output ++ whole }, by simp only [Feed.feed, hread, if_neg hdone]⟩

/-- Without room for the marker the conversation is given up inside it. -/
theorem feed_over {conversation : Conversation} (hw : Waiting markers password writeError conversation)
    (hseen : conversation.seen = output) (hlines : IsLines output) {whole : List UInt8}
    (hwhole : whole ∈ [asBytes markers.done, asBytes markers.failed]) (htwo : 2 ≤ whole.length)
    (hlong : elevationOutputLimit + 1 < output.length + whole.length) (left : List UInt8) :
    ∃ last error rest, Feed.feed (Conversation.read markers password writeError) conversation
      (whole ++ left) = .stopped (last, .error error) rest := by
  -- The byte that goes over the limit, or the first one where the output already did.
  obtain ⟨k, hk, hshort, hover⟩ : ∃ k, k + 1 < whole.length ∧
      (k = 0 ∨ output.length + k ≤ elevationOutputLimit) ∧
      elevationOutputLimit < output.length + (k + 1) := by
    rcases Nat.lt_or_ge elevationOutputLimit output.length with hlt | hge
    · exact ⟨0, by omega, .inl rfl, by omega⟩
    · exact ⟨elevationOutputLimit - output.length, by omega, .inr (by omega), by omega⟩
  obtain ⟨middle, hmiddle⟩ := waiting_inside h hw hseen hlines hwhole (by omega) hshort
  obtain ⟨hwaits, hall⟩ := waiting_of_feed h hw hmiddle
  rw [hseen] at hall
  have hread := read_inside h hwaits hlines hwhole hk hall
  have hlen : elevationOutputLimit < (output ++ whole.take (k + 1)).length := by
    rw [List.length_append, List.length_take]
    omega
  rw [if_pos hlen] at hread
  have hline : whole ++ left = whole.take k ++ whole[k] :: (whole.drop (k + 1) ++ left) := by
    rw [← List.cons_append, ← List.append_assoc, List.getElem_cons_drop, List.take_append_drop]
  rw [hline, Feed.feed_append_of_waiting _ hmiddle]
  exact ⟨{ middle with seen := output ++ whole.take (k + 1) },
    .sudoRefused (lastWords (output ++ whole.take (k + 1)) "sudo said too much"), whole.drop (k + 1) ++ left,
    by simp only [Feed.feed, hread]⟩

end Outputs

section Terminals

variable {terminal : Terminal} {password : Option (List UInt8)} {markers : Markers}

/-- A terminal's chunks are read as its bytes are. -/
theorem sudoConversation_stopped {last : Conversation} {result : Except SftpError Outcome}
    {rest : List UInt8}
    (h : Feed.feed (Conversation.read markers password terminal.writeError) .start terminal.bytes =
      .stopped (last, result) rest) :
    ∃ left, sudoConversation terminal password markers = (last, result, left) ∧ left.flatten = rest := by
  have hjoined := Feed.joined_feedChunks (Conversation.read markers password terminal.writeError)
    Conversation.start terminal.chunks
  rw [Terminal.bytes] at h
  rw [h] at hjoined
  cases hchunks : Feed.feedChunks (Conversation.read markers password terminal.writeError) .start
      terminal.chunks with
  | waiting conversation => simp [hchunks, Feed.Fed.joined] at hjoined
  | stopped final left =>
    simp only [hchunks, Feed.Fed.joined, Feed.Fed.stopped.injEq] at hjoined
    obtain ⟨rfl, hleft⟩ := hjoined
    exact ⟨left, by simp only [sudoConversation, hchunks], hleft⟩

theorem sudoConversation_waiting {conversation : Conversation}
    (h : Feed.feed (Conversation.read markers password terminal.writeError) .start terminal.bytes =
      .waiting conversation) :
    ∃ error, sudoConversation terminal password markers = (conversation, .error error, []) := by
  have hjoined := Feed.joined_feedChunks (Conversation.read markers password terminal.writeError)
    Conversation.start terminal.chunks
  rw [Terminal.bytes] at h
  rw [h] at hjoined
  cases hchunks : Feed.feedChunks (Conversation.read markers password terminal.writeError) .start
      terminal.chunks with
  | waiting waits =>
    simp only [hchunks, Feed.Fed.joined, Feed.Fed.waiting.injEq] at hjoined
    subst hjoined
    simp only [sudoConversation, hchunks]
    split <;> exact ⟨_, rfl⟩
  | stopped final left => simp [hchunks, Feed.Fed.joined] at hjoined

/-- What is written goes to the first prompt, once. -/
theorem answered_of_sudoConversation (h : markers.Distinct) (terminal : Terminal)
    (password : Option (List UInt8)) :
    Answered password (sudoConversation terminal password markers).1 ∧
      (sudoConversation terminal password markers).1.seen <+: terminal.bytes := by
  have hstart := waiting_start markers password terminal.writeError
  cases hfeed : Feed.feed (Conversation.read markers password terminal.writeError) .start
      terminal.bytes with
  | waiting conversation =>
    obtain ⟨error, hresult⟩ := sudoConversation_waiting hfeed
    obtain ⟨hwaits, hseen⟩ := waiting_of_feed h hstart hfeed
    rw [hresult]
    exact ⟨hwaits.answered, by rw [hseen]; exact List.prefix_rfl⟩
  | stopped final rest =>
    obtain ⟨last, result⟩ := final
    obtain ⟨left, hresult, -⟩ := sudoConversation_stopped hfeed
    obtain ⟨front, byte, before, hstream, -, -, hseen, hanswered, -⟩ := decided_of_feed h hstart hfeed
    rw [hresult]
    refine ⟨hanswered, ?_⟩
    rw [hseen, hstream]
    exact ⟨rest, by simp [Conversation.start]⟩

/-- On success, what was read ends with the first marker of success. -/
theorem done_of_sudoConversation (h : markers.Distinct) {last : Conversation} {seen : List UInt8}
    {left : List (List UInt8)}
    (hdone : sudoConversation terminal password markers = (last, .ok (.done seen), left)) :
    terminal.bytes = seen ++ left.flatten ∧ asBytes markers.done <:+ seen ∧
      occurrences (asBytes markers.done) seen = 1 := by
  have hstart := waiting_start markers password terminal.writeError
  cases hfeed : Feed.feed (Conversation.read markers password terminal.writeError) .start
      terminal.bytes with
  | waiting conversation =>
    obtain ⟨error, hresult⟩ := sudoConversation_waiting hfeed
    rw [hresult] at hdone
    cases hdone
  | stopped final rest =>
    obtain ⟨last', result⟩ := final
    obtain ⟨left', hresult, hleft⟩ := sudoConversation_stopped hfeed
    obtain ⟨front, byte, before, hstream, hbefore, hseen, -, -, hdecided⟩ := decided_of_feed h hstart hfeed
    rw [hresult] at hdone
    cases hdone
    simp only [Conversation.start, List.nil_append] at hdecided hseen
    cases hdecided with
    | done hsuf =>
      refine ⟨by rw [hstream, hleft, List.append_cons], hsuf, ?_⟩
      have hnone := hbefore.sound.noDone
      rw [hseen] at hnone
      rw [occurrences_read (asBytes_ne_nil h.done) hnone, if_pos hsuf]

end Terminals

/-- Nothing is behind a marker that was just read for the first time. -/
theorem afterMarker_of_suffix {marker seen : List UInt8} (hne : marker ≠ []) (hsuf : marker <:+ seen)
    (hone : occurrences marker seen = 1) : afterMarker marker seen = [] := by
  induction seen with
  | nil => rfl
  | cons b rest ih =>
    rw [occurrences] at hone
    rw [afterMarker]
    by_cases hpre : marker <+: b :: rest
    · rw [if_pos hpre] at hone ⊢
      have hrest : ¬ marker <:+ rest := fun hin => by
        have := (occurrences_pos_iff hne).mpr hin.isInfix
        omega
      rcases List.suffix_cons_iff.mp hsuf with hwhole | hin
      · rw [hwhole, List.drop_length]
      · exact absurd hin hrest
    · rw [if_neg hpre, Nat.zero_add] at hone
      rw [if_neg hpre]
      rcases List.suffix_cons_iff.mp hsuf with hwhole | hin
      · exact absurd (hwhole ▸ List.prefix_rfl) hpre
      · exact ih hin hone

theorem flatten_of_readByte {chunks left : List (List UInt8)} {b : UInt8}
    (h : readByte chunks = some (b, left)) : chunks.flatten = b :: left.flatten := by
  induction chunks with
  | nil => simp [readByte] at h
  | cons chunk chunks ih =>
    cases chunk with
    | nil => exact ih h
    | cons c rest =>
      simp only [readByte, Option.some.injEq, Prod.mk.injEq] at h
      obtain ⟨rfl, rfl⟩ := h
      rfl

theorem flatten_of_readInto {terminal : Terminal} {rest rest' : List UInt8}
    {chunks left : List (List UInt8)} (h : readInto terminal rest chunks = .ok (rest', left)) :
    ∃ b, rest' = rest ++ [b] ∧ chunks.flatten = b :: left.flatten := by
  rw [readInto] at h
  split at h
  · rename_i b after hread
    cases h
    exact ⟨b, rfl, flatten_of_readByte hread⟩
  · split at h <;> cases h

/-- Where elevation succeeds, the stream that is left begins right behind the marker's line. -/
theorem elevate_ok {terminal : Terminal} {password : Option (List UInt8)} {left : List (List UInt8)}
    (h : elevate terminal password = .ok left) :
    ∃ front eol, (eol = [10] ∨ eol = [13, 10]) ∧
      terminal.bytes = front ++ asBytes ready ++ eol ++ left.flatten ∧
      occurrences (asBytes ready) (front ++ asBytes ready) = 1 := by
  have hdistinct : Markers.elevate.Distinct := distinct_markers _ (by simp)
  cases hconv : sudoConversation terminal password .elevate with
  | mk last more =>
    obtain ⟨result, chunks⟩ := more
    simp only [elevate, hconv] at h
    cases result with
    | error error => cases h
    | ok outcome =>
      cases outcome with
      | failed seen => cases h
      | done seen =>
        obtain ⟨hbytes, ⟨front, hfront⟩, hone⟩ := done_of_sudoConversation hdistinct hconv
        have hready : asBytes Markers.elevate.done = asBytes ready := rfl
        rw [hready] at hfront hone
        have hempty : afterMarker (asBytes ready) seen = [] := 
          afterMarker_of_suffix (asBytes_ne_nil hdistinct.done) ⟨front, hfront⟩ hone
        simp only [hempty, if_true] at h
        cases hfirst : readInto terminal [] chunks with
        | error error => simp [hfirst, bind, Except.bind] at h
        | ok read =>
          obtain ⟨rest₁, left₁⟩ := read
          obtain ⟨b, rfl, hchunks⟩ := flatten_of_readInto hfirst
          simp only [hfirst, bind, Except.bind, List.nil_append] at h
          by_cases hreturn : b = 13
          · subst hreturn
            cases hsecond : readInto terminal [13] left₁ with
            | error error => simp [hsecond] at h
            | ok read =>
              obtain ⟨rest₂, left₂⟩ := read
              obtain ⟨c, rfl, hleft⟩ := flatten_of_readInto hsecond
              simp only [hsecond, if_true, List.singleton_append] at h
              split at h
              · rename_i heol
                cases h
                refine ⟨front, [13, c], ?_, ?_, hfront ▸ hone⟩
                · simpa using heol
                · rw [hbytes, hchunks, hleft, ← hfront, List.append_assoc _ _ left.flatten]
                  rfl
              · cases h
          · have hnot : ¬ [b] = [13] := by simpa using hreturn
            simp only [hnot, if_false, pure, Except.pure] at h
            split at h
            · rename_i heol
              cases h
              refine ⟨front, [b], ?_, ?_, hfront ▸ hone⟩
              · simpa using heol
              · rw [hbytes, hchunks, ← hfront, List.append_assoc _ _ left.flatten]
                rfl
            · cases h

/-- A root command's outcome is the script's own: it succeeds when the line behind the output is the marker
of success, and fails when it is the other one, however the bytes are cut into chunks. -/
def Tells (run : Terminal → Except SftpError Unit) (markers : Markers) (writeError : Option String)
    (output : List UInt8) : Prop :=
  (∀ terminal, terminal.writeError = writeError →
    terminal.bytes = output ++ asBytes markers.done ++ [10] → run terminal = .ok ()) ∧
  ∀ terminal, terminal.writeError = writeError →
    terminal.bytes = output ++ asBytes markers.failed ++ [10] → ∃ error, run terminal = .error error

/-- What a command comes to, from what its conversation came to. -/
def verdict (tool : String) : Except SftpError Outcome → Except SftpError Unit
  | .error error => .error error
  | .ok (.done _) => .ok ()
  | .ok (.failed seen) => .error (.failed (lastWords seen (tool ++ " ended without saying why")))

/-- A terminal that gives its bytes in one piece. -/
def Terminal.inOne (bytes : List UInt8) (writeError : Option String) : Terminal :=
  { chunks := [bytes], ending := .closed, writeError }

theorem bytes_inOne (bytes : List UInt8) (writeError : Option String) :
    (Terminal.inOne bytes writeError).bytes = bytes := by
  simp [Terminal.inOne, Terminal.bytes]

section Commands

variable {markers : Markers} (h : markers.Distinct) {password : Option (List UInt8)}
  {command tool : String}

theorem runAsRoot_stopped {terminal : Terminal} {last : Conversation} {result : Except SftpError Outcome}
    {rest : List UInt8}
    (hfeed : Feed.feed (Conversation.read markers password terminal.writeError) .start terminal.bytes =
      .stopped (last, result) rest) :
    runAsRoot (fun _ => .ok terminal) command password markers tool = verdict tool result := by
  obtain ⟨left, hresult, -⟩ := sudoConversation_stopped hfeed
  rw [runAsRoot]
  simp only [hresult]
  rcases result with error | seen | seen <;> rfl

/-- The output ends without a decision, and the marker behind it decides. -/
theorem exists_error_of_failed (h : markers.Distinct) {conversation : Conversation}
    {writeError : Option String} (hw : Waiting markers password writeError conversation)
    (hlines : IsLines conversation.seen) (htwo : 2 ≤ (asBytes markers.failed).length)
    (left : List UInt8) :
    ∃ last result rest, Feed.feed (Conversation.read markers password writeError) conversation
      (asBytes markers.failed ++ left) = .stopped (last, result) rest ∧
      ∃ error, verdict tool result = .error error := by
  rcases Nat.lt_or_ge (elevationOutputLimit + 1)
    (conversation.seen.length + (asBytes markers.failed).length) with hlong | hshort
  · obtain ⟨last, error, rest, hfeed⟩ := feed_over h hw rfl hlines (by simp) htwo hlong left
    exact ⟨last, _, rest, hfeed, error, rfl⟩
  · obtain ⟨last, hfeed⟩ := feed_whole h hw rfl hlines (by simp) hshort left
    have hne : asBytes markers.failed ≠ asBytes markers.done := fun heq =>
      h.other.1 (heq ▸ List.suffix_rfl)
    rw [if_neg hne] at hfeed
    exact ⟨last, _, left, hfeed, _, rfl⟩

theorem tells_iff (h : markers.Distinct) (hdone : 2 ≤ (asBytes markers.done).length)
    (hfailed : 2 ≤ (asBytes markers.failed).length) {writeError : Option String} {output : List UInt8}
    (hlines : IsLines output) :
    Tells (fun terminal => runAsRoot (fun _ => .ok terminal) command password markers tool) markers
        writeError output ↔ Undecided markers password writeError output := by
  have hstart := waiting_start markers password writeError
  constructor
  · rintro ⟨hok, herr⟩
    have hok' := hok (.inOne (output ++ asBytes markers.done ++ [10]) writeError) rfl (bytes_inOne _ _)
    obtain ⟨error, herr'⟩ := herr (.inOne (output ++ asBytes markers.failed ++ [10]) writeError) rfl
      (bytes_inOne _ _)
    cases hfeed : Feed.feed (Conversation.read markers password writeError) .start output with
    | stopped final left =>
      -- What decides inside the output decides the same for both endings.
      exfalso
      obtain ⟨last, result⟩ := final
      have hboth : ∀ marker : List UInt8,
          runAsRoot (fun _ => .ok (.inOne (output ++ marker ++ [10]) writeError)) command password markers
            tool = verdict tool result := by
        intro marker
        have hstop := Feed.feed_append_of_stopped _ hfeed (marker ++ [10])
        rw [← List.append_assoc, ← bytes_inOne (output ++ marker ++ [10]) writeError] at hstop
        exact runAsRoot_stopped hstop
      have hsame := (hboth (asBytes markers.done)).symm.trans hok'
      rw [← hboth (asBytes markers.failed)] at hsame
      cases hsame.symm.trans herr'
    | waiting conversation =>
      obtain ⟨hwaits, hseen⟩ := waiting_of_feed h hstart hfeed
      have hseen' : conversation.seen = output := hseen
      refine ⟨hseen' ▸ hwaits.sound.noDone, hseen' ▸ hwaits.sound.noFailed, ?_, ?_⟩
      · rw [← hseen', hwaits.sound.prompts]
        exact hwaits.able
      · by_contra hlong
        obtain ⟨last, error, rest, hover⟩ := feed_over h hwaits hseen' hlines (by simp) hdone
          (Nat.not_le.mp hlong) [10]
        rw [← Feed.feed_append_of_waiting _ hfeed, ← List.append_assoc,
          ← bytes_inOne (output ++ asBytes markers.done ++ [10]) writeError] at hover
        cases (runAsRoot_stopped hover).symm.trans hok'
  · intro hund
    obtain ⟨conversation, hfeed⟩ := waiting_of_undecided h hund
    obtain ⟨hwaits, hseen⟩ := waiting_of_feed h hstart hfeed
    have hseen' : conversation.seen = output := hseen
    constructor
    · rintro terminal rfl hbytes
      obtain ⟨last, hwhole⟩ := feed_whole h hwaits hseen' hlines (by simp) hund.short [10]
      rw [← Feed.feed_append_of_waiting _ hfeed, if_pos rfl, ← List.append_assoc, ← hbytes] at hwhole
      exact runAsRoot_stopped hwhole
    · rintro terminal rfl hbytes
      obtain ⟨last, result, rest, hstop, error, hverdict⟩ :=
        @exists_error_of_failed markers password tool h conversation terminal.writeError hwaits
          (hseen' ▸ hlines) hfailed [10]
      rw [← Feed.feed_append_of_waiting _ hfeed, ← List.append_assoc, ← hbytes] at hstop
      exact ⟨error, (runAsRoot_stopped hstop).trans hverdict⟩

end Commands

theorem removeAsRoot_of_target {path : String} {target : RootTarget}
    (h : rootTarget path "delete" = .ok target) (server : String → Except String Terminal)
    (password : Option (List UInt8)) :
    removeAsRoot server path password =
      runAsRoot server (asRoot removeScript [target.parent, target.name]) password .remove "rm" := by
  simp [removeAsRoot, removeCommand, h, bind, Except.bind, pure, Except.pure]

theorem chmodAsRoot_of_target {path : String} {target : RootTarget}
    (h : rootTarget path "change as root" = .ok target) (server : String → Except String Terminal)
    (mode : UInt32) (password : Option (List UInt8)) :
    chmodAsRoot server path mode password =
      runAsRoot server (asRoot chmodScript [target.parent, target.name, octalMode mode]) password .change
        "chmod" := by
  simp [chmodAsRoot, chmodCommand, h, bind, Except.bind, pure, Except.pure]

/-- When a root command's outcome is the script's own, what is written to the terminal at all, and what
elevation leaves of it. -/
theorem root_outcome_iff (password : Option (List UInt8)) :
    (∀ path target writeError output, rootTarget path "delete" = .ok target → IsLines output →
      (Tells (fun terminal => removeAsRoot (fun _ => .ok terminal) path password) .remove writeError output ↔
        Undecided .remove password writeError output)) ∧
    (∀ path target mode writeError output, rootTarget path "change as root" = .ok target →
      IsLines output →
      (Tells (fun terminal => chmodAsRoot (fun _ => .ok terminal) path mode password) .change writeError
          output ↔ Undecided .change password writeError output)) ∧
    (∀ markers ∈ [Markers.elevate, .remove, .change], ∀ terminal,
      Answered password (sudoConversation terminal password markers).1 ∧
        (sudoConversation terminal password markers).1.seen <+: terminal.bytes) ∧
    ∀ terminal left, elevate terminal password = .ok left →
      ∃ front eol, (eol = [10] ∨ eol = [13, 10]) ∧
        terminal.bytes = front ++ asBytes ready ++ eol ++ left.flatten ∧
        occurrences (asBytes ready) (front ++ asBytes ready) = 1 := by
  refine ⟨?_, ?_, fun markers hmarkers terminal =>
    answered_of_sudoConversation (distinct_markers markers hmarkers) terminal password,
    fun terminal left h => elevate_ok h⟩
  · intro path target writeError output htarget hlines
    simp only [removeAsRoot_of_target htarget]
    exact tells_iff (distinct_markers _ (by simp)) (by decide) (by decide) hlines
  · intro path target mode writeError output htarget hlines
    simp only [chmodAsRoot_of_target htarget]
    exact tells_iff (distinct_markers _ (by simp)) (by decide) (by decide) hlines

/-- What sudo and a failing `rm` say where a password is asked for. -/
def promptedOutput : List UInt8 :=
  promptBytes ++ asBytes "\nrm: cannot remove './old': Operation not permitted\n"

theorem undecided_prompted {markers : Markers} (hmarkers : markers = .remove ∨ markers = .change) :
    Undecided markers (some (asBytes "hunter2")) none promptedOutput := by
  rcases hmarkers with rfl | rfl <;> constructor <;> decide +kernel

theorem root_outcome_quiet :
    Tells (fun terminal => removeAsRoot (fun _ => .ok terminal) "/srv/old" (some (asBytes "hunter2"))) .remove
        none promptedOutput ∧
      Tells (fun terminal => chmodAsRoot (fun _ => .ok terminal) "/srv/old" 420 (some (asBytes "hunter2")))
        .change none promptedOutput ∧
      (∃ conversation, Answered (some (asBytes "hunter2")) conversation ∧
        conversation.written = [{ seen := promptBytes, line := asBytes "hunter2\n" }]) ∧
      ∃ front eol, (eol = [10] ∨ eol = [13, 10]) ∧
        promptBytes ++ asBytes "\nUWUSSH-SFTP-READY\nS" = front ++ asBytes ready ++ eol ++ asBytes "S" := by
  have hall := root_outcome_iff (some (asBytes "hunter2"))
  have hlines : IsLines promptedOutput := by decide +kernel
  have htarget : rootTarget "/srv/old" "delete" = .ok { parent := "/srv", name := "old" } := by decide +kernel
  have htarget' : rootTarget "/srv/old" "change as root" = .ok { parent := "/srv", name := "old" } := by
    decide +kernel
  refine ⟨(hall.1 _ _ none _ htarget hlines).mpr (undecided_prompted (.inl rfl)),
    (hall.2.1 _ _ 420 none _ htarget' hlines).mpr (undecided_prompted (.inr rfl)), ?_, ?_⟩
  · exact ⟨_, (hall.2.2.1 .remove (by simp)
      (.inOne (promptedOutput ++ asBytes removed ++ [10]) none)).1, by decide +kernel⟩
  · obtain ⟨front, eol, heol, hbytes, -⟩ := hall.2.2.2
      { chunks := [promptBytes, asBytes "\nUWUSSH-SFTP", asBytes "-READY\nS"], ending := .closed, writeError := none }
      [asBytes "S"] (by decide +kernel)
    have hcut : asBytes "\nUWUSSH-SFTP-READY\nS" = asBytes "\nUWUSSH-SFTP" ++ asBytes "-READY\nS" := by decide
    exact ⟨front, eol, heol, by simpa [Terminal.bytes, hcut] using hbytes⟩

/-- A message that names a file after the marker of success ends the conversation with it. -/
theorem quoted_marker_succeeds :
    rootTarget "/srv/UWUSSH-REMOVED" "delete" = .ok { parent := "/srv", name := "UWUSSH-REMOVED" } ∧
      IsLines (asBytes "rm: cannot remove './UWUSSH-REMOVED': Operation not permitted\n\n") ∧
      removeAsRoot (fun _ => .ok (.inOne (asBytes "rm: cannot remove './UWUSSH-REMOVED': Operation not permitted\n\n" ++
        asBytes Markers.remove.failed ++ [10]) none)) "/srv/UWUSSH-REMOVED" none = .ok () ∧
      ¬ Tells (fun terminal => removeAsRoot (fun _ => .ok terminal) "/srv/UWUSSH-REMOVED" none) .remove none
        (asBytes "rm: cannot remove './UWUSSH-REMOVED': Operation not permitted\n\n") := by
  have hok : removeAsRoot (fun _ => .ok (.inOne
      (asBytes "rm: cannot remove './UWUSSH-REMOVED': Operation not permitted\n\n" ++
        asBytes Markers.remove.failed ++ [10]) none)) "/srv/UWUSSH-REMOVED" none = .ok () := by
    decide +kernel
  refine ⟨by decide +kernel, by decide +kernel, hok, fun htells => ?_⟩
  obtain ⟨error, herror⟩ := htells.2 _ rfl (bytes_inOne _ none)
  cases hok.symm.trans herror

end UwuSsh.Sftp

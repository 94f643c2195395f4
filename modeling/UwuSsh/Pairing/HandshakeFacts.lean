import UwuSsh.Pairing.Handshake

/-!
What the handshake gives away and what it mixes up: nothing, as long as the relay does not know
the words. A key that two runs hold comes of both their secrets and one password, so a
box under it was made by the run at the other end; its label tells the direction, and the
two messages of the joining side are told apart by what is in them.
-/
namespace UwuSsh

namespace Handshake

open Relay

section keys

variable {t : Texts} {role role' : Role} {i j : ℕ} {theirs theirs' : Wire} {key : SessionKey}

/-- A run's key is made of its own secret and its own password. -/
theorem finish_cases (h : role.finish t i theirs = some key) :
    (∃ e, theirs = .element e ∧ e.side ≠ role.side ∧ e.password = some (role.password t) ∧
      key = match role.side with
        | .a => .shared (.run i) e.secret (role.password t)
        | .b => .shared e.secret (.run i) (role.password t)) ∨
    ∃ e, theirs = .element e ∧ key = .apart (role.element t i) e := by
  unfold Role.finish finish at h
  split at h
  · next e =>
    split at h
    · cases h
    next hside =>
    split at h
    · next hpassword =>
      refine .inl ⟨e, rfl, hside, hpassword, ?_⟩
      cases hrole : role.side with
      | a =>
        rw [hrole] at h
        exact (Option.some.inj h).symm
      | b =>
        rw [hrole] at h
        exact (Option.some.inj h).symm
    · exact .inr ⟨e, rfl, (Option.some.inj h).symm⟩
  · cases h

/-- Two runs at different ends hold one key only if it is made of both their secrets and
both used the same password. -/
theorem shared_of_both (hrole : role.side = .a) (hrole' : role'.side = .b)
    (h : role.finish t i theirs = some key) (h' : role'.finish t j theirs' = some key) :
    role'.password t = role.password t ∧ key = .shared (.run i) (.run j) (role.password t) := by
  rcases finish_cases h with ⟨e, -, -, -, hkey⟩ | ⟨e, -, hkey⟩ <;>
    rcases finish_cases h' with ⟨e', -, -, -, hkey'⟩ | ⟨e', -, hkey'⟩
  · rw [hrole] at hkey
    rw [hrole'] at hkey'
    obtain ⟨-, hsecret, hpassword⟩ := SessionKey.shared.inj (hkey.symm.trans hkey')
    exact ⟨hpassword.symm, hsecret ▸ hkey⟩
  · rw [hrole] at hkey
    cases hkey.symm.trans hkey'
  · rw [hrole'] at hkey'
    cases hkey.symm.trans hkey'
  · have hown := (SessionKey.apart.inj (hkey.symm.trans hkey')).1
    have hside : role.side = role'.side := congrArg Element.side hown
    rw [hrole, hrole'] at hside
    cases hside

/-- The key of a run whose password the relay does not know is none it can work out. -/
theorem not_knowsKey {knows : String → Prop} (h : role.finish t i theirs = some key)
    (hnot : ¬ knows (role.password t)) : ¬ KnowsKey knows key := by
  rcases finish_cases h with ⟨e, -, -, -, rfl⟩ | ⟨e, -, rfl⟩
  · split
    · exact fun hknows => hnot hknows.1
    · exact fun hknows => hnot hknows.1
  · rintro ⟨n, hsecret⟩
    cases hsecret

end keys

section runs

variable (t : Texts) (roles : ℕ → Role) (knows : String → Prop)

/-- A run holds a key: it took a message that led to it. -/
def Held (i : ℕ) (key : SessionKey) (log : List (Event Wire)) : Prop :=
  ∃ theirs, .took i theirs ∈ log ∧ (roles i).finish t i theirs = some key

/-- What a run knows at each phase. -/
def Sound (i : ℕ) : Phase → List (Event Wire) → Prop
  | .waiting, _ => True
  | .answered theirs, log => .took i theirs ∈ log ∧ (roles i).side = .b
  | .keyed key, log => Held t roles i key log
  | .handed key, log => Held t roles i key log ∧ .took i (.box key .bToA confirm) ∈ log
  | .taken handover key, log => (roles i).side = .b ∧ Held t roles i key log ∧
      ∃ plain, .took i (.box key .aToB plain) ∈ log ∧ t.readHandover plain = some handover
  | .joined joined, log => (roles i).side = .a ∧ ∃ key, Held t roles i key log ∧ .took i (.box key .bToA confirm) ∈ log ∧
      ∃ plain, .took i (.box key .bToA plain) ∈ log ∧ t.readJoined plain = some joined
  | .failed, _ => True

/-- What a run puts: its element, the handover once it has seen the other side's proof, the
proof, or who it is once it has the handover. -/
def MayPut (log : List (Event Wire)) (i : ℕ) : Wire → Prop
  | .element e => e = (roles i).element t i
  | .box key label plain => Held t roles i key log ∧
      match roles i with
      | .handOver _ _ handover => label = .aToB ∧ plain = t.handoverText handover ∧
          .took i (.box key .bToA confirm) ∈ log
      | .takeOver _ _ joined => label = .bToA ∧ (plain = confirm ∨ plain = t.joinedText joined ∧
          ∃ plain' handover, .took i (.box key .aToB plain') ∈ log ∧ t.readHandover plain' = some handover)
  | .junk _ => False

def MayHappen (log : List (Event Wire)) : Event Wire → Prop
  | .put i m => MayPut t roles log i m
  | .took _ m => Derives knows (Seen log) m

variable {t roles knows}

theorem Held.append {i : ℕ} {key : SessionKey} {log : List (Event Wire)} (h : Held t roles i key log)
    (more : List (Event Wire)) : Held t roles i key (log ++ more) := by
  obtain ⟨theirs, htook, hfinish⟩ := h
  exact ⟨theirs, List.mem_append_left _ htook, hfinish⟩

theorem Sound.append {i : ℕ} {phase : Phase} {log : List (Event Wire)} (h : Sound t roles i phase log)
    (more : List (Event Wire)) : Sound t roles i phase (log ++ more) := by
  have hmem : ∀ {e : Event Wire}, e ∈ log → e ∈ log ++ more := fun he => List.mem_append_left _ he
  cases phase with
  | waiting => exact trivial
  | failed => exact trivial
  | answered theirs => exact ⟨hmem h.1, h.2⟩
  | keyed key => exact Held.append h more
  | handed key => exact ⟨h.1.append more, hmem h.2⟩
  | taken handover key =>
    obtain ⟨hside, hheld, plain, htook, hread⟩ := h
    exact ⟨hside, hheld.append more, plain, hmem htook, hread⟩
  | joined joined =>
    obtain ⟨hside, key, hheld, hconfirm, plain, htook, hread⟩ := h
    exact ⟨hside, key, hheld.append more, hmem hconfirm, plain, hmem htook, hread⟩

theorem openBox_eq_some {key : SessionKey} {label : Label} {m : Wire} {plain : List UInt8}
    (h : openBox key label m = some plain) : m = .box key label plain := by
  unfold openBox at h
  split at h
  · split at h
    · next hsame =>
      cases h
      rw [hsame.1, hsame.2]
    · cases h
  · cases h

/-- One message taken. -/
theorem take_sound {i : ℕ} {phase phase' : Phase} {m : Wire} {out : Option Wire}
    {log : List (Event Wire)} (h : (roles i).take t i phase m = some (phase', out))
    (hphase : Sound t roles i phase log) :
    Sound t roles i phase' (log ++ [.took i m]) ∧
      ∀ m' ∈ out, MayPut t roles (log ++ [.took i m]) i m' := by
  have hlast : Event.took i m ∈ log ++ [Event.took i m] := by simp
  have hnothing : ∀ m' ∈ (none : Option Wire), MayPut t roles (log ++ [.took i m]) i m' := nofun
  cases hrole : roles i with
  | handOver id words handover =>
    rw [hrole] at h
    cases phase with
    | waiting =>
      cases hfinish : (Role.handOver id words handover).finish t i m with
      | none =>
        simp only [Role.take, hfinish, Option.some.injEq, Prod.mk.injEq] at h
        obtain ⟨rfl, rfl⟩ := h
        exact ⟨trivial, hnothing⟩
      | some key =>
        simp only [Role.take, hfinish, Option.some.injEq, Prod.mk.injEq] at h
        obtain ⟨rfl, rfl⟩ := h
        exact ⟨⟨m, hlast, hrole ▸ hfinish⟩, hnothing⟩
    | keyed key =>
      change (if openBox key .bToA m = some confirm then _ else _) = _ at h
      split at h
      · next hopen =>
        cases h
        have htook : Event.took i (.box key .bToA confirm) ∈ log ++ [Event.took i m] := by
          rw [← openBox_eq_some hopen]
          exact hlast
        have hheld : Held t roles i key (log ++ [.took i m]) := Held.append hphase _
        refine ⟨⟨hheld, htook⟩, fun m' hm' => ?_⟩
        cases hm'
        refine ⟨hheld, ?_⟩
        rw [hrole]
        exact ⟨rfl, rfl, htook⟩
      · cases h
        exact ⟨trivial, hnothing⟩
    | handed key =>
      cases hread : (openBox key .bToA m).bind t.readJoined with
      | none =>
        simp only [Role.take, hread, Option.some.injEq, Prod.mk.injEq] at h
        obtain ⟨rfl, rfl⟩ := h
        exact ⟨trivial, hnothing⟩
      | some joined =>
        simp only [Role.take, hread, Option.some.injEq, Prod.mk.injEq] at h
        obtain ⟨rfl, rfl⟩ := h
        obtain ⟨plain, hopen, hjoined⟩ := Option.bind_eq_some_iff.mp hread
        refine ⟨⟨by rw [hrole]; rfl, key, hphase.1.append _, List.mem_append_left _ hphase.2, plain, ?_,
          hjoined⟩, hnothing⟩
        rw [← openBox_eq_some hopen]
        exact hlast
    | answered theirs => cases h
    | taken handover key => cases h
    | joined joined => cases h
    | failed => cases h
  | takeOver id words joined =>
    rw [hrole] at h
    cases phase with
    | waiting =>
      cases h
      refine ⟨⟨hlast, by rw [hrole]; rfl⟩, fun m' hm' => ?_⟩
      cases hm'
      change _ = (roles i).element t i
      rw [hrole]
    | keyed key =>
      cases hread : (openBox key .aToB m).bind t.readHandover with
      | none =>
        simp only [Role.take, hread, Option.some.injEq, Prod.mk.injEq] at h
        obtain ⟨rfl, rfl⟩ := h
        exact ⟨trivial, hnothing⟩
      | some handover =>
        simp only [Role.take, hread, Option.some.injEq, Prod.mk.injEq] at h
        obtain ⟨rfl, rfl⟩ := h
        obtain ⟨plain, hopen, hhandover⟩ := Option.bind_eq_some_iff.mp hread
        refine ⟨⟨by rw [hrole]; rfl, Held.append hphase _, plain, ?_, hhandover⟩, hnothing⟩
        rw [← openBox_eq_some hopen]
        exact hlast
    | answered theirs => cases h
    | handed key => cases h
    | taken handover key => cases h
    | joined joined => cases h
    | failed => cases h

/-- What a run does by itself. -/
theorem act_sound {i : ℕ} {phase phase' : Phase} {out : Option Wire} {log : List (Event Wire)}
    (h : Acts t (roles i) i phase phase' out) (hphase : Sound t roles i phase log) :
    Sound t roles i phase' log ∧ ∀ m ∈ out, MayPut t roles log i m := by
  cases h with
  | confirm hfinish =>
    obtain ⟨htook, hside⟩ := hphase
    refine ⟨⟨_, htook, hfinish⟩, fun m hm => ?_⟩
    cases hm
    refine ⟨⟨_, htook, hfinish⟩, ?_⟩
    cases hrole : roles i with
    | handOver id words handover =>
      rw [hrole] at hside
      cases hside
    | takeOver id words joined => exact ⟨rfl, .inl rfl⟩
  | sayJoined hrole =>
    obtain ⟨-, hheld, plain, htook, hread⟩ := id hphase
    refine ⟨hphase, fun m hm => ?_⟩
    cases hm
    refine ⟨hheld, ?_⟩
    rw [hrole]
    exact ⟨rfl, .inr ⟨rfl, plain, _, htook, hread⟩⟩
  | giveUp _ => exact ⟨trivial, nofun⟩

theorem keeps : Keeps (protocol t roles knows) (Sound t roles) (MayHappen t roles knows) where
  mono := fun _ _ _ more h => h.append more
  opens := by
    rintro i phase out log ⟨rfl, rfl⟩
    refine ⟨trivial, fun m hm => ?_⟩
    cases hrole : roles i with
    | handOver id words handover =>
      rw [hrole] at hm
      cases hm
      change _ = (roles i).element t i
      rw [hrole]
    | takeOver id words joined =>
      rw [hrole] at hm
      cases hm
  takes := by
    intro i phase m phase' out log hphase hderives htakes
    obtain ⟨hsound, hout⟩ := take_sound htakes hphase
    refine ⟨?_, hderives, hout⟩
    have happend := hsound.append (puts i out)
    rwa [List.append_assoc] at happend
  acts := by
    intro i phase phase' out log hphase hacts
    obtain ⟨hsound, hout⟩ := act_sound hacts hphase
    exact ⟨hsound.append _, hout⟩

section made

variable {log : List (Event Wire)} {i : ℕ} {key : SessionKey} {label : Label} {plain : List UInt8}

/-- A box a run could open, under a key the relay does not know, was put by a run before. -/
theorem put_of_took (hlog : Ordered (MayHappen t roles knows) log)
    (htook : .took i (.box key label plain) ∈ log) (hheld : Held t roles i key log)
    (hnot : ¬ knows ((roles i).password t)) : ∃ before after j,
      log = before ++ .took i (.box key label plain) :: after ∧ .put j (.box key label plain) ∈ before := by
  obtain ⟨before, after, hsplit, hderives⟩ := hlog.of_mem htook
  obtain ⟨theirs, -, hfinish⟩ := hheld
  cases hderives with
  | seen hseen =>
    obtain ⟨j, hput⟩ := hseen
    exact ⟨before, after, j, hsplit, hput⟩
  | box _ _ hknows => exact absurd hknows (not_knowsKey hfinish hnot)

theorem mayPut_of_put (hlog : Ordered (MayHappen t roles knows) log)
    (hput : .put i (.box key label plain) ∈ log) :
    ∃ before after, log = before ++ .put i (.box key label plain) :: after ∧
      MayPut t roles before i (.box key label plain) := hlog.of_mem hput

/-- The handover leaves only after the proof was seen, whatever the relay does. -/
theorem handover_of_put (hput : MayPut t roles log i (.box key .aToB plain)) :
    ∃ id words handover, roles i = .handOver id words handover ∧
      plain = t.handoverText handover ∧ Held t roles i key log ∧
        .took i (.box key .bToA confirm) ∈ log := by
  obtain ⟨hheld, hrest⟩ := hput
  cases hrole : roles i with
  | handOver id words handover =>
    rw [hrole] at hrest
    exact ⟨id, words, handover, rfl, hrest.2.1, hheld, hrest.2.2⟩
  | takeOver id words joined =>
    rw [hrole] at hrest
    cases hrest.1

theorem takeOver_of_put (hput : MayPut t roles log i (.box key .bToA plain)) :
    ∃ id words joined, roles i = .takeOver id words joined ∧ Held t roles i key log ∧
      (plain = confirm ∨ plain = t.joinedText joined) := by
  obtain ⟨hheld, hrest⟩ := hput
  cases hrole : roles i with
  | handOver id words handover =>
    rw [hrole] at hrest
    cases hrest.1
  | takeOver id words joined =>
    rw [hrole] at hrest
    exact ⟨id, words, joined, rfl, hheld, hrest.2.imp_right And.left⟩

end made

end runs

section code

variable {t : Texts} {id words id' words' : String}

/-- A code's words without the bar between the two parts of a password. -/
def NoBar (t : Texts) (words : String) : Prop := '|' ∉ (t.lowercase (Text.trim words)).toList

theorem append_bar_inj {x y x' y' : List Char} (hy : '|' ∉ y) (hy' : '|' ∉ y')
    (h : x ++ '|' :: y = x' ++ '|' :: y') : x = x' ∧ y = y' := by
  rcases List.append_eq_append_iff.mp h with ⟨mid, rfl, hmid⟩ | ⟨mid, rfl, hmid⟩
  · cases mid with
    | nil => exact ⟨by simp, (List.cons.inj hmid).2⟩
    | cons c rest =>
      obtain ⟨-, hrest⟩ := List.cons.inj hmid
      exact absurd (hrest ▸ by simp) hy
  · cases mid with
    | nil => exact ⟨by simp, (List.cons.inj hmid).2.symm⟩
    | cons c rest =>
      obtain ⟨-, hrest⟩ := List.cons.inj hmid
      exact absurd (hrest ▸ by simp) hy'

/-- One password is one code, up to letter case and the spaces around it. -/
theorem code_of_password (hwords : NoBar t words) (hwords' : NoBar t words')
    (h : password t id words = password t id' words') :
    t.uppercase (Text.trim id) = t.uppercase (Text.trim id') ∧
      t.lowercase (Text.trim words) = t.lowercase (Text.trim words') := by
  have hlists := congrArg String.toList h
  unfold password at hlists
  simp only [String.toList_append, List.append_assoc] at hlists
  obtain ⟨hid, hword⟩ := append_bar_inj hwords hwords' hlists
  exact ⟨String.toList_inj.mp hid, String.toList_inj.mp hword⟩

end code

section main

variable {t : Texts} {roles : ℕ → Role} {knows : String → Prop} {net : Net Phase Wire}

/-- The two ends of one session: they hold a key of both their secrets and used one password. -/
structure Partners (t : Texts) (roles : ℕ → Role) (i j : ℕ) (key : SessionKey) : Prop where
  password : (roles j).password t = (roles i).password t
  key : key = .shared (.run i) (.run j) ((roles i).password t)

theorem partners_of_held {i j : ℕ} {key : SessionKey} {log log' : List (Event Wire)}
    (hside : (roles i).side = .a) (hside' : (roles j).side = .b) (h : Held t roles i key log)
    (h' : Held t roles j key log') : Partners t roles i j key := by
  obtain ⟨theirs, -, hfinish⟩ := h
  obtain ⟨theirs', -, hfinish'⟩ := h'
  obtain ⟨hpassword, hkey⟩ := shared_of_both hside hside' hfinish hfinish'
  exact ⟨hpassword, hkey⟩

/-- Whatever the relay does, a handover leaves a device only sealed, and only after that device
opened a proof made under its own session key. -/
theorem confirmed_before_handover (h : Reaches (protocol t roles knows) net) {i : ℕ}
    {key : SessionKey} {plain : List UInt8} {before after : List (Event Wire)}
    (hsplit : net.log = before ++ .put i (.box key .aToB plain) :: after) :
    ∃ id words handover, roles i = .handOver id words handover ∧ plain = t.handoverText handover ∧
      Held t roles i key before ∧ .took i (.box key .bToA confirm) ∈ before :=
  handover_of_put ((h.sound keeps).2 _ _ _ hsplit)

/-- Where the relay does not know the words, the proof was put by the joining device, and the
relay cannot open the handover. -/
theorem handover_stays_secret (h : Reaches (protocol t roles knows) net) {i : ℕ}
    {key : SessionKey} {plain : List UInt8} (hput : .put i (.box key .aToB plain) ∈ net.log)
    (hnot : ¬ knows ((roles i).password t)) :
    ¬ KnowsKey knows key ∧ ∃ j, (roles j).side = .b ∧ Partners t roles i j key ∧
      .put j (.box key .bToA confirm) ∈ net.log := by
  have hlog := (h.sound keeps).2
  obtain ⟨before, after, hsplit, hmay⟩ := mayPut_of_put hlog hput
  obtain ⟨id, words, handover, hrole, -, hheld, htook⟩ := handover_of_put hmay
  have hfull : ∀ e ∈ before, e ∈ net.log := fun e he => by
    rw [hsplit]
    exact List.mem_append_left _ he
  have hheld' : Held t roles i key net.log := by
    rw [hsplit]
    exact hheld.append _
  obtain ⟨first, rest, j, hfirst, hproof⟩ := put_of_took hlog (hfull _ htook) hheld' hnot
  have hproof' : .put j (.box key .bToA confirm) ∈ net.log := by
    rw [hfirst]
    exact List.mem_append_left _ hproof
  obtain ⟨_, _, _, hmade⟩ := mayPut_of_put hlog hproof'
  obtain ⟨id', words', joined, hrole', hholds, -⟩ := takeOver_of_put hmade
  have hside : (roles j).side = .b := by
    rw [hrole']
    rfl
  obtain ⟨theirs, -, hfinish⟩ := hheld
  exact ⟨not_knowsKey hfinish hnot, j, hside,
    partners_of_held (by rw [hrole]; rfl) hside hheld' hholds, hproof'⟩

/-- What a joining device takes over is what the device at the other end sealed for it. -/
theorem taken_was_handed (hlegible : Legible t roles) (h : Reaches (protocol t roles knows) net) {i : ℕ} {handover : Handover}
    {key : SessionKey} (hphase : net.parties i = some (.taken handover key))
    (hnot : ¬ knows ((roles i).password t)) :
    ∃ j id words before after, roles j = .handOver id words handover ∧ Partners t roles j i key ∧
      net.log = before ++ .took i (.box key .aToB (t.handoverText handover)) :: after ∧
        .put j (.box key .aToB (t.handoverText handover)) ∈ before := by
  obtain ⟨hparties, hlog⟩ := h.sound keeps
  obtain ⟨hside, hheld, plain, htook, hread⟩ := hparties _ _ hphase
  obtain ⟨before, after, j, hsplit, hput⟩ := put_of_took hlog htook hheld hnot
  have hput' : .put j (.box key .aToB plain) ∈ net.log := by
    rw [hsplit]
    exact List.mem_append_left _ hput
  obtain ⟨_, _, _, hmade⟩ := mayPut_of_put hlog hput'
  obtain ⟨id, words, handover', hrole, hplain, hholds, -⟩ := handover_of_put hmade
  have hsame : handover' = handover := by
    rw [hplain, hlegible.handover j id words handover' hrole] at hread
    exact Option.some.inj hread
  subst hsame
  refine ⟨j, id, words, before, after, hrole, ?_, hplain ▸ hsplit, hplain ▸ hput⟩
  exact partners_of_held (by rw [hrole]; rfl) hside hholds hheld

/-- What the device that was in hears at the end is what the joining device said, not its
proof over again. -/
theorem joined_was_said (hlegible : Legible t roles) (h : Reaches (protocol t roles knows) net)
    {i : ℕ} {joined : Joined} (hphase : net.parties i = some (.joined joined))
    (hnot : ¬ knows ((roles i).password t)) :
    ∃ key j id words before after, roles j = .takeOver id words joined ∧ Partners t roles i j key ∧
      net.log = before ++ .took i (.box key .bToA (t.joinedText joined)) :: after ∧
        .put j (.box key .bToA (t.joinedText joined)) ∈ before := by
  obtain ⟨hparties, hlog⟩ := h.sound keeps
  obtain ⟨hside, key, hheld, -, plain, htook, hread⟩ := hparties _ _ hphase
  obtain ⟨before, after, j, hsplit, hput⟩ := put_of_took hlog htook hheld hnot
  have hput' : .put j (.box key .bToA plain) ∈ net.log := by
    rw [hsplit]
    exact List.mem_append_left _ hput
  obtain ⟨_, _, _, hmade⟩ := mayPut_of_put hlog hput'
  obtain ⟨id, words, joined', hrole', hholds, hplain⟩ := takeOver_of_put hmade
  have hside' : (roles j).side = .b := by
    rw [hrole']
    rfl
  have hsame : plain = t.joinedText joined' ∧ joined' = joined := by
    rcases hplain with rfl | rfl
    · rw [hlegible.confirm] at hread
      cases hread
    · rw [hlegible.joined j id words joined' hrole'] at hread
      exact ⟨rfl, Option.some.inj hread⟩
  obtain ⟨rfl, rfl⟩ := hsame
  exact ⟨key, j, id, words, before, after, hrole', partners_of_held hside hside' hheld hholds, hsplit,
    hput⟩

/-- The code one run was told is the other's, up to letter case and the spaces around it, unless
the words of one hold a bar. -/
def SameCode (t : Texts) (id words : String) (role : Role) : Prop :=
  ∀ id' words' joined, role = .takeOver id' words' joined → NoBar t words → NoBar t words' →
    t.uppercase (Text.trim id) = t.uppercase (Text.trim id') ∧
      t.lowercase (Text.trim words) = t.lowercase (Text.trim words')

/-- The handshake against any relay. A handover leaves only after a proof under the sender's own
session key; and where the relay does not know the password, it stays secret, it is
taken only by the other end of the session it was sealed for, and what that end says back is
what comes out. -/
theorem handshake_sound (hlegible : Legible t roles) (h : Reaches (protocol t roles knows) net) :
    (∀ i key plain before after, net.log = before ++ .put i (.box key .aToB plain) :: after →
      ∃ id words handover, roles i = .handOver id words handover ∧ plain = t.handoverText handover ∧
        Held t roles i key before ∧ .took i (.box key .bToA confirm) ∈ before) ∧
    (∀ i key plain, .put i (.box key .aToB plain) ∈ net.log → ¬ knows ((roles i).password t) →
      ¬ KnowsKey knows key ∧ ∃ j, (roles j).side = .b ∧ Partners t roles i j key ∧
        .put j (.box key .bToA confirm) ∈ net.log) ∧
    (∀ i handover key, net.parties i = some (.taken handover key) → ¬ knows ((roles i).password t) →
      ∃ j id words before after, roles j = .handOver id words handover ∧
        SameCode t id words (roles i) ∧ Partners t roles j i key ∧
        net.log = before ++ .took i (.box key .aToB (t.handoverText handover)) :: after ∧
        .put j (.box key .aToB (t.handoverText handover)) ∈ before) ∧
    ∀ i joined, net.parties i = some (.joined joined) → ¬ knows ((roles i).password t) →
      ∃ key j id words before after, roles j = .takeOver id words joined ∧ Partners t roles i j key ∧
        net.log = before ++ .took i (.box key .bToA (t.joinedText joined)) :: after ∧
        .put j (.box key .bToA (t.joinedText joined)) ∈ before := by
  refine ⟨fun i key plain before after hsplit => confirmed_before_handover h hsplit,
    fun i key plain hput hnot => handover_stays_secret h hput hnot, fun i handover key hphase hnot => ?_,
    fun i joined hphase hnot => joined_was_said hlegible h hphase hnot⟩
  obtain ⟨j, id, words, before, after, hrole, hpartners, hsplit, hput⟩ :=
    taken_was_handed hlegible h hphase hnot
  refine ⟨j, id, words, before, after, hrole, fun id' words' joined hrole' hbar hbar' => ?_, hpartners, hsplit,
    hput⟩
  have hpassword := hpartners.password
  rw [hrole, hrole'] at hpassword
  exact code_of_password hbar hbar' hpassword.symm

end main

section completes

variable {t : Texts} {roles : ℕ → Role} (knows : String → Prop) {i j : ℕ}
  {id words id' words' : String} {handover : Handover} {joined : Joined}

/-- Two devices with one password, and a relay that passes their messages on, get through. -/
theorem handshake_completes (hlegible : Legible t roles) (hne : i ≠ j)
    (hrole : roles i = .handOver id words handover) (hrole' : roles j = .takeOver id' words' joined)
    (hsame : password t id' words' = password t id words) : ∃ net, Reaches (protocol t roles knows) net ∧
      net.parties i = some (.joined joined) ∧
      net.parties j = some (.taken handover (.shared (.run i) (.run j) (password t id words))) := by
  have hkey : (roles i).finish t i (.element ((roles j).element t j)) =
      some (.shared (.run i) (.run j) (password t id words)) := by
    rw [hrole, hrole']
    simp [Role.finish, finish, Role.element, Role.side, Role.password, hsame]
  have hkey' : (roles j).finish t j (.element ((roles i).element t i)) =
      some (.shared (.run i) (.run j) (password t id words)) := by
    rw [hrole, hrole']
    simp [Role.finish, finish, Role.element, Role.side, Role.password, hsame]
  have hstart : Reaches (protocol t roles knows) Net.start := .start
  obtain ⟨n₁, h₁, f₁⟩ := hstart.open_follows (i := i) rfl ⟨rfl, rfl⟩
  have hj₁ : n₁.parties j = none := f₁.others j hne.symm
  obtain ⟨n₂, h₂, f₂⟩ := h₁.open_follows hj₁ ⟨rfl, rfl⟩
  have hi₂ : n₂.parties i = some .waiting := (f₂.others i hne).trans f₁.self
  have hours : Seen n₂.log (.element ((roles i).element t i)) := by
    refine f₂.seen _ (f₁.out _ ?_)
    rw [hrole]
    rfl
  -- The joining side answers and proves that it has the key.
  have hanswer : (roles j).take t j .waiting (.element ((roles i).element t i)) =
      some (.answered (.element ((roles i).element t i)), some (.element ((roles j).element t j))) := by
    rw [hrole']
    rfl
  obtain ⟨n₃, h₃, f₃⟩ := h₂.take_follows f₂.self (.seen hours) hanswer
  obtain ⟨n₄, h₄, f₄⟩ := h₃.act_follows f₃.self (.confirm hkey')
  have hi₄ : n₄.parties i = some .waiting := (f₄.others i hne).trans ((f₃.others i hne).trans hi₂)
  have hderive : (roles i).take t i .waiting (.element ((roles j).element t j)) =
      some (.keyed (.shared (.run i) (.run j) (password t id words)), none) := by
    rw [hrole] at hkey ⊢
    simp only [Role.take, hkey]
  obtain ⟨n₅, h₅, f₅⟩ := h₄.take_follows hi₄ (.seen (f₄.seen _ (f₃.out _ rfl))) hderive
  have hhand : (roles i).take t i (.keyed (.shared (.run i) (.run j) (password t id words)))
      (.box (.shared (.run i) (.run j) (password t id words)) .bToA confirm) =
        some (.handed (.shared (.run i) (.run j) (password t id words)),
          some (.box (.shared (.run i) (.run j) (password t id words)) .aToB (t.handoverText handover))) := by
    rw [hrole]
    simp [Role.take, openBox]
  obtain ⟨n₆, h₆, f₆⟩ := h₅.take_follows f₅.self (.seen (f₅.seen _ (f₄.out _ rfl))) hhand
  have hj₆ : n₆.parties j = some (.keyed (.shared (.run i) (.run j) (password t id words))) :=
    (f₆.others j hne.symm).trans ((f₅.others j hne.symm).trans f₄.self)
  have htake : (roles j).take t j (.keyed (.shared (.run i) (.run j) (password t id words)))
      (.box (.shared (.run i) (.run j) (password t id words)) .aToB (t.handoverText handover)) =
        some (.taken handover (.shared (.run i) (.run j) (password t id words)), none) := by
    rw [hrole']
    simp [Role.take, openBox, hlegible.handover i id words handover hrole]
  obtain ⟨n₇, h₇, f₇⟩ := h₆.take_follows hj₆ (.seen (f₆.out _ rfl)) htake
  obtain ⟨n₈, h₈, f₈⟩ := h₇.act_follows f₇.self (.sayJoined hrole')
  have hi₈ : n₈.parties i = some (.handed (.shared (.run i) (.run j) (password t id words))) :=
    (f₈.others i hne).trans ((f₇.others i hne).trans f₆.self)
  have hjoin : (roles i).take t i (.handed (.shared (.run i) (.run j) (password t id words)))
      (.box (.shared (.run i) (.run j) (password t id words)) .bToA (t.joinedText joined)) =
        some (.joined joined, none) := by
    rw [hrole]
    simp [Role.take, openBox, hlegible.joined j id' words' joined hrole']
  obtain ⟨n₉, h₉, f₉⟩ := h₈.take_follows hi₈ (.seen (f₈.out _ rfl)) hjoin
  exact ⟨n₉, h₉, f₉.self, (f₉.others j hne.symm).trans f₈.self⟩

end completes

section examples

def asciiText (s : String) : List UInt8 := s.toList.map fun c => UInt8.ofNat c.toNat

def nas : Handover where
  serverUrl := "https://nas.example:8443"
  tlsFingerprint := none
  accountId := 1
  accountKey := none
  enrolment := "one-time-token"
  manifest := none

def nasText : List UInt8 := asciiText ("\x7b\"server_url\":\"https://nas.example:8443\"," ++
  "\"tls_fingerprint\":null,\"account_id\":\"00000000-0000-0000-0000-000000000001\"," ++
  "\"account_key\":null,\"enrolment\":\"one-time-token\"\x7d")

def laptop : Joined := { deviceName := "Laptop", deviceId := 5 }

def laptopText : List UInt8 := asciiText
  "\x7b\"deviceName\":\"Laptop\",\"deviceId\":\"00000000-0000-0000-0000-000000000005\"\x7d"

/-- The texts of one handover and one answer, and letter case as ASCII has it. -/
def plainTexts : Texts where
  uppercase := fun s => String.ofList (s.toList.map Char.toUpper)
  lowercase := Text.asciiLower
  handoverText := fun _ => nasText
  readHandover := fun bytes => if bytes = nasText then some nas else none
  joinedText := fun _ => laptopText
  readJoined := fun bytes => if bytes = laptopText then some laptop else none

/-- A device that is in under one code, and one that joins with another. -/
def twoRuns (id words id' words' : String) : ℕ → Role
  | 0 => .handOver id words nas
  | _ => .takeOver id' words' laptop

theorem legible_twoRuns (id words id' words' : String) :
    Legible plainTexts (twoRuns id words id' words') where
  handover := by
    intro i id words handover hrole
    cases i with
    | zero =>
      have hsame : nas = handover := (Role.handOver.inj hrole).2.2
      rw [← hsame]
      unfold plainTexts
      dsimp only
      rw [if_pos rfl]
    | succ i => cases hrole
  joined := by
    intro i id words joined hrole
    cases i with
    | zero => cases hrole
    | succ i =>
      have hsame : laptop = joined := (Role.takeOver.inj hrole).2.2
      rw [← hsame]
      unfold plainTexts
      dsimp only
      rw [if_pos rfl]
  confirm := by
    change (if confirm = laptopText then some laptop else none) = none
    rw [if_neg (by decide +kernel)]

/-- One code on both sides: the laptop is what the device that was in hears of. -/
theorem laptop_was_said : ∃ net : Net Phase Wire,
    net.parties 0 = some (.joined laptop) ∧ ∃ key j id words before after,
      twoRuns "K7M4Q" "kiwi-gnu-taxi" "K7M4Q" "kiwi-gnu-taxi" j = .takeOver id words laptop ∧
      Partners plainTexts (twoRuns "K7M4Q" "kiwi-gnu-taxi" "K7M4Q" "kiwi-gnu-taxi") 0 j key ∧
      net.log = before ++ .took 0 (.box key .bToA (plainTexts.joinedText laptop)) :: after ∧
      .put j (.box key .bToA (plainTexts.joinedText laptop)) ∈ before := by
  have hlegible := legible_twoRuns "K7M4Q" "kiwi-gnu-taxi" "K7M4Q" "kiwi-gnu-taxi"
  obtain ⟨net, hreaches, hjoined, -⟩ := handshake_completes (fun _ => False) hlegible (i := 0) (j := 1)
    (by decide) rfl rfl rfl
  exact ⟨net, hjoined, (handshake_sound hlegible hreaches).2.2.2 0 laptop hjoined id⟩

/-- What a run takes was handed over under its very id and words, letter for letter. -/
def TakesOwnCode (t : Texts) (roles : ℕ → Role) (knows : String → Prop) : Prop :=
  Legible t roles → ∀ net : Net Phase Wire, Reaches (protocol t roles knows) net →
    ∀ i id words joined handover key, roles i = .takeOver id words joined →
      net.parties i = some (.taken handover key) → ¬ knows (password t id words) →
        ∃ j, roles j = .handOver id words handover

theorem not_takesOwnCode {id words id' words' : String}
    (hsame : password plainTexts id' words' = password plainTexts id words) (hne : id ≠ id') :
    ¬ TakesOwnCode plainTexts (twoRuns id words id' words') (fun _ => False) := by
  intro hall
  have hlegible := legible_twoRuns id words id' words'
  obtain ⟨net, hreaches, -, htaken⟩ := handshake_completes (fun _ => False) hlegible (i := 0) (j := 1)
    (by decide) rfl rfl hsame
  obtain ⟨j, hrole⟩ := hall hlegible net hreaches 1 _ _ _ _ _ rfl htaken not_false
  cases j with
  | zero => exact hne (Role.handOver.inj hrole).1
  | succ j => cases hrole

/-- Letter case and the spaces around a code are no part of the password, and a bar in the words
makes two codes one password. -/
theorem one_password_two_codes :
    ¬ TakesOwnCode plainTexts (twoRuns "K7M4Q" "kiwi-gnu-taxi" " k7m4q" "Kiwi-Gnu-Taxi ") (fun _ => False) ∧
      ¬ TakesOwnCode plainTexts (twoRuns "A|1" "kiwi-gnu-taxi" "A" "1|kiwi-gnu-taxi") (fun _ => False) := by
  constructor
  · exact not_takesOwnCode (by decide +kernel) (by decide)
  · exact not_takesOwnCode (by decide +kernel) (by decide)

end examples

end Handshake

end UwuSsh

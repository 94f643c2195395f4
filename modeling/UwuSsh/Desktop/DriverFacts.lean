import Mathlib.Data.List.Basic
import UwuSsh.Desktop.Driver

/-!
Whose bytes are where. Everything that waits carries the generation it was made in, and where an attach goes on
after its detach before another call begins, the generation it reads is its own number: then a generation is one
session, an attach that was overtaken finds another one, and no byte crosses from one to the next.
-/
namespace UwuSsh.Desktop

/-! ### What the driver's functions do -/

namespace TerminalDriver

variable (d : TerminalDriver)

/-- A flush takes all there is and clears the timer, or finds nothing to take or nobody to tell. -/
theorem flushAck_cases :
    (∃ session, d.sessionId = some session ∧ d.flushAck = ({ d with ackTimer := false, pendingAck := [] },
      some { session, bytes := d.pendingAck, generation := d.generation, reached := false })) ∨
    ((d.sessionId = none ∨ d.pendingAck = []) ∧ d.flushAck = ({ d with ackTimer := false }, none)) := by
  unfold flushAck
  cases hsession : d.sessionId with
  | none => exact .inr ⟨.inl rfl, rfl⟩
  | some session =>
    by_cases hpending : d.pendingAck = []
    · exact .inr ⟨.inr hpending, if_pos hpending⟩
    · exact .inl ⟨session, rfl, if_neg hpending⟩

@[simp] theorem flushAck_generation : d.flushAck.1.generation = d.generation := by
  obtain ⟨_, -, h⟩ | ⟨-, h⟩ := d.flushAck_cases <;> rw [h]

@[simp] theorem flushAck_sessionId : d.flushAck.1.sessionId = d.sessionId := by
  obtain ⟨_, -, h⟩ | ⟨-, h⟩ := d.flushAck_cases <;> rw [h]

@[simp] theorem onData_generation (generation : ℕ) (bytes : List ℕ) (refused : Bool) :
    (d.onData generation bytes refused).1.generation = d.generation := by
  unfold onData
  split
  · rfl
  · cases refused <;> rfl

@[simp] theorem onData_sessionId (generation : ℕ) (bytes : List ℕ) (refused : Bool) :
    (d.onData generation bytes refused).1.sessionId = d.sessionId := by
  unfold onData
  split
  · rfl
  · cases refused <;> rfl

@[simp] theorem parsed_generation (write : Write) : (d.parsed write).1.generation = d.generation := by
  unfold parsed
  split
  · rfl
  · dsimp only
    split
    · rw [flushAck_generation]
    · rfl

@[simp] theorem parsed_sessionId (write : Write) : (d.parsed write).1.sessionId = d.sessionId := by
  unfold parsed
  split
  · rfl
  · dsimp only
    split
    · rw [flushAck_sessionId]
    · rfl

@[simp] theorem ackSettled_generation (call : AckCall) (ok : Bool) : (d.ackSettled call ok).generation = d.generation := by
  unfold ackSettled
  dsimp only
  split
  · rfl
  · split
    · rfl
    · split <;> rfl

@[simp] theorem ackSettled_sessionId (call : AckCall) (ok : Bool) : (d.ackSettled call ok).sessionId = d.sessionId := by
  unfold ackSettled
  dsimp only
  split
  · rfl
  · split
    · rfl
    · split <;> rfl

end TerminalDriver

/-! ### Generations and sessions -/

/-- A relation between a generation and a session, for everything that is waiting, or was shown or acknowledged. -/
structure Tagged (P : ℕ → ℕ → Prop) (w : World) : Prop where
  session : ∀ s, w.driver.sessionId = some s → P w.driver.generation s
  calls : ∀ n g, .spawning n g ∈ w.calls → P g n
  channels : ∀ n g, (n, g) ∈ w.channels → P g n
  pending : ∀ b ∈ w.driver.pendingAck, P w.driver.generation b
  writes : ∀ write ∈ w.writes, ∀ b ∈ write.bytes, P write.generation b
  acks : ∀ call ∈ w.acks, P call.generation call.session ∧ ∀ b ∈ call.bytes, P call.generation b
  shown : ∀ s g, (s, g) ∈ w.shown → P g s
  arrived : ∀ b ∈ w.arrived, ∃ g, P g b
  acked : ∀ s bytes, (s, bytes) ∈ w.acked → ∃ g, P g s ∧ ∀ b ∈ bytes, P g b

namespace Tagged

variable {P : ℕ → ℕ → Prop} {w w' : World}

theorem mono {Q : ℕ → ℕ → Prop} (h : Tagged P w) (hPQ : ∀ g n, P g n → Q g n) : Tagged Q w where
  session s hs := hPQ _ _ (h.session s hs)
  calls n g hmem := hPQ _ _ (h.calls n g hmem)
  channels n g hmem := hPQ _ _ (h.channels n g hmem)
  pending b hb := hPQ _ _ (h.pending b hb)
  writes write hwrite b hb := hPQ _ _ (h.writes write hwrite b hb)
  acks call hcall := ⟨hPQ _ _ (h.acks call hcall).1, fun b hb => hPQ _ _ ((h.acks call hcall).2 b hb)⟩
  shown s g hmem := hPQ _ _ (h.shown s g hmem)
  arrived b hb := by
    obtain ⟨g, hg⟩ := h.arrived b hb
    exact ⟨g, hPQ _ _ hg⟩
  acked s bytes hmem := by
    obtain ⟨g, hs, hbytes⟩ := h.acked s bytes hmem
    exact ⟨g, hPQ _ _ hs, fun b hb => hPQ _ _ (hbytes b hb)⟩

theorem new : Tagged P World.new where
  session := nofun
  calls := nofun
  channels := nofun
  pending := nofun
  writes := nofun
  acks := nofun
  shown := nofun
  arrived := nofun
  acked := nofun

/-- A new generation starts with nothing. -/
theorem start (h : Tagged P w) (attaches disposes : Bool) : Tagged P (w.start attaches disposes) where
  session := nofun
  calls n g hmem := by
    obtain hold | hnew := List.mem_append.mp hmem
    · exact h.calls n g hold
    · simp at hnew
  channels := h.channels
  pending := nofun
  writes := h.writes
  acks := h.acks
  shown := h.shown
  arrived := h.arrived
  acked := h.acked

/-- The driver may be anything that has the session and pending bytes of this generation. -/
theorem withDriver (h : Tagged P w) {d : TerminalDriver} (hgeneration : d.generation = w.driver.generation)
    (hsession : ∀ s, d.sessionId = some s → P w.driver.generation s)
    (hpending : ∀ b ∈ d.pendingAck, P w.driver.generation b) : Tagged P { w with driver := d } where
  session s hs := hgeneration ▸ hsession s hs
  calls := h.calls
  channels := h.channels
  pending b hb := hgeneration ▸ hpending b hb
  writes := h.writes
  acks := h.acks
  shown := h.shown
  arrived := h.arrived
  acked := h.acked

theorem flush (h : Tagged P w) : Tagged P (w.acts w.driver.flushAck) := by
  obtain ⟨session, hsession, hflush⟩ | ⟨-, hflush⟩ := w.driver.flushAck_cases
  · rw [hflush]
    refine ⟨h.session, h.calls, h.channels, nofun, h.writes, ?_, h.shown, h.arrived, h.acked⟩
    refine List.forall_mem_append.mpr ⟨h.acks, List.forall_mem_singleton.mpr ?_⟩
    exact ⟨h.session session hsession, h.pending⟩
  · rw [hflush]
    refine ⟨h.session, h.calls, h.channels, h.pending, h.writes, ?_, h.shown, h.arrived, h.acked⟩
    exact List.forall_mem_append.mpr ⟨h.acks, List.forall_mem_nil _⟩

theorem without (h : Tagged P w) (number : ℕ) : Tagged P { w with calls := w.without number } :=
  ⟨h.session, fun n g hmem => h.calls n g (List.mem_of_mem_filter hmem), h.channels, h.pending, h.writes, h.acks, h.shown,
    h.arrived, h.acked⟩

theorem parsed (h : Tagged P w) {write : Write} (hwrite : ∀ b ∈ write.bytes, P write.generation b) :
    Tagged P (w.acts (w.driver.parsed write)) := by
  unfold TerminalDriver.parsed
  by_cases hgeneration : write.generation ≠ w.driver.generation
  · rw [if_pos hgeneration]
    refine ⟨h.session, h.calls, h.channels, h.pending, h.writes, ?_, h.shown, h.arrived, h.acked⟩
    exact List.forall_mem_append.mpr ⟨h.acks, List.forall_mem_nil _⟩
  · rw [if_neg hgeneration]
    dsimp only
    have hsame : write.generation = w.driver.generation := not_not.mp hgeneration
    have hpending : ∀ b ∈ w.driver.pendingAck ++ write.bytes, P w.driver.generation b :=
      List.forall_mem_append.mpr ⟨h.pending, hsame ▸ hwrite⟩
    let d : TerminalDriver := { w.driver with
      written := w.driver.written + write.bytes.length, pendingAck := w.driver.pendingAck ++ write.bytes }
    have hd : Tagged P { w with driver := d } := h.withDriver rfl h.session hpending
    split
    · exact hd.flush
    · refine ⟨h.session, h.calls, h.channels, hpending, h.writes, ?_, h.shown, h.arrived, h.acked⟩
      exact List.forall_mem_append.mpr ⟨h.acks, List.forall_mem_nil _⟩

theorem data (h : Tagged P w) {number generation : ℕ} (hmem : (number, generation) ∈ w.channels) (size : ℕ)
    (refused : Bool) {w' : World} (hw' : step w (.data number generation size refused) = some w') : Tagged P w' := by
  rw [step, if_pos hmem] at hw'
  obtain rfl := Option.some.inj hw'
  have htag : P generation number := h.channels number generation hmem
  have hbytes : ∀ b ∈ List.replicate size number, P generation b := by
    intro b hb
    rw [List.eq_of_mem_replicate hb]
    exact htag
  have harrived : ∀ b ∈ w.arrived ++ List.replicate size number, ∃ g, P g b :=
    List.forall_mem_append.mpr ⟨h.arrived, fun b hb => ⟨generation, hbytes b hb⟩⟩
  unfold TerminalDriver.onData
  by_cases hgeneration : generation = w.driver.generation
  · have hshown : ∀ s g, (s, g) ∈ w.shown ++ [(number, w.driver.generation)] → P g s := by
      intro s g hs
      obtain hold | hnew := List.mem_append.mp hs
      · exact h.shown s g hold
      · cases List.mem_singleton.mp hnew
        exact hgeneration ▸ htag
    rw [if_neg (not_not.mpr hgeneration), if_pos hgeneration]
    dsimp only
    cases refused with
    | true =>
      refine ⟨h.session, h.calls, h.channels, ?_, ?_, h.acks, hshown, harrived, h.acked⟩
      · exact List.forall_mem_append.mpr ⟨h.pending, hgeneration ▸ hbytes⟩
      · exact List.forall_mem_append.mpr ⟨h.writes, List.forall_mem_nil _⟩
    | false =>
      refine ⟨h.session, h.calls, h.channels, h.pending, ?_, h.acks, hshown, harrived, h.acked⟩
      exact List.forall_mem_append.mpr ⟨h.writes, List.forall_mem_singleton.mpr hbytes⟩
  · rw [if_pos hgeneration, if_neg hgeneration]
    refine ⟨h.session, h.calls, h.channels, h.pending, ?_, h.acks, ?_, harrived, h.acked⟩
    · exact List.forall_mem_append.mpr ⟨h.writes, List.forall_mem_nil _⟩
    · rw [List.append_nil]
      exact h.shown

theorem ackReached (h : Tagged P w) {index : ℕ} {call : AckCall} (hcall : w.acks[index]? = some call) :
    Tagged P { w with
      acks := w.acks.set index { call with reached := true }, acked := w.acked ++ [(call.session, call.bytes)] } := by
  have hmem := h.acks call (List.mem_of_getElem? hcall)
  refine ⟨h.session, h.calls, h.channels, h.pending, h.writes, ?_, h.shown, h.arrived, ?_⟩
  · intro other hother
    obtain hold | rfl := List.mem_or_eq_of_mem_set hother
    · exact h.acks other hold
    · exact hmem
  · intro s bytes hs
    obtain hold | hnew := List.mem_append.mp hs
    · exact h.acked s bytes hold
    · cases List.mem_singleton.mp hnew
      exact ⟨call.generation, hmem⟩

theorem ackSettled (h : Tagged P w) {index : ℕ} {call : AckCall} (hcall : w.acks[index]? = some call) (ok : Bool)
    (row : ℕ) : Tagged P { w with
      driver := w.driver.ackSettled call ok, acks := w.acks.eraseIdx index, row := row } := by
  have hmem := h.acks call (List.mem_of_getElem? hcall)
  have hrest : ∀ other ∈ w.acks.eraseIdx index, P other.generation other.session ∧
      ∀ b ∈ other.bytes, P other.generation b := fun other hother => h.acks other (List.mem_of_mem_eraseIdx hother)
  unfold TerminalDriver.ackSettled
  dsimp only
  split
  · exact ⟨h.session, h.calls, h.channels, h.pending, h.writes, hrest, h.shown, h.arrived, h.acked⟩
  · split
    · exact ⟨h.session, h.calls, h.channels, h.pending, h.writes, hrest, h.shown, h.arrived, h.acked⟩
    · rename_i hsame
      have hgeneration : call.generation = w.driver.generation := not_not.mp (not_or.mp hsame).1
      split
      · exact ⟨h.session, h.calls, h.channels, h.pending, h.writes, hrest, h.shown, h.arrived, h.acked⟩
      · refine ⟨h.session, h.calls, h.channels, ?_, h.writes, hrest, h.shown, h.arrived, h.acked⟩
        exact List.forall_mem_append.mpr ⟨h.pending, hgeneration ▸ hmem.2⟩

/-- Every event keeps the relation; only where an attach goes on is it one of a new generation and a new session. -/
theorem step (h : Tagged P w) {event : Event} (hstep : step w event = some w')
    (hresume : ∀ number, event = .resume number → .closing number true ∈ w.calls → P w.driver.generation number) :
    Tagged P w' := by
  cases event with
  | attach =>
    obtain rfl := Option.some.inj hstep
    exact h.start _ _
  | detach =>
    obtain rfl := Option.some.inj hstep
    exact h.start _ _
  | dispose =>
    obtain rfl := Option.some.inj hstep
    exact h.start _ _
  | resume number =>
    simp only [Desktop.step] at hstep
    split at hstep
    · rename_i hmem
      obtain rfl := Option.some.inj hstep
      have htag := hresume number rfl hmem
      refine ⟨h.session, ?_, ?_, h.pending, h.writes, h.acks, h.shown, h.arrived, h.acked⟩
      · intro n g hn
        obtain hold | hnew := List.mem_append.mp hn
        · exact h.calls n g (List.mem_of_mem_filter hold)
        · cases List.mem_singleton.mp hnew
          exact htag
      · intro n g hn
        obtain hold | hnew := List.mem_append.mp hn
        · exact h.channels n g hold
        · cases List.mem_singleton.mp hnew
          exact htag
    · simp at hstep
  | ended number =>
    simp only [Desktop.step] at hstep
    split at hstep
    · obtain rfl := Option.some.inj hstep
      exact h.without number
    · simp at hstep
  | spawned number generation =>
    simp only [Desktop.step] at hstep
    split at hstep
    · rename_i hmem
      have htag := h.calls number generation hmem
      have hrest := h.without number
      split at hstep
      · obtain rfl := Option.some.inj hstep
        exact ⟨h.session, hrest.calls, h.channels, h.pending, h.writes, h.acks, h.shown, h.arrived, h.acked⟩
      · rename_i hgeneration
        obtain rfl := Option.some.inj hstep
        have hsession : ∀ s, some number = some s → P w.driver.generation s := by
          intro s hs
          cases hs
          exact not_not.mp hgeneration ▸ htag
        let d : TerminalDriver := { w.driver with sessionId := some number }
        have hd : Tagged P { w with calls := w.without number, driver := d } :=
          hrest.withDriver rfl hsession h.pending
        have hflush := hd.flush
        exact ⟨hflush.session, hflush.calls, hflush.channels, hflush.pending, hflush.writes, hflush.acks, hflush.shown,
          hflush.arrived, hflush.acked⟩
    · simp at hstep
  | spawnFailed number generation =>
    simp only [Desktop.step] at hstep
    split at hstep
    · obtain rfl := Option.some.inj hstep
      exact ⟨h.session, (h.without number).calls, h.channels, h.pending, h.writes, h.acks, h.shown, h.arrived, h.acked⟩
    · simp at hstep
  | data number generation size refused =>
    by_cases hmem : (number, generation) ∈ w.channels
    · exact h.data hmem size refused hstep
    · simp [Desktop.step, hmem] at hstep
  | parsed =>
    simp only [Desktop.step] at hstep
    split at hstep
    · simp at hstep
    · rename_i write writes hwrites
      obtain rfl := Option.some.inj hstep
      have hall := List.forall_mem_cons.mp (hwrites ▸ h.writes)
      have hrest : Tagged P { w with writes } :=
        ⟨h.session, h.calls, h.channels, h.pending, hall.2, h.acks, h.shown, h.arrived, h.acked⟩
      exact hrest.parsed hall.1
  | ackReached index =>
    simp only [Desktop.step] at hstep
    split at hstep
    · simp at hstep
    · rename_i call hcall
      split at hstep
      · simp at hstep
      · obtain rfl := Option.some.inj hstep
        exact h.ackReached hcall
  | ackSettled index ok =>
    simp only [Desktop.step] at hstep
    split at hstep
    · simp at hstep
    · rename_i call hcall
      split at hstep
      · simp at hstep
      · obtain rfl := Option.some.inj hstep
        exact h.ackSettled hcall ok _
  | timer =>
    simp only [Desktop.step] at hstep
    split at hstep
    · obtain rfl := Option.some.inj hstep
      exact h.flush
    · simp at hstep

end Tagged

/-! ### One terminal, one session -/

/-- An attach goes on after its detach only while no other call has begun since. -/
def timely (w : World) : Event → Bool
  | .resume number => number == w.driver.generation
  | _ => true

/-- The session's attach is over, and a session that was returned is closed or the driver's. -/
structure Attached (w : World) : Prop where
  ended : ∀ n, w.driver.sessionId = some n → ∀ call ∈ w.calls, call.number ≠ n
  returned : ∀ n ∈ w.returned, n ∈ w.closed ∨ w.driver.sessionId = some n
  outcomes : ∀ o ∈ w.outcomes, o.resolved = true → o.last = o.number

namespace Attached

variable {w w' : World}

theorem new : Attached World.new where
  ended := nofun
  returned := nofun
  outcomes := nofun

theorem start (h : Attached w) (attaches disposes : Bool) : Attached (w.start attaches disposes) where
  ended := nofun
  returned n hn := by
    obtain hclosed | hsession := h.returned n hn
    · exact .inl (List.mem_append_left _ hclosed)
    · exact .inl (List.mem_append_right _ (Option.mem_toList.mpr hsession))
  outcomes := h.outcomes

/-- Nothing here is about bytes and timers. -/
theorem congr (h : Attached w) (hcalls : w'.calls = w.calls) (hsession : w'.driver.sessionId = w.driver.sessionId)
    (hreturned : w'.returned = w.returned) (hclosed : w'.closed = w.closed) (houtcomes : w'.outcomes = w.outcomes) :
    Attached w' where
  ended := by rw [hcalls, hsession]; exact h.ended
  returned := by rw [hreturned, hclosed, hsession]; exact h.returned
  outcomes := by rw [houtcomes]; exact h.outcomes

theorem mem_without {number : ℕ} {call : Call} (h : call ∈ w.without number) : call ∈ w.calls ∧ call.number ≠ number := by
  obtain ⟨hmem, hne⟩ := List.mem_filter.mp h
  exact ⟨hmem, bne_iff_ne.mp hne⟩

theorem step (h : Attached w) (htagged : Tagged (fun g n => n = g) w) {event : Event}
    (hstep : step w event = some w') : Attached w' := by
  cases event with
  | attach =>
    obtain rfl := Option.some.inj hstep
    exact h.start _ _
  | detach =>
    obtain rfl := Option.some.inj hstep
    exact h.start _ _
  | dispose =>
    obtain rfl := Option.some.inj hstep
    exact h.start _ _
  | resume number =>
    simp only [Desktop.step] at hstep
    split at hstep
    · rename_i hmem
      obtain rfl := Option.some.inj hstep
      refine ⟨?_, h.returned, h.outcomes⟩
      intro n hn
      refine List.forall_mem_append.mpr ⟨fun call hcall => h.ended n hn call (mem_without hcall).1, ?_⟩
      exact List.forall_mem_singleton.mpr (h.ended n hn (.closing number true) hmem)
    · simp at hstep
  | ended number =>
    simp only [Desktop.step] at hstep
    split at hstep
    · obtain rfl := Option.some.inj hstep
      exact ⟨fun n hn call hcall => h.ended n hn call (mem_without hcall).1, h.returned, h.outcomes⟩
    · simp at hstep
  | spawned number generation =>
    simp only [Desktop.step] at hstep
    split at hstep
    · rename_i hmem
      have hnumber : number = generation := htagged.calls number generation hmem
      split at hstep
      · obtain rfl := Option.some.inj hstep
        refine ⟨fun n hn call hcall => h.ended n hn call (mem_without hcall).1, ?_, ?_⟩
        · intro n hn
          obtain hold | hnew := List.mem_append.mp hn
          · exact (h.returned n hold).imp_left (List.mem_append_left _)
          · exact .inl (List.mem_append_right _ hnew)
        · refine List.forall_mem_append.mpr ⟨h.outcomes, List.forall_mem_singleton.mpr ?_⟩
          exact fun hresolved => absurd hresolved Bool.false_ne_true
      · rename_i hgeneration
        have hsame : generation = w.driver.generation := not_not.mp hgeneration
        obtain rfl := Option.some.inj hstep
        refine ⟨?_, ?_, ?_⟩
        · intro n hn call hcall
          dsimp only [World.acts] at hn
          rw [TerminalDriver.flushAck_sessionId] at hn
          obtain rfl := Option.some.inj hn
          exact (mem_without hcall).2
        · intro n hn
          dsimp only [World.acts]
          rw [TerminalDriver.flushAck_sessionId]
          obtain hold | hnew := List.mem_append.mp hn
          · obtain hclosed | hold := h.returned n hold
            · exact .inl hclosed
            · -- The session before it would be this attach's own, which has not returned yet.
              have hn := htagged.session n hold
              exact absurd (hnumber.trans (hsame.trans hn.symm)) (h.ended n hold _ hmem)
          · exact .inr (congrArg some (List.mem_singleton.mp hnew).symm)
        · refine List.forall_mem_append.mpr ⟨h.outcomes, List.forall_mem_singleton.mpr ?_⟩
          exact fun _ => (hnumber.trans hsame).symm
    · simp at hstep
  | spawnFailed number generation =>
    simp only [Desktop.step] at hstep
    split at hstep
    · obtain rfl := Option.some.inj hstep
      refine ⟨fun n hn call hcall => h.ended n hn call (mem_without hcall).1, h.returned, ?_⟩
      refine List.forall_mem_append.mpr ⟨h.outcomes, List.forall_mem_singleton.mpr ?_⟩
      exact fun hresolved => absurd hresolved Bool.false_ne_true
    · simp at hstep
  | data number generation size refused =>
    simp only [Desktop.step] at hstep
    split at hstep
    · obtain rfl := Option.some.inj hstep
      exact h.congr rfl (TerminalDriver.onData_sessionId _ _ _ _) rfl rfl rfl
    · simp at hstep
  | parsed =>
    simp only [Desktop.step] at hstep
    split at hstep
    · simp at hstep
    · obtain rfl := Option.some.inj hstep
      exact h.congr rfl (TerminalDriver.parsed_sessionId _ _) rfl rfl rfl
  | ackReached index =>
    simp only [Desktop.step] at hstep
    split at hstep
    · simp at hstep
    · split at hstep
      · simp at hstep
      · obtain rfl := Option.some.inj hstep
        exact h.congr rfl rfl rfl rfl rfl
  | ackSettled index ok =>
    simp only [Desktop.step] at hstep
    split at hstep
    · simp at hstep
    · split at hstep
      · simp at hstep
      · obtain rfl := Option.some.inj hstep
        exact h.congr rfl (TerminalDriver.ackSettled_sessionId _ _ _) rfl rfl rfl
  | timer =>
    simp only [Desktop.step] at hstep
    split at hstep
    · obtain rfl := Option.some.inj hstep
      exact h.congr rfl (TerminalDriver.flushAck_sessionId _) rfl rfl rfl
    · simp at hstep

end Attached

/-- Where no attach goes on after its detach once another call has begun, every session a spawn returned is closed
but the driver's, an attach that was overtaken does not have its session, and no byte of one session is shown after
the next call began or acknowledged to another session. -/
theorem one_session {w : World} (h : Run.Steps (Step timely) World.new w) :
    (w.calls = [] → ∀ n ∈ w.returned, w.driver.sessionId ≠ some n → n ∈ w.closed) ∧
      (∀ o ∈ w.outcomes, o.last ≠ o.number → o.resolved = false) ∧
      (∀ n, w.driver.sessionId = some n → n = w.driver.generation) ∧
      (∀ s last, (s, last) ∈ w.shown → s = last) ∧
      (∀ call ∈ w.acks, ∀ b ∈ call.bytes, b = call.session) ∧
      ∀ s bytes, (s, bytes) ∈ w.acked → ∀ b ∈ bytes, b = s := by
  have hinv : Tagged (fun g n => n = g) w ∧ Attached w := by
    apply Run.invariant _ h ⟨Tagged.new, Attached.new⟩
    rintro u v ⟨htagged, hattached⟩ ⟨event, hevent, hstep⟩
    refine ⟨htagged.step hstep ?_, hattached.step htagged hstep⟩
    rintro number rfl -
    exact beq_iff_eq.mp hevent
  obtain ⟨htagged, hattached⟩ := hinv
  refine ⟨?_, ?_, htagged.session, htagged.shown, ?_, ?_⟩
  · intro _ n hn hsession
    exact (hattached.returned n hn).resolve_right hsession
  · intro o ho hlast
    exact Bool.eq_false_iff.mpr fun hresolved => hlast (hattached.outcomes o ho hresolved)
  · intro call hcall b hb
    obtain ⟨hsession, hbytes⟩ := htagged.acks call hcall
    exact (hbytes b hb).trans hsession.symm
  · intro s bytes hmem b hb
    obtain ⟨g, hs, hbytes⟩ := htagged.acked s bytes hmem
    exact (hbytes b hb).trans hs.symm

theorem one_session_of_two : ∃ w : World, w.returned = [2, 1] ∧ w.driver.sessionId = some 2 ∧ 1 ∈ w.closed := by
  have hrun : ∃ w, run timely World.new [.attach, .resume 1, .attach, .resume 2, .spawned 2 2, .spawned 1 1] = some w ∧
      w.calls = [] ∧ w.returned = [2, 1] ∧ w.driver.sessionId = some 2 := ⟨_, rfl, rfl, rfl, rfl⟩
  obtain ⟨w, hw, hcalls, hreturned, hsession⟩ := hrun
  refine ⟨w, hreturned, hsession, (one_session (steps_of_run hw)).1 hcalls 1 ?_ ?_⟩
  · rw [hreturned]
    decide
  · rw [hsession]
    decide

/-- Two attaches that begin together read one generation: both have their session, and the first is never closed. -/
theorem two_sessions : ¬ ∀ w, Run.Steps (Step fun _ _ => true) World.new w → w.calls = [] →
    ∀ n ∈ w.returned, w.driver.sessionId ≠ some n → n ∈ w.closed := by
  intro h
  have hrun : ∃ w, run (fun _ _ => true) World.new
      [.attach, .attach, .resume 1, .resume 2, .spawned 1 2, .spawned 2 2] = some w ∧
      w.calls = [] ∧ 1 ∈ w.returned ∧ w.driver.sessionId ≠ some 1 ∧ 1 ∉ w.closed :=
    ⟨_, rfl, rfl, by decide, by decide, by decide⟩
  obtain ⟨w, hw, hcalls, hreturned, hsession, hclosed⟩ := hrun
  exact hclosed (h w (steps_of_run hw) hcalls 1 hreturned hsession)

end UwuSsh.Desktop

import Mathlib.Algebra.BigOperators.Group.List.Basic
import Mathlib.Algebra.GroupWithZero.Nat
import UwuSsh.Desktop.DriverFacts

/-!
The credit of one session. Every byte that came in is with the terminal, waiting to be acknowledged, in a call that
has not reached the engine, or acknowledged; and while the session is known, bytes only wait under a timer. At rest
that leaves none.
-/
namespace UwuSsh.Desktop

/-- The events while one session is attached and no other call begins: an acknowledgement that fails has not
reached the engine, and not too many of the session's fail in a row. -/
def credited (w : World) : Event → Bool
  | .attach | .detach | .dispose => false
  | .ackSettled index ok =>
    match w.acks[index]? with
    | some call => ok || (!call.reached && (call.generation != w.driver.generation || decide (w.row < ackRetries)))
    | none => false
  | _ => true

/-- The bytes of a session that came in. -/
def receivedBytes (n : ℕ) (w : World) : ℕ := w.arrived.count n

/-- The bytes that the engine was told of for a session. -/
def ackedBytes (n : ℕ) (w : World) : ℕ :=
  ((w.acked.filter fun entry => entry.1 == n).map fun entry => entry.2.length).sum

/-- Nothing of the session is pending: no timer, no acknowledgement, no chunk that is not parsed. -/
def AtRest (n : ℕ) (w : World) : Prop :=
  w.driver.ackTimer = false ∧ (∀ call ∈ w.acks, call.session ≠ n) ∧ ∀ write ∈ w.writes, write.generation ≠ n

/-! ### Counting -/

def owed (n : ℕ) (call : AckCall) : ℕ := if call.reached then 0 else call.bytes.count n

/-- The bytes of a session that are neither lost nor acknowledged. -/
def outstanding (n : ℕ) (w : World) : ℕ :=
  (w.writes.map fun write => write.bytes.count n).sum + w.driver.pendingAck.count n + (w.acks.map (owed n)).sum

def told (n : ℕ) (w : World) : ℕ := (w.acked.map fun entry => entry.2.count n).sum

theorem split_at {α : Type*} {l : List α} {i : ℕ} {x : α} (h : l[i]? = some x) : ∃ front back,
    l = front ++ x :: back ∧ (∀ y, l.set i y = front ++ y :: back) ∧ l.eraseIdx i = front ++ back := by
  induction l generalizing i with
  | nil => simp at h
  | cons a l ih =>
    cases i with
    | zero =>
      obtain rfl : a = x := by simpa using h
      exact ⟨[], l, rfl, fun _ => rfl, rfl⟩
    | succ i =>
      obtain ⟨front, back, hl, hset, herase⟩ := ih (by simpa using h)
      refine ⟨a :: front, back, by rw [hl, List.cons_append], fun y => ?_, ?_⟩
      · rw [List.set_cons_succ, hset, List.cons_append]
      · rw [List.eraseIdx_cons_succ, herase, List.cons_append]

/-- Before the session or of it: nothing comes after. -/
def Here (n g s : ℕ) : Prop := (g = n ∧ s = n) ∨ (g < n ∧ s < n)

theorem Here.eq_of_generation {n g s : ℕ} (h : Here n g s) (hg : g = n) : s = n := by
  unfold Here at h
  omega

theorem Here.generation_eq {n g s : ℕ} (h : Here n g s) (hs : s = n) : g = n := by
  unfold Here at h
  omega

theorem count_eq_zero_of_here {n g : ℕ} {bytes : List ℕ} (h : ∀ b ∈ bytes, Here n g b) (hg : g ≠ n) :
    bytes.count n = 0 := by
  apply List.count_eq_zero.mpr
  intro hmem
  exact hg ((h n hmem).generation_eq rfl)

/-! ### The session alone -/

/-- The account balances, in a world where the session's attach is the only call. -/
structure Balanced (n : ℕ) (w : World) : Prop where
  generation : w.driver.generation = n
  session : ∀ s, w.driver.sessionId = some s → s = n
  calls : ∀ call ∈ w.calls, call = .closing n true ∨ call = .spawning n n
  known : ∀ call ∈ w.acks, call.generation = n → w.driver.sessionId = some n
  failures : w.driver.ackFailures ≤ w.row ∧ w.row ≤ ackRetries
  balance : receivedBytes n w = outstanding n w + told n w

/-- Bytes wait under a timer while the session is known. -/
def Timed (w : World) : Prop := w.driver.sessionId ≠ none → w.driver.pendingAck ≠ [] → w.driver.ackTimer = true

namespace Balanced

variable {n : ℕ} {w w' : World}

/-- A flush moves what waits into a call; what stays has nobody to go to. -/
theorem flush (h : Balanced n w) : Balanced n (w.acts w.driver.flushAck) ∧ Timed (w.acts w.driver.flushAck) := by
  obtain ⟨hgeneration, hsession, hcalls, hknown, hfailures, hbalance⟩ := h
  obtain ⟨session, hsome, hflush⟩ | ⟨hnobody, hflush⟩ := w.driver.flushAck_cases
  · rw [hflush]
    refine ⟨⟨hgeneration, hsession, hcalls, ?_, hfailures, ?_⟩, ?_⟩
    · intro call _ _
      exact hsome.trans (congrArg some (hsession session hsome))
    · unfold receivedBytes outstanding told at *
      simp only [World.acts, Option.toList_some, List.map_append, List.map_singleton, List.sum_append, List.sum_singleton,
        owed, List.count_nil] at hbalance ⊢
      simp only [Bool.false_eq_true, if_false]
      omega
    · exact fun _ hpending => absurd rfl hpending
  · rw [hflush]
    refine ⟨⟨hgeneration, hsession, hcalls, ?_, hfailures, ?_⟩, ?_⟩
    · exact List.forall_mem_append.mpr ⟨hknown, List.forall_mem_nil _⟩
    · unfold receivedBytes outstanding told at *
      simpa only [World.acts, Option.toList_none, List.append_nil] using hbalance
    · intro hsome hpending
      exact absurd hnobody (not_or.mpr ⟨hsome, hpending⟩)

/-- Chunk, callback and credit: the driver after data of this session, or a stale chunk that changes nothing. -/
theorem data (h : Balanced n w) (htimed : Timed w) (htagged : Tagged (Here n) w) {number generation size : ℕ}
    {refused : Bool} (hstep : step w (.data number generation size refused) = some w') : Balanced n w' ∧ Timed w' := by
  obtain ⟨hgeneration, hsession, hcalls, hknown, hfailures, hbalance⟩ := h
  by_cases hmem : (number, generation) ∈ w.channels
  · rw [step, if_pos hmem] at hstep
    obtain rfl := Option.some.inj hstep
    have htag := htagged.channels number generation hmem
    unfold TerminalDriver.onData
    by_cases hsame : generation = w.driver.generation
    · have hnumber : number = n := htag.eq_of_generation (hsame.trans hgeneration)
      subst hnumber
      rw [if_neg (not_not.mpr hsame)]
      dsimp only
      cases refused with
      | true =>
        refine ⟨⟨hgeneration, hsession, hcalls, hknown, hfailures, ?_⟩, fun _ _ => rfl⟩
        unfold receivedBytes outstanding told at *
        simp only [TerminalDriver.scheduleAckFlush, if_true, Option.toList_none, List.append_nil, List.count_append,
          List.count_replicate_self] at hbalance ⊢
        omega
      | false =>
        refine ⟨⟨hgeneration, hsession, hcalls, hknown, hfailures, ?_⟩, htimed⟩
        unfold receivedBytes outstanding told at *
        simp only [Bool.false_eq_true, if_false, Option.toList_some, List.map_append, List.map_singleton, List.sum_append,
          List.sum_singleton, List.count_append, List.count_replicate_self] at hbalance ⊢
        omega
    · have hnumber : number ≠ n := fun heq => hsame ((htag.generation_eq heq).trans hgeneration.symm)
      rw [if_pos hsame]
      refine ⟨⟨hgeneration, hsession, hcalls, hknown, hfailures, ?_⟩, htimed⟩
      have hnone : (List.replicate size number).count n = 0 := by
        apply List.count_eq_zero.mpr
        exact fun hn => hnumber (List.eq_of_mem_replicate hn).symm
      unfold receivedBytes outstanding told at *
      simp only [Option.toList_none, List.append_nil, List.count_append, hnone] at hbalance ⊢
      omega
  · simp [step, hmem] at hstep

theorem parsed (h : Balanced n w) (htimed : Timed w) (htagged : Tagged (Here n) w) {write : Write}
    {writes : List Write} (hwrites : w.writes = write :: writes) :
    Balanced n ({ w with writes := writes }.acts (w.driver.parsed write)) ∧
      Timed ({ w with writes := writes }.acts (w.driver.parsed write)) := by
  obtain ⟨hgeneration, hsession, hcalls, hknown, hfailures, hbalance⟩ := h
  have hbytes := htagged.writes write (by rw [hwrites]; exact List.mem_cons_self)
  unfold TerminalDriver.parsed
  by_cases hsame : write.generation = w.driver.generation
  · rw [if_neg (not_not.mpr hsame)]
    let d : TerminalDriver := { w.driver with
      written := w.driver.written + write.bytes.length, pendingAck := w.driver.pendingAck ++ write.bytes }
    have hd : Balanced n { w with writes := writes, driver := d } := by
      refine ⟨hgeneration, hsession, hcalls, hknown, hfailures, ?_⟩
      unfold receivedBytes outstanding told at *
      rw [hwrites, List.map_cons, List.sum_cons] at hbalance
      dsimp only [d]
      rw [List.count_append]
      omega
    dsimp only
    split
    · exact hd.flush
    · refine ⟨⟨hgeneration, hsession, hcalls, ?_, hfailures, ?_⟩, fun _ _ => rfl⟩
      · exact List.forall_mem_append.mpr ⟨hknown, List.forall_mem_nil _⟩
      · have hbalance' := hd.balance
        unfold receivedBytes outstanding told at *
        simpa only [World.acts, TerminalDriver.scheduleAckFlush, Option.toList_none, List.append_nil] using hbalance'
  · rw [if_pos hsame]
    have hnone := count_eq_zero_of_here hbytes fun heq => hsame (heq.trans hgeneration.symm)
    refine ⟨⟨hgeneration, hsession, hcalls, ?_, hfailures, ?_⟩, htimed⟩
    · exact List.forall_mem_append.mpr ⟨hknown, List.forall_mem_nil _⟩
    · unfold receivedBytes outstanding told at *
      rw [hwrites, List.map_cons, List.sum_cons, hnone, Nat.zero_add] at hbalance
      simpa only [World.acts, Option.toList_none, List.append_nil] using hbalance

/-- An acknowledgement that the engine has is off the account. -/
theorem ackReached (h : Balanced n w) {index : ℕ} {call : AckCall} (hcall : w.acks[index]? = some call)
    (hreached : call.reached = false) : Balanced n { w with
      acks := w.acks.set index { call with reached := true }, acked := w.acked ++ [(call.session, call.bytes)] } := by
  obtain ⟨hgeneration, hsession, hcalls, hknown, hfailures, hbalance⟩ := h
  obtain ⟨front, back, hacks, hset, -⟩ := split_at hcall
  refine ⟨hgeneration, hsession, hcalls, ?_, hfailures, ?_⟩
  · intro other hother
    obtain hold | rfl := List.mem_or_eq_of_mem_set hother
    · exact hknown other hold
    · exact hknown call (List.mem_of_getElem? hcall)
  · have howed : owed n call = call.bytes.count n := by simp [owed, hreached]
    unfold receivedBytes outstanding told at *
    rw [hacks, List.map_append, List.sum_append, List.map_cons, List.sum_cons, howed] at hbalance
    dsimp only
    rw [hset, List.map_append, List.sum_append, List.map_cons, List.sum_cons, List.map_append, List.sum_append]
    simp only [owed, List.map_singleton, List.sum_singleton, if_true]
    omega

/-- One that comes back was told, or its bytes wait again under the timer. -/
theorem ackSettled (h : Balanced n w) (htimed : Timed w) (htagged : Tagged (Here n) w) {index : ℕ} {ok : Bool}
    (hallowed : credited w (.ackSettled index ok) = true) (hstep : step w (.ackSettled index ok) = some w') :
    Balanced n w' ∧ Timed w' := by
  obtain ⟨hgeneration, hsession, hcalls, hknown, hfailures, hbalance⟩ := h
  cases hcall : w.acks[index]? with
  | none => simp [step, hcall] at hstep
  | some call =>
    have hmem := List.mem_of_getElem? hcall
    obtain ⟨front, back, hacks, -, herase⟩ := split_at hcall
    have hrest : ∀ other ∈ w.acks.eraseIdx index, other.generation = n → w.driver.sessionId = some n :=
      fun other hother => hknown other (List.mem_of_mem_eraseIdx hother)
    simp only [step, hcall] at hstep
    simp only [credited, hcall] at hallowed
    unfold receivedBytes outstanding told at hbalance
    rw [hacks, List.map_append, List.sum_append, List.map_cons, List.sum_cons] at hbalance
    cases ok with
    | true =>
      cases hreached : call.reached with
      | false => simp [hreached] at hstep
      | true =>
        simp only [hreached] at hstep
        obtain rfl := Option.some.inj hstep
        refine ⟨⟨hgeneration, hsession, hcalls, hrest, ?_, ?_⟩, htimed⟩
        · refine ⟨Nat.zero_le _, ?_⟩
          dsimp only
          split
          · exact hfailures.2
          · exact Nat.zero_le _
        · have howed : owed n call = 0 := by simp [owed, hreached]
          unfold receivedBytes outstanding told
          simp only [herase, List.map_append, List.sum_append, TerminalDriver.ackSettled, if_true]
          omega
    | false =>
      obtain ⟨hunreached, hrow⟩ := Bool.and_eq_true_iff.mp hallowed
      have hreached : call.reached = false := by simpa using hunreached
      have howed : owed n call = call.bytes.count n := by simp [owed, hreached]
      simp only [Bool.false_eq_true, false_and, if_false] at hstep
      obtain rfl := Option.some.inj hstep
      unfold TerminalDriver.ackSettled
      by_cases hsame : call.generation = w.driver.generation
      · have hn : call.generation = n := hsame.trans hgeneration
        have hsome := hknown call hmem hn
        have hcallSession := (htagged.acks call hmem).1.eq_of_generation hn
        have hkept : ¬ (call.generation ≠ w.driver.generation ∨ some call.session ≠ w.driver.sessionId) := by
          rw [hsome, hcallSession]
          exact not_or.mpr ⟨not_not.mpr hsame, not_not.mpr rfl⟩
        have hlt : w.row < ackRetries := by
          obtain hdiffers | hlt := Bool.or_eq_true_iff.mp hrow
          · exact absurd hsame (bne_iff_ne.mp hdiffers)
          · exact of_decide_eq_true hlt
        have hretry : ¬ ackRetries < w.driver.ackFailures + 1 := by omega
        rw [if_neg Bool.false_ne_true, if_neg hkept, if_neg (not_not.mpr hsame)]
        dsimp only
        rw [if_neg hretry]
        refine ⟨⟨hgeneration, hsession, hcalls, hrest, ?_, ?_⟩, fun _ _ => rfl⟩
        · dsimp only
          omega
        · unfold receivedBytes outstanding told
          simp only [herase, List.map_append, List.sum_append, List.count_append]
          omega
      · have hnone := count_eq_zero_of_here (htagged.acks call hmem).2 fun heq => hsame (heq.trans hgeneration.symm)
        rw [if_neg Bool.false_ne_true, if_pos (.inl hsame), if_pos hsame]
        refine ⟨⟨hgeneration, hsession, hcalls, hrest, hfailures, ?_⟩, htimed⟩
        unfold receivedBytes outstanding told
        simp only [herase, List.map_append, List.sum_append]
        omega

theorem without (h : Balanced n w) (number : ℕ) : ∀ call ∈ w.without number, call = .closing n true ∨ call = .spawning n n :=
  fun call hcall => h.calls call (List.mem_of_mem_filter hcall)

theorem step (h : Balanced n w) (htimed : Timed w) (htagged : Tagged (Here n) w) {event : Event}
    (hallowed : credited w event = true) (hstep : step w event = some w') : Balanced n w' ∧ Timed w' := by
  cases event with
  | attach => exact absurd hallowed Bool.false_ne_true
  | detach => exact absurd hallowed Bool.false_ne_true
  | dispose => exact absurd hallowed Bool.false_ne_true
  | resume number =>
    simp only [Desktop.step] at hstep
    split at hstep
    · rename_i hmem
      obtain rfl := Option.some.inj hstep
      have hnumber : number = n := by
        obtain heq | heq := h.calls _ hmem
        · exact (Call.closing.inj heq).1
        · simp at heq
      refine ⟨⟨h.generation, h.session, ?_, h.known, h.failures, h.balance⟩, htimed⟩
      refine List.forall_mem_append.mpr ⟨h.without number, List.forall_mem_singleton.mpr ?_⟩
      exact .inr (by rw [hnumber, h.generation])
    · simp at hstep
  | ended number =>
    simp only [Desktop.step] at hstep
    split at hstep
    · obtain rfl := Option.some.inj hstep
      exact ⟨⟨h.generation, h.session, h.without number, h.known, h.failures, h.balance⟩, htimed⟩
    · simp at hstep
  | spawned number generation =>
    simp only [Desktop.step] at hstep
    split at hstep
    · rename_i hmem
      have hnumber : number = n := by
        obtain heq | heq := h.calls _ hmem
        · simp at heq
        · exact (Call.spawning.inj heq).1
      split at hstep
      · obtain rfl := Option.some.inj hstep
        exact ⟨⟨h.generation, h.session, h.without number, h.known, h.failures, h.balance⟩, htimed⟩
      · obtain rfl := Option.some.inj hstep
        let d : TerminalDriver := { w.driver with sessionId := some number }
        have hd : Balanced n { w with
            calls := w.without number
            returned := w.returned ++ [number]
            outcomes := w.outcomes ++ [{ number, last := w.driver.generation, resolved := true }]
            driver := d } :=
          ⟨h.generation, fun s hs => (Option.some.inj hs).symm.trans hnumber, h.without number,
            fun _ _ _ => congrArg some hnumber, h.failures, h.balance⟩
        exact hd.flush
    · simp at hstep
  | spawnFailed number generation =>
    simp only [Desktop.step] at hstep
    split at hstep
    · obtain rfl := Option.some.inj hstep
      exact ⟨⟨h.generation, h.session, h.without number, h.known, h.failures, h.balance⟩, htimed⟩
    · simp at hstep
  | data number generation size refused => exact h.data htimed htagged hstep
  | parsed =>
    simp only [Desktop.step] at hstep
    split at hstep
    · simp at hstep
    · rename_i write writes hwrites
      obtain rfl := Option.some.inj hstep
      exact h.parsed htimed htagged hwrites
  | ackReached index =>
    simp only [Desktop.step] at hstep
    split at hstep
    · simp at hstep
    · rename_i call hcall
      split at hstep
      · simp at hstep
      · rename_i hreached
        obtain rfl := Option.some.inj hstep
        exact ⟨h.ackReached hcall (Bool.eq_false_iff.mpr hreached), htimed⟩
  | ackSettled index ok => exact h.ackSettled htimed htagged hallowed hstep
  | timer =>
    simp only [Desktop.step] at hstep
    split at hstep
    · obtain rfl := Option.some.inj hstep
      exact h.flush
    · simp at hstep

end Balanced

/-! ### A session among others -/

/-- Every number and generation there is has begun. -/
structure Begun (w : World) : Prop where
  tagged : Tagged (fun g s => g ≤ w.driver.generation ∧ s ≤ w.driver.generation) w
  calls : ∀ call ∈ w.calls, call.number ≤ w.driver.generation

theorem calls_step {w w' : World} {event : Event} (h : ∀ call ∈ w.calls, call.number ≤ w.driver.generation)
    (hstep : step w event = some w') :
    w.driver.generation ≤ w'.driver.generation ∧ ∀ call ∈ w'.calls, call.number ≤ w'.driver.generation := by
  have hstart : ∀ attaches disposes, w.driver.generation ≤ (w.start attaches disposes).driver.generation ∧
      ∀ call ∈ (w.start attaches disposes).calls, call.number ≤ (w.start attaches disposes).driver.generation := by
    intro attaches disposes
    refine ⟨Nat.le_succ _, List.forall_mem_append.mpr ⟨?_, List.forall_mem_singleton.mpr (Nat.le_refl _)⟩⟩
    exact fun call hcall => Nat.le_succ_of_le (h call hcall)
  have hwithout : ∀ number, ∀ call ∈ w.without number, call.number ≤ w.driver.generation :=
    fun number call hcall => h call (List.mem_of_mem_filter hcall)
  cases event with
  | attach =>
    obtain rfl := Option.some.inj hstep
    exact hstart _ _
  | detach =>
    obtain rfl := Option.some.inj hstep
    exact hstart _ _
  | dispose =>
    obtain rfl := Option.some.inj hstep
    exact hstart _ _
  | resume number =>
    simp only [step] at hstep
    split at hstep
    · rename_i hmem
      obtain rfl := Option.some.inj hstep
      refine ⟨Nat.le_refl _, List.forall_mem_append.mpr ⟨hwithout number, List.forall_mem_singleton.mpr ?_⟩⟩
      exact h (.closing number true) hmem
    · simp at hstep
  | ended number =>
    simp only [step] at hstep
    split at hstep
    · obtain rfl := Option.some.inj hstep
      exact ⟨Nat.le_refl _, hwithout number⟩
    · simp at hstep
  | spawned number generation =>
    simp only [step] at hstep
    split at hstep
    · split at hstep
      · obtain rfl := Option.some.inj hstep
        exact ⟨Nat.le_refl _, hwithout number⟩
      · obtain rfl := Option.some.inj hstep
        dsimp only [World.acts]
        rw [TerminalDriver.flushAck_generation]
        exact ⟨Nat.le_refl _, hwithout number⟩
    · simp at hstep
  | spawnFailed number generation =>
    simp only [step] at hstep
    split at hstep
    · obtain rfl := Option.some.inj hstep
      exact ⟨Nat.le_refl _, hwithout number⟩
    · simp at hstep
  | data number generation size refused =>
    simp only [step] at hstep
    split at hstep
    · obtain rfl := Option.some.inj hstep
      rw [TerminalDriver.onData_generation]
      exact ⟨Nat.le_refl _, h⟩
    · simp at hstep
  | parsed =>
    simp only [step] at hstep
    split at hstep
    · simp at hstep
    · obtain rfl := Option.some.inj hstep
      dsimp only [World.acts]
      rw [TerminalDriver.parsed_generation]
      exact ⟨Nat.le_refl _, h⟩
  | ackReached index =>
    simp only [step] at hstep
    split at hstep
    · simp at hstep
    · split at hstep
      · simp at hstep
      · obtain rfl := Option.some.inj hstep
        exact ⟨Nat.le_refl _, h⟩
  | ackSettled index ok =>
    simp only [step] at hstep
    split at hstep
    · simp at hstep
    · split at hstep
      · simp at hstep
      · obtain rfl := Option.some.inj hstep
        rw [TerminalDriver.ackSettled_generation]
        exact ⟨Nat.le_refl _, h⟩
  | timer =>
    simp only [step] at hstep
    split at hstep
    · obtain rfl := Option.some.inj hstep
      dsimp only [World.acts]
      rw [TerminalDriver.flushAck_generation]
      exact ⟨Nat.le_refl _, h⟩
    · simp at hstep

theorem begun_of_run {w : World} (h : Run.Steps (Step fun _ _ => true) World.new w) : Begun w := by
  apply Run.invariant _ h ⟨Tagged.new, nofun⟩
  rintro u v ⟨htagged, hcalls⟩ ⟨event, -, hstep⟩
  obtain ⟨hle, hcalls'⟩ := calls_step hcalls hstep
  refine ⟨(htagged.step hstep ?_).mono ?_, hcalls'⟩
  · rintro number rfl hmem
    exact ⟨Nat.le_refl _, hcalls _ hmem⟩
  · rintro g s ⟨hg, hs⟩
    exact ⟨Nat.le_trans hg hle, Nat.le_trans hs hle⟩

/-- An attach that begins when no other call is on its way finds an even account. -/
theorem balanced_start {w : World} (h : Begun w) (halone : w.calls = []) :
    Tagged (Here (w.driver.generation + 1)) (w.start true false) ∧
      Balanced (w.driver.generation + 1) (w.start true false) ∧ Timed (w.start true false) := by
  have htagged : Tagged (Here (w.driver.generation + 1)) w := by
    apply h.tagged.mono
    rintro g s ⟨hg, hs⟩
    exact .inr ⟨Nat.lt_succ_of_le hg, Nat.lt_succ_of_le hs⟩
  refine ⟨htagged.start true false, ⟨rfl, nofun, ?_, ?_, ⟨Nat.le_refl _, Nat.zero_le _⟩, ?_⟩, nofun⟩
  · dsimp only [World.start]
    rw [halone, List.nil_append]
    exact List.forall_mem_singleton.mpr (.inl rfl)
  · intro call hcall hgeneration
    have hle := (h.tagged.acks call hcall).1.1
    omega
  · have harrived : w.arrived.count (w.driver.generation + 1) = 0 := by
      apply List.count_eq_zero.mpr
      intro hmem
      obtain ⟨g, -, hle⟩ := h.tagged.arrived _ hmem
      exact Nat.not_succ_le_self _ hle
    have hnone : ∀ (g : ℕ) (bytes : List ℕ), (∀ b ∈ bytes, g ≤ w.driver.generation ∧ b ≤ w.driver.generation) →
        bytes.count (w.driver.generation + 1) = 0 := by
      intro g bytes hbytes
      apply List.count_eq_zero.mpr
      exact fun hmem => Nat.not_succ_le_self _ (hbytes _ hmem).2
    have hwrites : (w.writes.map fun write => write.bytes.count (w.driver.generation + 1)).sum = 0 := by
      apply List.sum_eq_zero
      intro k hk
      obtain ⟨write, hwrite, rfl⟩ := List.mem_map.mp hk
      exact hnone _ _ (h.tagged.writes write hwrite)
    have hacks : (w.acks.map (owed (w.driver.generation + 1))).sum = 0 := by
      apply List.sum_eq_zero
      intro k hk
      obtain ⟨call, hcall, rfl⟩ := List.mem_map.mp hk
      unfold owed
      rw [hnone _ _ (h.tagged.acks call hcall).2, ite_self]
    have htold : told (w.driver.generation + 1) w = 0 := by
      apply List.sum_eq_zero
      intro k hk
      obtain ⟨⟨s, bytes⟩, hentry, rfl⟩ := List.mem_map.mp hk
      obtain ⟨g, -, hbytes⟩ := h.tagged.acked s bytes hentry
      exact hnone g bytes hbytes
    unfold receivedBytes outstanding told at *
    dsimp only [World.start, TerminalDriver.detach]
    rw [harrived, hwrites, hacks, htold, List.count_nil]

/-- What was told of the session is what was acknowledged to it. -/
theorem ackedBytes_eq {n : ℕ} {w : World} (h : Tagged (Here n) w) : ackedBytes n w = told n w := by
  have hall : ∀ entries : List (ℕ × List ℕ), (∀ s bytes, (s, bytes) ∈ entries → ∃ g, Here n g s ∧ ∀ b ∈ bytes, Here n g b) →
      ((entries.filter fun entry => entry.1 == n).map fun entry => entry.2.length).sum =
        (entries.map fun entry => entry.2.count n).sum := by
    intro entries
    induction entries with
    | nil => exact fun _ => rfl
    | cons entry entries ih =>
      obtain ⟨s, bytes⟩ := entry
      intro hentries
      have hrest := ih fun s bytes hmem => hentries s bytes (List.mem_cons_of_mem _ hmem)
      obtain ⟨g, hs, hbytes⟩ := hentries s bytes List.mem_cons_self
      rw [List.map_cons, List.sum_cons, ← hrest]
      by_cases hsame : s = n
      · have hcount : bytes.count n = bytes.length :=
          List.count_eq_length.mpr fun b hb => ((hbytes b hb).eq_of_generation (hs.generation_eq hsame)).symm
        rw [List.filter_cons_of_pos (by simpa using hsame), List.map_cons, List.sum_cons, hcount]
      · have hg : g ≠ n := fun heq => hsame (hs.eq_of_generation heq)
        rw [List.filter_cons_of_neg (by simpa using hsame), count_eq_zero_of_here hbytes hg, Nat.zero_add]
  exact hall w.acked h.acked

/-- Whatever came before it on the driver, no more of a session's bytes are acknowledged than came in, and once its
id is known and nothing is pending, all of them are. -/
theorem credit_exact {w₀ w : World} (hbefore : Run.Steps (Step fun _ _ => true) World.new w₀) (halone : w₀.calls = [])
    (h : Run.Steps (Step credited) (w₀.start true false) w) :
    ackedBytes (w₀.driver.generation + 1) w ≤ receivedBytes (w₀.driver.generation + 1) w ∧
      (w.driver.sessionId = some (w₀.driver.generation + 1) → AtRest (w₀.driver.generation + 1) w →
        ackedBytes (w₀.driver.generation + 1) w = receivedBytes (w₀.driver.generation + 1) w) := by
  obtain ⟨htagged, hbalanced, htimed⟩ : Tagged (Here (w₀.driver.generation + 1)) w ∧
      Balanced (w₀.driver.generation + 1) w ∧ Timed w := by
    apply Run.invariant _ h (balanced_start (begun_of_run hbefore) halone)
    rintro u v ⟨htagged, hbalanced, htimed⟩ ⟨event, hallowed, hstep⟩
    refine ⟨htagged.step hstep ?_, hbalanced.step htimed htagged hallowed hstep⟩
    rintro number rfl hmem
    obtain heq | heq := hbalanced.calls _ hmem
    · exact .inl ⟨hbalanced.generation, (Call.closing.inj heq).1⟩
    · simp at heq
  have hbalance := hbalanced.balance
  rw [ackedBytes_eq htagged]
  refine ⟨by omega, ?_⟩
  rintro hknown ⟨htimer, hacks, hwrites⟩
  have hpending : w.driver.pendingAck = [] := by
    by_contra hsome
    have hset := htimed (by rw [hknown]; exact Option.some_ne_none _) hsome
    exact Bool.false_ne_true (htimer.symm.trans hset)
  have hwritten : (w.writes.map fun write => write.bytes.count (w₀.driver.generation + 1)).sum = 0 := by
    apply List.sum_eq_zero
    intro k hk
    obtain ⟨write, hwrite, rfl⟩ := List.mem_map.mp hk
    exact count_eq_zero_of_here (htagged.writes write hwrite) (hwrites write hwrite)
  have howed : (w.acks.map (owed (w₀.driver.generation + 1))).sum = 0 := by
    apply List.sum_eq_zero
    intro k hk
    obtain ⟨call, hcall, rfl⟩ := List.mem_map.mp hk
    obtain ⟨hsession, hbytes⟩ := htagged.acks call hcall
    have hother : call.generation ≠ w₀.driver.generation + 1 :=
      fun heq => hacks call hcall (hsession.eq_of_generation heq)
    rw [owed, count_eq_zero_of_here hbytes hother, ite_self]
  unfold outstanding at hbalance
  rw [hwritten, howed, hpending, List.count_nil] at hbalance
  omega

/-- Bytes that came before the id, a flush that finds no session, a refused chunk and one failed call. -/
theorem credit_exact_early : ∃ w : World, receivedBytes 1 w = 7 ∧ ackedBytes 1 w = 7 := by
  have hrun : ∃ w, run credited (World.new.start true false) [.resume 1, .data 1 1 5 false, .parsed, .timer, .spawned 1 1,
      .data 1 1 2 true, .ackSettled 0 false, .timer, .ackReached 0, .ackSettled 0 true] = some w ∧
      w.driver.sessionId = some 1 ∧ w.driver.ackTimer = false ∧ w.acks = [] ∧ w.writes = [] ∧ receivedBytes 1 w = 7 :=
    ⟨_, rfl, rfl, rfl, rfl, rfl, rfl⟩
  obtain ⟨w, hw, hsession, htimer, hacks, hwrites, hreceived⟩ := hrun
  have hrest : AtRest 1 w := ⟨htimer, by simp [hacks], by simp [hwrites]⟩
  have hexact := (@credit_exact World.new w .refl rfl (steps_of_run hw)).2 hsession hrest
  exact ⟨w, hreceived, hexact.trans hreceived⟩

end UwuSsh.Desktop

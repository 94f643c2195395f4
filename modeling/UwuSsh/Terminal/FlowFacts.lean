import UwuSsh.Terminal.Flow

/-!
Flow control neither overruns, deadlocks nor loses bytes. The counter never says more than what is
counted and not acknowledged, so a renderer that is through with everything leaves it below the mark
at which a paused batcher resumes; and a batcher that is paused looked after it registered, so whatever
changed since still has to wake it.
-/
namespace UwuSsh

namespace FlowControl

variable (flow : FlowControl) (bytes : UInt64)

/-- An acknowledgement takes away what it names, as far as there is something. -/
theorem toNat_ack : (flow.ack bytes).unacked.toNat = flow.unacked.toNat - bytes.toNat := by
  unfold ack
  dsimp only
  split
  · next hle => exact UInt64.toNat_sub_of_le _ _ hle
  · next hlt =>
    have hmore : flow.unacked.toNat < bytes.toNat := by
      rw [UInt64.le_iff_toNat_le] at hlt
      omega
    rw [Nat.sub_eq_zero_of_le (Nat.le_of_lt hmore)]
    rfl

theorem toNat_onSent :
    (flow.onSent bytes).unacked.toNat = (flow.unacked.toNat + bytes.toNat) % 2 ^ 64 :=
  UInt64.toNat_add _ _

@[simp] theorem enabled_ack : (flow.ack bytes).enabled = flow.enabled := rfl

@[simp] theorem enabled_onSent : (flow.onSent bytes).enabled = flow.enabled := rfl

@[simp] theorem closed_ack : (flow.ack bytes).closed = flow.closed := rfl

@[simp] theorem closed_onSent : (flow.onSent bytes).closed = flow.closed := rfl

end FlowControl

namespace Phase

@[simp] theorem taken_wake (phase : Phase) : phase.wake.taken = phase.taken := by
  cases phase <;> rfl

@[simp] theorem counting_wake (phase : Phase) : phase.wake.counting = phase.counting := by
  cases phase <;> rfl

/-- A batcher that does not wait is not where a wake-up put it. -/
theorem of_wake {phase after : Phase} (h : phase.wake = after)
    (hafter : ∀ woken, after ≠ .registered woken ∧ after ≠ .looked woken ∧ after ≠ .parked woken) :
    phase = after := by
  cases phase with
  | registered woken => exact absurd h.symm (hafter true).1
  | looked woken => exact absurd h.symm (hafter true).2.1
  | parked woken => exact absurd h.symm (hafter true).2.2
  | _ => exact h

/-- Who was woken is not the one that waits. -/
theorem wake_ne (phase : Phase) : phase.wake ≠ .looked false ∧ phase.wake ≠ .parked false := by
  cases phase <;> exact ⟨nofun, nofun⟩

end Phase

namespace Batcher

open Phase

/-- The lengths of vectors fit. -/
structure Bounded (s : Batcher) : Prop where
  queue : ∀ chunk ∈ s.queue, chunk.length ≤ vecLimit ∧ chunk ∈ s.fed
  taken : s.phase.taken.length ≤ vecLimit
  /-- A frame is one that was too small to go before its last chunk came. -/
  frame : ∀ frame, s.phase = .collecting frame → ∃ chunk ∈ s.fed, frame.length < maxFrameBytes + chunk.length
  frames : ∀ frame ∈ s.frames, ∃ chunk ∈ s.fed, frame.length < maxFrameBytes + chunk.length

/-- What the counter says. -/
structure Measured (s : Batcher) : Prop where
  owed : s.flow.unacked.toNat ≤ s.outstanding
  exact : s.flow.enabled = true → s.strayed = false → s.flow.unacked.toNat = s.outstanding
  most : s.flow.enabled = true → ∃ frame ∈ [] :: s.frames, s.flow.unacked.toNat ≤ highWatermark + frame.length
  resumed : s.flow.enabled = true → s.phase = .resumed →
    s.flow.closed = true ∨ s.flow.unacked.toNat ≤ highWatermark
  room : s.flow.enabled = true → (s.phase = .receiving ∨ ∃ frame, s.phase = .collecting frame) →
    s.flow.unacked.toNat ≤ highWatermark

/-- A batcher that waits saw that it has to, unless somebody is about to wake it. -/
structure Awake (s : Batcher) : Prop where
  stillOpen : (s.phase = .looked false ∨ s.phase = .parked false) → s.notifying = 0 → s.flow.closed = false
  full : s.phase = .parked false → s.notifying = 0 → lowWatermark < s.flow.unacked.toNat

/-- Where the bytes of the source are. -/
structure Ordered (s : Batcher) : Prop where
  sent : s.sent.flatten <+: s.fed.flatten
  all : (∀ bytes, s.phase ≠ .finished (.sinkFailed bytes)) →
    s.sent.flatten ++ s.phase.taken ++ s.queue.flatten = s.fed.flatten
  ended : s.phase = .finished .sourceEnded ∨ (∃ frame, s.phase = .counted frame true) →
    s.queue = [] ∧ s.sourceClosed = true

section steps

variable {s t : Batcher}

theorem Bounded.step (h : Step s t) (hs : Bounded s) : Bounded t := by
  have hlater : ∀ {frame : List UInt8} (chunk : List UInt8),
      (∃ c ∈ s.fed, frame.length < maxFrameBytes + c.length) →
      ∃ c ∈ s.fed ++ [chunk], frame.length < maxFrameBytes + c.length := by
    intro frame chunk ⟨c, hc, hlt⟩
    exact ⟨c, List.mem_append_left _ hc, hlt⟩
  cases h with
  | feed chunk _ _ hfits =>
    refine ⟨fun c hc => ?_, hs.taken, fun frame hframe => hlater chunk (hs.frame frame hframe),
      fun frame hframe => hlater chunk (hs.frames frame hframe)⟩
    rcases List.mem_append.mp hc with hc | hc
    · exact ⟨(hs.queue c hc).1, List.mem_append_left _ (hs.queue c hc).2⟩
    · rw [List.mem_singleton.mp hc]
      exact ⟨hfits, List.mem_append_right _ List.mem_cons_self⟩
  | endSource => exact ⟨hs.queue, hs.taken, hs.frame, hs.frames⟩
  | goOn _ _ | pause _ _ | register _ | wakeUp _ | leave _ _ | stay _ _ | receiveEnd _ _ _ | sendFails _ =>
    exact ⟨hs.queue, Nat.zero_le _, nofun, hs.frames⟩
  | lookClosed _ | lookUnacked _ =>
    refine ⟨hs.queue, ?_, ?_, hs.frames⟩
    · dsimp only
      split <;> exact Nat.zero_le _
    · intro frame hframe
      dsimp only at hframe
      split at hframe <;> cases hframe
  | @receive chunk rest _ hqueue =>
    have hmem := hs.queue chunk (hqueue ▸ List.mem_cons_self)
    refine ⟨fun c hc => hs.queue c (hqueue ▸ List.mem_cons_of_mem _ hc), hmem.1, fun frame hframe => ?_, hs.frames⟩
    cases hframe
    exact ⟨chunk, hmem.2, by unfold maxFrameBytes; omega⟩
  | @absorb frame chunk rest _ hsmall hqueue hfits =>
    have hmem := hs.queue chunk (hqueue ▸ List.mem_cons_self)
    refine ⟨fun c hc => hs.queue c (hqueue ▸ List.mem_cons_of_mem _ hc), hfits, fun whole hwhole => ?_, hs.frames⟩
    cases hwhole
    refine ⟨chunk, hmem.2, ?_⟩
    rw [List.length_append]
    omega
  | @emit frame hphase =>
    have htaken := hs.taken
    rw [hphase] at htaken
    refine ⟨hs.queue, htaken, nofun, fun f hf => ?_⟩
    rcases List.mem_append.mp hf with hf | hf
    · exact hs.frames f hf
    · rw [List.mem_singleton.mp hf]
      exact hs.frame frame hphase
  | @emitLast frame hphase _ _ _ =>
    have htaken := hs.taken
    rw [hphase] at htaken
    refine ⟨hs.queue, htaken, nofun, fun f hf => ?_⟩
    rcases List.mem_append.mp hf with hf | hf
    · exact hs.frames f hf
    · rw [List.mem_singleton.mp hf]
      exact hs.frame frame hphase
  | @send frame last _ =>
    refine ⟨hs.queue, ?_, ?_, hs.frames⟩
    · cases last <;> exact Nat.zero_le _
    · cases last <;> nofun
  | process _ _ | acknowledge _ _ | stray _ | closing => exact ⟨hs.queue, hs.taken, hs.frame, hs.frames⟩
  | notify _ =>
    refine ⟨hs.queue, ?_, fun frame hframe => hs.frame frame ?_, hs.frames⟩
    · rw [taken_wake]
      exact hs.taken
    · cases hphase : s.phase <;> rw [hphase] at hframe <;> cases hframe
      rfl

theorem Awake.step (h : Step s t) (hs : Awake s) : Awake t := by
  cases h with
  | feed _ _ _ _ | endSource | process _ _ => exact ⟨hs.stillOpen, hs.full⟩
  | goOn _ _ | pause _ _ | register _ | wakeUp _ | leave _ _ | stay _ _ | receive _ _ | receiveEnd _ _ _
  | absorb _ _ _ _ | emit _ | emitLast _ _ _ _ | sendFails _ => exact ⟨by simp [count], by simp [count]⟩
  | @send frame last _ => cases last <;> exact ⟨by simp, by simp⟩
  | @lookClosed woken hphase =>
    cases hclosed : s.flow.closed with
    | true => exact ⟨by simp, by simp⟩
    | false => exact ⟨fun _ _ => hclosed, by simp⟩
  | @lookUnacked woken hphase =>
    by_cases hlow : s.flow.unacked.toNat ≤ lowWatermark
    · exact ⟨by simp [hlow], by simp [hlow]⟩
    · refine ⟨fun hwaits hnone => hs.stillOpen ?_ hnone, fun _ _ => Nat.lt_of_not_le hlow⟩
      have hwoken : woken = false := by simpa [hlow] using hwaits
      exact .inl (hwoken ▸ hphase)
  | acknowledge _ _ | stray _ | closing => exact ⟨by simp [acked], by simp [acked]⟩
  | notify _ =>
    obtain ⟨hlooked, hparked⟩ := s.phase.wake_ne
    exact ⟨fun hwaits => (hwaits.elim hlooked hparked).elim, fun hwaits => (hparked hwaits).elim⟩

/-- A step that neither counts nor acknowledges, if it gets the batcher past the pause rightly. -/
theorem Measured.still (hs : Measured s) (hflow : t.flow = s.flow) (hframes : t.frames = s.frames)
    (hstrayed : t.strayed = s.strayed) (hout : t.outstanding = s.outstanding)
    (hresumed : t.flow.enabled = true → t.phase = .resumed →
      t.flow.closed = true ∨ t.flow.unacked.toNat ≤ highWatermark)
    (hroom : t.flow.enabled = true → (t.phase = .receiving ∨ ∃ frame, t.phase = .collecting frame) →
      t.flow.unacked.toNat ≤ highWatermark) : Measured t := by
  refine ⟨?_, fun henabled hno => ?_, fun henabled => ?_, hresumed, hroom⟩
  · rw [hflow, hout]
    exact hs.owed
  · rw [hflow, hout]
    exact hs.exact (hflow ▸ henabled) (hstrayed ▸ hno)
  · rw [hflow, hframes]
    exact hs.most (hflow ▸ henabled)

/-- An acknowledgement only lowers the counter. -/
theorem Measured.acked (hs : Measured s) (bytes : UInt64) {u : Batcher} (hflow : u.flow = s.flow.ack bytes)
    (hphase : u.phase = s.phase) (hframes : u.frames = s.frames)
    (howed : s.flow.unacked.toNat - bytes.toNat ≤ u.outstanding)
    (hexact : s.flow.enabled = true → u.strayed = false → s.flow.unacked.toNat - bytes.toNat = u.outstanding) :
    Measured u := by
  have hcount : u.flow.unacked.toNat = s.flow.unacked.toNat - bytes.toNat := by
    rw [hflow, FlowControl.toNat_ack]
  have henabled : u.flow.enabled = s.flow.enabled := by rw [hflow, FlowControl.enabled_ack]
  have hclosed : u.flow.closed = s.flow.closed := by rw [hflow, FlowControl.closed_ack]
  constructor
  · rw [hcount]
    exact howed
  · rw [hcount, henabled]
    exact hexact
  · rw [hcount, henabled, hframes]
    intro hon
    obtain ⟨frame, hframe, hle⟩ := hs.most hon
    exact ⟨frame, hframe, by omega⟩
  · rw [hcount, henabled, hclosed, hphase]
    intro hon hresumed
    exact (hs.resumed hon hresumed).imp_right fun hle => by omega
  · rw [hcount, henabled, hphase]
    intro hon htakes
    have hbefore := hs.room hon htakes
    omega

/-- A frame is counted by a batcher that had room. -/
theorem Measured.count (hs : Measured s) (hbounded : Bounded s) {frame : List UInt8} {last : Bool}
    (hphase : s.phase = .collecting frame) : Measured (s.count frame last) := by
  have hfits : frame.length ≤ vecLimit := by
    have htaken := hbounded.taken
    rwa [hphase] at htaken
  have hlength : frame.length.toUInt64.toNat = frame.length := by
    rw [Nat.toUInt64_eq, UInt64.toNat_ofNat']
    unfold vecLimit at hfits
    omega
  have hbefore : s.outstanding = s.unprocessed.flatten.length + s.held := by
    unfold outstanding
    rw [hphase]
    exact congrArg (· + s.held) (Nat.zero_add _)
  have hafter : (s.count frame last).outstanding = frame.length + s.outstanding := by
    rw [hbefore, ← Nat.add_assoc]
    rfl
  have hcount : (s.count frame last).flow.unacked.toNat = (s.flow.unacked.toNat + frame.length) % 2 ^ 64 := by
    show (s.flow.onSent _).unacked.toNat = _
    rw [FlowControl.toNat_onSent, hlength]
  have hless : (s.count frame last).flow.unacked.toNat ≤ s.flow.unacked.toNat + frame.length := by
    rw [hcount]
    exact Nat.mod_le _ _
  have howed := hs.owed
  refine ⟨by omega, fun hon hno => ?_, fun hon => ?_, nofun, fun _ h => ?_⟩
  · have hroom := hs.room hon (.inr ⟨frame, hphase⟩)
    have hexact := hs.exact hon hno
    unfold vecLimit at hfits
    unfold highWatermark at hroom
    omega
  · have hroom := hs.room hon (.inr ⟨frame, hphase⟩)
    exact ⟨frame, List.mem_cons_of_mem _ (List.mem_append_right _ List.mem_cons_self), by omega⟩
  · obtain h | ⟨_, h⟩ := h <;> cases h

theorem Measured.step (h : Step s t) (hbounded : Bounded s) (hs : Measured s) : Measured t := by
  have hout : ∀ {u : Batcher}, u.phase.counting = s.phase.counting → u.unprocessed = s.unprocessed →
      u.held = s.held → u.outstanding = s.outstanding := by
    intro u hcounting hunprocessed hheld
    unfold outstanding
    rw [hcounting, hunprocessed, hheld]
  cases h with
  | feed _ _ _ _ | endSource => exact hs.still rfl rfl rfl (hout rfl rfl rfl) hs.resumed hs.room
  | goOn hphase hroom =>
    refine hs.still rfl rfl rfl (hout (by rw [hphase]; rfl) rfl rfl) (fun hon _ => .inr ?_) (by simp)
    have hon : s.flow.enabled = true := hon
    simpa [FlowControl.hasRoom, hon] using hroom
  | pause hphase _ | register hphase | wakeUp hphase | leave hphase _ | receiveEnd hphase _ _ =>
    exact hs.still rfl rfl rfl (hout (by rw [hphase]; rfl) rfl rfl) (by simp) (by simp)
  | lookClosed hphase =>
    cases hclosed : s.flow.closed with
    | true =>
      exact hs.still rfl rfl rfl (hout (by rw [hphase]; rfl) rfl rfl) (fun _ _ => .inl hclosed) (by simp)
    | false => exact hs.still rfl rfl rfl (hout (by rw [hphase]; rfl) rfl rfl) (by simp) (by simp)
  | lookUnacked hphase =>
    by_cases hlow : s.flow.unacked.toNat ≤ lowWatermark
    · rw [if_pos hlow]
      refine hs.still rfl rfl rfl (hout (by rw [hphase]; rfl) rfl rfl) (fun _ _ => .inr ?_) (by simp)
      show s.flow.unacked.toNat ≤ highWatermark
      unfold lowWatermark at hlow
      unfold highWatermark
      omega
    · rw [if_neg hlow]
      exact hs.still rfl rfl rfl (hout (by rw [hphase]; rfl) rfl rfl) (by simp) (by simp)
  | stay hphase hopen =>
    refine hs.still rfl rfl rfl (hout (by rw [hphase]; rfl) rfl rfl) (by simp) fun hon _ => ?_
    have hroom := hs.resumed hon hphase
    rw [hopen] at hroom
    exact hroom.resolve_left (by decide)
  | receive hphase _ =>
    refine hs.still rfl rfl rfl (hout (by rw [hphase]; rfl) rfl rfl) (by simp) fun hon _ => ?_
    exact hs.room hon (.inl hphase)
  | absorb hphase _ _ _ =>
    refine hs.still rfl rfl rfl (hout (by rw [hphase]; rfl) rfl rfl) (by simp) fun hon _ => ?_
    exact hs.room hon (.inr ⟨_, hphase⟩)
  | emit hphase | emitLast hphase _ _ _ => exact hs.count hbounded hphase
  | @send frame last hphase =>
    have hmoved : (s.unprocessed ++ [frame]).flatten.length = s.unprocessed.flatten.length + frame.length := by simp
    cases last with
    | true =>
      refine hs.still rfl rfl rfl ?_ (by simp) (by simp)
      simp only [outstanding, hphase, counting, hmoved, if_true]
      omega
    | false =>
      refine hs.still rfl rfl rfl ?_ (by simp) (by simp)
      simp only [outstanding, hphase, counting, hmoved, Bool.false_eq_true, if_false]
      omega
  | sendFails hphase =>
    exact hs.still rfl rfl rfl (hout (by rw [hphase]; rfl) rfl rfl) (by simp) (by simp)
  | @process frame rest _ hunprocessed =>
    refine hs.still rfl rfl rfl ?_ hs.resumed hs.room
    simp only [outstanding, hunprocessed, List.flatten_cons, List.length_append]
    omega
  | acknowledge bytes hheld =>
    have howed := hs.owed
    have hexact := hs.exact
    refine hs.acked bytes rfl rfl rfl ?_ fun hon hno => ?_
    · simp only [outstanding, Batcher.acked] at howed ⊢
      omega
    · have hsame := hexact hon hno
      simp only [outstanding, Batcher.acked] at hsame ⊢
      omega
  | stray bytes =>
    have howed := hs.owed
    refine hs.acked bytes rfl rfl rfl ?_ (fun _ hno => nomatch hno)
    exact Nat.le_trans (Nat.sub_le _ _) howed
  | closing =>
    refine ⟨hs.owed, hs.exact, hs.most, fun _ _ => .inl rfl, hs.room⟩
  | notify _ =>
    refine hs.still rfl rfl rfl (hout (counting_wake _) rfl rfl) (fun hon hresumed => ?_) fun hon htakes => ?_
    · exact hs.resumed hon (of_wake hresumed (by simp))
    · refine hs.room hon (htakes.imp (fun h => of_wake h (by simp)) fun ⟨frame, h⟩ => ⟨frame, of_wake h (by simp)⟩)

theorem Ordered.step (h : Step s t) (hs : Ordered s) : Ordered t := by
  cases h with
  | @feed chunk _ hopen _ =>
    refine ⟨?_, fun hphase => ?_, fun hended => ?_⟩
    · rw [List.flatten_append]
      exact hs.sent.trans (List.prefix_append _ _)
    · dsimp only
      rw [List.flatten_append, List.flatten_append, ← List.append_assoc, hs.all hphase]
    · have hclosed := (hs.ended hended).2
      rw [hopen] at hclosed
      cases hclosed
  | endSource => exact ⟨hs.sent, hs.all, fun hended => ⟨(hs.ended hended).1, rfl⟩⟩
  | goOn hphase _ | pause hphase _ | register hphase | wakeUp hphase | leave hphase _ | stay hphase _ =>
    have hall := hs.all (by simp [hphase])
    rw [hphase] at hall
    exact ⟨hs.sent, fun _ => hall, by simp⟩
  | lookClosed hphase | lookUnacked hphase =>
    have hall := hs.all (by simp [hphase])
    rw [hphase] at hall
    split <;> exact ⟨hs.sent, fun _ => hall, by simp⟩
  | receiveEnd hphase hqueue hclosed =>
    have hall := hs.all (by simp [hphase])
    rw [hphase] at hall
    exact ⟨hs.sent, fun _ => hall, fun _ => ⟨hqueue, hclosed⟩⟩
  | @receive chunk rest hphase hqueue =>
    have hall := hs.all (by simp [hphase])
    rw [hphase, hqueue] at hall
    refine ⟨hs.sent, fun _ => ?_, by simp⟩
    simpa [taken] using hall
  | @absorb frame chunk rest hphase _ hqueue _ =>
    have hall := hs.all (by simp [hphase])
    rw [hphase, hqueue] at hall
    refine ⟨hs.sent, fun _ => ?_, by simp⟩
    simpa [taken] using hall
  | emit hphase =>
    have hall := hs.all (by simp [hphase])
    rw [hphase] at hall
    exact ⟨hs.sent, fun _ => hall, by simp [count]⟩
  | emitLast hphase _ hqueue hclosed =>
    have hall := hs.all (by simp [hphase])
    rw [hphase] at hall
    exact ⟨hs.sent, fun _ => hall, fun _ => ⟨hqueue, hclosed⟩⟩
  | @send frame last hphase =>
    have hall := hs.all (by simp [hphase])
    rw [hphase] at hall
    have hsent : (s.sent ++ [frame]).flatten = s.sent.flatten ++ frame := by simp
    have hended := hs.ended
    rw [hphase] at hended
    refine ⟨?_, fun _ => ?_, fun h => hended ?_⟩
    · dsimp only
      rw [hsent, ← hall]
      exact List.prefix_append _ _
    · dsimp only
      rw [hsent]
      cases last <;> simpa [taken] using hall
    · cases last with
      | false => simp at h
      | true => exact .inr ⟨frame, rfl⟩
  | sendFails hphase =>
    refine ⟨hs.sent, fun hnot => (hnot _ rfl).elim, by simp⟩
  | process _ _ | acknowledge _ _ | stray _ | closing => exact ⟨hs.sent, hs.all, hs.ended⟩
  | notify _ =>
    refine ⟨hs.sent, fun hnot => ?_, fun hended => hs.ended ?_⟩
    · dsimp only
      rw [taken_wake]
      refine hs.all fun bytes hphase => hnot bytes ?_
      rw [hphase]
      rfl
    · obtain hfinished | ⟨frame, hcounted⟩ := hended
      · exact .inl (of_wake hfinished (by simp))
      · exact .inr ⟨frame, of_wake hcounted (by simp)⟩

end steps

/-- What every step keeps. -/
structure Sound (s : Batcher) : Prop where
  bounded : Bounded s
  measured : Measured s
  awake : Awake s
  ordered : Ordered s

theorem sound_start (enabled : Bool) : Sound (start enabled) where
  bounded := ⟨nofun, Nat.zero_le _, nofun, nofun⟩
  measured := ⟨Nat.zero_le _, fun _ _ => rfl, fun _ => ⟨[], List.mem_cons_self, Nat.zero_le _⟩, nofun, by simp [start]⟩
  awake := ⟨by simp [start], nofun⟩
  ordered := ⟨List.prefix_rfl, fun _ => rfl, by simp [start]⟩

theorem Sound.step {s t : Batcher} (hs : Sound s) (h : Step s t) : Sound t where
  bounded := hs.bounded.step h
  measured := hs.measured.step h hs.bounded
  awake := hs.awake.step h
  ordered := hs.ordered.step h

theorem enabled_step {s t : Batcher} (h : Step s t) : t.flow.enabled = s.flow.enabled := by
  cases h <;> rfl

/-- A batcher that waits has a renderer that is not through, or a wake-up on its way. -/
theorem Sound.not_paused {s : Batcher} (hs : Sound s) : ¬ (s.Paused ∧ s.Processed) := by
  intro ⟨⟨hparked, hnone⟩, hprocessed, hheld⟩
  have hfull := hs.awake.full hparked hnone
  have howed := hs.measured.owed
  have hout : s.outstanding = s.held := by
    unfold outstanding
    rw [hparked, hprocessed]
    exact Nat.zero_add _
  unfold lowWatermark at hfull
  unfold ackChunk at hheld
  omega

/-- With flow control on, what is outstanding is bounded by the high mark and a frame; the batcher never
waits for a renderer that is through; and every byte arrives in order. -/
theorem flow_control (enabled : Bool) {s : Batcher} (h : Run.Steps Step (start enabled) s) :
    (enabled = true → (∃ frame ∈ [] :: s.frames, s.flow.unacked.toNat ≤ highWatermark + frame.length) ∧
      (s.strayed = false → s.outstanding = s.flow.unacked.toNat)) ∧
    (∀ frame ∈ s.frames, ∃ chunk ∈ s.fed, frame.length < maxFrameBytes + chunk.length) ∧
    ¬ (s.Paused ∧ s.Processed) ∧
    (∀ bytes, (s.flow.ack bytes).unacked ≤ s.flow.unacked) ∧
    s.sent.flatten <+: s.fed.flatten ∧
    (s.phase = .finished .sourceEnded → s.sent.flatten = s.fed.flatten) := by
  have hsound : Sound s ∧ s.flow.enabled = enabled :=
    Run.invariant (fun t u (ht : Sound t ∧ t.flow.enabled = enabled) hstep =>
      ⟨ht.1.step hstep, (enabled_step hstep).trans ht.2⟩) h ⟨sound_start enabled, rfl⟩
  obtain ⟨hs, henabled⟩ := hsound
  refine ⟨fun hon => ?_, hs.bounded.frames, hs.not_paused, fun bytes => ?_, hs.ordered.sent, fun hended => ?_⟩
  · have hon' : s.flow.enabled = true := henabled.trans hon
    exact ⟨hs.measured.most hon', fun hno => (hs.measured.exact hon' hno).symm⟩
  · rw [UInt64.le_iff_toNat_le, FlowControl.toNat_ack]
    exact Nat.sub_le _ _
  · have hall := hs.ordered.all (by simp [hended])
    have hqueue := (hs.ordered.ended (.inl hended)).1
    rw [hended, hqueue] at hall
    simpa [taken] using hall

section examples

/-- A batcher at rest: what came was sent, and nothing was processed. -/
def idle (flow : FlowControl) (frames : List (List UInt8)) : Batcher where
  flow
  phase := .checking
  queue := []
  sourceClosed := false
  notifying := 0
  unprocessed := frames
  held := 0
  fed := frames
  frames
  sent := frames
  strayed := false

/-- As long as there is room, a chunk can become a frame of its own. -/
theorem chunk_sent {flow : FlowControl} (frames : List (List UInt8)) {chunk : List UInt8}
    (hroom : flow.hasRoom = true) (hopen : flow.closed = false) (hfits : chunk.length ≤ vecLimit) :
    Run.Steps Step (idle flow frames) (idle (flow.onSent chunk.length.toUInt64) (frames ++ [chunk])) := by
  let fed : Batcher := { idle flow frames with queue := [chunk], fed := frames ++ [chunk] }
  let taken : Batcher := { fed with phase := .collecting chunk, queue := [] }
  have hfeed : Step (idle flow frames) fed := .feed chunk (by simp [idle, channelCapacity]) rfl hfits
  have hgo : Step fed { fed with phase := .resumed } := .goOn rfl hroom
  have hstay : Step { fed with phase := .resumed } { fed with phase := .receiving } := .stay rfl hopen
  have hreceive : Step { fed with phase := .receiving } taken := .receive rfl rfl
  have hemit : Step taken (taken.count chunk false) := .emit rfl
  have hsend : Step (taken.count chunk false) (idle (flow.onSent chunk.length.toUInt64) (frames ++ [chunk])) :=
    @Step.send (taken.count chunk false) chunk false rfl
  exact (((((Relation.ReflTransGen.single hfeed).tail hgo).tail hstay).tail hreceive).tail hemit).tail hsend

/-- With too much outstanding, the batcher parks. -/
theorem parks {flow : FlowControl} (frames : List (List UInt8)) (hfull : flow.hasRoom = false)
    (hopen : flow.closed = false) (hmany : ¬ flow.unacked.toNat ≤ lowWatermark) :
    Run.Steps Step (idle flow frames) { idle flow frames with phase := .parked false } := by
  have hpause : Step (idle flow frames) { idle flow frames with phase := .registering } := .pause rfl hfull
  have hregister : Step { idle flow frames with phase := .registering }
      { idle flow frames with phase := .registered false } :=
    .register rfl
  have hlook : Step { idle flow frames with phase := .registered false }
      { idle flow frames with phase := .looked false } := by
    have hstep := @Step.lookClosed { idle flow frames with phase := .registered false } false rfl
    rwa [show (idle flow frames).flow.closed = false from hopen] at hstep
  have hpark : Step { idle flow frames with phase := .looked false }
      { idle flow frames with phase := .parked false } := by
    have hphase : (if flow.unacked.toNat ≤ lowWatermark then Phase.resumed else .parked false) = .parked false :=
      if_neg hmany
    rw [← hphase]
    exact .lookUnacked rfl
  exact (((Relation.ReflTransGen.single hpause).tail hregister).tail hlook).tail hpark

/-- The renderer is through with two frames and says so; the batcher is woken and looks again. -/
theorem woken_after {flow : FlowControl} (small large : List UInt8) {bytes : UInt64} (hsmall : small.length < ackChunk)
    (hbytes : bytes.toNat = small.length + large.length) :
    Run.Steps Step { idle flow [small, large] with phase := .parked false }
      { idle (flow.ack bytes) [small, large] with phase := .registering, unprocessed := [] } := by
  let parked : Batcher := { idle flow [small, large] with phase := .parked false }
  let read : Batcher := { parked with unprocessed := [], held := small.length + large.length }
  have hprocess : Step parked { parked with unprocessed := [large], held := 0 + small.length } :=
    .process (by decide : 0 < ackChunk) rfl
  have hprocess' : Step { parked with unprocessed := [large], held := 0 + small.length } read := by
    have hstep := @Step.process { parked with unprocessed := [large], held := 0 + small.length } large []
      (by simpa using hsmall) rfl
    simpa [read] using hstep
  have hack : Step read { read.acked bytes with held := 0 } := by
    have hstep := @Step.acknowledge read bytes (Nat.le_of_eq hbytes)
    rwa [show read.held - bytes.toNat = 0 by rw [hbytes]; exact Nat.sub_self _] at hstep
  have hnotify : Step { read.acked bytes with held := 0 }
      { read.acked bytes with held := 0, phase := .parked true, notifying := 0 } :=
    .notify rfl
  have hwake : Step { read.acked bytes with held := 0, phase := .parked true, notifying := 0 }
      { idle (flow.ack bytes) [small, large] with phase := .registering, unprocessed := [] } :=
    .wakeUp rfl
  exact ((((Relation.ReflTransGen.single hprocess).tail hprocess').tail hack).tail hnotify).tail hwake

/-- Half a megabyte. -/
def largeChunk : List UInt8 := List.replicate 524288 0

/-- Two bytes and half a megabyte are too much at once: the batcher pauses until the renderer is
through with both. -/
theorem flow_control_paused : ∃ s t, Run.Steps Step (start true) s ∧ Run.Steps Step s t ∧ s.Paused ∧ ¬ s.Processed ∧
    (∃ frame ∈ [] :: s.frames, s.flow.unacked.toNat ≤ highWatermark + frame.length) ∧
    s.outstanding = 524290 ∧ t.Processed ∧ ¬ t.Paused ∧ t.outstanding = 0 ∧ t.flow.unacked = 0 ∧
    t.sent.flatten <+: t.fed.flatten := by
  have hlength : largeChunk.length = 524288 := List.length_replicate
  have hfits : largeChunk.length ≤ vecLimit := by
    rw [hlength]
    decide
  let flow : FlowControl := ((FlowControl.new true).onSent 2).onSent 524288
  have hlarge := @chunk_sent ((FlowControl.new true).onSent 2) [[104, 105]] _ (by decide) rfl hfits
  rw [hlength] at hlarge
  have hpaused : Run.Steps Step (start true) { idle flow [[104, 105], largeChunk] with phase := .parked false } :=
    ((@chunk_sent (.new true) [] [104, 105] rfl rfl (by decide)).trans hlarge).trans
      (parks _ (by decide) rfl (by decide))
  have hbytes : (524290 : UInt64).toNat = ([104, 105] : List UInt8).length + largeChunk.length := by
    rw [hlength]
    rfl
  have hwoken := @woken_after flow [104, 105] largeChunk 524290 (by decide) hbytes
  have hs := flow_control true hpaused
  have ht := flow_control true (hpaused.trans hwoken)
  refine ⟨_, _, hpaused, hwoken, ⟨rfl, rfl⟩, fun hprocessed => hs.2.2.1 ⟨⟨rfl, rfl⟩, hprocessed⟩, (hs.1 rfl).1,
    ((hs.1 rfl).2 rfl).trans (by decide), ⟨rfl, by decide⟩, fun hagain => ht.2.2.1 ⟨hagain, rfl, by decide⟩,
    ((ht.1 rfl).2 rfl).trans (by decide), by decide, ht.2.2.2.2.1⟩

/-- Switched off, flow control bounds nothing. -/
theorem disabled_overruns : ¬ ∀ (enabled : Bool) (s : Batcher), Run.Steps Step (start enabled) s →
    ∃ frame ∈ [] :: s.frames, s.flow.unacked.toNat ≤ highWatermark + frame.length := by
  intro h
  have hlength : largeChunk.length = 524288 := List.length_replicate
  have hfits : largeChunk.length ≤ vecLimit := by
    rw [hlength]
    decide
  have hrun : Run.Steps Step (start false) (idle ((((FlowControl.new false).onSent 524288).onSent 524288).onSent
      524288) [largeChunk, largeChunk, largeChunk]) := by
    have hsend : ∀ {flow : FlowControl} (frames : List (List UInt8)), flow.enabled = false → flow.closed = false →
        Run.Steps Step (idle flow frames) (idle (flow.onSent 524288) (frames ++ [largeChunk])) := by
      intro flow frames hoff hopen
      have hroom : flow.hasRoom = true := by simp [FlowControl.hasRoom, hoff]
      have hsent := chunk_sent frames hroom hopen hfits
      rwa [hlength] at hsent
    exact ((hsend [] rfl rfl).trans (hsend [largeChunk] rfl rfl)).trans (hsend [largeChunk, largeChunk] rfl rfl)
  obtain ⟨frame, hframe, hle⟩ := h false _ hrun
  have hcount : ((((FlowControl.new false).onSent 524288).onSent 524288).onSent 524288).unacked.toNat = 1572864 := by
    decide
  have hshort : frame.length ≤ 524288 := by
    have hmem : frame ∈ [[], largeChunk, largeChunk, largeChunk] := hframe
    simp only [List.mem_cons, List.not_mem_nil, or_false, or_self] at hmem
    rcases hmem with rfl | rfl
    · exact Nat.zero_le _
    · exact Nat.le_of_eq hlength
  have hle : 1572864 ≤ highWatermark + frame.length := hcount ▸ hle
  unfold highWatermark at hle
  omega

end examples

end Batcher

end UwuSsh

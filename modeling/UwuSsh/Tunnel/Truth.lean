import UwuSsh.Tunnel.Alive
import UwuSsh.Tunnel.Reports

/-!
The states of the tunnels at rest. They tell the truth after every run in which no report is told too late, no start
says of a tunnel that it runs when its task has failed it before, and no server gives a port that a forward has.
A run that breaks the first can end with a tunnel that is started and that the listener takes to be stopped.
-/
namespace UwuSsh.Tunnel

/-- Whose step an event is. -/
def Event.party : Event → Option Party
  | .goStart _ => some .start
  | .goStop n => some (.stop n)
  | .goTask n _ => some (.task n)
  | .goPipe n _ => some (.pipe n)
  | _ => none

/-- What must not go wrong in a step. -/
structure Timely (w : World) (event : Event) : Prop where
  told : ∀ party ∈ event.party, ∀ o status, w.owing party = some (o, .tell status) → w.InTime party o status
  started : ∀ reply, event = .goStart reply → ∀ call o n bound remote,
    w.start = some (call, .spawned o n bound remote) → w.state o = .starting
  given : ∀ port, event = .goStart (.given port) → ∀ call o, w.start = some (call, .asking o) →
    call.spec.kind = .remotePort → call.spec.bindPort = 0 → (w.link call.link).forwards port = none

namespace World

variable {w w' : World}

/-- What is true of the tunnels, whatever the steps are, as long as they are timely. -/
structure Sound (w : World) : Prop where
  placed : Placed w
  table : Table w
  alive : Alive w
  reported : Reported w

theorem makes_of_lists {place : StartAt} {spec : TunnelSpec} {port : UInt32} {o : ℕ}
    (h : place.lists spec = some (port, o)) : o ∈ place.makes := by
  cases place with
  | asking x =>
    obtain ⟨-, heq⟩ := Option.ite_none_right_eq_some.mp h
    cases heq
    rfl
  | spawned x n bound remote =>
    obtain ⟨_, -, heq⟩ := Option.map_eq_some_iff.mp h
    cases heq
    rfl
  | waiting old => cases h
  | making => cases h
  | reporting x report => cases h
  | failed x report => cases h

/-- A forward is that of a tunnel that there is. -/
theorem Sound.listed (h : Sound w) {l : ℕ} {port : UInt32} {o : ℕ} (hlisted : (w.link l).forwards port = some o) :
    o < w.made := by
  obtain ⟨id, r, hr, rfl, -, -⟩ | hasked := (h.table l port o).mp hlisted
  · exact (h.placed.kept id r hr).1.made
  · obtain ⟨⟨call, place⟩, hcall, hplace⟩ := Option.bind_eq_some_iff.mp hasked
    obtain ⟨⟨port', o'⟩, hlists, heq⟩ := Option.map_eq_some_iff.mp hplace
    cases heq
    exact (h.placed.makes call place hcall o (makes_of_lists hlists)).1.made

/-! ### What begins -/

theorem owing_spawnStop (hplaced : Placed w) (ids : List ℕ) (party : Party) :
    (w.spawnStop ids).owing party = w.owing party := by
  cases party with
  | start => rfl
  | task n => rfl
  | pipe n => rfl
  | stop n =>
    by_cases hn : n = w.spawned
    · have hnone := (hplaced.unborn n (Nat.le_of_eq hn.symm)).1
      have hnew : (w.spawnStop ids).stops n = some ⟨ids, .next⟩ := hn ▸ Function.update_self _ _ _
      rw [owing, owing, hnone, hnew]
      rfl
    · have hold : (w.spawnStop ids).stops n = w.stops n := Function.update_of_ne hn _ _
      rw [owing, owing, hold]

theorem owing_spawnPipe (hplaced : Placed w) (o : ℕ) (party : Party) :
    (w.spawnPipe o).owing party = w.owing party := by
  cases party with
  | start => rfl
  | stop n => rfl
  | task n => rfl
  | pipe n =>
    by_cases hn : n = w.spawned
    · have hnone := (hplaced.unborn n (Nat.le_of_eq hn.symm)).2.2
      have hnew : (w.spawnPipe o).pipes n = some ⟨o, .opening⟩ := hn ▸ Function.update_self _ _ _
      rw [owing, owing, hnone, hnew]
      rfl
    · have hold : (w.spawnPipe o).pipes n = w.pipes n := Function.update_of_ne hn _ _
      rw [owing, owing, hold]

namespace Sound

variable (h : Sound w)

include h

theorem spawnStop (ids : List ℕ) : Sound (w.spawnStop ids) where
  placed := h.placed.spawnStop ids
  table := h.table.same (fun _ => rfl) rfl rfl
  alive := h.alive.beside h.placed (fun _ _ hr => hr) rfl fun _ _ _ =>
    Mild.of_same (fun hl => hl) rfl fun _ _ ht => ht
  reported := h.reported.calm (owing_spawnStop h.placed ids) rfl (fun _ => rfl) rfl

theorem spawnPipe {o : ℕ} (ho : o < w.made) : Sound (w.spawnPipe o) where
  placed := h.placed.spawnPipe ho
  table := h.table.same (fun _ => rfl) rfl rfl
  alive := h.alive.beside h.placed (fun _ _ hr => hr) rfl fun _ _ _ =>
    Mild.of_same (fun hl => hl) rfl fun _ _ ht => ht
  reported := h.reported.calm (owing_spawnPipe h.placed o) rfl (fun _ => rfl) rfl

theorem begins (hnone : w.start = none) (call : StartCall) : Sound (w.begin call) where
  placed := h.placed.begins hnone call
  table := h.table.begins h.placed hnone call
  alive := h.alive.begins h.placed call
  reported := h.reported.begins hnone call

/-- A connection is lost. -/
theorem lose (l : ℕ) : Sound { w with link := Function.update w.link l { w.link l with closed := true } } := by
  have hforwards : ∀ x, (Function.update w.link l { w.link l with closed := true } x).forwards = (w.link x).forwards := by
    intro x
    by_cases hx : x = l
    · subst hx
      rw [Function.update_self]
    · rw [Function.update_of_ne hx]
  have hclosed : ∀ x, (w.link x).closed = true →
      (Function.update w.link l { w.link l with closed := true } x).closed = true := by
    intro x hopen
    by_cases hx : x = l
    · subst hx
      rw [Function.update_self]
    · rwa [Function.update_of_ne hx]
  exact {
    placed := h.placed.relink _
    table := h.table.same hforwards rfl rfl
    alive := h.alive.beside h.placed (fun _ _ hr => hr) rfl fun o _ _ =>
      Mild.of_same (hclosed _) rfl fun _ _ ht => ht
    reported := h.reported.calm (fun party => by cases party <;> rfl) rfl (fun _ => rfl) rfl }

/-! ### One step -/

theorem goStart {call : StartCall} {place : StartAt} (hcall : w.start = some (call, place)) {reply : Reply}
    (htimely : Timely w (.goStart reply)) (hstep : w.goStart call reply place = some w') : Sound w' where
  placed := h.placed.goStart hcall hstep
  table := h.table.goStart h.placed hcall hstep fun port o hreply hplace hkind hport =>
    htimely.given port (by rw [hreply]) call o (by rw [hcall, hplace]) hkind hport
  alive := h.alive.goStart h.placed hcall hstep fun o n bound remote hplace =>
    htimely.started reply rfl call o n bound remote (by rw [hcall, hplace])
  reported := h.reported.goStart h.placed hcall hstep (htimely.told .start rfl)

theorem step {event : Event} (htimely : Timely w event) (hstep : Tunnel.step w event = some w') : Sound w' := by
  cases event with
  | start call =>
    obtain ⟨hfree, heq⟩ := Option.ite_none_left_eq_some.mp hstep
    obtain rfl := Option.some.inj heq
    exact h.begins (by simpa using hfree) call
  | stop id =>
    obtain rfl := Option.some.inj hstep
    exact h.spawnStop [id]
  | stopWhere which ids =>
    obtain ⟨-, heq⟩ := Option.ite_none_right_eq_some.mp hstep
    obtain rfl := Option.some.inj heq
    exact h.spawnStop ids
  | lose l =>
    obtain rfl := Option.some.inj hstep
    exact h.lose l
  | accept n =>
    simp only [Tunnel.step] at hstep
    split at hstep
    · next o ht =>
      obtain rfl := Option.some.inj hstep
      exact h.spawnPipe (h.placed.task_bound ht)
    · cases hstep
  | forwarded l port =>
    simp only [Tunnel.step] at hstep
    split at hstep
    · next o ho =>
      obtain ⟨-, heq⟩ := Option.ite_none_left_eq_some.mp hstep
      obtain rfl := Option.some.inj heq
      exact h.spawnPipe (h.listed ho)
    · cases hstep
  | goStart reply =>
    obtain ⟨⟨call, place⟩, hcall, hgoes⟩ := Option.bind_eq_some_iff.mp hstep
    exact h.goStart hcall htimely hgoes
  | goStop n =>
    obtain ⟨stop, hstop, hgoes⟩ := Option.bind_eq_some_iff.mp hstep
    exact {
      placed := h.placed.goStop hstop hgoes
      table := h.table.goStop h.placed hgoes
      alive := h.alive.goStop h.placed hstop hgoes
      reported := h.reported.goStop h.placed hstop hgoes (htimely.told (.stop n) rfl) }
  | goTask n reply =>
    obtain ⟨task, htask, hgoes⟩ := Option.bind_eq_some_iff.mp hstep
    exact {
      placed := h.placed.goTask htask hgoes
      table := h.table.goTask hgoes
      alive := h.alive.goTask h.placed htask hgoes
      reported := h.reported.goTask h.placed htask hgoes (htimely.told (.task n) rfl) }
  | goPipe n reply =>
    obtain ⟨pipe, hpipe, hgoes⟩ := Option.bind_eq_some_iff.mp hstep
    exact {
      placed := h.placed.goPipe hpipe hgoes
      table := h.table.goPipe hgoes
      alive := h.alive.goPipe h.placed hgoes
      reported := h.reported.goPipe h.placed hpipe hgoes (htimely.told (.pipe n) rfl) }

end Sound

theorem sound_new : Sound World.new where
  placed :=
    { unborn := fun _ _ => ⟨rfl, rfl, rfl⟩
      bound := fun party o ho => by cases party <;> cases ho
      kept := fun _ _ hr => by cases hr
      free := fun _ _ hs => by cases hs
      makes := fun _ _ hs => by cases hs
      waits := fun _ _ _ hs => by cases hs
      rest := fun o ho => absurd ho (Nat.not_lt_zero o) }
  table := by
    intro l port o
    constructor
    · intro ho
      cases ho
    · rintro (⟨id, r, hr, -⟩ | hasked)
      · cases hr
      · cases hasked
  alive :=
    { linked := fun _ _ _ hr => by cases hr
      unlinked := fun _ _ hr => by cases hr
      begun := fun _ _ hs => by cases hs }
  reported :=
    { newest := fun o ho => absurd ho (Nat.not_lt_zero o)
      made := fun _ _ hs => by cases hs
      captured := fun party _ _ hs => by cases party <;> cases hs }

/-- Every run keeps it. -/
theorem sound_run (hrun : Run.Steps (Step Timely) World.new w) : Sound w := by
  refine Run.invariant (fun s t hs hstep => ?_) hrun sound_new
  obtain ⟨event, htimely, hgoes⟩ := hstep
  exact hs.step htimely hgoes

/-! ### At rest -/

theorem exists_newest {o : ℕ} (ho : o < w.made) : ∃ x < w.made, w.id x = w.id o ∧ w.Newest x := by
  obtain ⟨left, hleft⟩ : ∃ left, w.made ≤ o + left := ⟨w.made, Nat.le_add_left _ _⟩
  induction left generalizing o with
  | zero => omega
  | succ left ih =>
    by_cases hnewest : w.Newest o
    · exact ⟨o, ho, rfl, hnewest⟩
    · obtain ⟨x, hx, hid, hlater⟩ : ∃ x < w.made, w.id x = w.id o ∧ o < x := by
        by_contra hnone
        exact hnewest fun x hx hid => Nat.le_of_not_lt fun hlater => hnone ⟨x, hx, hid, hlater⟩
      obtain ⟨y, hy, hsame, hnew⟩ := ih hx (by omega)
      exact ⟨y, hy, hsame.trans hid, hnew⟩

theorem Quiet.owing (h : Quiet w) (party : Party) : w.owing party = none := by
  cases party with
  | start =>
    rw [World.owing, h.start]
    rfl
  | stop n =>
    rw [World.owing, h.stops n]
    rfl
  | task n =>
    rw [World.owing]
    cases htask : w.tasks n with
    | none => rfl
    | some task =>
      rw [Option.bind_some, (h.tasks n task htask).1]
      rfl
  | pipe n =>
    rw [World.owing]
    cases hpipe : w.pipes n with
    | none => rfl
    | some pipe =>
      rw [Option.bind_some]
      obtain hplace | hplace := (h.pipes n pipe hpipe).1
      · rw [hplace]
        rfl
      · rw [hplace]
        rfl

namespace Sound

variable (h : Sound w) (hquiet : Quiet w)

include h hquiet

/-- At rest nobody is to tell, so the listener was told last what is so. -/
theorem told_newest {o : ℕ} (ho : o < w.made) (hnewest : w.Newest o) : w.told (w.id o) = some (w.status o) := by
  obtain htold | ⟨party, o', report, howes, -⟩ := h.reported.newest o ho hnewest
  · exact htold
  · rw [hquiet.owing party] at howes
    cases howes

theorem told_other {id : ℕ} (hnone : w.tunnels id = none) {status : TunnelStatus} (hs : w.told id = some status) :
    status.state = .stopped := by
  obtain ⟨o, ho, rfl⟩ := h.reported.made id status hs
  obtain ⟨x, hx, hid, hnewest⟩ := exists_newest ho
  have htold := h.told_newest hquiet hx hnewest
  rw [hid, hs] at htold
  obtain rfl := Option.some.inj htold
  obtain ⟨r, hr, -⟩ | ⟨call, place, hcall, -⟩ | ⟨n, ids, r, hstop, -⟩ | hstopped := h.placed.rest x hx hnewest
  · rw [hid, hnone] at hr
    cases hr
  · rw [hquiet.start] at hcall
    cases hcall
  · rw [hquiet.stops n] at hstop
    cases hstop
  · exact hstopped

theorem running {id : ℕ} {r : Running} {port : UInt16} (hr : w.tunnels id = some r)
    (hstate : w.state r.shared = .running port) :
    ∃ link n kind, r.link = some link ∧ (w.link link).closed = false ∧ r.task = some n ∧
      w.tasks n = some ⟨r.shared, kind, .waiting⟩ ∧
      match r.remote with
      | none => kind = .localPort
      | some port => (w.link link).forwards port = some r.shared := by
  have hup : (w.state r.shared).isFailed ≠ true := by
    rw [hstate]
    exact Bool.false_ne_true
  cases hlink : r.link with
  | none => exact absurd (h.alive.unlinked id r hr hlink) hup
  | some l =>
    obtain ⟨n, kind, htask, hkind, ⟨-, hworks⟩ | hlost⟩ := h.alive.linked id r l hr hlink
    · have hopen := (hquiet.tasks n _ hworks).2.2
      have hself : l = (w.shared r.shared).link := (h.placed.kept id r hr).2 l hlink
      rw [← hself] at hopen
      refine ⟨l, n, kind, rfl, hopen, htask, hworks, ?_⟩
      cases hremote : r.remote with
      | none => exact hkind.mp hremote
      | some given => exact (h.table l given r.shared).mpr (.inl ⟨id, r, hr, rfl, hlink, hremote⟩)
    · exact absurd hlost.1 hup

theorem forwards {l : ℕ} {port : UInt32} {o : ℕ} (hopen : (w.link l).closed = false)
    (hlisted : (w.link l).forwards port = some o) : (w.state o).isUp = true := by
  obtain ⟨id, r, hr, rfl, hlink, -⟩ | hasked := (h.table l port o).mp hlisted
  · obtain ⟨n, kind, -, -, ⟨hruns, -⟩ | hlost⟩ := h.alive.linked id r l hr hlink
    · exact up_of_runs _ hruns
    · rw [hlost.2] at hopen
      cases hopen
  · rw [asked_none hquiet.start] at hasked
    cases hasked

end Sound

/-- At rest, after a run whose steps are all timely, the states tell the truth. -/
theorem truthful_of_timely (hrun : Run.Steps (Step Timely) World.new w) (hquiet : w.Quiet) : w.Truthful where
  told_kept id r hr := by
    have hlive := ((sound_run hrun).placed.kept id r hr).1
    have htold := (sound_run hrun).told_newest hquiet hlive.made hlive.newest
    rwa [hlive.id_eq] at htold
  told_other _ hnone _ hs := (sound_run hrun).told_other hquiet hnone hs
  running _ _ _ hr hstate := (sound_run hrun).running hquiet hr hstate
  forwards _ _ _ hopen hlisted := (sound_run hrun).forwards hquiet hopen hlisted

/-! ### A run -/

/-- The world after these events, where they can happen. -/
def runs (w : World) : List Event → Option World
  | [] => some w
  | event :: events => (step w event).bind fun w => w.runs events

theorem steps_of_runs {allowed : World → Event → Prop} (hallowed : ∀ w event, allowed w event) {events : List Event}
    (h : w.runs events = some w') : Run.Steps (Step allowed) w w' := by
  induction events generalizing w with
  | nil =>
    obtain rfl := Option.some.inj h
    exact .refl
  | cons event events ih =>
    obtain ⟨u, hstep, hrest⟩ := Option.bind_eq_some_iff.mp h
    exact .head ⟨event, hallowed w event, hstep⟩ (ih hrest)

theorem timely_goStart {call : StartCall} {place : StartAt} (hcall : w.start = some (call, place)) {reply : Reply}
    (htold : ∀ o status, place.owes = some (o, .tell status) → w.InTime .start o status)
    (hstarted : ∀ o n bound remote, place = .spawned o n bound remote → w.state o = .starting)
    (hkind : call.spec.kind = .localPort) : Timely w (.goStart reply) where
  told party hparty o status howes := by
    obtain rfl := Option.some.inj hparty
    rw [owing, hcall] at howes
    exact htold o status howes
  started _ _ call' o n bound remote hcall' := by
    obtain ⟨-, hplace⟩ := Prod.mk.inj (Option.some.inj (hcall.symm.trans hcall'))
    exact hstarted o n bound remote hplace
  given _ _ call' o hcall' hremote := by
    obtain ⟨rfl, -⟩ := Prod.mk.inj (Option.some.inj (hcall.symm.trans hcall'))
    rw [hkind] at hremote
    cases hremote

end World

/-- Listens at a port that it is given. -/
def localCall : StartCall where
  id := 7
  hostId := 1
  session := none
  link := 0
  spec := { kind := .localPort, bindAddress := "127.0.0.1", bindPort := 0 }

/-- A start that listens at this port, from its first step to its last. -/
def listens (port : UInt16) : List Event :=
  [.start localCall, .goStart .ready, .goStart (.bound port), .goStart .ready, .goStart .ready, .goStart .ready]

namespace World

theorem timely_apart {w : World} {event : Event} (hparty : event.party = none) : Timely w event where
  told _ h := by simp [hparty] at h
  started _ h := by
    rw [h] at hparty
    cases hparty
  given _ h := by
    rw [h] at hparty
    cases hparty

/-- A stop or a task steps in time where it tells in time. -/
theorem timely_told {w : World} {event : Event} {party : Party} (hparty : event.party = some party)
    (hstart : party ≠ .start) (htold : ∀ o status, w.owing party = some (o, .tell status) → w.InTime party o status) :
    Timely w event where
  told other hother o status howes := by
    obtain rfl : party = other := Option.some.inj (hparty.symm.trans hother)
    exact htold o status howes
  started _ h := by
    rw [h] at hparty
    exact absurd (Option.some.inj hparty).symm hstart
  given _ h := by
    rw [h] at hparty
    exact absurd (Option.some.inj hparty).symm hstart

def listening : World := (World.new.runs (listens 8080)).getD World.new

theorem steps_listening : Run.Steps (Step Timely) World.new listening := by
  have hplain : ∀ {w : World} {place : StartAt}, w.start = some (localCall, place) → place.owes = none →
      (∀ o n bound remote, place = .spawned o n bound remote → w.state o = .starting) →
        ∀ reply, Timely w (.goStart reply) := by
    intro w place hcall howes hstarted reply
    refine timely_goStart hcall (fun o status h => ?_) hstarted rfl
    rw [howes] at h
    cases h
  refine .head ⟨.start localCall, timely_apart rfl, rfl⟩ ?_
  refine .head ⟨.goStart .ready, hplain rfl rfl (fun _ _ _ _ h => by cases h) _, rfl⟩ ?_
  refine .head ⟨.goStart (.bound 8080), hplain rfl rfl (fun _ _ _ _ h => by cases h) _, rfl⟩ ?_
  refine .head ⟨.goStart .ready, hplain rfl rfl (fun _ _ _ _ h => ?_) _, rfl⟩ ?_
  · cases h
    rfl
  refine .head ⟨.goStart .ready, timely_goStart rfl (fun _ _ h => by cases h) (fun _ _ _ _ h => by cases h) rfl, rfl⟩ ?_
  refine .single ⟨.goStart .ready, timely_goStart rfl (fun o status h => ?_) (fun _ _ _ _ h => by cases h) rfl, rfl⟩
  cases h
  exact .inl ⟨fun other hother _ => Nat.le_of_lt_succ hother, rfl⟩

/-- The connection is lost, and the task says so. -/
def connectionLost : List Event := [.lose 0, .goTask 0 .lost, .goTask 0 .ready, .goTask 0 .ready]

def lostWorld : World := (listening.runs connectionLost).getD World.new

theorem steps_lostWorld : Run.Steps (Step Timely) listening lostWorld := by
  refine .head ⟨.lose 0, timely_apart rfl, rfl⟩ ?_
  refine .head ⟨.goTask 0 .lost, timely_told rfl nofun (fun _ _ h => by cases h), rfl⟩ ?_
  refine .head ⟨.goTask 0 .ready, timely_told rfl nofun (fun _ _ h => by cases h), rfl⟩ ?_
  refine .single ⟨.goTask 0 .ready, timely_told rfl nofun (fun o status h => ?_), rfl⟩
  cases h
  exact .inl ⟨fun other hother _ => Nat.le_of_lt_succ hother, rfl⟩

/-- The tunnel is stopped, its task ends, and the stop says so. -/
def stopsIt : List Event := [.stop 7, .goStop 1, .goTask 0 .ready, .goStop 1, .goStop 1, .goStop 1, .goStop 1]

def stoppedWorld : World := (listening.runs stopsIt).getD World.new

theorem steps_stoppedWorld : Run.Steps (Step Timely) listening stoppedWorld := by
  refine .head ⟨.stop 7, timely_apart rfl, rfl⟩ ?_
  refine .head ⟨.goStop 1, timely_told rfl nofun (fun _ _ h => by cases h), rfl⟩ ?_
  refine .head ⟨.goTask 0 .ready, timely_told rfl nofun (fun _ _ h => by cases h), rfl⟩ ?_
  refine .head ⟨.goStop 1, timely_told rfl nofun (fun _ _ h => by cases h), rfl⟩ ?_
  refine .head ⟨.goStop 1, timely_told rfl nofun (fun _ _ h => by cases h), rfl⟩ ?_
  refine .head ⟨.goStop 1, timely_told rfl nofun (fun o status h => ?_), rfl⟩ ?_
  · cases h
    exact .inl ⟨fun other hother _ => Nat.le_of_lt_succ hother, rfl⟩
  · exact .single ⟨.goStop 1, timely_told rfl nofun (fun _ _ h => by cases h), rfl⟩

theorem quiet_listening : listening.Quiet where
  start := rfl
  stops _ := rfl
  tasks n task h := by
    obtain _ | n := n
    · cases h
      exact ⟨rfl, rfl, rfl⟩
    · cases h
  pipes _ _ h := by cases h

theorem quiet_lostWorld : lostWorld.Quiet where
  start := rfl
  stops _ := rfl
  tasks n _ h := by
    obtain _ | n := n
    · cases h
    · cases h
  pipes _ _ h := by cases h

theorem quiet_stoppedWorld : stoppedWorld.Quiet where
  start := rfl
  stops n := by
    obtain _ | _ | n := n
    · rfl
    · rfl
    · rfl
  tasks n _ h := by
    obtain _ | n := n
    · cases h
    · cases h
  pipes _ _ h := by cases h

/-- A tunnel that listens, and then loses its connection or is stopped. -/
theorem truthful_listening : listening.Truthful ∧ lostWorld.Truthful ∧ stoppedWorld.Truthful ∧
    (lostWorld.told 7).map TunnelStatus.state = some (.failed .connectionLost) ∧
    (stoppedWorld.told 7).map TunnelStatus.state = some .stopped :=
  ⟨truthful_of_timely steps_listening quiet_listening,
    truthful_of_timely (steps_listening.trans steps_lostWorld) quiet_lostWorld,
    truthful_of_timely (steps_listening.trans steps_stoppedWorld) quiet_stoppedWorld, rfl, rfl⟩

end World

/-- A stop waits for its task, and the tunnel is started again before the stop tells of the old one. -/
def toldLate : List Event :=
  listens 8080 ++ [.stop 7, .goStop 1] ++ listens 8081 ++
    [.goTask 0 .ready, .goStop 1, .goStop 1, .goStop 1, .goStop 1]

namespace World

def lateWorld : World := (World.new.runs toldLate).getD World.new

theorem quiet_lateWorld : lateWorld.Quiet where
  start := rfl
  stops n := by
    obtain _ | _ | n := n
    · rfl
    · rfl
    · rfl
  tasks n task h := by
    obtain _ | _ | _ | n := n
    · cases h
    · cases h
    · cases h
      exact ⟨rfl, rfl, rfl⟩
    · cases h
  pipes _ _ h := by cases h

/-- A tunnel that runs may have been told of last as stopped. -/
theorem not_always_truthful : ¬ ∀ w, Run.Steps (Step fun _ _ => True) World.new w → w.Quiet → w.Truthful := by
  intro h
  have hruns : World.new.runs toldLate = some lateWorld := rfl
  have hrun : Run.Steps (Step fun _ _ => True) World.new lateWorld := steps_of_runs (fun _ _ => trivial) hruns
  have htold := (h _ hrun quiet_lateWorld).told_kept 7 ⟨1, some 2, some 0, none⟩ rfl
  have hstopped : (lateWorld.told 7).map TunnelStatus.state = some .stopped := rfl
  have hrunning : lateWorld.state 1 = .running 8081 := rfl
  rw [htold, Option.map_some, ← World.state, hrunning] at hstopped
  cases hstopped

end World

end UwuSsh.Tunnel

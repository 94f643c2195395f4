import UwuSsh.Tunnel.Forwards

/-!
The tasks of the tunnels. A tunnel that is kept has its task and runs, or it has failed and its connection is lost.
Others fail a tunnel only with its connection, so that a start that sees its tunnel as it left it may say it runs.
-/
namespace UwuSsh.Tunnel

def TunnelState.isFailed : TunnelState → Bool
  | .failed _ => true
  | _ => false

namespace World

variable {w w' : World}

/-- The connection is gone, and the tunnel has failed. -/
def Lost (w : World) (o l : ℕ) : Prop := (w.state o).isFailed = true ∧ (w.link l).closed = true

/-- A tunnel has its task, or its connection is lost. -/
def Works (w : World) (o l n : ℕ) (kind : TunnelKind) (fit : TunnelState → Prop) : Prop :=
  (fit (w.state o) ∧ w.tasks n = some ⟨o, kind, .waiting⟩) ∨ w.Lost o l

def Runs (state : TunnelState) : Prop := ∃ port, state = .running port

/-- How a start's tunnel is, before it is kept. -/
def Begun (w : World) (call : StartCall) : StartAt → Prop
  | .asking o => w.state o = .starting ∨ w.Lost o call.link
  | .spawned o n _ remote =>
    (remote = none ↔ call.spec.kind = .localPort) ∧ w.Works o call.link n call.spec.kind (· = .starting)
  | .failed o _ => (w.state o).isFailed = true
  | _ => True

structure Alive (w : World) : Prop where
  linked : ∀ id r l, w.tunnels id = some r → r.link = some l → ∃ n kind, r.task = some n ∧
    (r.remote = none ↔ kind = .localPort) ∧ w.Works r.shared l n kind Runs
  unlinked : ∀ id r, w.tunnels id = some r → r.link = none → (w.state r.shared).isFailed = true
  begun : ∀ call place, w.start = some (call, place) → w.Begun call place

/-- What others do to a tunnel: it is as it was, or it has failed with its connection. -/
structure Mild (w w' : World) (o l : ℕ) : Prop where
  closed : (w.link l).closed = true → (w'.link l).closed = true
  state : w'.state o = w.state o ∨ w'.Lost o l
  task : ∀ n kind, w.tasks n = some ⟨o, kind, .waiting⟩ → (w.state o).isUp = true →
    w'.tasks n = some ⟨o, kind, .waiting⟩ ∨ w'.Lost o l

theorem Mild.of_same {o l : ℕ} (hlink : (w.link l).closed = true → (w'.link l).closed = true)
    (hstate : w'.state o = w.state o)
    (htasks : ∀ n kind, w.tasks n = some ⟨o, kind, .waiting⟩ → w'.tasks n = some ⟨o, kind, .waiting⟩) : Mild w w' o l where
  closed := hlink
  state := .inl hstate
  task n kind ht _ := .inl (htasks n kind ht)

namespace Mild

variable {o l : ℕ} (h : Mild w w' o l)

include h

theorem failed (hfailed : (w.state o).isFailed = true) : (w'.state o).isFailed = true := by
  obtain hstate | hlost := h.state
  · rwa [hstate]
  · exact hlost.1

theorem lost (hlost : w.Lost o l) : w'.Lost o l := ⟨h.failed hlost.1, h.closed hlost.2⟩

theorem works {n : ℕ} {kind : TunnelKind} {fit : TunnelState → Prop} (hfit : ∀ state, fit state → state.isUp = true)
    (hworks : w.Works o l n kind fit) : w'.Works o l n kind fit := by
  obtain ⟨hnow, htask⟩ | hlost := hworks
  · obtain hstate | hlost := h.state
    · obtain htask | hlost := h.task n kind htask (hfit _ hnow)
      · exact .inl ⟨by rwa [hstate], htask⟩
      · exact .inr hlost
    · exact .inr hlost
  · exact .inr (h.lost hlost)

end Mild

theorem up_of_runs : ∀ state, Runs state → state.isUp = true := by
  rintro _ ⟨port, rfl⟩
  rfl

theorem up_of_starting : ∀ state, state = TunnelState.starting → state.isUp = true := by
  rintro _ rfl
  rfl

namespace Alive

variable (h : Alive w) (hplaced : Placed w)

include h hplaced

/-- What is kept stays as it is where the others are mild. -/
theorem kept (htunnels : ∀ id r, w'.tunnels id = some r → w.tunnels id = some r)
    (hmild : ∀ id r, w'.tunnels id = some r → Mild w w' r.shared (w.shared r.shared).link)
    (hbegun : ∀ call place, w'.start = some (call, place) → w'.Begun call place) : Alive w' where
  linked id r l hr hl := by
    have hold := htunnels id r hr
    obtain ⟨n, kind, htask, hkind, hworks⟩ := h.linked id r l hold hl
    have hself : l = (w.shared r.shared).link := (hplaced.kept id r hold).2 l hl
    refine ⟨n, kind, htask, hkind, ?_⟩
    rw [hself] at hworks ⊢
    exact (hmild id r hr).works up_of_runs hworks
  unlinked id r hr hl := (hmild id r hr).failed (h.unlinked id r (htunnels id r hr) hl)
  begun := hbegun

/-- And so does the start, if it is where it was. -/
theorem beside (htunnels : ∀ id r, w'.tunnels id = some r → w.tunnels id = some r) (hstart : w'.start = w.start)
    (hmild : ∀ o, o < w.made → (w.shared o).stop = false → Mild w w' o (w.shared o).link) : Alive w' := by
  refine h.kept hplaced htunnels (fun id r hr => ?_) fun call place hcall => ?_
  · have hlive := (hplaced.kept id r (htunnels id r hr)).1
    exact hmild r.shared hlive.made hlive.unstopped
  · rw [hstart] at hcall
    have hbegun := h.begun call place hcall
    have hown : ∀ o ∈ place.makes, Mild w w' o call.link := by
      intro o ho
      obtain ⟨hlive, hlink⟩ := hplaced.makes call place hcall o ho
      rw [← hlink]
      exact hmild o hlive.made hlive.unstopped
    cases place with
    | waiting old => trivial
    | making => trivial
    | reporting o report => trivial
    | asking o =>
      obtain hstarting | hlost := hbegun
      · obtain hstate | hlost := (hown o rfl).state
        · exact .inl (hstate.trans hstarting)
        · exact .inr hlost
      · exact .inr ((hown o rfl).lost hlost)
    | spawned o n bound remote => exact ⟨hbegun.1, (hown o rfl).works up_of_starting hbegun.2⟩
    | failed o report => exact (hown o rfl).failed hbegun

theorem goTask {n : ℕ} {task : Task} (htask : w.tasks n = some task) {reply : Reply}
    (hstep : w.goTask n task.shared task.kind reply task.place = some w') : Alive w' := by
  have hother : ∀ {m x : ℕ} {kind : TunnelKind} {after : Option Task}, m ≠ n → w.tasks m = some ⟨x, kind, .waiting⟩ →
      Function.update w.tasks n after m = some ⟨x, kind, .waiting⟩ := by
    intro m x kind after hm ht
    rwa [Function.update_of_ne hm]
  obtain ⟨hplace, hwhy, rfl⟩ | ⟨hplace, hclosed, -, rfl⟩ | ⟨hplace, rfl⟩ | ⟨status, hplace, rfl⟩ := goTask_cases hstep
  · refine h.beside hplaced (fun _ _ hr => hr) rfl fun x _ hflag => ?_
    refine { closed := fun hl => hl, state := .inl rfl, task := fun m kind ht hup => .inl (hother ?_ ht) }
    rintro rfl
    obtain rfl := Option.some.inj (htask.symm.trans ht)
    obtain hstop | hstopped := hwhy
    · rw [hflag] at hstop
      cases hstop
    · rw [hstopped] at hup
      cases hup
  · refine h.beside hplaced (fun _ _ hr => hr) rfl fun x _ hflag => ?_
    have hset := w.state_set task.shared (.failed .connectionLost) x
    by_cases hx : x = task.shared
    · subst hx
      rw [if_pos rfl] at hset
      have hlost : ((w.set task.shared (.failed .connectionLost)).taskBecomes n
          (some ⟨task.shared, task.kind, .reporting .read⟩)).Lost task.shared (w.shared task.shared).link :=
        ⟨(congrArg TunnelState.isFailed hset).trans rfl, hclosed⟩
      exact { closed := fun hl => hl, state := .inr hlost, task := fun _ _ _ _ => .inr hlost }
    · rw [if_neg hx] at hset
      refine Mild.of_same (fun hl => hl) hset fun m kind ht => hother ?_ ht
      rintro rfl
      exact hx (congrArg Task.shared (Option.some.inj (htask.symm.trans ht))).symm
  · refine h.beside hplaced (fun _ _ hr => hr) rfl fun x _ _ => Mild.of_same (fun hl => hl) rfl fun m kind ht => hother ?_ ht
    rintro rfl
    rw [Option.some.inj (htask.symm.trans ht)] at hplace
    cases hplace
  · refine h.beside hplaced (fun _ _ hr => hr) rfl fun x _ _ => Mild.of_same (fun hl => hl) rfl fun m kind ht => hother ?_ ht
    rintro rfl
    rw [Option.some.inj (htask.symm.trans ht)] at hplace
    cases hplace

theorem goPipe {n o : ℕ} {reply : Reply} {place : PipeAt} (hstep : w.goPipe n o reply place = some w') : Alive w' := by
  obtain ⟨-, f, after, -, hstate, -, rfl⟩ | ⟨-, rfl⟩ | ⟨-, after, -, rfl⟩ | ⟨status, -, after, -, rfl⟩ := goPipe_cases hstep
  · refine h.beside hplaced (fun _ _ hr => hr) rfl fun x _ _ => Mild.of_same (fun hl => hl) ?_ fun _ _ ht => ht
    have hwrite := w.status_write o f x
    have hsame : (w.write o f).state x = w.state x := by
      rw [World.state, hwrite]
      split
      · exact hstate _
      · rfl
    exact hsame
  all_goals
    exact h.beside hplaced (fun _ _ hr => hr) rfl fun x _ _ => Mild.of_same (fun hl => hl) rfl fun _ _ ht => ht

/-- A tunnel that is taken leaves the others as they are. -/
theorem taken {id : ℕ} {r : Running} (hbegun : ∀ call place, w'.start = some (call, place) → w'.Begun call place)
    (hlink : w'.link = ((w.keep id none).finish r).link) (hshared : w'.shared = ((w.keep id none).finish r).shared)
    (htasks : w'.tasks = w.tasks) (htunnels : w'.tunnels = Function.update w.tunnels id none) : Alive w' := by
  obtain ⟨link, heq, hclosed⟩ := (w.keep id none).finish_eq r
  obtain ⟨link', heq', -, -, hstate, -⟩ := Placed.finish_taken w id r
  refine h.kept hplaced (fun i r' hr' => ?_) (fun i r' _ => Mild.of_same (fun hl => ?_) ?_ fun _ _ ht => ?_) hbegun
  · rw [htunnels] at hr'
    obtain ⟨-, hnone⟩ | ⟨-, hold⟩ := update_some hr'
    · cases hnone
    · exact hold
  · rw [hlink, heq]
    exact (hclosed _).trans hl
  · have hself := hstate r'.shared
    rw [World.state, World.status] at hself ⊢
    rw [hshared, heq']
    exact hself
  · rwa [htasks]

theorem begins (call : StartCall) : Alive (w.begin call) := by
  have hnew : ∀ (v : World) (place : StartAt), (place = .making ∨ ∃ old, place = .waiting old) →
      ∀ call' place', (v.starts call place).start = some (call', place') → (v.starts call place).Begun call' place' := by
    rintro v place hplace call' place' hs
    obtain ⟨rfl, rfl⟩ := Prod.mk.inj (Option.some.inj hs)
    obtain rfl | ⟨old, rfl⟩ := hplace
    · trivial
    · trivial
  unfold World.begin
  split
  · next running hr =>
    split
    · exact h
    · exact h.taken hplaced (hnew _ _ (.inr ⟨_, rfl⟩)) rfl rfl (w.tasks_finish _ _) (w.tunnels_finish _ _)
  · exact h.kept hplaced (fun _ _ hr => hr) (fun _ _ _ => Mild.of_same (fun hl => hl) rfl fun _ _ ht => ht)
      (hnew _ _ (.inl rfl))

theorem goStop {n : ℕ} {stop : StopCall} (hstop : w.stops n = some stop)
    (hstep : w.goStop n stop.ids stop.place = some w') : Alive w' := by
  obtain ⟨-, rest, rfl⟩ | ⟨-, hnone, id, rest, r, hr, rfl⟩ | ⟨r, hplace, rfl⟩ | ⟨o, -, rfl⟩ | ⟨o, status, -, rfl⟩ :=
    goStop_cases hstep
  · exact h.beside hplaced (fun _ _ hr => hr) rfl fun x _ _ => Mild.of_same (fun hl => hl) rfl fun _ _ ht => ht
  · refine h.taken hplaced (fun call place hs => ?_) rfl rfl (w.tasks_finish _ _) (w.tunnels_finish _ _)
    have hsome : ((w.keep id none).finish r).start = some (call, place) := hs
    rw [start_finish, hnone] at hsome
    cases hsome
  · refine h.beside hplaced (fun _ _ hr => hr) rfl fun x _ hflag => Mild.of_same (fun hl => hl) ?_ fun _ _ ht => ht
    have hset := w.state_set r.shared .stopped x
    have hx : x ≠ r.shared := by
      rintro rfl
      obtain ⟨ids, place⟩ := stop
      obtain rfl : place = .waiting r := hplace
      rw [hplaced.waits n ids r hstop] at hflag
      cases hflag
    rw [if_neg hx] at hset
    exact hset
  all_goals
    exact h.beside hplaced (fun _ _ hr => hr) rfl fun x _ _ => Mild.of_same (fun hl => hl) rfl fun _ _ ht => ht

/-- The start's tunnel is kept. -/
theorem inserted {call : StartCall} {place : StartAt} (hcall : w.start = some (call, place)) {r : Running}
    (hr : r.shared ∈ place.makes) (htunnels : w'.tunnels = Function.update w.tunnels call.id (some r))
    (hmild : ∀ o, o ≠ r.shared → Mild w w' o (w.shared o).link)
    (hlinked : ∀ l, r.link = some l → ∃ n kind, r.task = some n ∧ (r.remote = none ↔ kind = .localPort) ∧
      w'.Works r.shared l n kind Runs) (hunlinked : r.link = none → (w'.state r.shared).isFailed = true)
    (hbegun : ∀ call place, w'.start = some (call, place) → w'.Begun call place) : Alive w' where
  linked id r' l hr' hl := by
    rw [htunnels] at hr'
    obtain ⟨-, hnew⟩ | ⟨-, hold⟩ := update_some hr'
    · obtain rfl := Option.some.inj hnew
      exact hlinked l hl
    · obtain ⟨n, kind, htask, hkind, hworks⟩ := h.linked id r' l hold hl
      have hself : l = (w.shared r'.shared).link := (hplaced.kept id r' hold).2 l hl
      refine ⟨n, kind, htask, hkind, ?_⟩
      rw [hself] at hworks ⊢
      exact (hmild _ (hplaced.kept_ne hcall hr hold)).works up_of_runs hworks
  unlinked id r' hr' hl := by
    rw [htunnels] at hr'
    obtain ⟨-, hnew⟩ | ⟨-, hold⟩ := update_some hr'
    · obtain rfl := Option.some.inj hnew
      exact hunlinked hl
    · exact (hmild _ (hplaced.kept_ne hcall hr hold)).failed (h.unlinked id r' hold hl)
  begun := hbegun

/-- A start goes on to where nothing new is said of its tunnel. -/
theorem startGoes (link : ℕ → Link) (hlink : ∀ l, (link l).closed = (w.link l).closed)
    (told : ℕ → Option TunnelStatus) {start : Option (StartCall × StartAt)}
    (hbegun : ∀ call place, start = some (call, place) → w.Begun call place) : Alive { w with link, told, start } := by
  refine h.kept hplaced (fun _ _ hr => hr)
    (fun _ _ _ => Mild.of_same (fun hl => (hlink _).trans hl) rfl fun _ _ ht => ht) fun call place hs => ?_
  have hold := hbegun call place hs
  cases place with
  | waiting old => trivial
  | making => trivial
  | reporting o report => trivial
  | asking o => exact hold.imp_right fun hlost => ⟨hlost.1, (hlink _).trans hlost.2⟩
  | spawned o n bound remote =>
    exact ⟨hold.1, hold.2.imp_right fun hlost => ⟨hlost.1, (hlink _).trans hlost.2⟩⟩
  | failed o report => exact hold

theorem fails {call : StartCall} {o : ℕ} (hown : ∀ id r, w.tunnels id = some r → r.shared ≠ o) (error : TunnelError) :
    Alive (w.fails call o error) := by
  refine h.kept hplaced (fun _ _ hr => hr) (fun id r hr => Mild.of_same (fun hl => hl) ?_ fun _ _ ht => ht)
    fun call' place hs => ?_
  · have hset := w.state_set o (.failed error) r.shared
    rw [if_neg (hown id r hr)] at hset
    exact hset
  · obtain ⟨rfl, rfl⟩ := Prod.mk.inj (Option.some.inj hs)
    have hset := w.state_set o (.failed error) o
    rw [if_pos rfl] at hset
    exact (congrArg TunnelState.isFailed hset).trans rfl

theorem spawns {call : StartCall} {o : ℕ} (hcall : w.start = some (call, .asking o)) (bound : UInt16)
    {remote : Option UInt32} (hremote : remote = none ↔ call.spec.kind = .localPort) :
    Alive (w.spawns call o bound remote) := by
  refine h.kept hplaced (fun _ _ hr => hr) (fun id r hr => Mild.of_same (fun hl => hl) rfl fun n kind ht => ?_)
    fun call' place hs => ?_
  · have hlt := hplaced.task_lt ht
    change Function.update w.tasks w.spawned _ n = _
    rw [Function.update_of_ne (by omega), ht]
  · obtain ⟨rfl, rfl⟩ := Prod.mk.inj (Option.some.inj hs)
    refine ⟨hremote, ?_⟩
    obtain hstarting | hlost := h.begun call _ hcall
    · exact .inl ⟨hstarting, Function.update_self _ _ _⟩
    · exact .inr hlost

omit h hplaced

theorem state_create {call : StartCall} {o : ℕ} (ho : o < w.made) : (w.create call).state o = w.state o := by
  rw [World.state, World.status, Placed.shared_create ho]
  rfl

theorem created (h : Alive w) (hplaced : Placed w) (call : StartCall) :
    Alive ((w.create call).starts call (.asking w.made)) where
  linked id r l hr hl := by
    obtain ⟨n, kind, htask, hkind, hworks⟩ := h.linked id r l hr hl
    have hstate : (w.create call).state r.shared = w.state r.shared := state_create (hplaced.kept id r hr).1.made
    refine ⟨n, kind, htask, hkind, ?_⟩
    rw [Works, Lost, ← hstate] at hworks
    exact hworks
  unlinked id r hr hl := by
    have hstate : (w.create call).state r.shared = w.state r.shared := state_create (hplaced.kept id r hr).1.made
    rw [← h.unlinked id r hr hl, ← hstate]
    rfl
  begun call' place hs := by
    obtain ⟨rfl, rfl⟩ := Prod.mk.inj (Option.some.inj hs)
    refine .inl ?_
    have hself : (w.create call).shared w.made = call.fresh := Function.update_self _ _ _
    change ((w.create call).shared w.made).status.state = _
    rw [hself]
    rfl

theorem goStart (h : Alive w) (hplaced : Placed w) {call : StartCall} {place : StartAt}
    (hcall : w.start = some (call, place)) {reply : Reply} (hstep : w.goStart call reply place = some w')
    (hstarted : ∀ o task bound remote, place = .spawned o task bound remote → w.state o = .starting) : Alive w' := by
  have hplain : ∀ (told : ℕ → Option TunnelStatus) (start : Option (StartCall × StartAt)),
      (∀ call place, start = some (call, place) → w.Begun call place) → Alive { w with told, start } :=
    fun told start => h.startGoes hplaced w.link (fun _ => rfl) told
  cases place with
  | waiting old =>
    simp only [World.goStart] at hstep
    split at hstep
    · obtain rfl := Option.some.inj hstep
      refine hplain w.told _ fun call' place hs => ?_
      obtain ⟨rfl, rfl⟩ := Prod.mk.inj (Option.some.inj hs)
      trivial
    · cases hstep
  | making =>
    obtain rfl := Option.some.inj hstep
    have hmade := h.created hplaced call
    have hplaced' := hplaced.created hcall
    obtain ⟨-, heq⟩ | ⟨error, heq⟩ | ⟨-, -, -, heq⟩ := (w.create call).asks_cases call w.made
    · rwa [heq]
    · rw [heq]
      exact hmade.fails hplaced' (fun id r hr => hplaced'.kept_ne rfl rfl hr) error
    · rw [heq]
      exact hmade.startGoes hplaced' _ (fun l => closed_forward _ _ _ _ l) _ hmade.begun
  | asking o =>
    have hown : ∀ id r, w.tunnels id = some r → r.shared ≠ o := fun id r hr => hplaced.kept_ne hcall rfl hr
    have hlinked : ∀ port x, Alive (w.forward call.link port x) ∧ Placed (w.forward call.link port x) := fun port x =>
      ⟨h.startGoes hplaced _ (fun l => closed_forward _ _ _ _ l) _ h.begun,
        hplaced.relink _⟩
    obtain ⟨-, error, rfl⟩ | ⟨-, -, error, rfl⟩ | ⟨hkind, bound, rfl⟩ | ⟨hkind, -, bound, rfl⟩ |
      ⟨hkind, -, port, bound, -, rfl⟩ := asked_cases hstep
    · exact h.fails hplaced hown error
    · obtain ⟨halive, hplaced'⟩ := hlinked call.spec.bindPort.toUInt32 none
      exact halive.fails hplaced' hown error
    · exact h.spawns hplaced hcall bound (iff_of_true rfl hkind)
    · exact h.spawns hplaced hcall bound (iff_of_false (by simp) (by simp [hkind]))
    · obtain ⟨halive, hplaced'⟩ := hlinked port (some o)
      exact halive.spawns hplaced' hcall bound (iff_of_false (by simp) (by simp [hkind]))
  | spawned o task bound remote =>
    obtain rfl := Option.some.inj hstep
    obtain ⟨hremote, hworks⟩ := h.begun call _ hcall
    have hstate := hstarted o task bound remote rfl
    have htask : w.tasks task = some ⟨o, call.spec.kind, .waiting⟩ := by
      obtain ⟨-, htask⟩ | hlost := hworks
      · exact htask
      · have hfailed := hlost.1
        rw [hstate] at hfailed
        cases hfailed
    have hset := w.state_set o (.running bound)
    refine h.inserted hplaced hcall (r := ⟨o, some task, some call.link, remote⟩) rfl rfl (fun x hx => ?_) (fun l hl => ?_)
      (fun hl => ?_) fun call' place hs => ?_
    · have hother := hset x
      rw [if_neg hx] at hother
      exact Mild.of_same (fun hl => hl) hother fun _ _ ht => ht
    · have hself := hset o
      rw [if_pos rfl] at hself
      exact ⟨task, call.spec.kind, rfl, hremote, .inl ⟨⟨bound, hself⟩, htask⟩⟩
    · cases hl
    · obtain ⟨rfl, rfl⟩ := Prod.mk.inj (Option.some.inj hs)
      trivial
  | reporting o report =>
    cases report with
    | read =>
      obtain rfl := Option.some.inj hstep
      refine hplain w.told _ fun call' place hs => ?_
      obtain ⟨rfl, rfl⟩ := Prod.mk.inj (Option.some.inj hs)
      trivial
    | tell status =>
      obtain rfl := Option.some.inj hstep
      exact hplain _ none fun call' place hs => by cases hs
  | failed o report =>
    have hfailed : (w.state o).isFailed = true := h.begun call _ hcall
    cases report with
    | read =>
      obtain rfl := Option.some.inj hstep
      refine hplain w.told _ fun call' place hs => ?_
      obtain ⟨rfl, rfl⟩ := Prod.mk.inj (Option.some.inj hs)
      exact hfailed
    | tell status =>
      obtain rfl := Option.some.inj hstep
      refine h.inserted hplaced hcall (r := ⟨o, none, none, none⟩) rfl rfl
        (fun x _ => Mild.of_same (fun hl => hl) rfl fun _ _ ht => ht) (fun l hl => ?_) (fun _ => hfailed) fun call' place hs => ?_
      · cases hl
      · cases hs

end Alive

end World

end UwuSsh.Tunnel

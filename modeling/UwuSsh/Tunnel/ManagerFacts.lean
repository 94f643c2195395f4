import UwuSsh.Tunnel.Manager

/-!
Which tunnel is whose. Tunnels are numbered as they are made, and of the tunnels of one id only the newest can be
kept: it is the one of the start that has the lock, or kept, or a stop has it, or it is stopped. The stop flag of a
tunnel is up when a stop has it, and not before.
-/
namespace UwuSsh.Tunnel

/-- The tunnel a start has made and not kept yet. -/
def StartAt.makes : StartAt → Option ℕ
  | .asking o => some o
  | .spawned o _ _ _ => some o
  | .failed o _ => some o
  | _ => none

/-- The tunnel of the start is kept, and only a report is left. -/
def StartAt.keeps : StartAt → Bool
  | .reporting _ _ => true
  | _ => false

def StartAt.on : StartAt → Option ℕ
  | .reporting o _ => some o
  | place => place.makes

def StopAt.on : StopAt → Option ℕ
  | .next => none
  | .waiting running => some running.shared
  | .reporting o _ => some o

/-- Who reports to the listener. -/
inductive Party
  | start
  | stop (n : ℕ)
  | task (n : ℕ)
  | pipe (n : ℕ)
  deriving DecidableEq

theorem update_some {α : Type} {f : ℕ → Option α} {n m : ℕ} {b : Option α} {a : α}
    (h : Function.update f n b m = some a) : (m = n ∧ b = some a) ∨ (m ≠ n ∧ f m = some a) := by
  by_cases hm : m = n
  · subst hm
    rw [Function.update_self] at h
    exact .inl ⟨rfl, h⟩
  · rw [Function.update_of_ne hm] at h
    exact .inr ⟨hm, h⟩

namespace World

variable {w w' : World}

theorem finish_cases (w : World) (r : Running) : (∃ l port, r.link = some l ∧ r.remote = some port ∧
      w.finish r = (w.raise r.shared).forward l port none) ∨
    ((∀ l port, ¬ (r.link = some l ∧ r.remote = some port)) ∧ w.finish r = w.raise r.shared) := by
  unfold finish
  cases hlink : r.link with
  | none => exact .inr ⟨by simp, rfl⟩
  | some l =>
    cases hremote : r.remote with
    | none => exact .inr ⟨by simp, rfl⟩
    | some port => exact .inl ⟨l, port, rfl, rfl, rfl⟩

theorem shared_raise (w : World) (o other : ℕ) :
    (w.raise o).shared other = if other = o then { w.shared other with stop := true } else w.shared other := by
  by_cases h : other = o
  · subst h
    rw [if_pos rfl]
    exact Function.update_self _ _ _
  · rw [if_neg h]
    exact Function.update_of_ne h _ _

/-- What is stopped has its flag up, and nothing but that and the forward is not as it was. -/
theorem finish_eq (w : World) (r : Running) :
    ∃ link, w.finish r = { w.raise r.shared with link } ∧ ∀ l, (link l).closed = (w.link l).closed := by
  obtain ⟨l, port, -, -, heq⟩ | ⟨-, heq⟩ := w.finish_cases r
  · refine ⟨_, heq, fun l' => ?_⟩
    by_cases h : l' = l
    · subst h
      rw [Function.update_self]
      rfl
    · rw [Function.update_of_ne h]
      rfl
  · exact ⟨w.link, heq, fun l => rfl⟩

theorem status_write (w : World) (o : ℕ) (f : TunnelStatus → TunnelStatus) (other : ℕ) :
    (w.write o f).status other = if other = o then f (w.status other) else w.status other := by
  by_cases h : other = o
  · subst h
    simp [status, write]
  · simp [status, write, h]

theorem state_set (w : World) (o : ℕ) (state : TunnelState) (other : ℕ) :
    (w.set o state).state other = if other = o then state else w.state other := by
  rw [World.state, set, status_write]
  by_cases h : other = o
  · rw [if_pos h, if_pos h]
  · rw [if_neg h, if_neg h]
    rfl

/-- The tunnel that a call or a task works on. -/
def on (w : World) : Party → Option ℕ
  | .start => w.start.bind fun s => s.2.on
  | .stop n => (w.stops n).bind fun stop => stop.place.on
  | .task n => (w.tasks n).map Task.shared
  | .pipe n => (w.pipes n).map Pipe.shared

/-- There is no newer tunnel with its id. -/
def Newest (w : World) (o : ℕ) : Prop := ∀ other < w.made, w.id other = w.id o → other ≤ o

/-- A tunnel that is kept, or about to be. -/
structure Live (w : World) (id o : ℕ) : Prop where
  made : o < w.made
  id_eq : w.id o = id
  newest : w.Newest o
  unstopped : (w.shared o).stop = false

structure Placed (w : World) : Prop where
  unborn : ∀ n, w.spawned ≤ n → w.stops n = none ∧ w.tasks n = none ∧ w.pipes n = none
  bound : ∀ party o, w.on party = some o → o < w.made
  kept : ∀ id r, w.tunnels id = some r → w.Live id r.shared ∧ ∀ l ∈ r.link, l = (w.shared r.shared).link
  free : ∀ call place, w.start = some (call, place) → place.keeps = false → w.tunnels call.id = none
  makes : ∀ call place, w.start = some (call, place) → ∀ o ∈ place.makes,
    w.Live call.id o ∧ (w.shared o).link = call.link
  waits : ∀ n ids r, w.stops n = some ⟨ids, .waiting r⟩ → (w.shared r.shared).stop = true
  rest : ∀ o < w.made, w.Newest o → (∃ r, w.tunnels (w.id o) = some r ∧ r.shared = o) ∨
    (∃ call place, w.start = some (call, place) ∧ place.keeps = false ∧ call.id = w.id o) ∨
    (∃ n ids r, w.stops n = some ⟨ids, .waiting r⟩ ∧ r.shared = o) ∨ w.state o = .stopped

/-- What most steps leave as it is. -/
structure Same (w w' : World) : Prop where
  made : w'.made = w.made
  id : ∀ o, w'.id o = w.id o
  stop : ∀ o, (w'.shared o).stop = (w.shared o).stop
  link : ∀ o, (w'.shared o).link = (w.shared o).link

theorem Same.newest (h : Same w w') {o : ℕ} : w'.Newest o ↔ w.Newest o := by
  simp only [Newest, h.made, h.id]

theorem Same.live (h : Same w w') {id o : ℕ} (hlive : w.Live id o) : w'.Live id o where
  made := by rw [h.made]; exact hlive.made
  id_eq := by rw [h.id]; exact hlive.id_eq
  newest := h.newest.mpr hlive.newest
  unstopped := by rw [h.stop]; exact hlive.unstopped

theorem Same.of_shared (hmade : w'.made = w.made) (hshared : w'.shared = w.shared) : Same w w' where
  made := hmade
  id o := by rw [World.id, World.status, hshared]; rfl
  stop o := by rw [hshared]
  link o := by rw [hshared]

theorem Same.of_write (hmade : w'.made = w.made) {o : ℕ} {f : TunnelStatus → TunnelStatus}
    (hf : ∀ status, (f status).id = status.id) (hshared : w'.shared = (w.write o f).shared) : Same w w' where
  made := hmade
  id other := by
    rw [World.id, World.status, hshared]
    have hwrite := w.status_write o f other
    rw [World.status] at hwrite
    rw [hwrite]
    split
    · exact hf _
    · rfl
  stop other := by
    rw [hshared]
    by_cases h : other = o
    · subst h
      simp [write]
    · simp [write, h]
  link other := by
    rw [hshared]
    by_cases h : other = o
    · subst h
      simp [write]
    · simp [write, h]

theorem Same.of_set (hmade : w'.made = w.made) {o : ℕ} {state : TunnelState} (hshared : w'.shared = (w.set o state).shared) :
    Same w w' := Same.of_write hmade (f := fun status => { status with state }) (fun _ => rfl) hshared

/-- A step that leaves the tunnels where they are. -/
theorem Placed.same (h : Placed w) (hsame : Same w w') (htunnels : w'.tunnels = w.tunnels)
    (hunborn : ∀ n, w'.spawned ≤ n → w'.stops n = none ∧ w'.tasks n = none ∧ w'.pipes n = none)
    (hbound : ∀ party o, w'.on party = some o → o < w.made)
    (hfree : ∀ call place, w'.start = some (call, place) → place.keeps = false → w.tunnels call.id = none)
    (hmakes : ∀ call place, w'.start = some (call, place) → ∀ o ∈ place.makes,
      ∃ place, w.start = some (call, place) ∧ o ∈ place.makes)
    (hstart : ∀ call place, w.start = some (call, place) → place.keeps = false →
      ∃ place, w'.start = some (call, place) ∧ place.keeps = false)
    (hwaits : ∀ n ids r, w'.stops n = some ⟨ids, .waiting r⟩ → w.stops n = some ⟨ids, .waiting r⟩)
    (hstops : ∀ n ids r, w.stops n = some ⟨ids, .waiting r⟩ →
      w'.stops n = some ⟨ids, .waiting r⟩ ∨ w'.state r.shared = .stopped)
    (hstopped : ∀ o < w.made, w.state o = .stopped → w'.state o = .stopped ∨
      ∃ call place, w'.start = some (call, place) ∧ place.keeps = false ∧ call.id = w.id o) : Placed w' where
  unborn := hunborn
  bound party o ho := by
    rw [hsame.made]
    exact hbound party o ho
  kept id r hr := by
    rw [htunnels] at hr
    obtain ⟨hlive, hlink⟩ := h.kept id r hr
    rw [hsame.link]
    exact ⟨hsame.live hlive, hlink⟩
  free call place hcall hkeeps := by
    rw [htunnels]
    exact hfree call place hcall hkeeps
  makes call place hcall o ho := by
    obtain ⟨before, hbefore, ho⟩ := hmakes call place hcall o ho
    obtain ⟨hlive, hlink⟩ := h.makes call before hbefore o ho
    rw [hsame.link]
    exact ⟨hsame.live hlive, hlink⟩
  waits n ids r hr := by
    rw [hsame.stop]
    exact h.waits n ids r (hwaits n ids r hr)
  rest o hmade hnewest := by
    rw [hsame.made] at hmade
    rw [htunnels, hsame.id]
    obtain hkept | ⟨call, place, hcall, hkeeps, hid⟩ | ⟨n, ids, r, hr, hshared⟩ | hstate :=
      h.rest o hmade (hsame.newest.mp hnewest)
    · exact .inl hkept
    · obtain ⟨after, hafter, hkeeps⟩ := hstart call place hcall hkeeps
      exact .inr (.inl ⟨call, after, hafter, hkeeps, hid⟩)
    · obtain hr | hstate := hstops n ids r hr
      · exact .inr (.inr (.inl ⟨n, ids, r, hr, hshared⟩))
      · rw [hshared] at hstate
        exact .inr (.inr (.inr hstate))
    · obtain hstate | hcall := hstopped o hmade hstate
      · exact .inr (.inr (.inr hstate))
      · exact .inr (.inl hcall)

namespace Placed

variable (h : Placed w)

include h

theorem stop_lt {n : ℕ} {stop : StopCall} (hstop : w.stops n = some stop) : n < w.spawned := by
  by_contra hlt
  rw [(h.unborn n (by omega)).1] at hstop
  cases hstop

theorem task_lt {n : ℕ} {task : Task} (htask : w.tasks n = some task) : n < w.spawned := by
  by_contra hlt
  rw [(h.unborn n (by omega)).2.1] at htask
  cases htask

theorem pipe_lt {n : ℕ} {pipe : Pipe} (hpipe : w.pipes n = some pipe) : n < w.spawned := by
  by_contra hlt
  rw [(h.unborn n (by omega)).2.2] at hpipe
  cases hpipe

theorem start_bound {call : StartCall} {place : StartAt} (hcall : w.start = some (call, place)) {o : ℕ}
    (ho : place.on = some o) : o < w.made := h.bound .start o (by simp [on, hcall, ho])

theorem stop_bound {n : ℕ} {stop : StopCall} (hstop : w.stops n = some stop) {o : ℕ} (ho : stop.place.on = some o) :
    o < w.made := h.bound (.stop n) o (by simp [on, hstop, ho])

theorem task_bound {n : ℕ} {task : Task} (htask : w.tasks n = some task) : task.shared < w.made :=
  h.bound (.task n) _ (by simp [on, htask])

theorem pipe_bound {n : ℕ} {pipe : Pipe} (hpipe : w.pipes n = some pipe) : pipe.shared < w.made :=
  h.bound (.pipe n) _ (by simp [on, hpipe])

/-- A step of a task or a pipe. -/
theorem beside (hsame : Same w w') (htunnels : w'.tunnels = w.tunnels) (hstart : w'.start = w.start)
    (hstops : w'.stops = w.stops) (hspawned : w.spawned ≤ w'.spawned)
    (htasks : ∀ n task, w'.tasks n = some task → n < w'.spawned ∧ task.shared < w.made)
    (hpipes : ∀ n pipe, w'.pipes n = some pipe → n < w'.spawned ∧ pipe.shared < w.made)
    (hstopped : ∀ o < w.made, w.state o = .stopped → w'.state o = .stopped) : Placed w' := by
  refine h.same hsame htunnels ?_ ?_ ?_ ?_ ?_ ?_ ?_ ?_
  · intro n hn
    refine ⟨?_, ?_, ?_⟩
    · rw [hstops]
      exact (h.unborn n (by omega)).1
    · by_contra hsome
      obtain ⟨task, htask⟩ := Option.ne_none_iff_exists'.mp hsome
      have hlt := (htasks n task htask).1
      omega
    · by_contra hsome
      obtain ⟨pipe, hpipe⟩ := Option.ne_none_iff_exists'.mp hsome
      have hlt := (hpipes n pipe hpipe).1
      omega
  · intro party o ho
    cases party with
    | start => exact h.bound .start o (by rwa [on, ← hstart])
    | stop n => exact h.bound (.stop n) o (by rwa [on, ← hstops])
    | task n =>
      obtain ⟨task, htask, rfl⟩ := Option.map_eq_some_iff.mp ho
      exact (htasks n task htask).2
    | pipe n =>
      obtain ⟨pipe, hpipe, rfl⟩ := Option.map_eq_some_iff.mp ho
      exact (hpipes n pipe hpipe).2
  · intro call place hcall hkeeps
    exact h.free call place (hstart ▸ hcall) hkeeps
  · intro call place hcall o ho
    exact ⟨place, hstart ▸ hcall, ho⟩
  · intro call place hcall hkeeps
    exact ⟨place, hstart.symm ▸ hcall, hkeeps⟩
  · intro n ids r hr
    rwa [hstops] at hr
  · intro n ids r hr
    rw [hstops]
    exact .inl hr
  · intro o ho hstate
    exact .inl (hstopped o ho hstate)

/-- A stop goes on, to where it has no tunnel in hand. -/
theorem stopped (hsame : Same w w') (htunnels : w'.tunnels = w.tunnels) (hstart : w'.start = w.start)
    {n : ℕ} {stop : StopCall} {after : Option StopCall} (hstop : w.stops n = some stop)
    (hstops : w'.stops = Function.update w.stops n after) (hspawned : w'.spawned = w.spawned)
    (htasks : w'.tasks = w.tasks) (hpipes : w'.pipes = w.pipes)
    (hafter : ∀ ids r, after ≠ some ⟨ids, .waiting r⟩)
    (hon : ∀ a ∈ after, ∀ o, a.place.on = some o → o < w.made)
    (hstate : ∀ r, stop.place = .waiting r → w'.state r.shared = .stopped)
    (hstopped : ∀ o < w.made, w.state o = .stopped → w'.state o = .stopped) : Placed w' := by
  refine h.same hsame htunnels ?_ ?_ ?_ ?_ ?_ ?_ ?_ ?_
  · intro m hm
    rw [hspawned] at hm
    have hlt := h.stop_lt hstop
    have hne : m ≠ n := by omega
    rw [hstops, htasks, hpipes, Function.update_of_ne hne]
    exact h.unborn m hm
  · intro party o ho
    cases party with
    | start => exact h.bound .start o (by rwa [on, ← hstart])
    | stop m =>
      by_cases hm : m = n
      · subst hm
        simp only [on, hstops, Function.update_self] at ho
        obtain ⟨a, ha, ho⟩ := Option.bind_eq_some_iff.mp ho
        exact hon a ha o ho
      · simp only [on, hstops, Function.update_of_ne hm] at ho
        exact h.bound (.stop m) o ho
    | task m => exact h.bound (.task m) o (by rwa [on, ← htasks])
    | pipe m => exact h.bound (.pipe m) o (by rwa [on, ← hpipes])
  · intro call place hcall hkeeps
    exact h.free call place (hstart ▸ hcall) hkeeps
  · intro call place hcall o ho
    exact ⟨place, hstart ▸ hcall, ho⟩
  · intro call place hcall hkeeps
    exact ⟨place, hstart.symm ▸ hcall, hkeeps⟩
  · intro m ids r hr
    rw [hstops] at hr
    by_cases hm : m = n
    · subst hm
      rw [Function.update_self] at hr
      exact absurd hr (hafter ids r)
    · rwa [Function.update_of_ne hm] at hr
  · intro m ids r hr
    by_cases hm : m = n
    · subst hm
      obtain rfl := Option.some.inj (hstop.symm.trans hr)
      exact .inr (hstate r rfl)
    · rw [hstops, Function.update_of_ne hm]
      exact .inl hr
  · intro o ho hold
    exact .inl (hstopped o ho hold)

/-- The start goes on with its tunnel, or is over. -/
theorem started (hsame : Same w w') (htunnels : w'.tunnels = w.tunnels) (hstops : w'.stops = w.stops)
    {call : StartCall} {place : StartAt} (hcall : w.start = some (call, place)) (hspawned : w.spawned ≤ w'.spawned)
    (htasks : ∀ n task, w'.tasks n = some task → n < w'.spawned ∧ task.shared < w.made) (hpipes : w'.pipes = w.pipes)
    (hafter : ∀ s, w'.start = some s → ∃ after, s = (call, after) ∧ after.keeps = place.keeps ∧
      (∀ o ∈ after.makes, o ∈ place.makes) ∧ ∀ o, after.on = some o → place.on = some o)
    (hover : w'.start = none → place.keeps = true)
    (hstopped : ∀ o < w.made, w.state o = .stopped → w'.state o = .stopped ∨ place.keeps = false ∧ w.id o = call.id) :
    Placed w' := by
  refine h.same hsame htunnels ?_ ?_ ?_ ?_ ?_ ?_ ?_ ?_
  · intro n hn
    have hold := h.unborn n (by omega)
    refine ⟨by rw [hstops]; exact hold.1, ?_, by rw [hpipes]; exact hold.2.2⟩
    by_contra hsome
    obtain ⟨task, htask⟩ := Option.ne_none_iff_exists'.mp hsome
    have hlt := (htasks n task htask).1
    omega
  · intro party o ho
    cases party with
    | start =>
      obtain ⟨s, hs, hon⟩ := Option.bind_eq_some_iff.mp ho
      obtain ⟨after, rfl, -, -, hplace⟩ := hafter s hs
      exact h.start_bound hcall (hplace o hon)
    | stop n => exact h.bound (.stop n) o (by rwa [on, ← hstops])
    | task n =>
      obtain ⟨task, htask, rfl⟩ := Option.map_eq_some_iff.mp ho
      exact (htasks n task htask).2
    | pipe n => exact h.bound (.pipe n) o (by rwa [on, ← hpipes])
  · intro call' after hs hkeeps
    obtain ⟨_, heq, hsame, -, -⟩ := hafter _ hs
    obtain ⟨rfl, rfl⟩ := Prod.mk.inj heq
    exact h.free call' place hcall (hsame ▸ hkeeps)
  · intro call' after hs o ho
    obtain ⟨_, heq, -, hmakes, -⟩ := hafter _ hs
    obtain ⟨rfl, rfl⟩ := Prod.mk.inj heq
    exact ⟨place, hcall, hmakes o ho⟩
  · intro call' before hbefore hkeeps
    obtain ⟨rfl, rfl⟩ := Prod.mk.inj (Option.some.inj (hcall.symm.trans hbefore))
    cases hs : w'.start with
    | none =>
      rw [hover hs] at hkeeps
      cases hkeeps
    | some s =>
      obtain ⟨after, rfl, hsame, -, -⟩ := hafter s hs
      exact ⟨after, rfl, hsame.trans hkeeps⟩
  · intro n ids r hr
    rwa [hstops] at hr
  · intro n ids r hr
    rw [hstops]
    exact .inl hr
  · intro o ho hold
    obtain hstate | ⟨hkeeps, hid⟩ := hstopped o ho hold
    · exact .inl hstate
    · cases hs : w'.start with
      | none =>
        rw [hover hs] at hkeeps
        cases hkeeps
      | some s =>
        obtain ⟨after, rfl, hsame, -, -⟩ := hafter s hs
        exact .inr ⟨call, after, rfl, hsame.trans hkeeps, hid.symm⟩

omit h

/-- A tunnel leaves the manager, and the call that has it stops it. -/
theorem taken (h : Placed w) (hnone : w.start = none) {id : ℕ} {r : Running} (hr : w.tunnels id = some r)
    (hmade : w'.made = w.made) (hid : ∀ o, w'.id o = w.id o) (hlink : ∀ o, (w'.shared o).link = (w.shared o).link)
    (hstate : ∀ o, w'.state o = w.state o)
    (hflag : ∀ o, (w'.shared o).stop = if o = r.shared then true else (w.shared o).stop)
    (htunnels : w'.tunnels = Function.update w.tunnels id none) (hspawned : w'.spawned = w.spawned)
    (htasks : w'.tasks = w.tasks) (hpipes : w'.pipes = w.pipes)
    (hhand : (∃ call, w'.start = some (call, .waiting r) ∧ call.id = id ∧ w'.stops = w.stops) ∨
      (w'.start = none ∧ ∃ n ids rest, w.stops n = some ⟨ids, .next⟩ ∧
        w'.stops = Function.update w.stops n (some ⟨rest, .waiting r⟩))) : Placed w' := by
  obtain ⟨hlive, -⟩ := h.kept id r hr
  have hnewest : ∀ o, w'.Newest o ↔ w.Newest o := fun o => by simp only [Newest, hmade, hid]
  have hraised : ∀ o, (w.shared o).stop = true → (w'.shared o).stop = true := by
    intro o ho
    rw [hflag, ho]
    exact ite_self true
  have hkept : ∀ i r', w'.tunnels i = some r' → i ≠ id ∧ w.tunnels i = some r' := by
    intro i r' hr'
    rw [htunnels] at hr'
    by_cases hi : i = id
    · subst hi
      rw [Function.update_self] at hr'
      cases hr'
    · rw [Function.update_of_ne hi] at hr'
      exact ⟨hi, hr'⟩
  refine { unborn := ?_, bound := ?_, kept := ?_, free := ?_, makes := ?_, waits := ?_, rest := ?_ }
  · intro n hn
    rw [hspawned] at hn
    rw [htasks, hpipes]
    refine ⟨?_, (h.unborn n hn).2⟩
    obtain ⟨call, -, -, hstops⟩ | ⟨-, m, ids, rest, hm, hstops⟩ := hhand
    · rw [hstops]
      exact (h.unborn n hn).1
    · have hlt := h.stop_lt hm
      rw [hstops, Function.update_of_ne (by omega)]
      exact (h.unborn n hn).1
  · intro party o ho
    rw [hmade]
    cases party with
    | start =>
      obtain ⟨call, hcall, -, -⟩ | ⟨hcall, -⟩ := hhand
      · simp [on, hcall, StartAt.on, StartAt.makes] at ho
      · simp [on, hcall] at ho
    | stop n =>
      obtain ⟨call, -, -, hstops⟩ | ⟨-, m, ids, rest, hm, hstops⟩ := hhand
      · exact h.bound (.stop n) o (by rwa [on, ← hstops])
      · by_cases hn : n = m
        · subst hn
          obtain rfl : r.shared = o := by simpa [on, hstops, StopAt.on] using ho
          exact hlive.made
        · exact h.bound (.stop n) o (by simpa only [on, hstops, Function.update_of_ne hn] using ho)
    | task n => exact h.bound (.task n) o (by rwa [on, ← htasks])
    | pipe n => exact h.bound (.pipe n) o (by rwa [on, ← hpipes])
  · intro i r' hr'
    obtain ⟨hi, hr'⟩ := hkept i r' hr'
    obtain ⟨hlive', hlink'⟩ := h.kept i r' hr'
    have hne : r'.shared ≠ r.shared := by
      intro heq
      apply hi
      rw [← hlive'.id_eq, ← hlive.id_eq, heq]
    refine ⟨⟨hmade ▸ hlive'.made, (hid _).trans hlive'.id_eq, (hnewest _).mpr hlive'.newest, ?_⟩, ?_⟩
    · rw [hflag, if_neg hne]
      exact hlive'.unstopped
    · rw [hlink]
      exact hlink'
  · intro call place hcall hkeeps
    obtain ⟨call', hcall', rfl, -⟩ | ⟨hcall', -⟩ := hhand
    · obtain ⟨rfl, rfl⟩ := Prod.mk.inj (Option.some.inj (hcall'.symm.trans hcall))
      rw [htunnels, Function.update_self]
    · rw [hcall'] at hcall
      cases hcall
  · intro call place hcall o ho
    obtain ⟨call', hcall', -, -⟩ | ⟨hcall', -⟩ := hhand
    · obtain ⟨rfl, rfl⟩ := Prod.mk.inj (Option.some.inj (hcall'.symm.trans hcall))
      cases ho
    · rw [hcall'] at hcall
      cases hcall
  · intro n ids r' hr'
    obtain ⟨call, -, -, hstops⟩ | ⟨-, m, ids, rest, hm, hstops⟩ := hhand
    · rw [hstops] at hr'
      exact hraised _ (h.waits n ids r' hr')
    · rw [hstops] at hr'
      by_cases hn : n = m
      · subst hn
        rw [Function.update_self] at hr'
        cases hr'
        rw [hflag, if_pos rfl]
      · rw [Function.update_of_ne hn] at hr'
        exact hraised _ (h.waits n _ r' hr')
  · intro o ho hnew
    rw [hmade] at ho
    rw [hid, htunnels, hstate]
    obtain ⟨r', hr', rfl⟩ | ⟨call, place, hcall, -, -⟩ | ⟨n, ids', r', hr', rfl⟩ | hstopped :=
      h.rest o ho ((hnewest o).mp hnew)
    · by_cases hi : w.id r'.shared = id
      · obtain rfl : r' = r := by
          rw [hi, hr] at hr'
          exact (Option.some.inj hr').symm
        obtain ⟨call, hcall, hcallid, -⟩ | ⟨-, m, ids, rest, -, hstops⟩ := hhand
        · exact .inr (.inl ⟨call, _, hcall, rfl, hcallid.trans hi.symm⟩)
        · exact .inr (.inr (.inl ⟨m, rest, r', by rw [hstops, Function.update_self], rfl⟩))
      · rw [Function.update_of_ne hi]
        exact .inl ⟨r', hr', rfl⟩
    · rw [hnone] at hcall
      cases hcall
    · obtain ⟨call, -, -, hstops⟩ | ⟨-, m, ids, rest, hm, hstops⟩ := hhand
      · exact .inr (.inr (.inl ⟨n, ids', r', hstops ▸ hr', rfl⟩))
      · have hn : n ≠ m := by
          rintro rfl
          rw [hm] at hr'
          cases hr'
        exact .inr (.inr (.inl ⟨n, ids', r', by rw [hstops, Function.update_of_ne hn, hr'], rfl⟩))
    · exact .inr (.inr (.inr hstopped))

/-- The tunnel that a start made is kept. -/
theorem inserted (h : Placed w) (hsame : Same w w') {call : StartCall} {place : StartAt}
    (hcall : w.start = some (call, place)) {r : Running} (hr : place.makes = some r.shared)
    (hlink : ∀ l ∈ r.link, l = call.link) (htunnels : w'.tunnels = Function.update w.tunnels call.id (some r))
    (hstart : ∀ s, w'.start = some s → s.2.keeps = true ∧ s.2.makes = none ∧ s.2.on = some r.shared)
    (hstops : w'.stops = w.stops) (htasks : w'.tasks = w.tasks) (hpipes : w'.pipes = w.pipes)
    (hspawned : w'.spawned = w.spawned)
    (hstopped : ∀ o < w.made, w.id o ≠ call.id → w.state o = .stopped → w'.state o = .stopped) : Placed w' := by
  obtain ⟨hlive, hshared⟩ := h.makes call place hcall r.shared hr
  refine { unborn := ?_, bound := ?_, kept := ?_, free := ?_, makes := ?_, waits := ?_, rest := ?_ }
  · rw [hspawned, hstops, htasks, hpipes]
    exact h.unborn
  · intro party o ho
    rw [hsame.made]
    cases party with
    | start =>
      obtain ⟨s, hs, hon⟩ := Option.bind_eq_some_iff.mp ho
      obtain rfl := Option.some.inj ((hstart s hs).2.2.symm.trans hon)
      exact hlive.made
    | stop n => exact h.bound (.stop n) o (by rwa [on, ← hstops])
    | task n => exact h.bound (.task n) o (by rwa [on, ← htasks])
    | pipe n => exact h.bound (.pipe n) o (by rwa [on, ← hpipes])
  · intro id r' hr'
    rw [hsame.link]
    rw [htunnels] at hr'
    by_cases hid : id = call.id
    · subst hid
      rw [Function.update_self] at hr'
      obtain rfl := Option.some.inj hr'
      refine ⟨hsame.live hlive, fun l hl => ?_⟩
      rw [hshared]
      exact hlink l hl
    · rw [Function.update_of_ne hid] at hr'
      obtain ⟨hlive', hlink'⟩ := h.kept id r' hr'
      exact ⟨hsame.live hlive', hlink'⟩
  · intro call' after hafter hkeeps
    rw [(hstart _ hafter).1] at hkeeps
    cases hkeeps
  · intro call' after hafter o ho
    rw [(hstart _ hafter).2.1] at ho
    cases ho
  · intro n ids r' hr'
    rw [hsame.stop]
    exact h.waits n ids r' (hstops ▸ hr')
  · intro o ho hnew
    rw [hsame.made] at ho
    have hnewest := hsame.newest.mp hnew
    rw [hsame.id, htunnels]
    by_cases hid : w.id o = call.id
    · have heq : r.shared = o := by
        have hle := hlive.newest o ho (hid.trans hlive.id_eq.symm)
        have hge := hnewest r.shared hlive.made (hlive.id_eq.trans hid.symm)
        omega
      rw [hid, Function.update_self]
      exact .inl ⟨r, rfl, heq⟩
    · rw [Function.update_of_ne hid]
      obtain hkept | ⟨call', place', hcall', -, hid'⟩ | ⟨n, ids, r', hr', hshared'⟩ | hstate := h.rest o ho hnewest
      · exact .inl hkept
      · obtain ⟨rfl, -⟩ := Prod.mk.inj (Option.some.inj (hcall.symm.trans hcall'))
        exact absurd hid'.symm hid
      · exact .inr (.inr (.inl ⟨n, ids, r', hstops ▸ hr', hshared'⟩))
      · exact .inr (.inr (.inr (hstopped o ho hid hstate)))

theorem shared_create {call : StartCall} {o : ℕ} (ho : o < w.made) : (w.create call).shared o = w.shared o :=
  Function.update_of_ne (by omega) _ _

theorem id_create {call : StartCall} : (w.create call).id w.made = call.id := by
  simp [World.id, World.status, create, tell, StartCall.fresh]

/-- A start makes its tunnel. -/
theorem created (h : Placed w) {call : StartCall} (hcall : w.start = some (call, .making)) :
    Placed ((w.create call).starts call (.asking w.made)) := by
  have hshared : ∀ o < w.made, ((w.create call).starts call (.asking w.made)).shared o = w.shared o :=
    fun o ho => shared_create ho
  have hids : ∀ o < w.made, ((w.create call).starts call (.asking w.made)).id o = w.id o := by
    intro o ho
    rw [World.id, World.status, hshared o ho]
    rfl
  have hnew : ((w.create call).starts call (.asking w.made)).id w.made = call.id := id_create
  have hempty := h.free call .making hcall rfl
  have hlive : ∀ id o, w.Live id o → id ≠ call.id → ((w.create call).starts call (.asking w.made)).Live id o := by
    intro id o ho hne
    refine ⟨Nat.lt_succ_of_lt ho.made, (hids o ho.made).trans ho.id_eq, fun other hother heq => ?_, ?_⟩
    · rw [hids o ho.made] at heq
      obtain hlt | rfl : other < w.made ∨ other = w.made := Nat.lt_succ_iff_lt_or_eq.mp hother
      · rw [hids other hlt] at heq
        exact ho.newest other hlt heq
      · rw [hnew, ho.id_eq] at heq
        exact absurd heq.symm hne
    · rw [hshared o ho.made]
      exact ho.unstopped
  refine { unborn := h.unborn, bound := ?_, kept := ?_, free := ?_, makes := ?_, waits := ?_, rest := ?_ }
  · intro party o ho
    cases party with
    | start =>
      obtain rfl : w.made = o := by simpa [on, starts, StartAt.on, StartAt.makes] using ho
      exact Nat.lt_succ_self _
    | stop n => exact Nat.lt_succ_of_lt (h.bound (.stop n) o ho)
    | task n => exact Nat.lt_succ_of_lt (h.bound (.task n) o ho)
    | pipe n => exact Nat.lt_succ_of_lt (h.bound (.pipe n) o ho)
  · intro id r hr
    obtain ⟨ho, hlink⟩ := h.kept id r hr
    refine ⟨hlive id _ ho ?_, ?_⟩
    · rintro rfl
      have hsome : w.tunnels call.id = some r := hr
      rw [hempty] at hsome
      cases hsome
    · rw [hshared _ ho.made]
      exact hlink
  · intro call' place hs hkeeps
    obtain ⟨rfl, rfl⟩ := Prod.mk.inj (Option.some.inj hs)
    exact hempty
  · intro call' place hs o ho
    obtain ⟨rfl, rfl⟩ := Prod.mk.inj (Option.some.inj hs)
    obtain rfl := Option.some.inj ho
    have hself : ((w.create call).starts call (.asking w.made)).shared w.made = call.fresh := Function.update_self _ _ _
    refine ⟨⟨Nat.lt_succ_self _, hnew, fun other hother _ => Nat.lt_succ_iff.mp hother, ?_⟩, ?_⟩
    · rw [hself]
      rfl
    · rw [hself]
      rfl
  · intro n ids r hr
    have hmade := h.stop_bound hr rfl
    rw [hshared _ hmade]
    exact h.waits n ids r hr
  · intro o ho hnewest
    obtain hlt | rfl : o < w.made ∨ o = w.made := Nat.lt_succ_iff_lt_or_eq.mp ho
    · have hnewest' : w.Newest o := by
        intro other hother heq
        apply hnewest other (Nat.lt_succ_of_lt hother)
        rw [hids o hlt, hids other hother]
        exact heq
      rw [hids o hlt]
      obtain hkept | ⟨call', place', hcall', -, hid'⟩ | hstops | hstate := h.rest o hlt hnewest'
      · exact .inl hkept
      · obtain ⟨rfl, -⟩ := Prod.mk.inj (Option.some.inj (hcall.symm.trans hcall'))
        exact .inr (.inl ⟨call, _, rfl, rfl, hid'⟩)
      · exact .inr (.inr (.inl hstops))
      · refine .inr (.inr (.inr ?_))
        rw [World.state, World.status, hshared o hlt]
        exact hstate
    · exact .inr (.inl ⟨call, _, rfl, rfl, hnew.symm⟩)

theorem pipeBecomes (h : Placed w) (hsame : Same w w') (hstate : ∀ o, w'.state o = w.state o) {n : ℕ} {pipe : Pipe}
    (hpipe : w.pipes n = some pipe) {after : Option Pipe} (hafter : ∀ p ∈ after, p.shared = pipe.shared)
    (htunnels : w'.tunnels = w.tunnels) (hstart : w'.start = w.start) (hstops : w'.stops = w.stops)
    (htasks : w'.tasks = w.tasks) (hpipes : w'.pipes = Function.update w.pipes n after)
    (hspawned : w'.spawned = w.spawned) : Placed w' := by
  refine h.beside hsame htunnels hstart hstops (Nat.le_of_eq hspawned.symm) ?_ ?_ ?_
  · intro m task htask
    rw [htasks] at htask
    rw [hspawned]
    exact ⟨h.task_lt htask, h.task_bound htask⟩
  · intro m p hp
    rw [hpipes] at hp
    rw [hspawned]
    obtain ⟨rfl, hafter'⟩ | ⟨-, hp⟩ := update_some hp
    · rw [hafter p hafter']
      exact ⟨h.pipe_lt hpipe, h.pipe_bound hpipe⟩
    · exact ⟨h.pipe_lt hp, h.pipe_bound hp⟩
  · intro o _ ho
    rw [hstate]
    exact ho

theorem goPipe (h : Placed w) {n : ℕ} {pipe : Pipe} (hpipe : w.pipes n = some pipe) {reply : Reply}
    (hstep : w.goPipe n pipe.shared reply pipe.place = some w') : Placed w' := by
  have hwrite : ∀ (f : TunnelStatus → TunnelStatus) (after : Pipe), (∀ s, (f s).id = s.id) → (∀ s, (f s).state = s.state) →
      after.shared = pipe.shared → Placed ((w.write pipe.shared f).pipeBecomes n (some after)) := by
    intro f after hid hstate hafter
    refine h.pipeBecomes (Same.of_write rfl hid rfl) (fun o => ?_) hpipe ?_ rfl rfl rfl rfl rfl rfl
    · have hstatus := w.status_write pipe.shared f o
      have hsome : (w.write pipe.shared f).state o = w.state o := by
        rw [World.state, hstatus]
        split
        · exact hstate _
        · rfl
      exact hsome
    · intro p hp
      obtain rfl := Option.some.inj hp
      exact hafter
  have hkeep : ∀ (told : ℕ → Option TunnelStatus) (after : Option Pipe), (∀ p ∈ after, p.shared = pipe.shared) →
      Placed { w.pipeBecomes n after with told } := fun told after hafter =>
    h.pipeBecomes (Same.of_shared rfl rfl) (fun o => rfl) hpipe hafter rfl rfl rfl rfl rfl rfl
  have hself : ∀ place, ∀ p ∈ some ({ shared := pipe.shared, place } : Pipe), p.shared = pipe.shared := by
    intro place p hp
    obtain rfl := Option.some.inj hp
    rfl
  have hnone : ∀ p ∈ (none : Option Pipe), p.shared = pipe.shared := fun p hp => by cases hp
  unfold World.goPipe at hstep
  split at hstep
  · split at hstep
    · obtain rfl := Option.some.inj hstep
      exact hwrite _ _ (fun s => rfl) (fun s => rfl) rfl
    · obtain rfl := Option.some.inj hstep
      exact hkeep w.told none hnone
  · obtain rfl := Option.some.inj hstep
    exact hkeep w.told _ (hself _)
  · obtain rfl := Option.some.inj hstep
    exact hkeep _ _ (hself _)
  · obtain rfl := Option.some.inj hstep
    exact hwrite _ _ (fun s => rfl) (fun s => rfl) rfl
  · obtain rfl := Option.some.inj hstep
    exact hkeep w.told _ (hself _)
  · obtain rfl := Option.some.inj hstep
    exact hkeep _ none hnone

theorem taskBecomes (h : Placed w) (hsame : Same w w')
    (hstopped : ∀ o, w.state o = .stopped → w'.state o = .stopped) {n : ℕ} {task : Task} (htask : w.tasks n = some task)
    {after : Option Task} (hafter : ∀ t ∈ after, t.shared = task.shared) (htunnels : w'.tunnels = w.tunnels)
    (hstart : w'.start = w.start) (hstops : w'.stops = w.stops)
    (htasks : w'.tasks = Function.update w.tasks n after) (hpipes : w'.pipes = w.pipes)
    (hspawned : w'.spawned = w.spawned) : Placed w' := by
  refine h.beside hsame htunnels hstart hstops (Nat.le_of_eq hspawned.symm) ?_ ?_ fun o _ => hstopped o
  · intro m t ht
    rw [htasks] at ht
    rw [hspawned]
    obtain ⟨rfl, hafter'⟩ | ⟨-, ht⟩ := update_some ht
    · rw [hafter t hafter']
      exact ⟨h.task_lt htask, h.task_bound htask⟩
    · exact ⟨h.task_lt ht, h.task_bound ht⟩
  · intro m p hp
    rw [hpipes] at hp
    rw [hspawned]
    exact ⟨h.pipe_lt hp, h.pipe_bound hp⟩

theorem goTask (h : Placed w) {n : ℕ} {task : Task} (htask : w.tasks n = some task) {reply : Reply}
    (hstep : w.goTask n task.shared task.kind reply task.place = some w') : Placed w' := by
  have hkeep : ∀ (told : ℕ → Option TunnelStatus) (after : Option Task), (∀ t ∈ after, t.shared = task.shared) →
      Placed { w.taskBecomes n after with told } := fun told after hafter =>
    h.taskBecomes (Same.of_shared rfl rfl) (fun o ho => ho) htask hafter rfl rfl rfl rfl rfl rfl
  have hself : ∀ kind place, ∀ t ∈ some ({ shared := task.shared, kind, place } : Task), t.shared = task.shared := by
    intro kind place t ht
    obtain rfl := Option.some.inj ht
    rfl
  have hnone : ∀ t ∈ (none : Option Task), t.shared = task.shared := fun t ht => by cases ht
  unfold World.goTask at hstep
  split at hstep
  · split at hstep
    · split at hstep
      · split at hstep
        · obtain rfl := Option.some.inj hstep
          exact hkeep w.told none hnone
        · rename_i hne
          obtain rfl := Option.some.inj hstep
          refine h.taskBecomes (Same.of_set rfl rfl) ?_ htask (hself _ _) rfl rfl rfl rfl rfl rfl
          intro o ho
          have hset := w.state_set task.shared (.failed .connectionLost) o
          have hother : o ≠ task.shared := by
            rintro rfl
            exact hne ho
          rw [if_neg hother, ho] at hset
          exact hset
      · cases hstep
    · split at hstep
      · obtain rfl := Option.some.inj hstep
        exact hkeep w.told none hnone
      · cases hstep
  · obtain rfl := Option.some.inj hstep
    exact hkeep w.told _ (hself _ _)
  · obtain rfl := Option.some.inj hstep
    exact hkeep _ none hnone

theorem relink (h : Placed w) (link : ℕ → Link) : Placed { w with link } :=
  h.beside (Same.of_shared rfl rfl) rfl rfl rfl (Nat.le_refl _) (fun _ _ ht => ⟨h.task_lt ht, h.task_bound ht⟩)
    (fun _ _ hp => ⟨h.pipe_lt hp, h.pipe_bound hp⟩) fun _ _ ho => ho

/-- A stop goes on with no tunnel in hand, before and after. -/
theorem stopKeeps (h : Placed w) {n : ℕ} {stop : StopCall} (hstop : w.stops n = some stop)
    (hplace : ∀ r, stop.place ≠ .waiting r) (told : ℕ → Option TunnelStatus) {after : Option StopCall}
    (hafter : ∀ ids r, after ≠ some ⟨ids, .waiting r⟩)
    (hon : ∀ a ∈ after, ∀ o, a.place.on = some o → stop.place.on = some o) :
    Placed { w.stopBecomes n after with told } :=
  h.stopped (Same.of_shared rfl rfl) rfl rfl hstop rfl rfl rfl rfl hafter
    (fun a ha o ho => h.stop_bound hstop (hon a ha o ho)) (fun r hr => absurd hr (hplace r)) fun _ _ ho => ho

/-- What `finish` leaves of a tunnel that was taken. -/
theorem finish_taken (w : World) (id : ℕ) (r : Running) : ∃ link,
    (w.keep id none).finish r = { (w.keep id none).raise r.shared with link } ∧
      (∀ o, ((w.keep id none).raise r.shared).id o = w.id o) ∧
      (∀ o, (((w.keep id none).raise r.shared).shared o).link = (w.shared o).link) ∧
      (∀ o, ((w.keep id none).raise r.shared).state o = w.state o) ∧
      ∀ o, (((w.keep id none).raise r.shared).shared o).stop = if o = r.shared then true else (w.shared o).stop := by
  obtain ⟨link, heq, -⟩ := (w.keep id none).finish_eq r
  refine ⟨link, heq, fun o => ?_, fun o => ?_, fun o => ?_, fun o => ?_⟩
  · rw [World.id, World.status, shared_raise]
    split <;> rfl
  · rw [shared_raise]
    split <;> rfl
  · rw [World.state, World.status, shared_raise]
    split <;> rfl
  · rw [shared_raise]
    split <;> rfl

theorem goStop (h : Placed w) {n : ℕ} {stop : StopCall} (hstop : w.stops n = some stop)
    (hstep : w.goStop n stop.ids stop.place = some w') : Placed w' := by
  obtain ⟨ids, place⟩ := stop
  cases place with
  | next =>
    cases ids with
    | nil =>
      obtain rfl := Option.some.inj hstep
      exact h.stopKeeps hstop (by simp) w.told (by simp) (by simp)
    | cons id ids =>
      cases hstart : w.start with
      | some s => simp [World.goStop, hstart] at hstep
      | none =>
        cases hr : w.tunnels id with
        | none =>
          simp only [World.goStop, hstart, hr, Option.isSome_none, Bool.false_eq_true, if_false, Option.some.injEq] at hstep
          subst hstep
          exact h.stopKeeps hstop (by simp) w.told (by simp) (by simp [StopAt.on])
        | some r =>
          simp only [World.goStop, hstart, hr, Option.isSome_none, Bool.false_eq_true, if_false, Option.some.injEq] at hstep
          subst hstep
          obtain ⟨link, heq, hid, hlink, hstate, hflag⟩ := finish_taken w id r
          rw [heq]
          exact h.taken hstart hr rfl hid hlink hstate hflag rfl rfl rfl rfl (.inr ⟨hstart, n, _, _, hstop, rfl⟩)
  | waiting r =>
    simp only [World.goStop] at hstep
    split at hstep
    · obtain rfl := Option.some.inj hstep
      refine h.stopped (Same.of_set rfl rfl) rfl rfl hstop rfl rfl rfl rfl (by simp) ?_ ?_ ?_
      · intro a ha o ho
        obtain rfl := Option.some.inj ha
        exact h.stop_bound hstop ho
      · intro r' hr'
        cases hr'
        have hset := w.state_set r.shared .stopped r.shared
        rw [if_pos rfl] at hset
        exact hset
      · intro o _ ho
        have hset := w.state_set r.shared .stopped o
        rw [ho, ite_self] at hset
        exact hset
    · cases hstep
  | reporting o report =>
    cases report with
    | read =>
      obtain rfl := Option.some.inj hstep
      exact h.stopKeeps hstop (by simp) w.told (by simp) (by simp [StopAt.on])
    | tell status =>
      obtain rfl := Option.some.inj hstep
      exact h.stopKeeps hstop (by simp) _ (by simp) (by simp [StopAt.on])

theorem begins (h : Placed w) (hnone : w.start = none) (call : StartCall) : Placed (w.begin call) := by
  unfold World.begin
  split
  · next running hr =>
    split
    · exact h
    · obtain ⟨link, heq, hid, hlink, hstate, hflag⟩ := finish_taken w call.id running
      rw [heq]
      exact h.taken hnone hr rfl hid hlink hstate hflag rfl rfl rfl rfl (.inl ⟨call, rfl, rfl, rfl⟩)
  · next hr =>
    refine h.same (Same.of_shared rfl rfl) rfl h.unborn ?_ ?_ ?_ ?_ (fun _ _ _ hr => hr) (fun _ _ _ hr => .inl hr)
      fun _ _ ho => .inl ho
    · intro party o ho
      cases party with
      | start => simp [on, starts, StartAt.on, StartAt.makes] at ho
      | stop n => exact h.bound (.stop n) o ho
      | task n => exact h.bound (.task n) o ho
      | pipe n => exact h.bound (.pipe n) o ho
    · intro call' place hs _
      obtain ⟨rfl, rfl⟩ := Prod.mk.inj (Option.some.inj hs)
      exact hr
    · intro call' place hs o ho
      obtain ⟨rfl, rfl⟩ := Prod.mk.inj (Option.some.inj hs)
      cases ho
    · intro call' place hs
      rw [hnone] at hs
      cases hs

/-- A start goes from one place to the next, and the tunnels' states stay. -/
theorem startGoes (h : Placed w) {call : StartCall} {place : StartAt} (hcall : w.start = some (call, place))
    (told : ℕ → Option TunnelStatus) {after : StartAt} (hkeeps : after.keeps = place.keeps)
    (hmakes : ∀ o ∈ after.makes, o ∈ place.makes) (hon : ∀ o, after.on = some o → place.on = some o) :
    Placed { w.starts call after with told } := by
  refine h.started (Same.of_shared rfl rfl) rfl rfl hcall (Nat.le_refl _)
    (fun n task ht => ⟨h.task_lt ht, h.task_bound ht⟩) rfl ?_ ?_ fun _ _ ho => .inl ho
  · intro s hs
    obtain rfl := Option.some.inj hs
    exact ⟨after, rfl, hkeeps, hmakes, hon⟩
  · intro hs
    cases hs

theorem fails (h : Placed w) {call : StartCall} {o : ℕ} (hcall : w.start = some (call, .asking o)) (error : TunnelError) :
    Placed (w.fails call o error) := by
  refine h.started (Same.of_set rfl rfl) rfl rfl hcall (Nat.le_refl _)
    (fun n task ht => ⟨h.task_lt ht, h.task_bound ht⟩) rfl ?_ ?_ ?_
  · intro s hs
    obtain rfl := Option.some.inj hs
    exact ⟨_, rfl, rfl, fun _ ho => ho, fun _ ho => ho⟩
  · intro hs
    cases hs
  · intro other _ hold
    by_cases heq : other = o
    · subst heq
      exact .inr ⟨rfl, (h.makes call _ hcall other rfl).1.id_eq⟩
    · have hset := w.state_set o (.failed error) other
      rw [if_neg heq, hold] at hset
      exact .inl hset

theorem spawns (h : Placed w) {call : StartCall} {o : ℕ} (hcall : w.start = some (call, .asking o)) (bound : UInt16)
    (remote : Option UInt32) : Placed (w.spawns call o bound remote) := by
  refine h.started (Same.of_shared rfl rfl) rfl rfl hcall (Nat.le_succ _) ?_ rfl ?_ ?_ fun _ _ ho => .inl ho
  · intro n task ht
    obtain ⟨rfl, hnew⟩ | ⟨-, hold⟩ := update_some ht
    · obtain rfl := Option.some.inj hnew
      exact ⟨Nat.lt_succ_self _, h.start_bound hcall rfl⟩
    · exact ⟨Nat.lt_succ_of_lt (h.task_lt hold), h.task_bound hold⟩
  · intro s hs
    obtain rfl := Option.some.inj hs
    exact ⟨_, rfl, rfl, fun _ ho => ho, fun _ ho => ho⟩
  · intro hs
    cases hs

theorem asks (h : Placed w) {call : StartCall} {o : ℕ} (hcall : w.start = some (call, .asking o)) :
    Placed (w.asks call o) := by
  have hself : w.starts call (.asking o) = w := by
    rw [starts, ← hcall]
  unfold World.asks
  split
  · exact h.fails hcall _
  · split
    · rwa [hself]
    · split
      · rwa [hself]
      · split
        · exact h.fails hcall _
        · have hlinked := h.relink (w.forward call.link call.spec.bindPort.toUInt32 (some o)).link
          have hsame : (w.forward call.link call.spec.bindPort.toUInt32 (some o)).starts call (.asking o) =
              { w with link := (w.forward call.link call.spec.bindPort.toUInt32 (some o)).link } := by
            rw [starts, ← hcall]
            rfl
          rwa [hsame]

theorem refused (h : Placed w) {call : StartCall} {o : ℕ} (hcall : w.start = some (call, .asking o)) (error : TunnelError) :
    Placed (w.refused call o error) := by
  unfold World.refused
  dsimp only
  generalize (if (w.link call.link).closed = true then TunnelError.connectionLost else error) = error
  split
  · exact h.fails hcall error
  · exact (h.relink (w.forward call.link call.spec.bindPort.toUInt32 none).link).fails hcall error

theorem goStart (h : Placed w) {call : StartCall} {place : StartAt} (hcall : w.start = some (call, place)) {reply : Reply}
    (hstep : w.goStart call reply place = some w') : Placed w' := by
  cases place with
  | waiting old =>
    simp only [World.goStart] at hstep
    split at hstep
    · obtain rfl := Option.some.inj hstep
      exact h.startGoes hcall w.told rfl (by simp [StartAt.makes]) (by simp [StartAt.on, StartAt.makes])
    · cases hstep
  | making =>
    obtain rfl := Option.some.inj hstep
    have hasks := (h.created hcall).asks rfl
    have hsame : ((w.create call).starts call (.asking w.made)).asks call w.made = (w.create call).asks call w.made := rfl
    rwa [hsame] at hasks
  | asking o =>
    simp only [World.goStart] at hstep
    split at hstep
    · unfold World.askedLocal at hstep
      split at hstep
      · obtain rfl := Option.some.inj hstep
        exact h.spawns hcall _ _
      · obtain rfl := Option.some.inj hstep
        exact h.fails hcall _
      · obtain rfl := Option.some.inj hstep
        exact h.fails hcall _
      · cases hstep
    · unfold World.askedRemote at hstep
      split at hstep
      · split at hstep
        · next port _ =>
          obtain rfl := Option.some.inj hstep
          exact (h.relink (w.forward call.link port (some o)).link).spawns hcall _ _
        · obtain rfl := Option.some.inj hstep
          exact h.spawns hcall _ _
      · obtain rfl := Option.some.inj hstep
        exact h.refused hcall _
      · obtain rfl := Option.some.inj hstep
        exact h.refused hcall _
      · obtain rfl := Option.some.inj hstep
        exact h.refused hcall _
      · cases hstep
  | spawned o task bound remote =>
    obtain rfl := Option.some.inj hstep
    refine h.inserted (Same.of_set rfl rfl) hcall (r := ⟨o, some task, some call.link, remote⟩) rfl ?_ rfl ?_ rfl rfl rfl
      rfl ?_
    · intro l hl
      exact (Option.some.inj hl).symm
    · intro s hs
      obtain rfl := Option.some.inj hs
      exact ⟨rfl, rfl, rfl⟩
    · intro other _ hid hold
      have hset := w.state_set o (.running bound) other
      have hne : other ≠ o := by
        rintro rfl
        exact hid (h.makes call _ hcall other rfl).1.id_eq
      rw [if_neg hne, hold] at hset
      exact hset
  | reporting o report =>
    cases report with
    | read =>
      obtain rfl := Option.some.inj hstep
      exact h.startGoes hcall w.told rfl (fun _ ho => ho) fun _ ho => ho
    | tell status =>
      obtain rfl := Option.some.inj hstep
      refine h.started (Same.of_shared rfl rfl) rfl rfl hcall (Nat.le_refl _)
        (fun n task ht => ⟨h.task_lt ht, h.task_bound ht⟩) rfl ?_ (fun _ => rfl) fun _ _ ho => .inl ho
      intro s hs
      cases hs
  | failed o report =>
    cases report with
    | read =>
      obtain rfl := Option.some.inj hstep
      exact h.startGoes hcall w.told rfl (fun _ ho => ho) fun _ ho => ho
    | tell status =>
      obtain rfl := Option.some.inj hstep
      refine h.inserted (Same.of_shared rfl rfl) hcall (r := ⟨o, none, none, none⟩) rfl ?_ rfl ?_ rfl rfl rfl rfl
        fun _ _ _ ho => ho
      · intro l hl
        cases hl
      · intro s hs
        cases hs

theorem spawnStop (h : Placed w) (ids : List ℕ) : Placed (w.spawnStop ids) := by
  have hstops : ∀ n, n ≠ w.spawned → (w.spawnStop ids).stops n = w.stops n := fun n hn => Function.update_of_ne hn _ _
  have hself : (w.spawnStop ids).stops w.spawned = some ⟨ids, .next⟩ := Function.update_self _ _ _
  refine h.same (Same.of_shared rfl rfl) rfl ?_ ?_ h.free ?_ ?_ ?_ ?_ fun _ _ ho => .inl ho
  · intro n hn
    have hlt : w.spawned + 1 ≤ n := hn
    rw [hstops n (by omega)]
    exact h.unborn n (by omega)
  · intro party o ho
    cases party with
    | start => exact h.bound .start o ho
    | stop n =>
      by_cases hn : n = w.spawned
      · subst hn
        simp [on, hself, StopAt.on] at ho
      · exact h.bound (.stop n) o (by simpa only [on, hstops n hn] using ho)
    | task n => exact h.bound (.task n) o ho
    | pipe n => exact h.bound (.pipe n) o ho
  · exact fun call place hs o ho => ⟨place, hs, ho⟩
  · exact fun call place hs hkeeps => ⟨place, hs, hkeeps⟩
  · intro n ids' r hr
    by_cases hn : n = w.spawned
    · subst hn
      rw [hself] at hr
      cases hr
    · rwa [hstops n hn] at hr
  · intro n ids' r hr
    have hlt := h.stop_lt hr
    rw [hstops n (by omega)]
    exact .inl hr

theorem spawnPipe (h : Placed w) {o : ℕ} (ho : o < w.made) : Placed (w.spawnPipe o) := by
  refine h.beside (Same.of_shared rfl rfl) rfl rfl rfl (Nat.le_succ _) ?_ ?_ fun _ _ hold => hold
  · exact fun n task ht => ⟨Nat.lt_succ_of_lt (h.task_lt ht), h.task_bound ht⟩
  · intro n pipe hp
    obtain ⟨rfl, hnew⟩ | ⟨-, hold⟩ := update_some hp
    · obtain rfl := Option.some.inj hnew
      exact ⟨Nat.lt_succ_self _, ho⟩
    · exact ⟨Nat.lt_succ_of_lt (h.pipe_lt hold), h.pipe_bound hold⟩

end Placed

end World

end UwuSsh.Tunnel

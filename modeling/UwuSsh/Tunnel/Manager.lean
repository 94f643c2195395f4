import Mathlib.Data.List.Perm.Basic
import Mathlib.Logic.Function.Basic
import Mathlib.Algebra.Group.Nat.Defs
import UwuSsh.Lib.Run

/-!
The tunnels of an application, and what starts and stops them. Any number of calls may be on their way, and every
tunnel has tasks beside them: the one that listens or watches the connection, and one for each forwarded connection.
A step of a call or a task goes on to its next await. Where a task runs beside it there are more steps than that:
a status is written in one, read in another, and the listener is told in a third.
-/
namespace UwuSsh.Tunnel

inductive TunnelKind
  | localPort | remotePort
  deriving DecidableEq

structure TunnelSpec where
  kind : TunnelKind
  bindAddress : String
  /-- 0 lets the operating system, or the server, pick one. -/
  bindPort : UInt16
  deriving DecidableEq

inductive TunnelError
  | portInUse (address : String) (port : UInt16)
  | bindFailed (address : String) (port : UInt16) (reason : String)
  | forwardRefused (address : String) (port : UInt16)
  | connectionLost
  | protocol (reason : String)
  deriving DecidableEq

inductive TunnelState
  | starting
  | running (boundPort : UInt16)
  | failed (error : TunnelError)
  | stopped
  deriving DecidableEq

structure TunnelStatus where
  id : ℕ
  hostId : ℕ
  session : Option ℕ
  state : TunnelState
  connections : UInt64
  active : UInt64
  deriving DecidableEq

/-- What the tasks of a tunnel share: its status, the flag that stops them, the connection they run on. -/
structure Shared where
  status : TunnelStatus
  stop : Bool
  link : ℕ

/-- An SSH connection, with the tunnel of each port that the server listens on. -/
structure Link where
  closed : Bool
  forwards : UInt32 → Option ℕ

/-- A tunnel of the manager: its shared part, its task, and the forward on the server for a remote one. -/
structure Running where
  shared : ℕ
  task : Option ℕ
  link : Option ℕ
  remote : Option UInt32
  deriving DecidableEq

/-- Telling the listener about a change: the status is read, and then it is told. -/
inductive Report
  | read
  | tell (status : TunnelStatus)
  deriving DecidableEq

structure StartCall where
  id : ℕ
  hostId : ℕ
  session : Option ℕ
  link : ℕ
  spec : TunnelSpec
  deriving DecidableEq

/-- Where a start is, with its tunnel. -/
inductive StartAt
  /-- Awaits the task of the tunnel that failed before. -/
  | waiting (old : Running)
  | making
  /-- Awaits the port, here or on the server. -/
  | asking (shared : ℕ)
  | spawned (shared task : ℕ) (bound : UInt16) (remote : Option UInt32)
  | reporting (shared : ℕ) (report : Report)
  | failed (shared : ℕ) (report : Report)
  deriving DecidableEq

inductive StopAt
  | next
  | waiting (running : Running)
  | reporting (shared : ℕ) (report : Report)
  deriving DecidableEq

inductive TaskAt
  | waiting
  | reporting (report : Report)
  deriving DecidableEq

inductive PipeAt
  | opening
  | opened (report : Report)
  | copying
  | ended (report : Report)
  deriving DecidableEq

/-- A stop that is on its way, with the tunnels that it still has to stop. -/
structure StopCall where
  ids : List ℕ
  place : StopAt
  deriving DecidableEq

/-- The task that listens, or watches the connection of a remote tunnel. -/
structure Task where
  shared : ℕ
  kind : TunnelKind
  place : TaskAt
  deriving DecidableEq

/-- The task of a forwarded connection. -/
structure Pipe where
  shared : ℕ
  place : PipeAt
  deriving DecidableEq

structure World where
  shared : ℕ → Shared
  made : ℕ
  link : ℕ → Link
  tunnels : ℕ → Option Running
  /-- The start that holds the lock of the tunnels. -/
  start : Option (StartCall × StartAt)
  stops : ℕ → Option StopCall
  tasks : ℕ → Option Task
  pipes : ℕ → Option Pipe
  spawned : ℕ
  /-- What the listener was told last, by the tunnel's id. -/
  told : ℕ → Option TunnelStatus

namespace World

def status (w : World) (o : ℕ) : TunnelStatus := (w.shared o).status

def state (w : World) (o : ℕ) : TunnelState := (w.status o).state

def id (w : World) (o : ℕ) : ℕ := (w.status o).id

def starts (w : World) (call : StartCall) (place : StartAt) : World := { w with start := some (call, place) }

def stopBecomes (w : World) (n : ℕ) (stop : Option StopCall) : World :=
  { w with stops := Function.update w.stops n stop }

def taskBecomes (w : World) (n : ℕ) (task : Option Task) : World := { w with tasks := Function.update w.tasks n task }

def pipeBecomes (w : World) (n : ℕ) (pipe : Option Pipe) : World := { w with pipes := Function.update w.pipes n pipe }

def write (w : World) (o : ℕ) (f : TunnelStatus → TunnelStatus) : World :=
  { w with shared := Function.update w.shared o { w.shared o with status := f (w.shared o).status } }

def set (w : World) (o : ℕ) (state : TunnelState) : World := w.write o fun status => { status with state }

def tell (w : World) (status : TunnelStatus) : World :=
  { w with told := Function.update w.told status.id (some status) }

def forward (w : World) (l : ℕ) (port : UInt32) (o : Option ℕ) : World :=
  { w with link := Function.update w.link l { w.link l with forwards := Function.update (w.link l).forwards port o } }

def keep (w : World) (id : ℕ) (running : Option Running) : World :=
  { w with tunnels := Function.update w.tunnels id running }

def raise (w : World) (o : ℕ) : World := { w with shared := Function.update w.shared o { w.shared o with stop := true } }

/-- What `finish` does before it waits: stop every task, take the forward away. -/
def finish (w : World) (running : Running) : World :=
  match running.link, running.remote with
  | some link, some port => (w.raise running.shared).forward link port none
  | _, _ => w.raise running.shared

/-- Whether a task is over. -/
def ended (w : World) (task : Option ℕ) : Bool := (task.bind w.tasks).isNone

end World

/-! ### Starting -/

/-- What a start or a task waits for. -/
inductive Reply
  | ready
  | bound (port : UInt16)
  | inUse
  | bindFailed (reason : String)
  | given (port : UInt32)
  | denied
  | error (reason : String)
  | timeout
  | lost
  | opened

def TunnelState.isUp : TunnelState → Bool
  | .starting => true
  | .running _ => true
  | _ => false

/-- A port as the status has it. -/
def TunnelSpec.shownPort (spec : TunnelSpec) (port : UInt32) : UInt16 :=
  if port.toNat < 2 ^ 16 then port.toUInt16 else spec.bindPort

def StartCall.fresh (call : StartCall) : Shared where
  status :=
    { id := call.id
      hostId := call.hostId
      session := call.session
      state := .starting
      connections := 0
      active := 0 }
  stop := false
  link := call.link

namespace World

variable (w : World) (call : StartCall) (o : ℕ)

/-- A start has the lock: a tunnel that runs is left as it is. -/
def begin : World :=
  match w.tunnels call.id with
  | some running =>
    if (w.state running.shared).isUp then w
    else ((w.keep call.id none).finish running).starts call (.waiting running)
  | none => w.starts call .making

def fails (error : TunnelError) : World := (w.set o (.failed error)).starts call (.failed o .read)

/-- A new tunnel, and the listener is told. -/
def create : World :=
  World.tell { w with shared := Function.update w.shared w.made call.fresh, made := w.made + 1 } call.fresh.status

/-- The port is asked for, here or on the server. A fixed port on the server is registered before. -/
def asks : World :=
  if (w.link call.link).closed then w.fails call o .connectionLost
  else
    match call.spec.kind with
    | .localPort => w.starts call (.asking o)
    | .remotePort =>
      if call.spec.bindPort = 0 then w.starts call (.asking o)
      else if ((w.link call.link).forwards call.spec.bindPort.toUInt32).isSome then
        w.fails call o (.portInUse call.spec.bindAddress call.spec.bindPort)
      else (w.forward call.link call.spec.bindPort.toUInt32 (some o)).starts call (.asking o)

/-- The task is spawned. -/
def spawns (bound : UInt16) (remote : Option UInt32) : World :=
  World.starts { w with
    tasks := Function.update w.tasks w.spawned (some { shared := o, kind := call.spec.kind, place := .waiting })
    spawned := w.spawned + 1 } call (.spawned o w.spawned bound remote)

def askedLocal : Reply → Option World
  | .bound port => some (w.spawns call o port none)
  | .inUse => some (w.fails call o (.portInUse call.spec.bindAddress call.spec.bindPort))
  | .bindFailed reason => some (w.fails call o (.bindFailed call.spec.bindAddress call.spec.bindPort reason))
  | _ => none

/-- The server does not listen: what was registered is taken back. -/
def refused (error : TunnelError) : World :=
  let error := if (w.link call.link).closed then .connectionLost else error
  if call.spec.bindPort = 0 then w.fails call o error
  else (w.forward call.link call.spec.bindPort.toUInt32 none).fails call o error

def askedRemote : Reply → Option World
  | .given port =>
    if call.spec.bindPort = 0 then
      some ((w.forward call.link port (some o)).spawns call o (call.spec.shownPort port) (some port))
    else
      let port := call.spec.bindPort.toUInt32
      some (w.spawns call o (call.spec.shownPort port) (some port))
  | .denied => some (w.refused call o (.forwardRefused call.spec.bindAddress call.spec.bindPort))
  | .timeout => some (w.refused call o (.forwardRefused call.spec.bindAddress call.spec.bindPort))
  | .error reason => some (w.refused call o (.protocol reason))
  | _ => none

def goStart (reply : Reply) : StartAt → Option World
  | .waiting old => if w.ended old.task then some (w.starts call .making) else none
  | .making => some ((w.create call).asks call w.made)
  | .asking o =>
    match call.spec.kind with
    | .localPort => w.askedLocal call o reply
    | .remotePort => w.askedRemote call o reply
  | .spawned o task bound remote =>
    let running : Running := { shared := o, task := some task, link := some call.link, remote }
    some (((w.keep call.id (some running)).set o (.running bound)).starts call (.reporting o .read))
  | .reporting o .read => some (w.starts call (.reporting o (.tell (w.status o))))
  | .reporting _ (.tell status) => some { w.tell status with start := none }
  | .failed o .read => some (w.starts call (.failed o (.tell (w.status o))))
  | .failed o (.tell status) =>
    let running : Running := { shared := o, task := none, link := none, remote := none }
    some { (w.tell status).keep call.id (some running) with start := none }

/-! ### Stopping -/

/-- Stops what is next, once the lock is free. -/
def goStop (n : ℕ) (ids : List ℕ) : StopAt → Option World
  | .next =>
    match ids with
    | [] => some (w.stopBecomes n none)
    | id :: ids =>
      if w.start.isSome then none
      else
        match w.tunnels id with
        | none => some (w.stopBecomes n (some { ids, place := .next }))
        | some running =>
          some (((w.keep id none).finish running).stopBecomes n (some { ids, place := .waiting running }))
  | .waiting running =>
    if w.ended running.task then
      let place := .reporting running.shared .read
      some ((w.set running.shared .stopped).stopBecomes n (some { ids, place }))
    else none
  | .reporting o .read => some (w.stopBecomes n (some { ids, place := .reporting o (.tell (w.status o)) }))
  | .reporting _ (.tell status) => some ((w.tell status).stopBecomes n (some { ids, place := .next }))

end World

/-- Which tunnels are to stop. -/
inductive Which
  | session (session : ℕ)
  | host (host : ℕ)
  | terminals
  | all

def Which.holds (which : Which) (status : TunnelStatus) : Bool :=
  match which with
  | .session number => status.session == some number
  | .host number => status.hostId == number
  | .terminals => status.session.isSome
  | .all => true

namespace World

variable (w : World) (n : ℕ) (o : ℕ)

/-- The ids of the tunnels that are kept and are to stop. -/
def matching (which : Which) : List ℕ :=
  ((List.range w.made).filter fun o =>
    ((w.tunnels (w.id o)).any fun running => running.shared == o) && which.holds (w.status o)).map w.id

/-! ### Tasks -/

/-- Listens, or watches the connection, until the tunnel is stopped or the connection is lost. A stopped tunnel
stays stopped. -/
def goTask (kind : TunnelKind) (reply : Reply) : TaskAt → Option World
  | .waiting =>
    match reply with
    | .lost =>
      if (w.link (w.shared o).link).closed then
        if w.state o = .stopped then some (w.taskBecomes n none)
        else
          let place := .reporting .read
          some ((w.set o (.failed .connectionLost)).taskBecomes n (some { shared := o, kind, place }))
      else none
    | _ => if (w.shared o).stop then some (w.taskBecomes n none) else none
  | .reporting .read =>
    some (w.taskBecomes n (some { shared := o, kind, place := .reporting (.tell (w.status o)) }))
  | .reporting (.tell status) => some ((w.tell status).taskBecomes n none)

/-- Opens a channel, or a connection to the target, and copies until either side ends or the tunnel stops. -/
def goPipe (reply : Reply) : PipeAt → Option World
  | .opening =>
    match reply with
    | .opened =>
      let w := w.write o fun status => { status with connections := status.connections + 1, active := status.active + 1 }
      some (w.pipeBecomes n (some { shared := o, place := .opened .read }))
    | _ => some (w.pipeBecomes n none)
  | .opened .read => some (w.pipeBecomes n (some { shared := o, place := .opened (.tell (w.status o)) }))
  | .opened (.tell status) => some ((w.tell status).pipeBecomes n (some { shared := o, place := .copying }))
  | .copying =>
    let w := w.write o fun status => { status with active := status.active - 1 }
    some (w.pipeBecomes n (some { shared := o, place := .ended .read }))
  | .ended .read => some (w.pipeBecomes n (some { shared := o, place := .ended (.tell (w.status o)) }))
  | .ended (.tell status) => some ((w.tell status).pipeBecomes n none)

/-- Connections that are all open, and no tunnel yet. -/
def new : World where
  shared _ :=
    { status := { id := 0, hostId := 0, session := none, state := .stopped, connections := 0, active := 0 }
      stop := false
      link := 0 }
  made := 0
  link _ := { closed := false, forwards := fun _ => none }
  tunnels _ := none
  start := none
  stops _ := none
  tasks _ := none
  pipes _ := none
  spawned := 0
  told _ := none

def spawnStop (w : World) (ids : List ℕ) : World :=
  { w with stops := Function.update w.stops w.spawned (some { ids, place := .next }), spawned := w.spawned + 1 }

def spawnPipe (w : World) (o : ℕ) : World :=
  { w with
    pipes := Function.update w.pipes w.spawned (some { shared := o, place := .opening })
    spawned := w.spawned + 1 }

end World

inductive Event
  | start (call : StartCall)
  | stop (id : ℕ)
  /-- The tunnels that match are stopped, in any order. -/
  | stopWhere (which : Which) (ids : List ℕ)
  | lose (link : ℕ)
  /-- A task that listens accepts a connection. -/
  | accept (n : ℕ)
  /-- The server forwards a connection to a port. -/
  | forwarded (link : ℕ) (port : UInt32)
  | goStart (reply : Reply)
  | goStop (n : ℕ)
  | goTask (n : ℕ) (reply : Reply)
  | goPipe (n : ℕ) (reply : Reply)

/-- What an event makes of the world, where it can happen. -/
def step (w : World) : Event → Option World
  | .start call => if w.start.isSome then none else some (w.begin call)
  | .stop id => some (w.spawnStop [id])
  | .stopWhere which ids => if w.start.isNone ∧ ids.Perm (w.matching which) then some (w.spawnStop ids) else none
  | .lose l => some { w with link := Function.update w.link l { w.link l with closed := true } }
  | .accept n =>
    match w.tasks n with
    | some { shared := o, kind := .localPort, place := .waiting } => some (w.spawnPipe o)
    | _ => none
  | .forwarded l port =>
    match (w.link l).forwards port with
    | some o => if (w.link l).closed then none else some (w.spawnPipe o)
    | none => none
  | .goStart reply => w.start.bind fun s => w.goStart s.1 reply s.2
  | .goStop n => (w.stops n).bind fun stop => w.goStop n stop.ids stop.place
  | .goTask n reply => (w.tasks n).bind fun task => w.goTask n task.shared task.kind reply task.place
  | .goPipe n reply => (w.pipes n).bind fun pipe => w.goPipe n pipe.shared reply pipe.place

/-- One step by an event that a condition on the world before it lets through. -/
def Step (allowed : World → Event → Prop) (w w' : World) : Prop := ∃ event, allowed w event ∧ step w event = some w'

/-! ### At rest -/

/-- No call is running, and no task has anything to react to. -/
structure World.Quiet (w : World) : Prop where
  start : w.start = none
  stops : ∀ n, w.stops n = none
  tasks : ∀ n task, w.tasks n = some task →
    task.place = .waiting ∧ (w.shared task.shared).stop = false ∧ (w.link (w.shared task.shared).link).closed = false
  pipes : ∀ n pipe, w.pipes n = some pipe →
    (pipe.place = .opening ∨ pipe.place = .copying) ∧ (w.shared pipe.shared).stop = false

/-- The states tell the truth. -/
structure World.Truthful (w : World) : Prop where
  /-- The listener was told last what is kept, and `stopped`, if anything, for what is not. -/
  told_kept : ∀ id running, w.tunnels id = some running → w.told id = some (w.status running.shared)
  told_other : ∀ id, w.tunnels id = none → ∀ status ∈ w.told id, status.state = .stopped
  /-- What is kept as running has an open connection and a task, and its forward if it is remote. -/
  running : ∀ id running port, w.tunnels id = some running → w.state running.shared = .running port →
    ∃ link n kind, running.link = some link ∧ (w.link link).closed = false ∧ running.task = some n ∧
      w.tasks n = some { shared := running.shared, kind, place := .waiting } ∧
      match running.remote with
      | none => kind = .localPort
      | some port => (w.link link).forwards port = some running.shared
  /-- A forward of an open connection is not of a failed or a stopped tunnel. -/
  forwards : ∀ link port o, (w.link link).closed = false → (w.link link).forwards port = some o → (w.state o).isUp = true

end UwuSsh.Tunnel

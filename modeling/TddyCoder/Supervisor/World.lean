/-
  TddyCoder.Supervisor.World — the supervisor beside the kernel, step by step: what happens
  under the slot lock, fork-and-record under the spawn gate, the whole reap under the spawn
  gate, process exits and the expiry of a timer are one step each.

  Whatever is in flight is a `Task`, named by its place in `tasks`; every step of a request after
  its first lock is `Action.proceed`, in any order with everything else. A signal changes nothing
  here: the exit that it brings about may come at any time, or never.
-/

import TddyCoder.Posix.Processes
import TddyCoder.Supervisor.Runtime
import TddyCoder.Supervisor.SessionTable

namespace TddyCoder.Supervisor

open Posix (Processes Process Life)

/-- What a process was forked for; a stranger is no child of the supervisor. -/
inductive Owner
  | service (index : Nat)
  | session
  | stranger
deriving DecidableEq

def Owner.isChild : Owner → Bool
  | .service _ | .session => true
  | .stranger => false

inductive SupervisorError
  | notFound (name : String)
deriving DecidableEq

/-- What goes on when a `start` is over. -/
inductive After
  | declared
  | byName
  | timer
deriving DecidableEq

/-- Where `shutdown` is; it has set its flag. -/
inductive Stage
  | mark (grace : Nat)
  | list (grace : Nat) (pids : List Nat)
  | terminate (grace : Nat) (pids : List Nat)
  | drain (killed : Bool) (deadline : Nat)
  | look (killed : Bool) (deadline : Nat)
  | lookSessions (killed : Bool) (deadline : Nat) (pids : List Nat)
  | sleep (killed : Bool) (deadline due : Nat)
  | survivors
  | survivorSessions (pids : List Nat)
  | kill (pids : List Nat)
  | returned
deriving DecidableEq

inductive Task
  /-- `start`, before it looks at `shutting_down`. -/
  | start (index : Nat) (after : After)
  /-- `start`, waiting for the spawn gate. -/
  | gate (index : Nat) (after : After)
  /-- `start`, its fork refused and the gate let go. -/
  | failed (index : Nat) (after : After)
  | watch (index pid due : Nat)
  | backoff (index due : Nat)
  | answer (index : Nat)
  /-- `stop_by_name`, before its signal, and after it. -/
  | stopping (index : Nat) (pid : Option Nat)
  | stopAnswer (index : Nat)
  | forkSession
  | returned (answer : Option (Except SupervisorError ServiceStatus))

structure Slot where
  name : String
  runtime : ServiceRuntime
  startedAt : Option Nat
deriving DecidableEq

structure World where
  processes : Processes Owner
  slots : List Slot
  sessions : SessionTable
  shutdown : Option Stage
  now : Nat
  tasks : List Task

namespace World

/-- `Supervisor::new`, with `start_declared_services` called. -/
def new (services : List (String × RestartPolicy)) : World where
  processes := .empty
  slots := services.map fun (name, restart) => ⟨name, .new name restart, none⟩
  sessions := .empty
  shutdown := none
  now := 0
  tasks := if services.isEmpty then [] else [.start 0 .declared]

variable (w : World)

def shuttingDown : Bool := w.shutdown.isSome

variable (index : Nat)

def pidOf : Option Nat := (w.slots[index]?).bind (·.runtime.pid)

def spawnTask (task : Task) : World := { w with tasks := w.tasks ++ [task] }

def indexOf (name : String) : Option Nat := w.slots.findIdx? (·.name = name)

def modifyRuntime (f : ServiceRuntime → ServiceRuntime) : World :=
  { w with slots := w.slots.modify index fun slot => { slot with runtime := f slot.runtime } }

/-! ## Exits -/

def scheduleRestart : ExitOutcome → World
  | .restart after => w.spawnTask (.backoff index (w.now + after))
  | .gaveUp | .stoppedOnRequest => w

/-- `record_exit` of the runtime and what follows from it. -/
def recordOutcome (slot : Slot) (uptime : Nat) : World :=
  let exit := slot.runtime.recordExit uptime
  { w with slots := w.slots.set index { slot with runtime := exit.1, startedAt := none } }.scheduleRestart index exit.2

structure ReapedChild where
  pid : Nat
  status : Nat

def exitedChild (processes : Processes Owner) (n : Nat) : Option ReapedChild :=
  match processes.made[n]? with
  | some ⟨pid, _, .exited status⟩ => some ⟨pid, status⟩
  | _ => none

/-- The exit goes to the service that has the pid, or to the sessions. -/
def recordReaped (child : ReapedChild) : World :=
  match w.slots.findIdx? (fun slot => slot.runtime.pid = some child.pid) with
  | some index =>
    match w.slots[index]? with
    | some slot =>
      let uptime := (slot.startedAt.map (w.now - ·)).getD 0
      w.recordOutcome index slot uptime
    | none => w
  | none => { w with sessions := w.sessions.recordExit child.pid (exitCode child.status) }

def reapChild (n : Nat) : World :=
  match exitedChild w.processes n with
  | some child => { w with processes := w.processes.wait n }.recordReaped child
  | none => w

/-- The loop of `reap_exited_children` and the one over what it answers, as one: nothing comes between them under the
    gate. The kernel hands the children over in the order it made them. -/
def reap : World := (w.processes.zombies Owner.isChild).foldl reapChild w

/-! ## Tasks -/

def nextAfter : After → Task
  | .declared => if index + 1 < w.slots.length then .start (index + 1) .declared else .returned none
  | .byName => .answer index
  | .timer => .returned none

/-- The fork broker's answer, recorded before the gate is let go. The kernel gives no pid that is taken. -/
def forkService (after : After) : Option Nat → World × Task
  | some pid =>
    match w.slots[index]?, w.processes.fork pid (.service index) with
    | some slot, some processes =>
      let started := { slot with runtime := slot.runtime.recordStarted pid, startedAt := some w.now }
      let forked := { w with processes, slots := w.slots.set index started }
      (forked.spawnTask (.watch index pid (w.now + startupGracePeriod)), w.nextAfter index after)
    | _, _ => (w, .gate index after)
  | none => (w, .failed index after)

def forkSession : Option Nat → World × Task
  | some pid =>
    match w.processes.fork pid .session with
    | some processes => ({ w with processes, sessions := (w.sessions.recordSpawned pid).1 }, .returned none)
    | none => (w, .forkSession)
  | none => (w, .returned none)

def servicePids : List Nat := w.slots.filterMap (·.runtime.pid)

def reapPollInterval : Nat := 25

def killTimeout : Nat := 2000

def shutdownStep : Stage → World × Stage
  | .mark grace =>
    ({ w with slots := w.slots.map fun slot => { slot with runtime := slot.runtime.recordStopRequested } },
      .list grace w.servicePids)
  | .list grace pids => (w, .terminate grace (pids ++ w.sessions.runningPids))
  | .terminate grace (_ :: pids) => (w, .terminate grace pids)
  | .terminate grace [] => (w, .drain false (w.now + grace))
  | .drain killed deadline => (w.reap, .look killed deadline)
  | .look killed deadline => (w, .lookSessions killed deadline w.servicePids)
  | .lookSessions killed deadline pids =>
    (w, if pids ++ w.sessions.runningPids = [] then .returned
      else if deadline ≤ w.now then if killed then .returned else .survivors
      else .sleep killed deadline (w.now + reapPollInterval))
  | .sleep killed deadline due => (w, if due ≤ w.now then .drain killed deadline else .sleep killed deadline due)
  | .survivors => (w, .survivorSessions w.servicePids)
  | .survivorSessions pids => (w, .kill (pids ++ w.sessions.runningPids))
  | .kill (_ :: pids) => (w, .kill pids)
  | .kill [] => (w, .drain true (w.now + killTimeout))
  | .returned => (w, .returned)

def statusOf : Option (Except SupervisorError ServiceStatus) :=
  (w.slots[index]?).map fun slot => .ok slot.runtime.status

/-- The next step of a task, and what is left of it. -/
def next (answer : Option Nat) : Task → World × Task
  | .start index after => (w, if w.shuttingDown then w.nextAfter index after else .gate index after)
  | .gate index after => w.forkService index after answer
  | .failed index after =>
    match w.slots[index]? with
    | some slot => (w.recordOutcome index slot 0, w.nextAfter index after)
    | none => (w, w.nextAfter index after)
  | .watch index pid due =>
    -- only the start the timer belongs to: a later one has another pid
    if due ≤ w.now then
      (if w.pidOf index = some pid then w.modifyRuntime index .recordSurvivedStartup else w, .returned none)
    else (w, .watch index pid due)
  | .backoff index due => (w, if due ≤ w.now then .start index .timer else .backoff index due)
  | .answer index => (w, .returned (w.statusOf index))
  | .stopping index _ => (w, .stopAnswer index)
  | .stopAnswer index => (w, .returned (w.statusOf index))
  | .forkSession => w.forkSession answer
  | .returned answer => (w, .returned answer)

def proceed (k : Nat) (answer : Option Nat) : World :=
  match w.tasks[k]? with
  | some task =>
    let turn := w.next answer task
    { turn.1 with tasks := turn.1.tasks.set k turn.2 }
  | none => w

/-! ## Requests -/

def startByName (name : String) : World :=
  match w.indexOf name with
  | none => w.spawnTask (.returned (some (.error (.notFound name))))
  | some index =>
    if (w.pidOf index).isSome then w.spawnTask (.returned (w.statusOf index))
    else (w.modifyRuntime index .recordStartRequested).spawnTask (.start index .byName)

def stopByName (name : String) : World :=
  match w.indexOf name with
  | none => w.spawnTask (.returned (some (.error (.notFound name))))
  | some index => (w.modifyRuntime index .recordStopRequested).spawnTask (.stopping index (w.pidOf index))

end World

/-! ## Runs -/

inductive Action
  | startByName (name : String)
  | stopByName (name : String)
  | spawnSession
  /-- `shutdown` is called once, when a signal ends `run`. -/
  | shutdownCalled (grace : Nat)
  | shutdownStep
  /-- The next step of a task; the answer is the fork broker's, where it asks it. -/
  | proceed (task : Nat) (answer : Option Nat)
  | exit (process status : Nat)
  | reap
  /-- A process that is not the supervisor's child gets a pid. -/
  | stranger (pid : Nat)
  /-- A stranger is waited for by its own parent. -/
  | collected (process : Nat)
  | tick (ms : Nat)

def World.isStranger (w : World) (n : Nat) : Bool := (w.processes.made[n]?).map (·.kind) = some .stranger

def step (w : World) : Action → World
  | .startByName name => w.startByName name
  | .stopByName name => w.stopByName name
  | .spawnSession => w.spawnTask .forkSession
  | .shutdownCalled grace =>
    match w.shutdown with
    | none => { w with shutdown := some (.mark grace) }
    | some _ => w
  | .shutdownStep =>
    match w.shutdown with
    | none => w
    | some stage => { (w.shutdownStep stage).1 with shutdown := some (w.shutdownStep stage).2 }
  | .proceed task answer => w.proceed task answer
  | .exit process status => { w with processes := w.processes.exit process status }
  | .reap => w.reap
  | .stranger pid => { w with processes := (w.processes.fork pid .stranger).getD w.processes }
  | .collected process => if w.isStranger process then { w with processes := w.processes.wait process } else w
  | .tick ms => { w with now := w.now + ms }

def run (w : World) (actions : List Action) : World := actions.foldl step w

end TddyCoder.Supervisor

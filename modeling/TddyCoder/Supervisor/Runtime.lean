/-
  TddyCoder.Supervisor.Runtime — one declared service as the supervisor keeps it: its restart
  budget (`BackoffState`) and its lifecycle (`ServiceRuntime`), times in milliseconds.

  The counter and the delays are machine integers in the source: `restarts` stays below
  `max_retries`, a 32-bit number, and the doubling saturates at 64 bits.
-/

import Mathlib.Algebra.Order.Ring.Nat

namespace TddyCoder.Supervisor

/-! ## The restart budget -/

structure RestartPolicy where
  maxRetries : Nat
  initialBackoffMs : Nat
  maxBackoffMs : Nat
  stabilityThresholdMs : Nat
deriving DecidableEq

def RestartPolicy.default : RestartPolicy where
  maxRetries := 5
  initialBackoffMs := 500
  maxBackoffMs := 30000
  stabilityThresholdMs := 10000

inductive RestartDecision
  | restart (after : Nat)
  | giveUp
deriving DecidableEq

structure BackoffState where
  policy : RestartPolicy
  restarts : Nat
deriving DecidableEq

namespace BackoffState

def new (policy : RestartPolicy) : BackoffState := ⟨policy, 0⟩

def restoreBudget (b : BackoffState) : BackoffState := { b with restarts := 0 }

def u64Max : Nat := 2 ^ 64 - 1

/-- `2u64.checked_pow(exponent).unwrap_or(u64::MAX).saturating_mul(initial)` -/
def doubling (exponent initial : Nat) : Nat :=
  min ((if 2 ^ exponent ≤ u64Max then 2 ^ exponent else u64Max) * initial) u64Max

def recordExit (b : BackoffState) (uptime : Nat) : BackoffState × RestartDecision :=
  let b := if b.policy.stabilityThresholdMs ≤ uptime then b.restoreBudget else b
  if b.policy.maxRetries ≤ b.restarts then (b, .giveUp)
  else
    ({ b with restarts := b.restarts + 1 },
      .restart (min (doubling b.restarts b.policy.initialBackoffMs) b.policy.maxBackoffMs))

end BackoffState

/-! ## The lifecycle -/

inductive ServiceState
  | starting
  | running
  | backoff
  | gaveUp
  | stopped
deriving DecidableEq

structure ServiceStatus where
  name : String
  pid : Option Nat
  state : ServiceState
  restarts : Nat
deriving DecidableEq

inductive ExitOutcome
  | restart (after : Nat)
  | gaveUp
  | stoppedOnRequest
deriving DecidableEq

structure ServiceRuntime where
  name : String
  state : ServiceState
  pid : Option Nat
  backoff : BackoffState
  stopRequested : Bool
deriving DecidableEq

def startupGracePeriod : Nat := 500

/-- What the restart policy answers to an exit. -/
def RestartDecision.outcome : RestartDecision → ExitOutcome
  | .restart after => .restart after
  | .giveUp => .gaveUp

def RestartDecision.state : RestartDecision → ServiceState
  | .restart _ => .backoff
  | .giveUp => .gaveUp

namespace ServiceRuntime

def new (name : String) (restart : RestartPolicy) : ServiceRuntime where
  name
  state := .starting
  pid := none
  backoff := .new restart
  stopRequested := false

variable (r : ServiceRuntime)

def status : ServiceStatus := ⟨r.name, r.pid, r.state, r.backoff.restarts⟩

def recordStarted (pid : Nat) : ServiceRuntime := { r with state := .starting, pid := some pid }

def recordSurvivedStartup : ServiceRuntime :=
  if r.state = .starting then { r with state := .running } else r

def recordExit (r : ServiceRuntime) (uptime : Nat) : ServiceRuntime × ExitOutcome :=
  if r.stopRequested then ({ r with pid := none, stopRequested := false, state := .stopped }, .stoppedOnRequest)
  else
    let (backoff, decision) := r.backoff.recordExit uptime
    ({ r with pid := none, backoff, state := decision.state }, decision.outcome)

def recordStopRequested : ServiceRuntime := { r with stopRequested := true }

def recordStartRequested : ServiceRuntime :=
  { r with stopRequested := false, backoff := r.backoff.restoreBudget }

variable (r : ServiceRuntime)

@[simp] theorem recordSurvivedStartup_pid : r.recordSurvivedStartup.pid = r.pid := by
  unfold recordSurvivedStartup
  split <;> rfl

@[simp] theorem recordExit_pid (uptime : Nat) : (r.recordExit uptime).1.pid = none := by
  unfold recordExit
  split <;> rfl

end ServiceRuntime

end TddyCoder.Supervisor

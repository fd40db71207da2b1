/-
  TddyCoder.Supervisor.SessionTable — the sessions the supervisor spawned on a caller's behalf:
  the live ones, and the most recently exited ones with how they exited.

  A record is found by pid and says which incarnation of the pid it is about: a generation is
  taken once a spawn. The cgroup scopes beside the records are not modelled; nothing decided
  here reads them.
-/

import TddyCoder.Table.Assoc

namespace TddyCoder.Supervisor

open Table (Assoc)

inductive SessionOutcome
  | running
  | exited (code : Option Nat)
deriving DecidableEq

structure SessionRecord where
  generation : Nat
  outcome : SessionOutcome
deriving DecidableEq

structure SessionTable where
  records : Assoc Nat SessionRecord
  /-- Exited pids in reap order. -/
  exited : List Nat
  /-- Generations handed out so far. -/
  spawned : Nat

inductive SessionState
  | running
  | exited
deriving DecidableEq

structure SessionStatus where
  pid : Nat
  state : SessionState
  exitCode : Option Nat
deriving DecidableEq

def retainedExitedSessions : Nat := 256

/-- `WIFEXITED` and `WEXITSTATUS` of the raw wait status. -/
def exitCode (status : Nat) : Option Nat := if status % 128 = 0 then some (status / 256 % 256) else none

namespace SessionTable

def empty : SessionTable := ⟨∅, [], 0⟩

variable (t : SessionTable) (pid : Nat)

def recordSpawned : SessionTable × Nat :=
  let generation := t.spawned + 1
  ({ records := t.records.insert pid ⟨generation, .running⟩
     exited := t.exited.filter (· ≠ pid)
     spawned := generation }, generation)

/-- `while exited.len() > RETAINED_EXITED_SESSIONS`: the oldest retained status goes first. -/
def evict (records : Assoc Nat SessionRecord) : List Nat → Assoc Nat SessionRecord × List Nat
  | [] => (records, [])
  | oldest :: exited =>
    if retainedExitedSessions < exited.length + 1 then evict (records.erase oldest) exited
    else (records, oldest :: exited)

def recordExit (code : Option Nat) : SessionTable :=
  match t.records.lookup pid with
  | none => t
  | some record =>
    let (records, exited) := evict (t.records.insert pid { record with outcome := .exited code }) (t.exited ++ [pid])
    { t with records, exited }

def status : Option SessionStatus :=
  (t.records.lookup pid).map fun record =>
    match record.outcome with
    | .running => ⟨pid, .running, none⟩
    | .exited code => ⟨pid, .exited, code⟩

def snapshot : Option (Nat × SessionStatus) := do
  let record ← t.records.lookup pid
  let status ← t.status pid
  return (record.generation, status)

def isRunningGeneration (generation : Nat) : Bool :=
  t.records.lookup pid = some ⟨generation, .running⟩

def runningPids : List Nat :=
  (t.records.entries.filter fun entry => entry.2.outcome = .running).map (·.1)

end SessionTable

end TddyCoder.Supervisor

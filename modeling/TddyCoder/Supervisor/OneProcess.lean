/-
  TddyCoder.Supervisor.OneProcess — at most one process a service, its pid in the slot
  (`packages/tddy-supervisor/src/supervisor.rs`, `supervisor/service_restart.rs`).

  Whether to start is decided before the spawn gate, and `start` forks whatever the slot says by
  the time it has the gate. So the invariant holds along a run exactly as long as each start comes
  to its fork, or to the record of its failure, while the pid in the slot is not a living one's.

  Proved: `one_process_a_service_iff`; two processes after `a_restart_forks_beside_a_start`.
-/

import TddyCoder.Machine.Guarded
import TddyCoder.Supervisor.World

namespace TddyCoder.Supervisor

open Machine Function
open Posix (Processes Process Life)

namespace World

variable (w : World)

def Runs (i n p : Nat) : Prop := w.processes.made[n]? = some ⟨p, .service i, .running⟩

/-- Process `n` is of service `i`, has pid `p` and was not waited for. -/
def In (i n p : Nat) (life : Life) : Prop :=
  w.processes.made[n]? = some ⟨p, .service i, life⟩ ∧ life ≠ .waited

/-- The pid in the slot is not that of a living process. -/
def Vacant (i : Nat) : Prop := ∀ n p, w.Runs i n p → w.pidOf i ≠ some p

/-- The service that the step forks a process for, or records a failed start of. -/
def startOf : Action → Option Nat
  | .proceed k answer =>
    match w.tasks[k]? with
    | some (.gate i _) => if i < w.slots.length ∧ answer.any (w.processes.Free ·) then some i else none
    | some (.failed i _) => if i < w.slots.length then some i else none
    | _ => none
  | _ => none

end World

open World

structure OneProcess (w : World) : Prop where
  single : ∀ i m n p q, w.Runs i m p → w.Runs i n q → m = n
  recorded : ∀ i n p, w.Runs i n p → w.pidOf i = some p

/-- A start that forks, or records its failure, finds the slot vacant. -/
def Alone (w : World) (a : Action) : Prop := ∀ i, w.startOf a = some i → w.Vacant i

/-- The pid in a slot is also that of a process which is the service's. -/
structure Attributed (w : World) : Prop where
  recorded : ∀ i n p, w.Runs i n p → w.pidOf i = some p
  backed : ∀ i p, w.pidOf i = some p → ∃ n life, w.In i n p life

variable {w w' : World} {i n p k : Nat} {task : Task} {a : Action} {slot : Slot}

section

variable (h : Attributed w)
include h

theorem Attributed.oneProcess : OneProcess w where
  single := by
    intro i m n p q hm hn
    have hpid : p = q := Option.some.inj ((h.recorded i m p hm).symm.trans (h.recorded i n q hn))
    exact w.processes.distinct m n _ _ hm hn (by simp [Process.Present]) (by simp [Process.Present]) hpid
  recorded := h.recorded

theorem Attributed.same (hs : w'.pidOf = w.pidOf) (hruns : ∀ i n p, w'.Runs i n p → w.Runs i n p)
    (hin : ∀ i n p life, w.In i n p life → w.pidOf i = some p → ∃ life, w'.In i n p life) : Attributed w' where
  recorded := fun i n p hn => by
    rw [hs]
    exact h.recorded i n p (hruns i n p hn)
  backed := fun i p hi => by
    rw [hs] at hi
    obtain ⟨n, life, hn⟩ := h.backed i p hi
    exact ⟨n, hin i n p life hn hi⟩

theorem Attributed.calm (hp : w'.processes = w.processes) (hs : w'.pidOf = w.pidOf) : Attributed w' :=
  h.same hs (fun i n p hn => by rwa [Runs, hp] at hn) fun i n p life hn _ => ⟨life, by rwa [In, hp]⟩

theorem Attributed.update {pid : Option Nat} (hs : w'.pidOf = update w.pidOf i pid)
    (hruns : ∀ j n p, w'.Runs j n p → w.Runs j n p ∧ j ≠ i ∨ j = i ∧ pid = some p)
    (hin : ∀ j n p life, w.In j n p life → j ≠ i → w'.In j n p life)
    (hnew : ∀ p, pid = some p → ∃ n life, w'.In i n p life) : Attributed w' where
  recorded := fun j n p hn => by
    rw [hs]
    rcases hruns j n p hn with ⟨hold, hne⟩ | ⟨rfl, hpid⟩
    · rw [update_of_ne hne]
      exact h.recorded j n p hold
    · rw [update_self, hpid]
  backed := fun j p hj => by
    rw [hs] at hj
    by_cases he : j = i
    · subst he
      rw [update_self] at hj
      exact hnew p hj
    · rw [update_of_ne he] at hj
      obtain ⟨n, life, hn⟩ := h.backed j p hj
      exact ⟨n, life, hin j n p life hn he⟩

end

/-! ## The pids in the slots -/

theorem pidOf_modify {f : Slot → Slot} (hf : ∀ slot, (f slot).runtime.pid = slot.runtime.pid) :
    { w with slots := w.slots.modify i f }.pidOf = w.pidOf := by
  funext j
  simp only [pidOf, List.getElem?_modify]
  rcases w.slots[j]? with _ | slot
  · rfl
  show (if i = j then f slot else slot).runtime.pid = slot.runtime.pid
  split
  · exact hf slot
  · rfl

theorem pidOf_set {old : Slot} (h : w.slots[i]? = some old) :
    { w with slots := w.slots.set i slot }.pidOf = update w.pidOf i slot.runtime.pid := by
  obtain ⟨hi, -⟩ := List.getElem?_eq_some_iff.mp h
  funext j
  by_cases hj : i = j
  · subst hj
    simp [pidOf, hi]
  · simp [pidOf, hj, update_of_ne (Ne.symm hj)]

theorem scheduleRestart_fields (w : World) (i : Nat) (outcome : ExitOutcome) :
    (w.scheduleRestart i outcome).processes = w.processes ∧ (w.scheduleRestart i outcome).slots = w.slots := by
  cases outcome <;> exact ⟨rfl, rfl⟩

theorem recordOutcome_processes (w : World) (i : Nat) (slot : Slot) (uptime : Nat) :
    (w.recordOutcome i slot uptime).processes = w.processes :=
  (scheduleRestart_fields _ _ _).1

theorem recordOutcome_pidOf (h : w.slots[i]? = some slot) (uptime : Nat) :
    (w.recordOutcome i slot uptime).pidOf = update w.pidOf i none := by
  have hset : { w with slots := w.slots.set i ⟨slot.name, (slot.runtime.recordExit uptime).1, none⟩ }.pidOf = _ :=
    pidOf_set h
  rw [ServiceRuntime.recordExit_pid] at hset
  rw [← hset]
  funext j
  exact congrArg (fun slots : List Slot => (slots[j]?).bind (·.runtime.pid)) (scheduleRestart_fields _ _ _).2

/-! ## Reaping -/

theorem reap_keeps {I : World → Prop} (hchild : ∀ w n, I w → I (w.reapChild n)) (h : I w) : I w.reap :=
  List.foldlRecOn _ _ h fun w hw n _ => hchild w n hw

theorem attributed_reapChild (h : Attributed w) (n : Nat) : Attributed (w.reapChild n) := by
  unfold reapChild
  cases hchild : exitedChild w.processes n with
  | none => exact h
  | some child =>
    obtain ⟨kind, hmade⟩ : ∃ kind, w.processes.made[n]? = some ⟨child.pid, kind, .exited child.status⟩ := by
      unfold exitedChild at hchild
      split at hchild
      · next pid kind status hn =>
        cases hchild
        exact ⟨kind, hn⟩
      · cases hchild
    -- whoever else has not been waited for has another pid
    have hself : ∀ {i m life}, w.In i m child.pid life → n = m := fun hm =>
      w.processes.distinct n _ _ _ hmade hm.1 (by simp [Process.Present]) hm.2 rfl
    have hother : ∀ {i m p life}, w.In i m p life → n ≠ m → (w.processes.wait n).made[m]? = some ⟨p, .service i, life⟩ :=
      fun hm hne => (Processes.wait_other hne).trans hm.1
    dsimp only
    unfold recordReaped
    split
    · next index hfind =>
      obtain ⟨hindex, hpid, -⟩ := List.findIdx?_eq_some_iff_getElem.mp hfind
      have hslot := List.getElem?_eq_getElem hindex
      have hrec : w.pidOf index = some child.pid := by simpa [pidOf, hslot] using hpid
      -- the child is the process in that slot
      obtain ⟨m, life, hm⟩ := h.backed index child.pid hrec
      have hkind : kind = .service index := by
        have hat := hself hm
        rw [← hat, In, hmade] at hm
        cases hm.1
        rfl
      have hne : ∀ {i m p life}, w.In i m p life → i ≠ index → n ≠ m := by
        intro i m p life hm hi hnm
        rw [← hnm, In, hmade, hkind] at hm
        cases hm.1
        exact hi rfl
      simp only [hslot]
      refine h.update (recordOutcome_pidOf hslot _) ?_ ?_ (fun p hp => by cases hp)
      · intro i m p hruns
        rw [Runs, recordOutcome_processes, Processes.wait_running] at hruns
        refine .inl ⟨hruns, fun hi => ?_⟩
        subst hi
        have hpid : child.pid = p := Option.some.inj (hrec.symm.trans (h.recorded i m p hruns))
        have hin : w.In i m child.pid .running := ⟨hpid ▸ hruns, by simp⟩
        rw [← hself hin, hmade] at hruns
        cases hruns
      · intro i m p life hm hi
        refine ⟨?_, hm.2⟩
        rw [recordOutcome_processes]
        exact hother hm (hne hm hi)
    · next hfind =>
      refine h.same rfl (fun i m p hruns => Processes.wait_running.mp hruns) ?_
      intro i m p life hm hi
      refine ⟨life, hother hm fun hnm => ?_, hm.2⟩
      rw [← hnm, In, hmade] at hm
      cases hm.1
      obtain ⟨slot, hslot, hp⟩ := Option.bind_eq_some_iff.mp hi
      have hnone := List.findIdx?_eq_none_iff.mp hfind slot (List.mem_of_getElem? hslot)
      simp [hp] at hnone

theorem attributed_reap (h : Attributed w) : Attributed w.reap := reap_keeps (fun _ n hw => attributed_reapChild hw n) h

/-! ## Steps -/

theorem attributed_forkOther (h : Attributed w) {kind : Owner} (hkind : ∀ i, kind ≠ .service i)
    (hp : w.processes.fork p kind = some w'.processes) (hs : w'.pidOf = w.pidOf) : Attributed w' := by
  refine h.same hs ?_ fun i n q life hn _ => ⟨life, Processes.fork_keeps hp hn.1, hn.2⟩
  intro i n q hn
  rcases Processes.made_fork hp hn with hold | ⟨-, hnew⟩
  · exact hold
  · cases hnew
    exact absurd rfl (hkind i)

theorem attributed_forkService (h : Attributed w) (hvacant : w.Vacant i)
    (hp : w.processes.fork p (.service i) = some w'.processes) (hs : w'.pidOf = update w.pidOf i (some p)) :
    Attributed w' := by
  refine h.update hs ?_ (fun j n q life hn _ => ⟨Processes.fork_keeps hp hn.1, hn.2⟩) ?_
  · intro j n q hn
    rcases Processes.made_fork hp hn with hold | ⟨-, hnew⟩
    · refine .inl ⟨hold, fun he => ?_⟩
      subst he
      exact hvacant n q hold (h.recorded j n q hold)
    · cases hnew
      exact .inr ⟨rfl, rfl⟩
  · intro q hq
    cases hq
    exact ⟨_, .running, Processes.fork_newest hp, by simp⟩

theorem attributed_cleared (h : Attributed w) (hvacant : w.Vacant i) (hp : w'.processes = w.processes)
    (hs : w'.pidOf = update w.pidOf i none) : Attributed w' := by
  refine h.update hs ?_ (fun j n q life hn _ => by rwa [In, hp]) (fun q hq => by cases hq)
  intro j n q hn
  rw [Runs, hp] at hn
  refine .inl ⟨hn, fun he => ?_⟩
  subst he
  exact hvacant n q hn (h.recorded j n q hn)

/-- All that a step of a task can come to, for the processes and the pids in the slots. -/
inductive Turned (w : World) (start : Option Nat) (w' : World) : Prop
  | calm : start = none → w'.processes = w.processes → w'.pidOf = w.pidOf → Turned w start w'
  | session (p : Nat) : start = none → w.processes.fork p .session = some w'.processes → w'.pidOf = w.pidOf →
      Turned w start w'
  | forked (i p : Nat) : start = some i → w.processes.fork p (.service i) = some w'.processes →
      w'.pidOf = update w.pidOf i (some p) → Turned w start w'
  | cleared (i : Nat) : start = some i → w'.processes = w.processes → w'.pidOf = update w.pidOf i none →
      Turned w start w'

theorem turned_next (htask : w.tasks[k]? = some task) (answer : Option Nat) :
    Turned w (w.startOf (.proceed k answer)) (w.next answer task).1 := by
  simp only [startOf, htask]
  cases task with
  | gate i after =>
    rcases answer with _ | p
    · exact .calm (by simp) rfl rfl
    rcases hslot : w.slots[i]? with _ | slot
    · have hlen : ¬ i < w.slots.length := Nat.not_lt.mpr (List.getElem?_eq_none_iff.mp hslot)
      simp only [next, forkService, hslot]
      exact .calm (by simp [hlen]) rfl rfl
    obtain ⟨hlen, -⟩ := List.getElem?_eq_some_iff.mp hslot
    rcases hfork : w.processes.fork p (.service i) with _ | processes
    · have hfree : ¬ w.processes.Free p := fun h => by simp [Processes.fork, h] at hfork
      simp only [next, forkService, hslot, hfork]
      exact .calm (by simp [hfree]) rfl rfl
    · have hfree := (Processes.fork_eq_some.mp hfork).1
      simp only [next, forkService, hslot, hfork]
      exact .forked i p (by simp [hlen, hfree]) hfork (pidOf_set hslot)
  | failed i after =>
    rcases hslot : w.slots[i]? with _ | slot
    · have hlen : ¬ i < w.slots.length := Nat.not_lt.mpr (List.getElem?_eq_none_iff.mp hslot)
      simp only [next, hslot]
      exact .calm (by simp [hlen]) rfl rfl
    · obtain ⟨hlen, -⟩ := List.getElem?_eq_some_iff.mp hslot
      simp only [next, hslot]
      exact .cleared i (by simp [hlen]) (recordOutcome_processes ..) (recordOutcome_pidOf hslot _)
  | watch i pid due =>
    simp only [next]
    split
    · dsimp only
      split
      · exact .calm rfl rfl (pidOf_modify fun _ => ServiceRuntime.recordSurvivedStartup_pid _)
      · exact .calm rfl rfl rfl
    · exact .calm rfl rfl rfl
  | forkSession =>
    rcases answer with _ | p
    · exact .calm rfl rfl rfl
    rcases hfork : w.processes.fork p .session with _ | processes
    · simp only [next, forkSession, hfork]
      exact .calm rfl rfl rfl
    · simp only [next, forkSession, hfork]
      exact .session p rfl hfork rfl
  | _ => exact .calm rfl rfl rfl

theorem attributed_shutdownStep (h : Attributed w) (stage : Stage) : Attributed (w.shutdownStep stage).1 := by
  cases stage with
  | mark grace =>
    refine h.calm rfl ?_
    funext j
    simp only [pidOf, shutdownStep, List.getElem?_map]
    rcases w.slots[j]? with _ | slot <;> rfl
  | drain killed deadline => exact attributed_reap h
  | terminate _ pids | kill pids => cases pids <;> exact h
  | _ => exact h

theorem proceed_eq (htask : w.tasks[k]? = some task) (answer : Option Nat) :
    w.proceed k answer = { (w.next answer task).1 with
      tasks := (w.next answer task).1.tasks.set k (w.next answer task).2 } := by
  simp only [proceed, htask]

theorem attributed_step (h : Attributed w) (hok : Alone w a) : Attributed (step w a) := by
  cases a with
  | startByName name =>
    simp only [step, startByName]
    split
    · exact h.calm rfl rfl
    · split
      · exact h.calm rfl rfl
      · exact h.calm rfl (pidOf_modify fun _ => rfl)
  | stopByName name =>
    simp only [step, stopByName]
    split
    · exact h.calm rfl rfl
    · exact h.calm rfl (pidOf_modify fun _ => rfl)
  | shutdownCalled grace =>
    simp only [step]
    split <;> exact h.calm rfl rfl
  | shutdownStep =>
    simp only [step]
    split
    · exact h
    · next stage _ => exact (attributed_shutdownStep h stage).calm rfl rfl
  | proceed k answer =>
    rcases htask : w.tasks[k]? with _ | task
    · simp only [step, proceed, htask]
      exact h
    rw [step, proceed_eq htask]
    cases turned_next htask answer with
    | calm _ hp hs => exact h.calm hp hs
    | session p _ hp hs => exact attributed_forkOther h (fun i hi => by cases hi) hp hs
    | forked i p hi hp hs => exact attributed_forkService h (hok i hi) hp hs
    | cleared i hi hp hs => exact attributed_cleared h (hok i hi) hp hs
  | exit n status =>
    refine h.same rfl (fun i m p hm => Processes.exit_running hm) ?_
    intro i m p life hm _
    exact Processes.exit_present hm.1 hm.2
  | reap => exact attributed_reap h
  | stranger pid =>
    rcases hfork : w.processes.fork pid .stranger with _ | processes
    · exact h.calm (by simp [step, hfork]) rfl
    · have hp : w.processes.fork pid .stranger = some (step w (.stranger pid)).processes := by simp [step, hfork]
      exact attributed_forkOther h (fun i hi => by cases hi) hp rfl
  | collected n =>
    simp only [step]
    split
    · next hstranger =>
      refine h.same rfl (fun i m p hm => Processes.wait_running.mp hm) ?_
      intro i m p life hm _
      refine ⟨life, (Processes.wait_other fun hnm => ?_).trans hm.1, hm.2⟩
      simp [isStranger, hnm, hm.1] at hstranger
    · exact h
  | _ => exact h.calm rfl rfl

/-- A start that forks over a living process leaves two; one that fails over it takes its pid out of the slot. -/
theorem alone_of_oneProcess (hone : OneProcess (step w a)) : Alone w a := by
  intro i hi n p hruns hpid
  cases a with
  | proceed k answer =>
    rcases htask : w.tasks[k]? with _ | task
    · simp [startOf, htask] at hi
    rw [step, proceed_eq htask] at hone
    cases turned_next htask answer with
    | forked j q hj hp hs =>
      cases hi.symm.trans hj
      have hnew : (w.next answer task).1.Runs i w.processes.made.length q := Processes.fork_newest hp
      have hold : (w.next answer task).1.Runs i n p := Processes.fork_keeps hp hruns
      have hlt : n < w.processes.made.length := (List.getElem?_eq_some_iff.mp hruns).1
      have := hone.single i n w.processes.made.length p q hold hnew
      omega
    | cleared j hj hp hs =>
      cases hi.symm.trans hj
      have hstill : (w.next answer task).1.Runs i n p := by rwa [Runs, hp]
      have hrec : (w.next answer task).1.pidOf i = some p := hone.recorded i n p hstill
      rw [hs, update_self] at hrec
      cases hrec
    | calm hnone _ _ | session _ hnone _ _ => cases hi.symm.trans hnone
  | _ => cases hi

theorem attributed_new (services : List (String × RestartPolicy)) : Attributed (World.new services) where
  recorded := fun i n p h => by cases h
  backed := fun i p h => by
    simp only [pidOf, World.new, List.getElem?_map, Option.bind_map] at h
    obtain ⟨service, -, hnone⟩ := Option.bind_eq_some_iff.mp h
    cases hnone

/-- At every moment of a run each service has at most one living process, and its pid is in the slot, exactly when every
    start of the run comes to its fork, or to the record of its failure, while the pid in the slot is not a living
    process's. -/
theorem one_process_a_service_iff (services : List (String × RestartPolicy)) (actions : List Action) :
    (∀ reached, reached <+: actions → OneProcess (run (World.new services) reached)) ↔
      Guarded step Alone (World.new services) actions := by
  have hkeep : ∀ w a, Attributed w → Alone w a → Attributed (step w a) := fun _ _ h hok => attributed_step h hok
  have hneeded : ∀ w a, Attributed w → OneProcess (step w a) → Alone w a := fun _ _ _ hone => alone_of_oneProcess hone
  exact observed_iff_guarded hkeep (fun _ h => h.oneProcess) hneeded (attributed_new services)

/-- The daemon crashes and is started by name while its restart timer runs; then the timer expires. -/
def startedInBackoff : List Action :=
  [.proceed 0 none, .proceed 0 (some 100), .exit 0 256, .reap, .startByName "daemon", .proceed 3 none, .proceed 3 (some 200),
    .tick 500, .proceed 2 none, .proceed 2 none, .proceed 2 (some 201)]

theorem a_restart_forks_beside_a_start : ¬ OneProcess (run (World.new [("daemon", .default)]) startedInBackoff) := by
  intro h
  have hstarted : (run (World.new [("daemon", .default)]) startedInBackoff).Runs 0 1 200 := by
    unfold Runs
    decide +kernel
  have hrestarted : (run (World.new [("daemon", .default)]) startedInBackoff).Runs 0 2 201 := by
    unfold Runs
    decide +kernel
  exact absurd (h.single 0 1 2 200 201 hstarted hrestarted) (by decide)

end TddyCoder.Supervisor

/-
  TddyCoder.Supervisor.StopSession — whom the signals of `stop_session` reach
  (`packages/tddy-supervisor/src/supervisor/session_table.rs`, `supervisor.rs`, `reaper.rs`).

  A reap holds the spawn gate while it waits for one child after the other, and then while it
  records one exit after the other. `stop_session` does not take the gate: a child may be waited
  for before the table says so, and from then on the kernel may give the pid to anybody.
  `sent` is what has been sent to whom; no step reads it.

  Proved: `signals_reach_their_session_iff`; otherwise `a_stranger_is_terminated`.
-/

import TddyCoder.Machine.Guarded
import TddyCoder.Posix.Processes
import TddyCoder.Supervisor.SessionTable

namespace TddyCoder.Supervisor.StopSession

open Machine
open Posix (Processes Process Life)

inductive Kind
  | session (generation : Nat)
  | service
  | stranger (leads : Bool)
deriving DecidableEq

def Kind.isChild : Kind → Bool
  | .stranger _ => false
  | _ => true

/-- Every child of the supervisor leads a group of its own. -/
def Kind.leads : Kind → Bool
  | .stranger leads => leads
  | _ => true

/-- What a reap is in the middle of; the children as pid and wait status. -/
inductive Reaping
  | waiting (children : List (Nat × Nat))
  | recording (children : List (Nat × Nat))

/-- A call of `stop_session` that found its session running. -/
inductive Stop
  | terminate (pid generation grace : Nat)
  | sleeping (pid generation due : Nat)
  | kill (pid generation : Nat)
  | over

/-- The session a signal is meant for, and the process whose group it reaches. -/
structure Sent where
  generation : Nat
  reached : Nat
deriving DecidableEq

structure State where
  processes : Processes Kind
  /-- The pids in the slots of the services. -/
  slots : List (Option Nat)
  sessions : SessionTable
  /-- The spawn gate is held by a reap. -/
  reaping : Option Reaping
  stops : List Stop
  now : Nat
  sent : List Sent

def State.new (services : Nat) : State :=
  ⟨.empty, List.replicate services none, .empty, none, [], 0, []⟩

inductive Action
  | exit (process status : Nat)
  | reap
  | waitpid (process : Nat)
  /-- No child that has exited is left. -/
  | waited
  | recordExit
  | forkSession (pid : Nat)
  | forkService (index pid : Nat)
  | stranger (pid : Nat) (leads : Bool)
  | collected (process : Nat)
  | stopSession (pid grace : Nat)
  /-- The next step of a call: its signal, or its check once the grace period is over. -/
  | proceed (stop : Nat)
  | tick (ms : Nat)

namespace State

variable (s : State)

/-- `record_exit` of the slots, or that of the sessions. -/
def recordExit (pid status : Nat) : State :=
  match s.slots.findIdx? (· = some pid) with
  | some index => { s with slots := s.slots.set index none }
  | none => { s with sessions := s.sessions.recordExit pid (exitCode status) }

def leader (pid : Nat) : Option Nat :=
  (s.processes.holder pid).filter fun n => (s.processes.made[n]?).any (·.kind.leads)

/-- `signal_process_group` -/
def signalGroup (pid generation : Nat) : State :=
  match s.leader pid with
  | some n => { s with sent := ⟨generation, n⟩ :: s.sent }
  | none => s

def next : Stop → State × Stop
  | .terminate pid generation grace => (s.signalGroup pid generation, .sleeping pid generation (s.now + grace))
  | .sleeping pid generation due =>
    if s.now < due then (s, .sleeping pid generation due)
    else (s, if s.sessions.isRunningGeneration pid generation then .kill pid generation else .over)
  | .kill pid generation => (s.signalGroup pid generation, .over)
  | .over => (s, .over)

def step : Action → State
  | .exit process status => { s with processes := s.processes.exit process status }
  | .reap => if s.reaping.isNone then { s with reaping := some (.waiting []) } else s
  | .waitpid n =>
    match s.reaping, s.processes.made[n]? with
    | some (.waiting children), some ⟨pid, kind, .exited status⟩ =>
      if kind.isChild then
        { s with processes := s.processes.wait n, reaping := some (.waiting (children ++ [(pid, status)])) }
      else s
    | _, _ => s
  | .waited =>
    match s.reaping with
    | some (.waiting children) =>
      if s.processes.zombies Kind.isChild = [] then { s with reaping := some (.recording children) } else s
    | _ => s
  | .recordExit =>
    match s.reaping with
    | some (.recording ((pid, status) :: children)) =>
      { s.recordExit pid status with reaping := some (.recording children) }
    | some (.recording []) => { s with reaping := none }
    | _ => s
  | .forkSession pid =>
    let (sessions, generation) := s.sessions.recordSpawned pid
    match s.reaping, s.processes.fork pid (.session generation) with
    | none, some processes => { s with processes, sessions }
    | _, _ => s
  | .forkService index pid =>
    match s.reaping, s.processes.fork pid .service with
    | none, some processes => { s with processes, slots := s.slots.set index (some pid) }
    | _, _ => s
  | .stranger pid leads => { s with processes := (s.processes.fork pid (.stranger leads)).getD s.processes }
  | .collected n =>
    if (s.processes.made[n]?).any (!·.kind.isChild) then { s with processes := s.processes.wait n } else s
  | .stopSession pid grace =>
    match s.sessions.snapshot pid with
    | some (generation, ⟨_, .running, _⟩) => { s with stops := s.stops ++ [.terminate pid generation grace] }
    | _ => s
  | .proceed k =>
    match s.stops[k]? with
    | some stop => { (s.next stop).1 with stops := s.stops.set k (s.next stop).2 }
    | none => s
  | .tick ms => { s with now := s.now + ms }

def run (actions : List Action) : State := actions.foldl step s

/-! ## Who is reached -/

/-- Every signal reached a process of the session it was sent to. -/
def Meant : Prop := ∀ sent ∈ s.sent, ∃ process, s.processes.made[sent.reached]? = some process ∧
  process.kind = .session sent.generation

/-- The child of the session has not been waited for, or nobody who leads a group has been given its pid. -/
def Ours (pid generation : Nat) : Prop :=
  (∃ (n : Nat) (life : Life), s.processes.made[n]? = some ⟨pid, .session generation, life⟩ ∧ life ≠ .waited) ∨
    ∀ (n : Nat) kind (life : Life), s.processes.made[n]? = some ⟨pid, kind, life⟩ → life ≠ .waited → kind.leads = false

/-- A signal is sent only while the pid is still the session's. -/
def Owned : Action → Prop
  | .proceed k =>
    match s.stops[k]? with
    | some (.terminate pid generation _) | some (.kill pid generation) => s.Ours pid generation
    | _ => True
  | _ => True

variable {s} {s' : State} {pid n : Nat}

theorem leader_eq_some : s.leader pid = some n ↔
    ∃ kind life, s.processes.made[n]? = some ⟨pid, kind, life⟩ ∧ life ≠ .waited ∧ kind.leads = true := by
  rw [leader, Option.filter_eq_some_iff, Processes.holder_eq_some]
  constructor
  · rintro ⟨⟨⟨p, kind, life⟩, hn, hpresent, rfl⟩, hleads⟩
    exact ⟨kind, life, hn, hpresent, by simpa [hn] using hleads⟩
  · rintro ⟨kind, life, hn, hlife, hleads⟩
    exact ⟨⟨_, hn, hlife, rfl⟩, by simpa [hn] using hleads⟩

/-- A group signal reaches the session's own group or nobody exactly while the pid is the session's. -/
theorem reaches_iff_ours {generation : Nat} :
    (∀ n, s.leader pid = some n → ∃ process, s.processes.made[n]? = some process ∧ process.kind = .session generation) ↔
      s.Ours pid generation := by
  constructor
  · intro h
    cases hleader : s.leader pid with
    | none =>
      refine .inr fun n kind life hn hlife => Bool.eq_false_iff.mpr fun hleads => ?_
      rw [leader_eq_some.mpr ⟨kind, life, hn, hlife, hleads⟩] at hleader
      cases hleader
    | some n =>
      obtain ⟨kind, life, hn, hlife, -⟩ := leader_eq_some.mp hleader
      obtain ⟨process, hprocess, hkind⟩ := h n hleader
      cases hn.symm.trans hprocess
      exact .inl ⟨n, life, hkind ▸ hn, hlife⟩
  · intro hours n hleader
    obtain ⟨kind, life, hn, hlife, hleads⟩ := leader_eq_some.mp hleader
    rcases hours with ⟨m, life', hm, hlife'⟩ | hnone
    · have hnm := s.processes.distinct n m _ _ hn hm hlife hlife' rfl
      subst hnm
      exact ⟨_, hm, rfl⟩
    · rw [hnone n kind life hn hlife] at hleads
      cases hleads

/-- Processes only age, and new ones come after them. -/
def Later (t t' : Processes Kind) : Prop :=
  ∀ (n : Nat) (process : Process Kind), t.made[n]? = some process → ∃ now : Process Kind,
    t'.made[n]? = some now ∧ now.kind = process.kind

theorem later_age {t : Processes Kind} {f : Process Kind → Process Kind}
    (hf : ∀ a : Process Kind, a.Aged (f a)) : Later t (t.age n f hf) := by
  intro m process hm
  refine ⟨_, by rw [Processes.made_age, hm]; rfl, ?_⟩
  split
  · exact (hf process).kind
  · rfl

theorem later_fork {t t' : Processes Kind} {kind : Kind} (h : t.fork pid kind = some t') : Later t t' :=
  fun _ process hn => ⟨process, Processes.fork_keeps h hn, rfl⟩

theorem Meant.later (h : s.Meant) (hsent : s'.sent = s.sent) (hlater : Later s.processes s'.processes) : s'.Meant := by
  intro sent hmem
  obtain ⟨process, hprocess, hkind⟩ := h sent (hsent ▸ hmem)
  obtain ⟨now, hnow, hsame⟩ := hlater _ _ hprocess
  exact ⟨now, hnow, hsame.trans hkind⟩

theorem Meant.calm (h : s.Meant) (hsent : s'.sent = s.sent) (hprocesses : s'.processes = s.processes) : s'.Meant :=
  h.later hsent fun _ process hn => ⟨process, hprocesses ▸ hn, rfl⟩

theorem meant_signalGroup (h : s.Meant) (pid generation : Nat) :
    (s.signalGroup pid generation).Meant ↔ s.Ours pid generation := by
  rw [← reaches_iff_ours, signalGroup]
  cases hleader : s.leader pid with
  | none => exact ⟨fun _ n hn => (by cases hn), fun _ => h⟩
  | some n =>
    constructor
    · intro hmeant m hm
      cases hm
      exact hmeant ⟨generation, n⟩ List.mem_cons_self
    · exact fun hreaches => List.forall_mem_cons.mpr ⟨hreaches n rfl, h⟩

theorem meant_step (h : s.Meant) (a : Action) : (s.step a).Meant ↔ s.Owned a := by
  cases a with
  | proceed k =>
    simp only [step, Owned]
    rcases s.stops[k]? with _ | (⟨pid, generation, grace⟩ | ⟨pid, generation, due⟩ | ⟨pid, generation⟩ | _)
    · exact iff_true_intro h
    · exact meant_signalGroup h pid generation
    · refine iff_true_intro (h.calm ?_ ?_) <;> simp only [next] <;> split <;> rfl
    · exact meant_signalGroup h pid generation
    · exact iff_true_intro (h.calm rfl rfl)
  | exit n status => exact iff_true_intro (h.later rfl (later_age (Process.aged_exit status)))
  | waitpid n =>
    refine iff_true_intro ?_
    simp only [step]
    split
    · split
      · exact h.later rfl (later_age Process.aged_wait)
      · exact h
    · exact h
  | recordExit =>
    refine iff_true_intro ?_
    simp only [step, recordExit]
    split
    · split <;> exact h.calm rfl rfl
    · exact h.calm rfl rfl
    · exact h
  | forkSession pid | forkService index pid =>
    refine iff_true_intro ?_
    simp only [step]
    split
    · next hfork => exact h.later rfl (later_fork hfork)
    · exact h
  | stranger pid leads =>
    refine iff_true_intro ?_
    rcases hfork : s.processes.fork pid (.stranger leads) with _ | processes
    · exact h.calm rfl (by simp [step, hfork])
    · exact h.later rfl (by simpa [step, hfork] using later_fork hfork)
  | collected n =>
    refine iff_true_intro ?_
    simp only [step]
    split
    · exact h.later rfl (later_age Process.aged_wait)
    · exact h
  | reap | waited | stopSession pid grace =>
    refine iff_true_intro ?_
    simp only [step]
    repeat' split
    all_goals exact h.calm rfl rfl
  | tick ms => exact iff_true_intro (h.calm rfl rfl)

/-- Along a run every signal of `stop_session` reaches the group of the session it was meant for, or nobody, exactly when
    each is sent while the session's child has not been waited for or nobody who leads a group has its pid. -/
theorem signals_reach_their_session_iff (services : Nat) (actions : List Action) :
    (∀ reached, reached <+: actions → ((State.new services).run reached).Meant) ↔
      Guarded step Owned (State.new services) actions := by
  have hstart : (State.new services).Meant := fun sent hmem => by cases hmem
  have hstep : ∀ (s : State) a, s.Meant → ((s.step a).Meant ↔ s.Owned a) := fun _ a h => meant_step h a
  exact reached_iff_guarded hstep hstart

/-- The session exits and is waited for after the table was read, and a stranger gets the pid before the signal is sent. -/
def reissued : List Action :=
  [.forkSession 4242, .stopSession 4242 5000, .exit 0 0, .reap, .waitpid 0, .stranger 4242 true, .proceed 0]

theorem a_stranger_is_terminated : ¬ ((State.new 0).run reissued).Meant := by
  intro h
  have hsent : (⟨1, 1⟩ : Sent) ∈ ((State.new 0).run reissued).sent := by decide +kernel
  obtain ⟨process, hprocess, hkind⟩ := h _ hsent
  have hstranger : ((State.new 0).run reissued).processes.made[1]? = some ⟨4242, .stranger true, .running⟩ := by
    decide +kernel
  cases hstranger.symm.trans hprocess
  cases hkind

end State

end TddyCoder.Supervisor.StopSession

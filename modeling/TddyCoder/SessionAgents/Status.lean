/-
  TddyCoder.SessionAgents.Status — the badge of a roster agent while its conversations take turns
  (`packages/tddy-session-agents/src/session_agent_status.rs`, `service.rs`,
  `svc_start_hosted_agent_clone.rs`).

  A session has one activity for each of its agents, written for every conversation the agent
  holds: as one is opened or cancelled, as a turn is stamped, calls tools and ends. A turn whose
  conversation was closed reports no end, nor does one that the daemon which runs the loop did
  not take after it was stamped. Summaries and times are left out: the badge does not read them.

  Proved: `a_working_agent_is_shown_at_work_iff`, over every interleaving of an agent's turns.
  `a_working_agent_is_shown_idle` is one in which the badge is wrong.
-/

import TddyCoder.Machine.Guarded

namespace TddyCoder.SessionAgents.Status

open Machine

inductive ManagedAgentState
  | noConversation | «open» | prompting | executingTool | waitingForInput
  deriving DecidableEq

inductive AgentCloneState
  | unspecified | «local» | provisioning | ready | error

inductive SessionAgentStatus
  | unspecified | idle | running | executingTool | waitingForInput | connecting | error
  deriving DecidableEq

variable (cloneState : AgentCloneState)

def agentStatus (activity : Option ManagedAgentState) : SessionAgentStatus :=
  match cloneState with
  | .error => .error
  | .provisioning | .unspecified => .connecting
  | .local | .ready =>
    match activity with
    | none => .unspecified
    | some .noConversation | some .open => .idle
    | some .prompting => .running
    | some .executingTool => .executingTool
    | some .waitingForInput => .waitingForInput

def SessionAgentStatus.working (status : SessionAgentStatus) : Bool :=
  status = .running || status = .executingTool || status = .waitingForInput

structure Turn where
  conversation : String
  cancelled : Bool
  deriving DecidableEq

/-- The activity of one agent, and the turns that are stamped and not over. -/
structure Agent where
  activity : Option ManagedAgentState
  turns : List Turn
  deriving DecidableEq

namespace Agent

variable (a : Agent)

def record (state : ManagedAgentState) : Agent := { a with activity := some state }

def recordTurnEnd : Agent :=
  match a.activity with
  | some .prompting | some .executingTool => a.record .open
  | _ => a

def live : List Turn := a.turns.filter (!·.cancelled)

/-- No other turn is on. -/
def LastOn (turn : Nat) : Prop := ∀ other ∈ a.turns.eraseIdx turn, other.cancelled = true

end Agent

inductive Step
  | opened
  | stamp (conversation : String)
  /-- A turn's loop enters a tool call, or comes back from one. -/
  | tool (returned : Bool)
  /-- A turn answered or failed, or the stream it was relayed by ended, and that is reported. -/
  | ended (turn : Nat)
  /-- A turn is over and nothing is reported. -/
  | silent (turn : Nat)
  | cancel (conversation : String)

variable (a : Agent)

def Agent.step : Step → Agent
  | .opened => a.record .open
  | .stamp conversation => { a.record .prompting with turns := a.turns ++ [⟨conversation, false⟩] }
  | .tool returned => a.record (if returned then .prompting else .executingTool)
  | .ended turn => { a.recordTurnEnd with turns := a.turns.eraseIdx turn }
  | .silent turn => { a with turns := a.turns.eraseIdx turn }
  | .cancel conversation => { a.record .noConversation with
      turns := a.turns.map fun turn => { turn with cancelled := turn.cancelled || turn.conversation = conversation } }

/-- The badge shows an agent at work while one of its turns is on, and an idle one when none is. -/
def Shown : Prop :=
  if a.live = [] then agentStatus cloneState a.activity = .idle else (agentStatus cloneState a.activity).working

/-- A conversation is opened, or a turn's end reported, with no other turn on, all turns on are of the conversation that
    is cancelled, and a turn that is over without a report is not the last one on. -/
def Alone : Step → Prop
  | .opened => a.live = []
  | .stamp _ => True
  | .tool _ => a.live ≠ []
  | .ended turn => a.LastOn turn
  | .silent turn => a.LastOn turn → a.live = []
  | .cancel conversation => ∀ turn ∈ a.live, turn.conversation = conversation

structure Inv : Prop where
  shown : Shown cloneState a
  heard : ∃ state, a.activity = some state ∧ state ≠ .waitingForInput

section serving

variable {cloneState : AgentCloneState} {a : Agent}

theorem live_eq_nil : a.live = [] ↔ ∀ turn ∈ a.turns, turn.cancelled = true := by simp [Agent.live]

theorem live_cancel (conversation : String) :
    (a.step (.cancel conversation)).live = [] ↔ ∀ turn ∈ a.live, turn.conversation = conversation := by
  simp [Agent.live, Agent.step, or_iff_not_imp_left]

theorem shown_idle (h : agentStatus cloneState a.activity = .idle) : Shown cloneState a ↔ a.live = [] := by
  unfold Shown
  rw [h]
  simp [SessionAgentStatus.working]

theorem shown_working (h : (agentStatus cloneState a.activity).working = true) : Shown cloneState a ↔ a.live ≠ [] := by
  unfold Shown
  split
  · next hnone =>
    refine iff_of_false (fun hidle => ?_) (not_not.mpr hnone)
    rw [hidle] at h
    cases h
  · next hsome => exact iff_of_true h hsome

theorem heard_step (h : ∃ state, a.activity = some state ∧ state ≠ .waitingForInput) (s : Step) :
    ∃ state, (a.step s).activity = some state ∧ state ≠ .waitingForInput := by
  cases s with
  | ended turn =>
    simp only [Agent.step, Agent.recordTurnEnd]
    split
    · exact ⟨.open, rfl, nofun⟩
    · exact ⟨.open, rfl, nofun⟩
    · exact h
  | tool returned => cases returned <;> exact ⟨_, rfl, nofun⟩
  | silent turn => exact h
  | opened | stamp | cancel => exact ⟨_, rfl, nofun⟩

variable (hserving : cloneState = .local ∨ cloneState = .ready)

include hserving

theorem recordTurnEnd_idle (h : ∃ state, a.activity = some state ∧ state ≠ .waitingForInput) :
    agentStatus cloneState a.recordTurnEnd.activity = .idle := by
  obtain ⟨state, hstate, hne⟩ := h
  unfold Agent.recordTurnEnd
  rcases hserving with rfl | rfl <;> cases state <;> simp_all [Agent.record, agentStatus]

theorem shown_step (h : Inv cloneState a) (s : Step) : Shown cloneState (a.step s) ↔ Alone a s := by
  cases s with
  | opened => exact shown_idle (by rcases hserving with rfl | rfl <;> rfl)
  | cancel conversation => exact (shown_idle (by rcases hserving with rfl | rfl <;> rfl)).trans (live_cancel conversation)
  | ended turn =>
    exact (shown_idle (a := a.step (.ended turn)) (recordTurnEnd_idle hserving h.heard)).trans live_eq_nil
  | stamp conversation =>
    refine (shown_working (by rcases hserving with rfl | rfl <;> rfl)).trans (iff_of_true ?_ trivial)
    simp [Agent.step, Agent.live]
  | tool returned => exact shown_working (by rcases hserving with rfl | rfl <;> cases returned <;> rfl)
  | silent turn =>
    have hshown := h.shown
    unfold Shown at hshown
    split at hshown
    · next hnone =>
      have hnone' : (a.step (.silent turn)).live = [] :=
        List.sublist_nil.mp (hnone ▸ (List.eraseIdx_sublist a.turns turn).filter _)
      exact (shown_idle (a := a.step (.silent turn)) hshown).trans (iff_of_true hnone' fun _ => hnone)
    · next hsome =>
      refine (shown_working (a := a.step (.silent turn)) hshown).trans ?_
      rw [Ne, live_eq_nil]
      exact ⟨fun hon hnone => absurd hnone hon, fun hok hnone => hsome (hok hnone)⟩

end serving

/-- Where its checkout serves, the badge of an agent is right at every point of an interleaving exactly when each step
    that says the agent is idle leaves no turn of it on, no tool call outlasts the turns, and no last turn ends without
    a report. -/
theorem a_working_agent_is_shown_at_work_iff (cloneState : AgentCloneState)
    (hserving : cloneState = .local ∨ cloneState = .ready) (steps : List Step) :
    (∀ reached, reached <+: steps → Shown cloneState (reached.foldl Agent.step ⟨some .open, []⟩)) ↔
      Guarded Agent.step Alone ⟨some .open, []⟩ steps := by
  have hstart : Inv cloneState ⟨some .open, []⟩ := by
    rcases hserving with rfl | rfl <;> exact ⟨rfl, .open, rfl, nofun⟩
  exact observed_iff_guarded (fun a s h hok => ⟨(shown_step hserving h s).mpr hok, heard_step h.heard s⟩)
    (fun a h => h.shown) (fun a s h hshown => (shown_step hserving h s).mp hshown) hstart

theorem one_conversation_is_shown_at_work :
    Shown .ready ([.stamp "c", .tool false, .tool true, .ended 0, .stamp "c"].foldl Agent.step ⟨some .open, []⟩) := by
  refine (a_working_agent_is_shown_at_work_iff .ready (.inr rfl) _).mpr ?_ _ (List.prefix_refl _)
  simp [Guarded, Alone, Agent.LastOn, Agent.step, Agent.live, Agent.record]

/-- The first of two conversations ends its turn, and the agent is shown idle while it works on the second. -/
theorem a_working_agent_is_shown_idle :
    let a := [.stamp "c1", .stamp "c2", .ended 0].foldl Agent.step ⟨some .open, []⟩
    a.live = [⟨"c2", false⟩] ∧ agentStatus .ready a.activity = .idle ∧ ¬ Shown .ready a := by
  intro a
  have hidle : agentStatus .ready a.activity = .idle := by decide
  exact ⟨by decide, hidle, fun h => absurd ((shown_idle hidle).mp h) (by decide)⟩

end TddyCoder.SessionAgents.Status

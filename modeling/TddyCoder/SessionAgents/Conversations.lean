/-
  TddyCoder.SessionAgents.Conversations — the open conversations of a host and the requests that
  name them (`packages/tddy-session-agents/src/agent_conversations.rs`, `service.rs`).

  The table is host-wide and keyed by an id the caller chooses; a request is authenticated for
  the session it names. An answer to a permission request and a cancel look whose conversation
  it is. A turn does not, nor does an open, which inserts over whatever is open under its id.

  Proved: `conversations_belong_to_their_session_iff`; they do not once
  `a_stranger_prompts_and_replaces`.
-/

import TddyCoder.Machine.Guarded
import TddyCoder.Table.Assoc

namespace TddyCoder.SessionAgents.Conversations

open Machine List
open Table (Assoc)

/-- Where the turn loop runs; here, whether its session parks permission requests and can cancel a turn on its own. -/
inductive Host
  | here (answering cancelling : Bool)
  | away (daemonInstanceId : String)
deriving DecidableEq

structure AgentConversation where
  sessionId : String
  agentId : String
  host : Host
deriving DecidableEq

/-- The permission answer of a resume: whether a turn holds the session, and whether it takes the answer. -/
structure Answer where
  held : Bool
  taken : Bool

inductive Request
  /-- The id is trimmed, and drawn where it is blank; what is built for it, if anything. -/
  | «open» (session conversation drawn agent : String) (built : Option Host)
  /-- Whether the request parses, and whether the daemon that runs the loop is still there. -/
  | prompt (session conversation : String) (parses owned : Bool)
  | resume (session conversation : String) (parses owned : Bool) (answer : Option Answer)
  | answerPermission (session conversation : String) (taken : Bool)
  | cancel (session conversation : String) (keep keptByOwner : Bool)

inductive Deed
  | turn
  | stream
  | answer
  | cancel
  | replace
deriving DecidableEq

structure Touch where
  session : String
  deed : Deed
  conversation : AgentConversation
deriving DecidableEq

structure State where
  table : Assoc String AgentConversation
  touched : List Touch

namespace State

variable (s : State)

/-- `routing_for` -/
def routingFor (id : String) : Option AgentConversation := s.table.lookup id

/-- What `answer_route_for`, `turn_cancel_route` and `remove_on` find. -/
def onSession (session id : String) : Option AgentConversation :=
  (s.table.lookup id).filter (·.sessionId = session)

/-- `take_a_turn`, on the conversation it was routed to. -/
def turnDeeds (parses owned : Bool) (answer : Option Answer) : Host → List Deed
  | .here answering _ =>
    if !parses then []
    else match answering, answer with
      -- a turn holds the session: the answer is delivered to it and no turn is taken
      | true, some ⟨true, taken⟩ => if taken then [.answer] else []
      | _, some _ => [.answer, .turn, .stream]
      | _, none => [.turn, .stream]
  | .away _ => if parses && owned then [.turn, .stream] ++ (answer.map fun _ => Deed.answer).toList else []

def deeds : Request → List Deed
  | .open _ conversation drawn _ built =>
    match s.table.lookup (if conversation.isEmpty then drawn else conversation), built with
    | some _, some _ => [.replace]
    | _, _ => []
  | .prompt _ conversation parses owned =>
    match s.routingFor conversation with
    | some c => turnDeeds parses owned none c.host
    | none => []
  | .resume _ conversation parses owned answer =>
    match s.routingFor conversation with
    | some c => turnDeeds parses owned answer c.host
    | none => []
  | .answerPermission session conversation taken =>
    match s.onSession session conversation with
    | some ⟨_, _, .here answering _⟩ => if answering && taken then [.answer] else []
    | some ⟨_, _, .away _⟩ => [.answer]
    | none => []
  | .cancel session conversation _ _ => if (s.onSession session conversation).isSome then [.cancel] else []

end State

namespace Request

def session : Request → String
  | .open session .. | .prompt session .. | .resume session .. | .answerPermission session ..
  | .cancel session .. => session

def conversation : Request → String
  | .open _ conversation drawn .. => if conversation.isEmpty then drawn else conversation
  | .prompt _ conversation .. | .resume _ conversation .. | .answerPermission _ conversation ..
  | .cancel _ conversation .. => conversation

def table (r : Request) (s : State) : Assoc String AgentConversation :=
  match r with
  | .open session _ _ agent (some host) => s.table.insert r.conversation ⟨session, agent, host⟩
  | .cancel session conversation keep keptByOwner =>
    match s.onSession session conversation with
    | none => s.table
    -- only the turn is cancelled, where that can be done on its own
    | some ⟨_, _, .here _ true⟩ => if keep then s.table else s.table.erase conversation
    | some ⟨_, _, .here _ false⟩ => s.table.erase conversation
    | some ⟨_, _, .away _⟩ => if keep && keptByOwner then s.table else s.table.erase conversation
  | _ => s.table

end Request

variable (s : State) (r : Request)

def State.handle : State where
  table := r.table s
  touched := match s.table.lookup r.conversation with
    | some c => s.touched ++ (s.deeds r).map fun deed => ⟨r.session, deed, c⟩
    | none => s.touched

def State.run (requests : List Request) : State := requests.foldl State.handle ⟨∅, []⟩

/-- Whatever was done to a conversation was done for the session it is open on. -/
def Isolated : Prop := ∀ touch ∈ s.touched, touch.conversation.sessionId = touch.session

/-- The request ends before it does anything to the conversation it names: nothing is built, it does not parse, the
    daemon that runs the loop is gone, or the turn that holds the session does not take the answer. -/
def Fruitless : Request → Prop
  | .open _ _ _ _ built => built = none
  | .prompt _ id parses owned =>
    parses = false ∨ owned = false ∧ ∃ c daemon, s.table.lookup id = some c ∧ c.host = .away daemon
  | .resume _ id parses owned answer =>
    parses = false ∨ (owned = false ∧ ∃ c daemon, s.table.lookup id = some c ∧ c.host = .away daemon) ∨
      answer = some ⟨true, false⟩ ∧ ∃ c cancelling, s.table.lookup id = some c ∧ c.host = .here true cancelling
  | .answerPermission .. | .cancel .. => False

/-- An open, a prompt or a resume names an id that is free or open on the session it names, or is fruitless. -/
def Own : Prop :=
  match r with
  | .open .. | .prompt .. | .resume .. =>
    (∀ c, s.table.lookup r.conversation = some c → c.sessionId = r.session) ∨ Fruitless s r
  | .answerPermission .. | .cancel .. => True

section

variable {s : State} {r : Request} {c : AgentConversation}

theorem turnDeeds_eq_nil {parses owned : Bool} {answer : Option Answer} {host : Host} :
    State.turnDeeds parses owned answer host = [] ↔ parses = false ∨ (owned = false ∧ ∃ daemon, host = .away daemon) ∨
      answer = some ⟨true, false⟩ ∧ ∃ cancelling, host = .here true cancelling := by
  cases host with
  | away daemon => cases parses <;> cases owned <;> simp [State.turnDeeds]
  | here answering cancelling =>
    cases parses <;> cases answering <;> rcases answer with _ | ⟨_ | _, _ | _⟩ <;> simp [State.turnDeeds]

/-- Where the session is not looked at, the request does something unless it is fruitless. -/
theorem own_iff (hc : s.table.lookup r.conversation = some c) :
    Own s r ↔ (s.deeds r ≠ [] → c.sessionId = r.session) := by
  have hown {P : Prop} (hdeeds : s.deeds r = [] ↔ P) :
      ((∀ c, s.table.lookup r.conversation = some c → c.sessionId = r.session) ∨ P) ↔
        (s.deeds r ≠ [] → c.sessionId = r.session) := by
    simp only [hc, Option.some.injEq, forall_eq', ← hdeeds]
    tauto
  have hchecked {id : String} (hid : s.table.lookup id = some c) (hfound : s.onSession r.session id ≠ none) :
      c.sessionId = r.session := by
    by_contra hne
    exact hfound (by simp [State.onSession, hid, hne])
  cases r with
  | «open» session conversation drawn agent built =>
    refine hown ?_
    change s.table.lookup (if conversation.isEmpty then drawn else conversation) = some c at hc
    cases built <;> simp [State.deeds, Fruitless, hc]
  | prompt session conversation parses owned =>
    refine hown ?_
    change s.table.lookup conversation = some c at hc
    simp [State.deeds, State.routingFor, hc, turnDeeds_eq_nil, Fruitless]
  | resume session conversation parses owned answer =>
    refine hown ?_
    change s.table.lookup conversation = some c at hc
    simp [State.deeds, State.routingFor, hc, turnDeeds_eq_nil, Fruitless]
  | answerPermission session conversation taken =>
    refine iff_of_true trivial fun hdeeds => hchecked hc fun hnone => hdeeds ?_
    change s.onSession session conversation = none at hnone
    simp only [State.deeds, hnone]
  | cancel session conversation keep keptByOwner =>
    refine iff_of_true trivial fun hdeeds => hchecked hc fun hnone => hdeeds ?_
    change s.onSession session conversation = none at hnone
    simp [State.deeds, hnone]

theorem isolated_handle (h : Isolated s) (r : Request) : Isolated (s.handle r) ↔ Own s r := by
  cases hc : s.table.lookup r.conversation with
  | none =>
    have hsame : (s.handle r).touched = s.touched := by simp only [State.handle, hc]
    refine iff_of_true (fun touch htouch => h touch (hsame ▸ htouch)) ?_
    unfold Own
    split <;> first | trivial | exact .inl fun c hsome => by rw [hc] at hsome; cases hsome
  | some c =>
    have htouched : (s.handle r).touched = s.touched ++ (s.deeds r).map fun deed => ⟨r.session, deed, c⟩ := by
      simp only [State.handle, hc]
    rw [own_iff hc]
    constructor
    · intro hisolated hdeeds
      obtain ⟨deed, hdeed⟩ := exists_mem_of_ne_nil _ hdeeds
      refine hisolated ⟨r.session, deed, c⟩ ?_
      rw [htouched]
      exact mem_append_right _ (mem_map_of_mem hdeed)
    intro hown touch htouch
    rw [htouched] at htouch
    rcases mem_append.mp htouch with hold | hnew
    · exact h touch hold
    · obtain ⟨deed, hdeed, rfl⟩ := mem_map.mp hnew
      exact hown (ne_nil_of_mem hdeed)

end

/-- Along a sequence of requests nothing is done to a conversation for another session than its own exactly when each
    open, prompt and resume that is not fruitless names an id that is not open on another session. -/
theorem conversations_belong_to_their_session_iff (requests : List Request) :
    (∀ reached, reached <+: requests → Isolated (State.run reached)) ↔ Guarded State.handle Own ⟨∅, []⟩ requests := by
  have hstep : ∀ s r, Isolated s → (Isolated (s.handle r) ↔ Own s r) := fun _ r h => isolated_handle h r
  exact reached_iff_guarded hstep fun touch htouch => by cases htouch

/-- The conversation of the first session is prompted from the second, and then replaced by it. -/
theorem a_stranger_prompts_and_replaces :
    let s := State.run [.open "s1" "c" "" "reviewer" (some (.here true true)), .prompt "s2" "c" true true,
      .open "s2" "c" "" "writer" (some (.here true true))]
    s.touched.map (fun touch => (touch.session, touch.deed, touch.conversation.sessionId)) =
      [("s2", .turn, "s1"), ("s2", .stream, "s1"), ("s2", .replace, "s1")] ∧ ¬ Isolated s := by
  refine ⟨by decide +kernel, fun h => ?_⟩
  have hturn : (⟨"s2", .turn, ⟨"s1", "reviewer", .here true true⟩⟩ : Touch) ∈ (State.run
      [.open "s1" "c" "" "reviewer" (some (.here true true)), .prompt "s2" "c" true true,
        .open "s2" "c" "" "writer" (some (.here true true))]).touched := by decide +kernel
  exact absurd (h _ hturn) (by decide)

end TddyCoder.SessionAgents.Conversations

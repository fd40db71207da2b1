/-
  TddyCoder.Rpc.Clients — the two clients' rules for which response answers which call:
  `ClientEngine` (`packages/tddy-rpc/src/client_engine.rs`) and `PendingCalls`
  (`packages/tddy-rpc-web/src/pending-calls.ts`, with the closing of a pipe from
  `envelope-transport.ts`), over the registry of `Rpc.Correlation`.

  A response is a value a peer chose. The Rust client's ids come from a counter that wraps, so a
  registration there takes any id, one still pending included. The web client counts its own from
  1; its calls can be cancelled, fail at a deadline or end with the pipe.

  Proved: `clients_attributed`, of both.
-/

import TddyCoder.Rpc.Correlation

namespace TddyCoder.Rpc

open Machine

structure ClientEngine where
  clientEpoch : Nat
  registry : Registry

namespace ClientEngine

def withClientEpoch (clientEpoch : Nat) : ClientEngine := ⟨clientEpoch, .empty⟩

/-- Whether `call` names the call registered under the id; a response to nobody is let through here. -/
def answersThePendingCall (s : ClientEngine) (requestId : Int) (call : Option CallMetadata) : Bool :=
  match call with
  | none => true
  | some call =>
    match s.registry.pending.lookup (.stream, requestId) <|> s.registry.pending.lookup (.unary, requestId) with
    | some pending => pending.call = call
    | none => true

def onResponse (s : ClientEngine) (response : RpcResponse) : ClientEngine :=
  if response.clientEpoch ≠ s.clientEpoch then s
  else if !s.answersThePendingCall response.requestId response.callMetadata then s
  else if (s.registry.pending.lookup (.stream, response.requestId)).isSome then
    { s with registry := s.registry.answer (.stream, response.requestId) response.terminal (.response response) }
  else { s with registry := s.registry.answer (.unary, response.requestId) true (.response response) }

end ClientEngine

inductive ClientEvent
  | register (shape : Shape) (requestId : Int) (call : CallMetadata)
  | response (response : RpcResponse)

variable {r : RpcResponse} {shape : Shape} {p : Pending}

namespace ClientEngine

def step (s : ClientEngine) : ClientEvent → ClientEngine
  | .register shape requestId call => { s with registry := s.registry.register shape requestId call }
  | .response response => s.onResponse response

def run (clientEpoch : Nat) (events : List ClientEvent) : ClientEngine := events.foldl step (withClientEpoch clientEpoch)

variable {s : ClientEngine}

theorem answers_of_pending (hepoch : r.clientEpoch = s.clientEpoch)
    (hcall : s.answersThePendingCall r.requestId r.callMetadata = true)
    (hp : (s.registry.pending.lookup (.stream, r.requestId) <|> s.registry.pending.lookup (.unary, r.requestId)) = some p) :
    AnswersCall s.clientEpoch ⟨r.requestId, p.call, shape⟩ r := by
  refine ⟨rfl, hepoch, ?_⟩
  unfold answersThePendingCall at hcall
  rcases hmeta : r.callMetadata with _ | call
  · exact .inl rfl
  · rw [hmeta] at hcall
    simp only [hp, decide_eq_true_eq] at hcall
    exact .inr (by rw [hcall])

theorem onResponse_refines (hs : s.registry.Consistent) (r : RpcResponse) :
    (s.onResponse r).registry.Consistent ∧ (s.onResponse r).clientEpoch = s.clientEpoch ∧
      Relation.ReflTransGen (Ledger.Step (Fits s.clientEpoch) final) s.registry.ledger (s.onResponse r).registry.ledger := by
  unfold onResponse
  split_ifs with hepoch hcall hstream
  · exact ⟨hs, rfl, .refl⟩
  · exact ⟨hs, rfl, .refl⟩
  · refine ⟨hs.answer _ _ _, rfl, .single (Registry.answer_refines hs (fun p hp => ?_) fun p _ hfinal => ?_)⟩
    · exact answers_of_pending (not_not.mp hepoch) (by simpa using hcall) (by rw [hp]; rfl)
    · simpa [final] using hfinal
  · -- no stream holds the id: its answer is the only one
    refine ⟨hs.answer _ _ _, rfl, .single (Registry.answer_refines hs (fun p hp => ?_) fun _ _ _ => rfl)⟩
    exact answers_of_pending (not_not.mp hepoch) (by simpa using hcall) (by simp_all)

end ClientEngine

/-! ## The web client -/

structure PendingCalls where
  clientEpoch : Nat
  nextId : Int
  registry : Registry

namespace PendingCalls

def new (clientEpoch : Nat) : PendingCalls := ⟨clientEpoch, 1, .empty⟩

variable (s : PendingCalls)

def allocateRequestId : Int × PendingCalls := (s.nextId, { s with nextId := s.nextId + 1 })

def openCall (shape : Shape) (call : CallMetadata) : PendingCalls :=
  let (requestId, s) := s.allocateRequestId
  { s with registry := s.registry.register shape requestId call }

variable (requestId : Int)

def settle (a : Answer) : PendingCalls :=
  if (s.registry.pending.lookup (.stream, requestId)).isSome then
    { s with registry := s.registry.answer (.stream, requestId) true a }
  else { s with registry := s.registry.answer (.unary, requestId) true a }

def failCall (error : ConnectError) : PendingCalls :=
  s.settle requestId (.failed error)

def cancelCall : PendingCalls := s.settle requestId .cancelled

def requestIdsInFlight : List Int :=
  (s.registry.pending.keys.filter (·.1 = .stream)).map (·.2) ++ (s.registry.pending.keys.filter (·.1 = .unary)).map (·.2)

def onClose (reason : String) : PendingCalls :=
  s.requestIdsInFlight.foldl (fun s requestId => s.failCall requestId ⟨reason, .unavailable⟩) s

def answersItsCall (response : RpcResponse) : Bool :=
  if response.clientEpoch ≠ s.clientEpoch then false
  else
    match s.registry.pending.lookup (.stream, response.requestId) <|>
        s.registry.pending.lookup (.unary, response.requestId), response.callMetadata with
    | some pending, some answered =>
      pending.call.service = answered.service && pending.call.method = answered.method
    | _, _ => true

def deliver (response : RpcResponse) : PendingCalls :=
  if !s.answersItsCall response then s
  else if (s.registry.pending.lookup (.stream, response.requestId)).isSome then
    { s with
      registry := s.registry.answer (.stream, response.requestId) (response.error.isSome || response.endOfStream)
        (.response response) }
  else { s with registry := s.registry.answer (.unary, response.requestId) true (.response response) }

end PendingCalls

inductive WebEvent
  | openCall (shape : Shape) (call : CallMetadata)
  | response (response : RpcResponse)
  | fail (requestId : Int) (error : ConnectError)
  | cancel (requestId : Int)
  | close (reason : String)

namespace PendingCalls

def step (s : PendingCalls) : WebEvent → PendingCalls
  | .openCall shape call => s.openCall shape call
  | .response response => s.deliver response
  | .fail requestId error => s.failCall requestId error
  | .cancel requestId => s.cancelCall requestId
  | .close reason => s.onClose reason

def run (clientEpoch : Nat) (events : List WebEvent) : PendingCalls := events.foldl step (new clientEpoch)

structure Reaches (s s' : PendingCalls) : Prop where
  consistent : s'.registry.Consistent
  clientEpoch : s'.clientEpoch = s.clientEpoch
  steps : Relation.ReflTransGen (Ledger.Step (Fits s.clientEpoch) final) s.registry.ledger s'.registry.ledger

variable {s : PendingCalls}

theorem Reaches.trans {s' s'' : PendingCalls} (h : Reaches s s') (h' : Reaches s' s'') : Reaches s s'' where
  consistent := h'.consistent
  clientEpoch := h'.clientEpoch.trans h.clientEpoch
  steps := h.steps.trans (h.clientEpoch ▸ h'.steps)

theorem answers_of_pending (h : s.answersItsCall r = true)
    (hp : (s.registry.pending.lookup (.stream, r.requestId) <|> s.registry.pending.lookup (.unary, r.requestId)) = some p) :
    AnswersCall s.clientEpoch ⟨r.requestId, p.call, shape⟩ r := by
  unfold answersItsCall at h
  split at h
  · cases h
  rename_i hepoch
  refine ⟨rfl, by simpa using hepoch, ?_⟩
  rw [hp] at h
  rcases hmeta : r.callMetadata with _ | answered
  · exact .inl rfl
  · simp only [hmeta, Bool.and_eq_true, decide_eq_true_eq] at h
    exact .inr (congrArg some (by cases answered; cases hc : p.call; simp_all))

section

variable (hs : s.registry.Consistent)
include hs

theorem deliver_reaches (r : RpcResponse) : Reaches s (s.deliver r) := by
  unfold deliver
  split_ifs with h hstream
  · exact ⟨hs, rfl, .refl⟩
  · refine ⟨hs.answer _ _ _, rfl, .single (Registry.answer_refines hs (fun p hp => ?_) fun p _ hfinal => ?_)⟩
    · exact answers_of_pending (by simpa using h) (by rw [hp]; rfl)
    · simpa [final, RpcResponse.terminal, Bool.or_comm] using hfinal
  · refine ⟨hs.answer _ _ _, rfl, .single (Registry.answer_refines hs (fun p hp => ?_) fun _ _ _ => rfl)⟩
    exact answers_of_pending (by simpa using h) (by simp_all)

theorem settle_reaches (requestId : Int) {a : Answer}
    (ha : ∀ k, Fits s.clientEpoch k a) : Reaches s (s.settle requestId a) := by
  unfold settle
  split <;>
    exact ⟨hs.answer _ _ _, rfl, .single (Registry.answer_refines hs (fun _ _ => ha _) fun _ _ _ => rfl)⟩

theorem onClose_reaches (reason : String) : Reaches s (s.onClose reason) := by
  unfold onClose
  generalize s.requestIdsInFlight = requestIds
  induction requestIds generalizing s with
  | nil => exact ⟨hs, rfl, .refl⟩
  | cons requestId requestIds ih =>
    have hfirst : Reaches s (s.failCall requestId ⟨reason, .unavailable⟩) :=
      settle_reaches hs requestId fun _ => trivial
    exact hfirst.trans (ih hfirst.consistent)

theorem step_reaches (event : WebEvent) : Reaches s (s.step event) := by
  cases event with
  | openCall shape call =>
    exact ⟨hs.register shape s.nextId call, rfl, .single (Registry.register_refines _ shape s.nextId call)⟩
  | response r => exact deliver_reaches hs r
  | fail requestId error | cancel requestId => exact settle_reaches hs requestId fun _ => trivial
  | close reason => exact onClose_reaches hs reason

end

end PendingCalls

/-- In both clients, after any registrations, responses and settlements: responses advance only calls they answer, a call
    with a single answer gets at most one, and nothing reaches a stream after its last response. -/
theorem clients_attributed (clientEpoch : Nat) (events : List ClientEvent) (webEvents : List WebEvent) :
    Attributed clientEpoch (ClientEngine.run clientEpoch events).registry ∧
      Attributed clientEpoch (PendingCalls.run clientEpoch webEvents).registry := by
  constructor
  · refine Registry.attributed_of_sound (Ledger.sound_of_refines
      (fun s : ClientEngine => s.registry.ledger) (fun s event (hs : s.registry.Consistent ∧ s.clientEpoch = clientEpoch) => ?_)
      ⟨Registry.empty_consistent, rfl⟩ Registry.empty_sound events).2
    obtain ⟨hconsistent, rfl⟩ := hs
    cases event with
    | register shape requestId call =>
      exact ⟨⟨hconsistent.register shape requestId call, rfl⟩,
        .single (Registry.register_refines _ shape requestId call)⟩
    | response r =>
      obtain ⟨h, hepoch, hsteps⟩ := ClientEngine.onResponse_refines hconsistent r
      exact ⟨⟨h, hepoch⟩, hsteps⟩
  · refine Registry.attributed_of_sound (Ledger.sound_of_refines
      (fun s : PendingCalls => s.registry.ledger) (fun s event (hs : s.registry.Consistent ∧ s.clientEpoch = clientEpoch) => ?_)
      ⟨Registry.empty_consistent, rfl⟩ Registry.empty_sound webEvents).2
    obtain ⟨hconsistent, rfl⟩ := hs
    have h := PendingCalls.step_reaches hconsistent event
    exact ⟨⟨h.consistent, h.clientEpoch⟩, h.steps⟩

end TddyCoder.Rpc

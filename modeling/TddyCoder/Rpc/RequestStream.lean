/-
  TddyCoder.Rpc.RequestStream — a stream of request messages on its way from a web page to a
  handler: the frames of the envelope transport (`handleClientStreaming` and
  `handleBidiStreaming` of `packages/tddy-rpc-web/src/envelope-transport.ts`), their routing
  (`Rpc.ServerEngine`), and the generated server that decodes them for its handler
  (`generate_rpc_service_impl`, `generate_start_bidi_stream` of
  `packages/tddy-codegen/src/generator.rs`, under `RpcBridge` and `MultiRpcService` of
  `packages/tddy-rpc/src/bridge.rs`).

  The encodings are parameters; what is assumed of them is that a message decodes to itself.

  Proved: `request_stream_iff`; a stream that does not arrive: `an_empty_message_is_lost`.
-/

import TddyCoder.Rpc.ServerEngine

namespace TddyCoder.Rpc

open List


/-! ## The page's frames -/

/-- A page's connection to a peer, and the call it makes. -/
structure Caller where
  peer : String
  requestId : Int
  clientEpoch : Nat
  senderIdentity : Option String
  call : CallMetadata

variable (c : Caller)

def Caller.requestFrame (call : Option CallMetadata) (message : List UInt8) (endOfStream : Bool) :
    RpcRequest := ⟨c.requestId, message, call, endOfStream, c.senderIdentity, c.clientEpoch⟩

/-- The messages after the first, and the empty frame that ends them. -/
def Caller.continuations (messages : List (List UInt8)) : List RpcRequest :=
  messages.map (fun message => c.requestFrame none message false) ++ [c.requestFrame none [] true]

/-- The call is named on its first frame, which is the closing one where there is no message. -/
def Caller.clientStreaming : List (List UInt8) → List RpcRequest
  | [] => [c.requestFrame (some c.call) [] true]
  | first :: rest => c.requestFrame (some c.call) first false :: c.continuations rest

/-- Here the closing frame never names the call. -/
def Caller.bidiStreaming : List (List UInt8) → List RpcRequest
  | [] => [c.requestFrame none [] true]
  | first :: rest => c.requestFrame (some c.call) first false :: c.continuations rest

/-! ## The generated server -/

open Caller

structure Method (M : Type) where
  protoName : String
  clientStreaming : Bool
  serverStreaming : Bool
  decode : List UInt8 → Except String M

/-- A service of a proto file: its methods have names, each its own. -/
structure Service (M : Type) where
  name : String
  methods : List (Method M)
  distinct : (methods.map (·.protoName)).Nodup
  named : ∀ m ∈ methods, m.protoName ≠ ""

inductive Dispatched (M : Type)
  | called (method : String) (input : List (Except Status M))
  | refused (status : Status)
  deriving DecidableEq

namespace Service

variable {M : Type} (s : Service M) (method : String)

def isBidiStream : Bool :=
  s.methods.any fun m => m.clientStreaming && m.serverStreaming && m.protoName = method

def decodeAll (m : Method M) : List (List UInt8) → Except Status (List M)
  | [] => .ok []
  | payload :: payloads =>
    if payload.isEmpty then decodeAll m payloads
    else match m.decode payload with
      | .error e => .error ⟨.invalidArgument, e⟩
      | .ok message => (decodeAll m payloads).map (message :: ·)

def unknownMethod : Dispatched M := .refused ⟨.notFound, "Unknown method: " ++ method⟩

def handleRpc (payload : List UInt8) : Dispatched M :=
  match s.methods.find? fun m => !m.clientStreaming && m.protoName = method with
  | none => unknownMethod method
  | some m =>
    match m.decode payload with
    | .error e => .refused ⟨.invalidArgument, e⟩
    | .ok message => .called method [.ok message]

def handleRpcStream (payloads : List (List UInt8)) : Dispatched M :=
  match s.methods.find? fun m => m.clientStreaming && m.protoName = method with
  | some m =>
    match decodeAll m payloads with
    | .error status => .refused status
    | .ok messages => .called method (messages.map .ok)
  | none =>
    match payloads with
    | [payload] => s.handleRpc method payload
    | _ => .refused ⟨.unimplemented, "streaming not supported"⟩

def decodeEach (m : Method M) : List (List UInt8) → List (Except Status M)
  | [] => []
  | payload :: payloads =>
    if payload.isEmpty then decodeEach m payloads
    else match m.decode payload with
      | .error e => [.error ⟨.invalidArgument, e⟩]
      | .ok message => .ok message :: decodeEach m payloads

def startBidiStream (payloads : List (List UInt8)) : Dispatched M :=
  match s.methods.find? fun m => m.clientStreaming && m.serverStreaming && m.protoName = method with
  | none => unknownMethod method
  | some m => .called method (decodeEach m payloads)

end Service

/-- `MultiRpcService`: the services one peer hosts. -/
abbrev Roster (M : Type) := List (Service M)

namespace Roster

variable {M : Type} (roster : Roster M)

def findService (service : String) : Option (Service M) := roster.find? (·.name = service)

def isBidiStream (roster : Roster M) (service method : String) : Bool :=
  ((roster.findService service).map (·.isBidiStream method)).getD false

/-- `RpcBridge::handle_messages` for a call collected whole, `start_bidi_stream` for one that is fed. -/
def dispatch (i : Invocation) : Dispatched M :=
  match roster.findService i.service with
  | none => .refused ⟨.notFound, "Unknown service: " ++ i.service⟩
  | some s =>
    let payloads := i.messages.map (·.message.payload)
    if i.bidi then s.startBidiStream i.method payloads
    else
      match payloads with
      | [payload] =>
        if s.isBidiStream i.method then s.handleRpcStream i.method [payload] else s.handleRpc i.method payload
      | _ => s.handleRpcStream i.method payloads

end Roster

/-! ## A call on its own key -/

namespace ServerEngine

variable (isBidi : String → String → Bool) {s : ServerEngine}

def onRequests (isBidi : String → String → Bool) (peer : String) (s : ServerEngine) (requests : List RpcRequest) :
    ServerEngine := requests.foldl (fun s request => s.onRequest isBidi peer request) s

/-- One handler more has all of its input, and nothing is registered under the key. -/
def Completes (s s' : ServerEngine) (key : SessionKey) (bidi : Bool) (call : CallMetadata)
    (payloads : List (List UInt8)) : Prop :=
  s'.registered key = none ∧
    ∃ i, s'.invocations = s.invocations ++ [i] ∧ i.bidi = bidi ∧ i.service = call.service ∧ i.method = call.method ∧
      i.messages.map (·.message.payload) = payloads

/-- The call is registered, and these payloads have come for it so far: collected, or fed to its handler. -/
def Receiving (s : ServerEngine) (c : Caller) (payloads : List (List UInt8)) : Bool → Prop
  | false => s.activeBidiSessions.lookup (c.peer, c.requestId) = none ∧
      ∃ entry, s.pendingMultiMessage.lookup (c.peer, c.requestId) = some entry ∧ entry.service = c.call.service ∧
        entry.method = c.call.method ∧ entry.messages.map (·.message.payload) = payloads
  | true => s.pendingMultiMessage.lookup (c.peer, c.requestId) = none ∧
      ∃ session, s.activeBidiSessions.lookup (c.peer, c.requestId) = some session ∧ session.bidi = true ∧
        session.service = c.call.service ∧ session.method = c.call.method ∧
          session.messages.map (·.message.payload) = payloads

variable {payloads : List (List UInt8)} {c : Caller} {bidi : Bool}

attribute [local simp] requestFrame onRequest routeBidiContinuation routeMultiMessageContinuation delivery toRpcMessage
  Receiving registered

section

variable (h : s.Receiving c payloads bidi)
include h

theorem Receiving.more (message : List UInt8) :
    (s.onRequest isBidi c.peer (c.requestFrame none message false)).Receiving c (payloads ++ [message]) bidi ∧
      (s.onRequest isBidi c.peer (c.requestFrame none message false)).invocations = s.invocations := by
  cases bidi with
  | false =>
    obtain ⟨hactive, entry, hentry, hservice, hmethod, hpayloads⟩ := h
    simp [hactive, hentry, hservice, hmethod, hpayloads]
  | true =>
    obtain ⟨hpending, session, hsession, hbidi, hservice, hmethod, hpayloads⟩ := h
    simp [hsession, hpending, hbidi, hservice, hmethod, hpayloads]

theorem Receiving.close :
    s.Completes (s.onRequest isBidi c.peer (c.requestFrame none [] true)) (c.peer, c.requestId) bidi c.call
      (payloads ++ [[]]) := by
  cases bidi with
  | false =>
    obtain ⟨hactive, entry, hentry, hservice, hmethod, hpayloads⟩ := h
    simp [Completes, hactive, hentry, hservice, hmethod, hpayloads]
  | true =>
    obtain ⟨hpending, session, hsession, hbidi, hservice, hmethod, hpayloads⟩ := h
    simp [Completes, hsession, hpending, hbidi, hservice, hmethod, hpayloads]

theorem Receiving.continuations (messages : List (List UInt8)) :
    s.Completes (onRequests isBidi c.peer s (c.continuations messages)) (c.peer, c.requestId) bidi c.call
      (payloads ++ messages ++ [[]]) := by
  induction messages generalizing s payloads with
  | nil =>
    rw [append_nil]
    exact h.close isBidi
  | cons message messages ih =>
    obtain ⟨hmore, hsame⟩ := h.more isBidi message
    obtain ⟨hfree, i, hi, hrest⟩ := ih hmore
    rw [append_assoc payloads, singleton_append] at hrest
    exact ⟨hfree, i, hi.trans (by rw [hsame]), hrest⟩

end

theorem receiving_of_open (hfree : s.registered (c.peer, c.requestId) = none) (message : List UInt8) :
    (s.onRequest isBidi c.peer (c.requestFrame (some c.call) message false)).Receiving c [message]
        (isBidi c.call.service c.call.method) ∧
      (s.onRequest isBidi c.peer (c.requestFrame (some c.call) message false)).invocations = s.invocations := by
  obtain ⟨hactive, hpending⟩ : s.activeBidiSessions.lookup (c.peer, c.requestId) = none ∧
      s.pendingMultiMessage.lookup (c.peer, c.requestId) = none := by simpa using hfree
  cases hbidi : isBidi c.call.service c.call.method <;>
    simp [hactive, hpending, openCall, openBidiSession, opened, hbidi]

end ServerEngine

/-! ## The handler's input -/

namespace Service

variable {M : Type}

variable {m : Method M} {s : Service M} {encode : M → List UInt8}

theorem find_eq (hm : m ∈ s.methods) {p : Method M → Bool} (hp : ∀ m', p m' = true → m'.protoName = m.protoName) :
    s.methods.find? p = if p m then some m else none := by
  have huniq : ∀ m' ∈ s.methods, p m' = true → m' = m := fun m' hm' h =>
    inj_on_of_nodup_map s.distinct hm' hm (hp m' h)
  rcases hfind : s.methods.find? p with _ | m'
  · have hnot : p m = false := by simpa using find?_eq_none.mp hfind m hm
    simp [hnot]
  have hp' := find?_some hfind
  have e := huniq m' (mem_of_find?_eq_some hfind) hp'
  subst e
  simp [hp']

theorem isBidiStream_eq (hm : m ∈ s.methods) (hclient : m.clientStreaming = true) :
    s.isBidiStream m.protoName = m.serverStreaming := by
  rw [isBidiStream, ← isSome_find?, find_eq hm (by simp)]
  cases m.serverStreaming <;> simp [hclient]

theorem decodeAll_encoded (hdecode : ∀ x, m.decode (encode x) = .ok x) (messages : List M) :
    decodeAll m (messages.map encode ++ [[]]) = .ok (messages.filter fun x => encode x ≠ []) := by
  induction messages with
  | nil => rfl
  | cons x messages ih =>
    by_cases hx : encode x = []
    · simp [decodeAll, hx, ih]
    · simp [decodeAll, hx, ih, hdecode, Except.map]

theorem decodeEach_encoded (hdecode : ∀ x, m.decode (encode x) = .ok x) (messages : List M) :
    decodeEach m (messages.map encode ++ [[]]) = (messages.filter fun x => encode x ≠ []).map .ok := by
  induction messages with
  | nil => rfl
  | cons x messages ih =>
    by_cases hx : encode x = []
    · simp [decodeEach, hx, ih]
    · simp [decodeEach, hx, ih, hdecode]

theorem unnamed_refused (s : Service M) (payload : List UInt8) :
    s.handleRpc "" payload = unknownMethod "" ∧ s.handleRpcStream "" [payload] = unknownMethod "" := by
  have hnone : ∀ p : Method M → Bool, (∀ m, p m = true → m.protoName = "") → s.methods.find? p = none := by
    intro p hp
    refine find?_eq_none.mpr fun m hm h => s.named m hm (hp m h)
  simp [handleRpcStream, handleRpc, hnone]

end Service

/-! ## From the page to the handler -/

section

open ServerEngine

variable {M : Type} (roster : Roster M) (encode : M → List UInt8) (s : ServerEngine) (c : Caller)

def Caller.streaming (c : Caller) (serverStreaming : Bool) (messages : List (List UInt8)) : List RpcRequest :=
  if serverStreaming then c.bidiStreaming messages else c.clientStreaming messages

/-- Once the frames have come, one handler more was called, the call's own with just the messages, and nothing is
    registered under the call's key. -/
def ReceivesExactly (serverStreaming : Bool) (messages : List M) : Prop :=
  let s' := s.onRequests roster.isBidiStream c.peer (c.streaming serverStreaming (messages.map encode))
  s'.registered (c.peer, c.requestId) = none ∧
    ∃ i, s'.invocations = s.invocations ++ [i] ∧ roster.dispatch i = .called c.call.method (messages.map .ok)

variable {roster encode s c}

attribute [local simp] onRequest routeBidiContinuation routeMultiMessageContinuation openCall opened requestFrame delivery
  toRpcMessage Roster.dispatch Service.unknownMethod registered

section

variable {svc : Service M} {m : Method M} (hsvc : roster.findService c.call.service = some svc)
  (hm : m ∈ svc.methods) (hname : m.protoName = c.call.method) (hclient : m.clientStreaming = true)
include hsvc hm hname hclient

theorem isBidiStream_of_method : roster.isBidiStream c.call.service c.call.method = m.serverStreaming := by
  simp [Roster.isBidiStream, hsvc, ← hname, Service.isBidiStream_eq hm hclient]

theorem dispatch_streaming (hdecode : ∀ x, m.decode (encode x) = .ok x) (first : M) (rest : List M) {i : Invocation}
    (hbidi : i.bidi = m.serverStreaming) (hservice : i.service = c.call.service) (hmethod : i.method = c.call.method)
    (hpayloads : i.messages.map (·.message.payload) = (first :: rest).map encode ++ [[]]) :
    roster.dispatch i = .called c.call.method (((first :: rest).filter fun x => encode x ≠ []).map .ok) := by
  -- the closing frame makes two payloads of one message, so a collected call is never taken for a unary one
  obtain ⟨second, others, htwo⟩ : ∃ second others,
      (first :: rest).map encode ++ [[]] = encode first :: second :: others := by
    rcases rest with _ | ⟨x, rest⟩
    · exact ⟨[], [], rfl⟩
    · exact ⟨encode x, rest.map encode ++ [[]], rfl⟩
  unfold Roster.dispatch
  rw [hservice, hsvc, hpayloads, hbidi, hmethod, ← hname, htwo]
  rcases hserver : m.serverStreaming with _ | _
  · have hdecoded := Service.decodeAll_encoded hdecode (first :: rest)
    rw [htwo] at hdecoded
    have hfind := Service.find_eq hm (p := fun m' => m'.clientStreaming && m'.protoName = m.protoName) (by simp)
    rw [if_pos (by simp [hclient])] at hfind
    simp only [Service.handleRpcStream, hfind, hdecoded, Bool.false_eq_true, if_false]
  have hdecoded := Service.decodeEach_encoded hdecode (first :: rest)
  rw [htwo] at hdecoded
  have hfind := Service.find_eq hm
    (p := fun m' => m'.clientStreaming && m'.serverStreaming && m'.protoName = m.protoName) (by simp)
  rw [if_pos (by simp [hclient, hserver])] at hfind
  simp only [Service.startBidiStream, hfind, hdecoded, if_true]

theorem receives_nonempty_iff (hdecode : ∀ x, m.decode (encode x) = .ok x)
    (hfree : s.registered (c.peer, c.requestId) = none) (first : M) (rest : List M) :
    ReceivesExactly roster encode s c m.serverStreaming (first :: rest) ↔ ∀ x ∈ first :: rest, encode x ≠ [] := by
  have hframes : c.streaming m.serverStreaming ((first :: rest).map encode) =
      c.requestFrame (some c.call) (encode first) false :: c.continuations (rest.map encode) := by
    cases m.serverStreaming <;> rfl
  obtain ⟨hopen, hsame⟩ := receiving_of_open roster.isBidiStream hfree (encode first)
  obtain ⟨hfree', i, hi, hbidi, hservice, hmethod, hpayloads⟩ :=
    hopen.continuations roster.isBidiStream (rest.map encode)
  rw [hsame] at hi
  rw [isBidiStream_of_method hsvc hm hname hclient] at hbidi
  have hdispatch := dispatch_streaming hsvc hm hname hclient hdecode first rest hbidi hservice hmethod hpayloads
  have hok : Function.Injective (Except.ok : M → Except Status M) := fun _ _ h => by injection h
  unfold ReceivesExactly
  rw [hframes, onRequests, foldl_cons, ← onRequests]
  simp only [hfree', hi, append_cancel_left_eq, cons.injEq, and_true, exists_eq_left', hdispatch,
    Dispatched.called.injEq, true_and, (map_injective_iff.mpr hok).eq_iff, filter_eq_self, decide_eq_true_iff]

theorem receives_nothing_never (hfree : s.registered (c.peer, c.requestId) = none) :
    ¬ ReceivesExactly roster encode s c m.serverStreaming [] := by
  obtain ⟨hactive, hpending⟩ : s.activeBidiSessions.lookup (c.peer, c.requestId) = none ∧
      s.pendingMultiMessage.lookup (c.peer, c.requestId) = none := by simpa using hfree
  have hbidi := isBidiStream_of_method hsvc hm hname hclient
  rintro ⟨-, i, hi, hcalled⟩
  rcases hserver : m.serverStreaming with _ | _
  · -- the frame names the call, and one message is a unary call
    obtain rfl : s.opened c.peer (c.requestFrame (some c.call) [] true) false = i := by
      simpa [hserver, streaming, clientStreaming, onRequests, hactive, hpending, hbidi] using hi
    have hunary : svc.isBidiStream c.call.method = false := by
      rw [← hname, Service.isBidiStream_eq hm hclient, hserver]
    have hrefused : svc.handleRpc c.call.method [] = Service.unknownMethod c.call.method := by
      rw [← hname, Service.handleRpc, Service.find_eq hm (by simp)]
      simp [hclient]
    simp [hsvc, hunary, hrefused] at hcalled
  · -- the frame names no call
    obtain rfl : s.opened c.peer (c.requestFrame none [] true) false = i := by
      simpa [hserver, streaming, bidiStreaming, onRequests, hactive, hpending] using hi
    rcases hnone : roster.findService "" with _ | other
    · simp [hnone] at hcalled
    · simp [hnone, Service.unnamed_refused] at hcalled

/-- A handler of a stream gets the messages of its call just where there is a message and none is without bytes. -/
theorem request_stream_iff (hdecode : ∀ x, m.decode (encode x) = .ok x)
    (hfree : s.registered (c.peer, c.requestId) = none) (messages : List M) :
    ReceivesExactly roster encode s c m.serverStreaming messages ↔
      messages ≠ [] ∧ ∀ x ∈ messages, encode x ≠ [] := by
  rcases messages with _ | ⟨first, rest⟩
  · simp [receives_nothing_never hsvc hm hname hclient hfree]
  · simpa using receives_nonempty_iff hsvc hm hname hclient hdecode hfree first rest

end

end

def echoes : Service (List UInt8) where
  name := "test.Echoes"
  methods := [⟨"Collect", true, false, .ok⟩, ⟨"Chat", true, true, .ok⟩]
  distinct := by decide
  named := by decide

def page (method : String) : Caller := ⟨"page", 1, 1, none, ⟨"test.Echoes", method⟩⟩

theorem request_stream_iff_collect :
    ReceivesExactly [echoes] id (.new .liveKit) (page "Collect") false [[1], [2, 3]] := by
  have hservice : Roster.findService [echoes] "test.Echoes" = some echoes := rfl
  have hmethod : (⟨"Collect", true, false, .ok⟩ : Method (List UInt8)) ∈ echoes.methods := by simp [echoes]
  exact (request_stream_iff hservice hmethod rfl rfl (fun _ => rfl) rfl [[1], [2, 3]]).mpr (by decide)

def dispatched (method : String) (serverStreaming : Bool) (messages : List (List UInt8)) :
    List (Dispatched (List UInt8)) :=
  ((ServerEngine.new .liveKit).onRequests (Roster.isBidiStream [echoes]) "page"
    ((page method).streaming serverStreaming messages)).invocations.map (Roster.dispatch [echoes])

theorem dispatched_of_receives {method : String} {serverStreaming : Bool} {messages : List (List UInt8)}
    (h : ReceivesExactly [echoes] id (.new .liveKit) (page method) serverStreaming messages) :
    dispatched method serverStreaming messages = [.called method (messages.map .ok)] := by
  obtain ⟨-, i, hi, hcalled⟩ := h
  rw [map_id] at hi
  exact (congrArg (List.map (Roster.dispatch [echoes])) hi).trans (by simp [ServerEngine.new, hcalled, page])

/-- Of a message with bytes and one without, either kind of handler gets the first. Without messages, one method is not
    found, and the other call's frame does not name it. -/
theorem an_empty_message_is_lost :
    (dispatched "Collect" false [[1], []] = [.called "Collect" [.ok [1]]] ∧
      dispatched "Chat" true [[1], []] = [.called "Chat" [.ok [1]]] ∧
      dispatched "Collect" false [] = [.refused ⟨.notFound, "Unknown method: Collect"⟩] ∧
      dispatched "Chat" true [] = [.refused ⟨.notFound, "Unknown service: "⟩]) ∧
    ∀ messages ∈ [[[1], []], []],
      ¬ ReceivesExactly [echoes] id (.new .liveKit) (page "Collect") false messages ∧
      ¬ ReceivesExactly [echoes] id (.new .liveKit) (page "Chat") true messages := by
  refine ⟨by decide, fun messages hmessages => ⟨fun h => ?_, fun h => ?_⟩⟩
  all_goals
    replace h := dispatched_of_receives h
    revert messages
    decide

end TddyCoder.Rpc

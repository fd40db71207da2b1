/-
  TddyCoder.Rpc.ServerEngine — dispatch of incoming requests
  (`packages/tddy-rpc/src/server_engine.rs`): which call each request is handed to, and what
  each handler is given.

  Requests are handled in arrival order, one at a time. A bidi session is the handler's invocation
  with what has been sent to it so far, and joins `invocations` when its input ends. Ghost state:
  with each message the call its request is of and whether it was routed to a call already
  registered; with each call the one that opened it.

  Proved: `isolated_iff`; a run in which calls mix is `reload_reaches_the_old_session`.
-/

import TddyCoder.Machine.Guarded
import TddyCoder.Rpc.Envelope
import TddyCoder.Table.Assoc

namespace TddyCoder.Rpc

open Machine Table List

/-- How a request reached its service; the host says, never the request. -/
inductive RequestTransport
  | inProcess | liveKit | unixSocket | pipe | http | grpc | direct
  deriving DecidableEq

structure RequestMetadata where
  transport : RequestTransport
  senderIdentity : Option String
  deriving DecidableEq

structure RpcMessage where
  payload : List UInt8
  metadata : RequestMetadata
  deriving DecidableEq

/-- Request ids are only unique within a peer. -/
abbrev SessionKey := String × Int

/-- The call a request is of: the connection it came over, and the id it has there. -/
structure CallId where
  peer : String
  clientEpoch : Nat
  requestId : Int
  deriving DecidableEq

def callOf (peer : String) (request : RpcRequest) : CallId := ⟨peer, request.clientEpoch, request.requestId⟩

/-- A message handed to a call; but for the message itself, ghost. -/
structure Delivery where
  message : RpcMessage
  call : CallId
  opens : Bool
  continues : Bool
  deriving DecidableEq

/-- Fragments of a call whose handler takes them all at once; `opener` is ghost. -/
structure PendingMultiMessage where
  opener : CallId
  messages : List Delivery
  service : String
  method : String
  deriving DecidableEq

/-- A handler that was called, and what it is given: all at once, or (`bidi`) as it arrives; `opener` is ghost. -/
structure Invocation where
  opener : CallId
  origin : CallOrigin
  bidi : Bool
  service : String
  method : String
  messages : List Delivery
  deriving DecidableEq

structure ServerEngine where
  transport : RequestTransport
  activeBidiSessions : Assoc SessionKey Invocation
  pendingMultiMessage : Assoc SessionKey PendingMultiMessage
  /-- The handlers whose input has ended. -/
  invocations : List Invocation

namespace ServerEngine

def new (transport : RequestTransport) : ServerEngine := ⟨transport, ∅, ∅, []⟩

variable (s : ServerEngine) (request : RpcRequest)

def metadataOf : RequestMetadata := ⟨s.transport, request.senderIdentity⟩

def toRpcMessage : RpcMessage :=
  ⟨request.requestMessage, s.metadataOf request⟩

variable (peer : String) (request : RpcRequest)

def delivery (continues : Bool) : Delivery :=
  ⟨s.toRpcMessage request, callOf peer request, request.callMetadata.isSome, continues⟩

/-- Into a session already open; `none` where there is none. -/
def routeBidiContinuation : Option ServerEngine :=
  (s.activeBidiSessions.lookup (peer, request.requestId)).map fun session =>
    let fed := { session with messages := session.messages ++ [s.delivery peer request true] }
    if request.endOfStream then
      { s with
        activeBidiSessions := s.activeBidiSessions.erase (peer, request.requestId)
        invocations := s.invocations ++ [fed] }
    else { s with activeBidiSessions := s.activeBidiSessions.insert (peer, request.requestId) fed }

/-- Into a call already accumulating, which is dispatched with its last fragment; `none` where there is none. -/
def routeMultiMessageContinuation : Option ServerEngine :=
  (s.pendingMultiMessage.lookup (peer, request.requestId)).map fun entry =>
    let fed := { entry with messages := entry.messages ++ [s.delivery peer request true] }
    if request.endOfStream then
      let origin : CallOrigin := ⟨request.requestId, request.clientEpoch, some ⟨entry.service, entry.method⟩⟩
      { s with
        pendingMultiMessage := s.pendingMultiMessage.erase (peer, request.requestId)
        invocations := s.invocations ++ [⟨fed.opener, origin, false, fed.service, fed.method, fed.messages⟩] }
    else { s with pendingMultiMessage := s.pendingMultiMessage.insert (peer, request.requestId) fed }

def opened (bidi : Bool) : Invocation where
  opener := callOf peer request
  origin := CallOrigin.of request
  bidi := bidi
  service := (request.callMetadata.map (·.service)).getD ""
  method := (request.callMetadata.map (·.method)).getD ""
  messages := [s.delivery peer request false]

def openBidiSession : ServerEngine :=
  if request.endOfStream then { s with invocations := s.invocations ++ [s.opened peer request true] }
  else
    { s with activeBidiSessions := s.activeBidiSessions.insert (peer, request.requestId) (s.opened peer request true) }

def openCall (isBidi : String → String → Bool) (s : ServerEngine) (peer : String) (request : RpcRequest) :
    ServerEngine :=
  let call := s.opened peer request false
  if request.callMetadata.isSome && isBidi call.service call.method then s.openBidiSession peer request
  else if request.endOfStream then { s with invocations := s.invocations ++ [call] }
  else
    { s with
      pendingMultiMessage := s.pendingMultiMessage.insert (peer, request.requestId)
        ⟨call.opener, call.messages, call.service, call.method⟩ }

def onRequest (isBidi : String → String → Bool) (s : ServerEngine) (peer : String) (request : RpcRequest) :
    ServerEngine :=
  match s.routeBidiContinuation peer request with
  | some s' => s'
  | none =>
    match s.routeMultiMessageContinuation peer request with
    | some s' => s'
    | none => s.openCall isBidi peer request

/-- The peer's sessions close, which ends their handlers' input; its fragments are dropped. -/
def onPeerDisconnected : ServerEngine :=
  { s with
    activeBidiSessions := retain (fun key => key.1 ≠ peer) s.activeBidiSessions
    pendingMultiMessage := retain (fun key => key.1 ≠ peer) s.pendingMultiMessage
    invocations := s.invocations ++
      ((s.activeBidiSessions.entries.filter fun entry => entry.1.1 = peer).map fun entry => entry.2) }

end ServerEngine

inductive ServerEvent
  | request (peer : String) (request : RpcRequest)
  | peerDisconnected (peer : String)

variable (isBidi : String → String → Bool)

def ServerEngine.step (s : ServerEngine) : ServerEvent → ServerEngine
  | .request peer request => s.onRequest isBidi peer request
  | .peerDisconnected peer => s.onPeerDisconnected peer

def ServerEngine.run (transport : RequestTransport) (events : List ServerEvent) :
    ServerEngine := events.foldl (step isBidi) (new transport)

namespace ServerEngine

/-! ## What each call is given -/

variable (s : ServerEngine)

/-- Every call with the messages handed to it: running, still accumulating, or complete. -/
def intakes : List (CallId × List Delivery) :=
  s.activeBidiSessions.entries.map (fun entry => (entry.2.opener, entry.2.messages)) ++
    s.pendingMultiMessage.entries.map (fun entry => (entry.2.opener, entry.2.messages)) ++
      s.invocations.map fun invocation => (invocation.opener, invocation.messages)

/-- All are of the call, and none that continues it opens one. -/
def Own (opener : CallId) (messages : List Delivery) : Prop :=
  ∀ d ∈ messages, d.call = opener ∧ (d.continues = true → d.opens = false)

instance (opener : CallId) (messages : List Delivery) : Decidable (Own opener messages) :=
  inferInstanceAs (Decidable (∀ d ∈ messages, _))

/-- Every handler has messages of its own call only. -/
def Isolated : Prop := ∀ intake ∈ s.intakes, Own intake.1 intake.2

instance : Decidable s.Isolated := inferInstanceAs (Decidable (∀ intake ∈ s.intakes, _))

def registered (key : SessionKey) : Option CallId :=
  (s.activeBidiSessions.lookup key).map (·.opener) <|> (s.pendingMultiMessage.lookup key).map (·.opener)

/-- A request under a registered key continues the call registered. -/
def OwnRequest : ServerEvent → Prop
  | .request peer request =>
    ∀ opener, s.registered (peer, request.requestId) = some opener →
      opener = callOf peer request ∧ request.callMetadata = none
  | .peerDisconnected _ => True

variable {s : ServerEngine} {intake : CallId × List Delivery}

theorem mem_intakes :
    intake ∈ s.intakes ↔
      (∃ key session, s.activeBidiSessions.lookup key = some session ∧ intake = (session.opener, session.messages)) ∨
      (∃ key entry, s.pendingMultiMessage.lookup key = some entry ∧ intake = (entry.opener, entry.messages)) ∨
      ∃ invocation ∈ s.invocations, intake = (invocation.opener, invocation.messages) := by
  simp only [intakes, mem_append, mem_map, lookup_eq_some, or_assoc]
  refine or_congr ?_ (or_congr ?_ ?_)
  · exact ⟨fun ⟨entry, h, e⟩ => ⟨entry.1, entry.2, h, e.symm⟩, fun ⟨key, session, h, e⟩ => ⟨⟨key, session⟩, h, e.symm⟩⟩
  · exact ⟨fun ⟨entry, h, e⟩ => ⟨entry.1, entry.2, h, e.symm⟩, fun ⟨key, entry, h, e⟩ => ⟨⟨key, entry⟩, h, e.symm⟩⟩
  · exact ⟨fun ⟨i, h, e⟩ => ⟨i, h, e.symm⟩, fun ⟨i, h, e⟩ => ⟨i, h, e.symm⟩⟩

/-- Every call of `s'` is one of `s`, but for `fed`, which is one of `s'`. -/
def Gains (s s' : ServerEngine) (fed : CallId × List Delivery) : Prop :=
  fed ∈ s'.intakes ∧ ∀ intake ∈ s'.intakes, intake ∈ s.intakes ∨ intake = fed

theorem gains_session (s : ServerEngine) (key : SessionKey) (session : Invocation) :
    s.Gains { s with activeBidiSessions := s.activeBidiSessions.insert key session }
      (session.opener, session.messages) := by
  refine ⟨mem_intakes.mpr (.inl ⟨key, session, AList.lookup_insert _, rfl⟩), fun intake h => ?_⟩
  rcases mem_intakes.mp h with ⟨key', x, hx, rfl⟩ | h | h
  · rcases lookup_insert_or hx with hx | rfl
    · exact .inl (mem_intakes.mpr (.inl ⟨key', x, hx, rfl⟩))
    · exact .inr rfl
  · exact .inl (mem_intakes.mpr (.inr (.inl h)))
  · exact .inl (mem_intakes.mpr (.inr (.inr h)))

theorem gains_pending (s : ServerEngine) (key : SessionKey) (entry : PendingMultiMessage) :
    s.Gains { s with pendingMultiMessage := s.pendingMultiMessage.insert key entry } (entry.opener, entry.messages) := by
  refine ⟨mem_intakes.mpr (.inr (.inl ⟨key, entry, AList.lookup_insert _, rfl⟩)), fun intake h => ?_⟩
  rcases mem_intakes.mp h with h | ⟨key', x, hx, rfl⟩ | h
  · exact .inl (mem_intakes.mpr (.inl h))
  · rcases lookup_insert_or hx with hx | rfl
    · exact .inl (mem_intakes.mpr (.inr (.inl ⟨key', x, hx, rfl⟩)))
    · exact .inr rfl
  · exact .inl (mem_intakes.mpr (.inr (.inr h)))

theorem gains_invocation {s' : ServerEngine} (invocation : Invocation)
    (hactive : ∀ key x, s'.activeBidiSessions.lookup key = some x → s.activeBidiSessions.lookup key = some x)
    (hpending : ∀ key x, s'.pendingMultiMessage.lookup key = some x → s.pendingMultiMessage.lookup key = some x)
    (hinvocations : s'.invocations = s.invocations ++ [invocation]) :
    s.Gains s' (invocation.opener, invocation.messages) := by
  refine ⟨mem_intakes.mpr (.inr (.inr ⟨invocation, by simp [hinvocations], rfl⟩)), fun intake h => ?_⟩
  rcases mem_intakes.mp h with ⟨key, x, hx, rfl⟩ | ⟨key, x, hx, rfl⟩ | ⟨x, hx, rfl⟩
  · exact .inl (mem_intakes.mpr (.inl ⟨key, x, hactive key x hx, rfl⟩))
  · exact .inl (mem_intakes.mpr (.inr (.inl ⟨key, x, hpending key x hx, rfl⟩)))
  rw [hinvocations] at hx
  rcases mem_append.mp hx with hx | hx
  · exact .inl (mem_intakes.mpr (.inr (.inr ⟨x, hx, rfl⟩)))
  · rw [mem_singleton.mp hx]
    exact .inr rfl

/-- A request gives the call registered under its key one message more, or opens a call. -/
theorem onRequest_gains (s : ServerEngine) (peer : String) (request : RpcRequest) :
    (∃ opener messages, s.registered (peer, request.requestId) = some opener ∧ (opener, messages) ∈ s.intakes ∧
      s.Gains (s.onRequest isBidi peer request) (opener, messages ++ [s.delivery peer request true])) ∨
    (s.registered (peer, request.requestId) = none ∧
      s.Gains (s.onRequest isBidi peer request) (callOf peer request, [s.delivery peer request false])) := by
  unfold onRequest routeBidiContinuation routeMultiMessageContinuation
  rcases hbidi : s.activeBidiSessions.lookup (peer, request.requestId) with _ | session
  · rcases hmulti : s.pendingMultiMessage.lookup (peer, request.requestId) with _ | entry
    · right
      refine ⟨by simp [registered, hbidi, hmulti], ?_⟩
      simp only [Option.map_none, openCall, openBidiSession]
      split <;> split
      · exact gains_invocation (s.opened peer request true) (fun _ _ h => h) (fun _ _ h => h) rfl
      · exact gains_session s _ (s.opened peer request true)
      · exact gains_invocation (s.opened peer request false) (fun _ _ h => h) (fun _ _ h => h) rfl
      · exact gains_pending s _ ⟨_, _, _, _⟩
    · left
      refine ⟨entry.opener, entry.messages, by simp [registered, hbidi, hmulti],
        mem_intakes.mpr (.inr (.inl ⟨_, entry, hmulti, rfl⟩)), ?_⟩
      simp only [Option.map_none, Option.map_some]
      split
      · exact gains_invocation ⟨_, _, _, _, _, _⟩ (fun _ _ h => h) (fun _ _ h => (lookup_erase_eq_some.mp h).1) rfl
      · exact gains_pending s _ _
  · left
    refine ⟨session.opener, session.messages, by simp [registered, hbidi],
      mem_intakes.mpr (.inl ⟨_, session, hbidi, rfl⟩), ?_⟩
    simp only [Option.map_some]
    split
    · exact gains_invocation { session with messages := session.messages ++ [s.delivery peer request true] }
        (fun _ _ h => (lookup_erase_eq_some.mp h).1) (fun _ _ h => h) rfl
    · exact gains_session s _ _

theorem mem_intakes_onPeerDisconnected {peer : String}
    (h : intake ∈ (s.onPeerDisconnected peer).intakes) : intake ∈ s.intakes := by
  rcases mem_intakes.mp h with ⟨key, x, hx, rfl⟩ | ⟨key, x, hx, rfl⟩ | ⟨x, hx, rfl⟩
  · exact mem_intakes.mpr (.inl ⟨key, x, (lookup_retain_eq_some.mp hx).1, rfl⟩)
  · exact mem_intakes.mpr (.inr (.inl ⟨key, x, (lookup_retain_eq_some.mp hx).1, rfl⟩))
  rcases mem_append.mp hx with hx | hx
  · exact mem_intakes.mpr (.inr (.inr ⟨x, hx, rfl⟩))
  · obtain ⟨entry, hentry, rfl⟩ := mem_map.mp hx
    exact mem_intakes.mpr (.inl ⟨entry.1, entry.2, lookup_eq_some.mpr (mem_filter.mp hentry).1, rfl⟩)

/-- A step keeps the calls apart exactly when its request, if it continues a call, is of that call. -/
theorem isolated_step_iff {isBidi : String → String → Bool} (hs : s.Isolated) (event : ServerEvent) :
    (s.step isBidi event).Isolated ↔ s.OwnRequest event := by
  cases event with
  | peerDisconnected peer =>
    exact iff_of_true (fun intake h => hs intake (mem_intakes_onPeerDisconnected h)) trivial
  | request peer request =>
    rcases onRequest_gains isBidi s peer request with ⟨opener, messages, hreg, hmem, hfed, hall⟩ | ⟨hreg, hfed, hall⟩
    · have hown : Own opener (messages ++ [s.delivery peer request true]) ↔ s.OwnRequest (.request peer request) := by
        constructor
        · intro h o ho
          cases hreg.symm.trans ho
          obtain ⟨hcall, hopens⟩ := h _ (mem_append_right _ mem_cons_self)
          exact ⟨hcall.symm, by simpa [delivery] using hopens rfl⟩
        · intro h
          refine forall_mem_append.mpr ⟨hs _ hmem, forall_mem_singleton.mpr ?_⟩
          exact ⟨(h opener hreg).1.symm, fun _ => by simp [delivery, (h opener hreg).2]⟩
      rw [← hown]
      constructor
      · exact fun h => h _ hfed
      intro h intake hin
      rcases hall intake hin with hin | rfl
      · exact hs intake hin
      · exact h
    · have hopen : Own (callOf peer request) [s.delivery peer request false] := by simp [Own, delivery]
      refine iff_of_true (fun intake hin => ?_) (by simp [OwnRequest, hreg])
      rcases hall intake hin with hin | rfl
      · exact hs intake hin
      · exact hopen

/-- Along a run, every handler is given only messages of the call that opened it, and no request that opens a call is
    taken for a continuation, exactly when every request that finds its key registered continues the call registered. -/
theorem isolated_iff (isBidi : String → String → Bool) (transport : RequestTransport) (events : List ServerEvent) :
    (∀ reached, reached <+: events → (run isBidi transport reached).Isolated) ↔
      Guarded (step isBidi) OwnRequest (new transport) events := by
  have hnew : (new transport).Isolated := by simp [Isolated, intakes, new]
  have hstep : ∀ s event, Isolated s → ((step isBidi s event).Isolated ↔ OwnRequest s event) :=
    fun s event hs => isolated_step_iff hs event
  exact reached_iff_guarded hstep hnew

/-- The first request of a page's connection opens a terminal's stream; the page is loaded again, and the first request
    of its new connection asks for something else. -/
def reload : List ServerEvent :=
  [.request "browser" ⟨1, [1], some ⟨"terminal.TerminalService", "StreamTerminalIO"⟩, false, some "browser", 7⟩,
    .request "browser" ⟨1, [2], some ⟨"connection.ConnectionService", "ListSessions"⟩, true, some "browser", 8⟩]

theorem reload_reaches_the_old_session :
    ¬ (run (fun _ method => method = "StreamTerminalIO") .liveKit reload).Isolated ∧
      (run (fun _ method => method = "StreamTerminalIO") .liveKit reload).invocations.map
        (fun i => (i.method, i.messages.map (·.message.payload))) = [("StreamTerminalIO", [[1], [2]])] := by
  decide

end ServerEngine

end TddyCoder.Rpc

/-
  TddyCoder.Rpc.ResponseStream — a streaming answer on its way from a handler to a caller:
  the frames `ServerEngine` writes for it (`forward_response_body`,
  `packages/tddy-rpc/src/server_engine.rs`), and what the two clients make of them
  (`Rpc.Clients`): the Rust client's receiver, and the web client's queue and the loop that
  reads it (`Rpc.AsyncQueue`).

  The frames arrive in order, with responses to other calls between them as they may. A
  receiver gets what was sent to it and then, its last sender gone, the end.

  Proved: `response_stream_iff`; an answer that does not arrive: `an_empty_item_is_lost`.
-/

import TddyCoder.Rpc.AsyncQueue
import TddyCoder.Rpc.Clients

namespace TddyCoder.Rpc

open List

open AsyncQueue (reads script)

/-! ## The server's frames -/

inductive ResponseBody
  | complete (chunks : List (List UInt8))
  | streaming (items : List (Except Status (List UInt8)))

variable (origin : CallOrigin)

def dataResponse (bytes : List UInt8) (endOfStream : Bool) : RpcResponse :=
  ⟨origin.requestId, bytes, endOfStream, none, origin.clientEpoch, origin.callMetadata⟩

def errorResponse (status : Status) : RpcResponse :=
  ⟨origin.requestId, [], true, some ⟨status.code.asStr, status.message⟩, origin.clientEpoch, origin.callMetadata⟩

/-- Item by item, as they come; an error ends the stream, and so does a frame without data. -/
def forwardStreaming (origin : CallOrigin) : List (Except Status (List UInt8)) → List RpcResponse
  | [] => [dataResponse origin [] true]
  | .ok bytes :: items => dataResponse origin bytes false :: forwardStreaming origin items
  | .error status :: _ => [errorResponse origin status]

def forwardResponseBody : ResponseBody → List RpcResponse
  | .complete chunks =>
    chunks.zipIdx.map fun (bytes, i) => dataResponse origin bytes (i + 1 = chunks.length)
  | .streaming items => forwardStreaming origin items

def framesOf (items : List (List UInt8)) (ending : Option Status) : List RpcResponse :=
  forwardResponseBody origin (.streaming (items.map .ok ++ ending.toList.map .error))

/-! ## What the callers see -/

def sent (r : RpcResponse) : Option (Except Status (List UInt8)) :=
  if r.endOfStream && r.error.isNone && r.responseMessage.isEmpty then none
  else match r.error with
    | some err => some (.error ⟨Code.fromStr err.code, err.message⟩)
    | none => some (.ok r.responseMessage)

def sentFor : Answer → Option (Except Status (List UInt8))
  | .response r => sent r
  | _ => none

/-- The names of Connect's codes. -/
def ConnectCode.name : ConnectCode → String
  | .canceled => "canceled"
  | .unknown => "unknown"
  | .invalidArgument => "invalid_argument"
  | .deadlineExceeded => "deadline_exceeded"
  | .notFound => "not_found"
  | .alreadyExists => "already_exists"
  | .permissionDenied => "permission_denied"
  | .resourceExhausted => "resource_exhausted"
  | .failedPrecondition => "failed_precondition"
  | .aborted => "aborted"
  | .outOfRange => "out_of_range"
  | .unimplemented => "unimplemented"
  | .internal => "internal"
  | .unavailable => "unavailable"
  | .dataLoss => "data_loss"
  | .unauthenticated => "unauthenticated"

/-- What is relied on of `codeFromString`, which is Connect's: it knows every code by its name, and none as `ok`. -/
structure KnowsCodes (codeFromString : String → Option ConnectCode) : Prop where
  named : ∀ code : ConnectCode, codeFromString code.name = some code
  ok : codeFromString "ok" = none

/-- The two libraries spell one code differently. -/
def normalized (code : String) : String :=
  let lower := String.ofList (code.toList.map Char.toLower)
  if lower = "cancelled" then "canceled" else lower

section

variable (codeFromString : String → Option ConnectCode)

def rpcErrorToConnectError (err : RpcError) : ConnectError :=
  ⟨err.message, (codeFromString (normalized err.code)).getD .unknown⟩

def putsFor : Answer → List (Put (List UInt8) ConnectError)
  | .response r =>
    match r.error with
    | some err => [.fail (rpcErrorToConnectError codeFromString err)]
    | none => (if r.responseMessage.isEmpty then [] else [.enqueue r.responseMessage]) ++
        if r.endOfStream then [.close] else []
  | .failed error => [.fail error]
  | .cancelled => [.close]

end

/-- The same code on the other side; a status that is no error has none. -/
def Code.toConnect : Code → Option ConnectCode
  | .ok => none
  | .cancelled => some .canceled
  | .unknown => some .unknown
  | .invalidArgument => some .invalidArgument
  | .deadlineExceeded => some .deadlineExceeded
  | .notFound => some .notFound
  | .alreadyExists => some .alreadyExists
  | .permissionDenied => some .permissionDenied
  | .resourceExhausted => some .resourceExhausted
  | .failedPrecondition => some .failedPrecondition
  | .aborted => some .aborted
  | .outOfRange => some .outOfRange
  | .unimplemented => some .unimplemented
  | .internal => some .internal
  | .unavailable => some .unavailable
  | .dataLoss => some .dataLoss
  | .unauthenticated => some .unauthenticated

variable {codeFromString : String → Option ConnectCode} (hcodes : KnowsCodes codeFromString)

include hcodes in
theorem codeFromString_asStr (code : Code) : codeFromString (normalized code.asStr) = code.toConnect := by
  have hname : normalized code.asStr = (code.toConnect.map ConnectCode.name).getD "ok" := by
    cases code <;> decide
  rw [hname]
  cases code.toConnect with
  | none => exact hcodes.ok
  | some c => exact hcodes.named c

/-! ## Either client, fed with responses -/

/-- A client as far as streams are concerned: what it does with a response is to give it to the call under the response's
    id, and a response that answers a registered stream does reach it. -/
structure Receiver where
  State : Type
  registry : State → Registry
  clientEpoch : State → Nat
  onResponse : State → RpcResponse → State
  keepsEpoch : ∀ s r, clientEpoch (onResponse s r) = clientEpoch s
  ofItsId : ∀ s r, registry (onResponse s r) = registry s ∨
    ∃ key retire a, key.2 = r.requestId ∧ registry (onResponse s r) = (registry s).answer key retire a
  own : ∀ s r p, (registry s).pending.lookup (.stream, r.requestId) = some p → r.clientEpoch = clientEpoch s →
    r.callMetadata = some p.call →
      registry (onResponse s r) = (registry s).answer (.stream, r.requestId) r.terminal (.response r)

def rustReceiver : Receiver where
  State := ClientEngine
  registry := (·.registry)
  clientEpoch := (·.clientEpoch)
  onResponse := .onResponse
  keepsEpoch s r := by
    unfold ClientEngine.onResponse
    repeat' split
    all_goals rfl
  ofItsId s r := by
    unfold ClientEngine.onResponse
    repeat' split
    · exact .inl rfl
    · exact .inl rfl
    · exact .inr ⟨(.stream, r.requestId), _, _, rfl, rfl⟩
    · exact .inr ⟨(.unary, r.requestId), _, _, rfl, rfl⟩
  own s r p hp hepoch hcall := by
    simp [ClientEngine.onResponse, ClientEngine.answersThePendingCall, hp, hepoch, hcall]

def webReceiver : Receiver where
  State := PendingCalls
  registry := (·.registry)
  clientEpoch := (·.clientEpoch)
  onResponse := .deliver
  keepsEpoch s r := by
    unfold PendingCalls.deliver
    repeat' split
    all_goals rfl
  ofItsId s r := by
    unfold PendingCalls.deliver
    repeat' split
    · exact .inl rfl
    · exact .inr ⟨(.stream, r.requestId), _, _, rfl, rfl⟩
    · exact .inr ⟨(.unary, r.requestId), _, _, rfl, rfl⟩
  own s r p hp hepoch hcall := by
    simp [PendingCalls.deliver, PendingCalls.answersItsCall, hp, hepoch, hcall, RpcResponse.terminal, Bool.or_comm]

inductive Closing (origin : CallOrigin) : List RpcResponse → Prop
  | last {r : RpcResponse} : CallOrigin.mk r.requestId r.clientEpoch r.callMetadata = origin → r.terminal = true →
      Closing origin [r]
  | cons {r : RpcResponse} {rs : List RpcResponse} : CallOrigin.mk r.requestId r.clientEpoch r.callMetadata = origin →
      r.terminal = false → Closing origin rs → Closing origin (r :: rs)

variable (origin : CallOrigin) (items : List (List UInt8)) (ending : Option Status)

theorem forwardStreaming_closing (items : List (Except Status (List UInt8))) :
    Closing origin (forwardStreaming origin items) := by
  induction items with
  | nil => exact .last rfl rfl
  | cons item items ih =>
    cases item with
    | ok bytes => exact .cons rfl rfl ih
    | error status => exact .last rfl rfl

namespace Receiver

variable (R : Receiver) (s : R.State)

def run (rs : List RpcResponse) : R.State := rs.foldl R.onResponse s

def Retired (h : Nat) : Prop := ∀ key q, (R.registry s).pending.lookup key = some q → q.sender ≠ h

variable {R} {s : R.State} {requestId : Int} {p : Pending}

theorem consistent_onResponse (hs : (R.registry s).Consistent) (r : RpcResponse) :
    (R.registry (R.onResponse s r)).Consistent := by
  rcases R.ofItsId s r with h | ⟨key, retire, a, -, h⟩
  · rwa [h]
  · rw [h]
    exact hs.answer key retire a

theorem run_retired {h : Nat} (hs : R.Retired s h) (rs : List RpcResponse) :
    (R.registry (R.run s rs)).given h = (R.registry s).given h ∧ R.Retired (R.run s rs) h := by
  induction rs generalizing s with
  | nil => exact ⟨rfl, hs⟩
  | cons r rs ih =>
    have hfirst : R.Retired (R.onResponse s r) h ∧ (R.registry (R.onResponse s r)).given h = (R.registry s).given h := by
      unfold Retired
      rcases R.ofItsId s r with e | ⟨key, retire, a, -, e⟩ <;> rw [e]
      · exact ⟨hs, rfl⟩
      · exact ⟨fun key' q hq => hs key' q (Registry.lookup_of_answer hq), Registry.given_answer_of_ne (hs key) retire a⟩
    obtain ⟨hgiven, hretired⟩ := ih hfirst.1
    exact ⟨hgiven.trans hfirst.2, hretired⟩

theorem onResponse_other (hs : (R.registry s).Consistent)
    (hp : (R.registry s).pending.lookup (.stream, requestId) = some p) {r : RpcResponse} (hr : r.requestId ≠ requestId) :
    (R.registry (R.onResponse s r)).pending.lookup (.stream, requestId) = some p ∧
      (R.registry (R.onResponse s r)).given p.sender = (R.registry s).given p.sender := by
  rcases R.ofItsId s r with e | ⟨key, retire, a, hkey, e⟩
  · rw [e]
    exact ⟨hp, rfl⟩
  have hne : (Shape.stream, requestId) ≠ key := fun h => hr (hkey.symm.trans (congrArg Prod.snd h).symm)
  rw [e]
  refine ⟨(Registry.lookup_answer_of_ne hne retire a).trans hp, Registry.given_answer_of_ne ?_ retire a⟩
  intro q hq hsender
  exact hne (hs.key_unique hp hq hsender.symm)

theorem feed (hs : (R.registry s).Consistent)
    (hp : (R.registry s).pending.lookup (.stream, requestId) = some p) {rs fs : List RpcResponse}
    (hfs : Closing ⟨requestId, R.clientEpoch s, some p.call⟩ fs) (hrs : rs.filter (·.requestId = requestId) = fs) :
    (R.registry (R.run s rs)).given p.sender = (R.registry s).given p.sender ++ fs.map .response ∧
      R.Retired (R.run s rs) p.sender := by
  induction rs generalizing s fs with
  | nil =>
    rw [← hrs] at hfs
    cases hfs
  | cons r rs ih =>
    by_cases hr : r.requestId = requestId
    swap
    · obtain ⟨hp', hgiven⟩ := onResponse_other hs hp hr
      have hnext := ih (consistent_onResponse hs r) hp' (by rwa [R.keepsEpoch]) (by simpa [hr] using hrs)
      rw [hgiven] at hnext
      exact hnext
    subst hr
    have hown : ∀ {f : RpcResponse}, CallOrigin.mk f.requestId f.clientEpoch f.callMetadata =
        ⟨r.requestId, R.clientEpoch s, some p.call⟩ → f = r →
          R.registry (R.onResponse s r) = (R.registry s).answer (.stream, r.requestId) r.terminal (.response r) := by
      rintro f hf rfl
      simp only [CallOrigin.mk.injEq, true_and] at hf
      exact R.own s f p hp hf.1 hf.2
    simp only [filter_cons, decide_true, if_true] at hrs
    cases hfs with
    | @last f hf hterminal =>
      obtain ⟨rfl, hrest⟩ := cons.inj hrs
      have e := hown hf rfl
      have hret : R.Retired (R.onResponse s r) p.sender := by
        intro key q hq
        rw [e, hterminal] at hq
        exact hs.answer_retires hp hq
      obtain ⟨hgiven, hret'⟩ := run_retired hret rs
      refine ⟨hgiven.trans ?_, hret'⟩
      rw [e, Registry.given_answer hp]
      rfl
    | @cons f fs hf hterminal hfs =>
      obtain ⟨rfl, hrest⟩ := cons.inj hrs
      have e := hown hf rfl
      have hp' : (R.registry (R.onResponse s r)).pending.lookup (.stream, r.requestId) = some p := by
        simp [e, Registry.answer, hp, hterminal]
      have hnext := ih (consistent_onResponse hs r) hp' (by rwa [R.keepsEpoch]) hrest
      refine ⟨hnext.1.trans ?_, hnext.2⟩
      rw [e, Registry.given_answer hp, append_assoc]
      rfl

end Receiver

/-! ## Both callers get what the handler produced -/

/-- A stream just registered, and responses of which those to its id are the frames of a body. -/
structure Fed (R : Receiver) (items : List (List UInt8)) (ending : Option Status) where
  start : R.State
  requestId : Int
  pending : Pending
  responses : List RpcResponse
  consistent : (R.registry start).Consistent
  registered : (R.registry start).pending.lookup (.stream, requestId) = some pending
  fresh : (R.registry start).given pending.sender = []
  frames : responses.filter (·.requestId = requestId) =
    framesOf ⟨requestId, R.clientEpoch start, some pending.call⟩ items ending

namespace Fed

variable {R : Receiver} {items : List (List UInt8)} {ending : Option Status}
  (f : Fed R items ending)

def finish : R.State := R.run f.start f.responses

def given (f : Fed R items ending) : List Answer := (R.registry f.finish).given f.pending.sender

theorem given_eq :
    f.given = (framesOf ⟨f.requestId, R.clientEpoch f.start, some f.pending.call⟩ items ending).map .response := by
  have h := (Receiver.feed f.consistent f.registered (forwardStreaming_closing _ _) f.frames).1
  rw [f.fresh] at h
  exact h

theorem retired : R.Retired f.finish f.pending.sender :=
  (Receiver.feed f.consistent f.registered (forwardStreaming_closing _ _) f.frames).2

end Fed

/-- The Rust client's caller gets the items, then the error if there was one, and then the end. -/
def RustFaithful (items : List (List UInt8)) (ending : Option Status) : Prop :=
  ∀ f : Fed rustReceiver items ending,
    f.given.filterMap sentFor = items.map .ok ++ ending.toList.map .error ∧
      rustReceiver.Retired f.finish f.pending.sender

def SameEnding (ending : Option Status) : Outcome (List UInt8) ConnectError → Prop
  | .item _ => False
  | .done => ending = none
  | .thrown e => ∃ status, ending = some status ∧ e.message = status.message ∧ status.code.toConnect = some e.code

/-- However its reads fall between the frames, a reader of the web client gets the items, and from then on the end. -/
def WebFaithful (codeFromString : String → Option ConnectCode) (items : List (List UInt8)) (ending : Option Status) : Prop :=
  ∀ f : Fed webReceiver items ending, ∀ events, events.filterMap id = f.given.flatMap (putsFor codeFromString) →
    ∃ last, SameEnding ending last ∧
      (AsyncQueue.run events).outcomes = (items.take (reads events)).map .item ++
        List.replicate (reads events - items.length) last

theorem framesOf_cons (bytes : List UInt8) (items : List (List UInt8)) (ending : Option Status) :
    framesOf origin (bytes :: items) ending = dataResponse origin bytes false :: framesOf origin items ending := rfl

theorem sent_framesOf :
    ((framesOf origin items ending).map .response).filterMap sentFor = items.map .ok ++ ending.toList.map .error := by
  induction items with
  | nil =>
    cases ending with
    | none => rfl
    | some status => simp [framesOf, forwardResponseBody, forwardStreaming, sentFor, sent, errorResponse]
  | cons bytes items ih =>
    rw [framesOf_cons, map_cons, filterMap_cons, ih]
    rfl

theorem rust_faithful : RustFaithful items ending := by
  intro f
  rw [f.given_eq]
  exact ⟨sent_framesOf _ items ending, f.retired⟩

def webEnding : Option Status → Outcome (List UInt8) ConnectError
  | none => .done
  | some status => .thrown ⟨status.message, status.code.toConnect.getD .unknown⟩

include hcodes

theorem script_framesOf :
    script (((framesOf origin items ending).map .response).flatMap (putsFor codeFromString)) =
      (items.filter (· ≠ []), some (webEnding ending)) := by
  induction items with
  | nil =>
    cases ending with
    | none => rfl
    | some status =>
      simp [framesOf, forwardResponseBody, forwardStreaming, putsFor, errorResponse, rpcErrorToConnectError,
        script, webEnding, codeFromString_asStr hcodes]
  | cons bytes items ih =>
    rw [framesOf_cons, map_cons, flatMap_cons]
    cases bytes with
    | nil => simpa [putsFor, dataResponse] using ih
    | cons b bytes => simp [putsFor, dataResponse, script, ih]

omit hcodes in
theorem sameEnding_webEnding :
    SameEnding ending (webEnding ending) ↔ ∀ status, ending = some status → status.code ≠ .ok := by
  cases ending with
  | none => simp [webEnding, SameEnding]
  | some status =>
    obtain ⟨code, message⟩ := status
    cases code <;> simp [webEnding, SameEnding, Code.toConnect]

/-- What a reader of the web client gets: every item but the empty ones. -/
theorem web_outcomes {items : List (List UInt8)} {ending : Option Status} (f : Fed webReceiver items ending)
    {events : List (Option (Put (List UInt8) ConnectError))}
    (h : events.filterMap id = f.given.flatMap (putsFor codeFromString)) :
    (AsyncQueue.run events).outcomes = ((items.filter (· ≠ [])).take (reads events)).map .item ++
      List.replicate (reads events - (items.filter (· ≠ [])).length) (webEnding ending) := by
  rw [AsyncQueue.run_eq, AsyncQueue.after, h, f.given_eq, script_framesOf hcodes]
  simp

omit hcodes

theorem Closing.requestId {origin : CallOrigin} {rs : List RpcResponse} (h : Closing origin rs) :
    ∀ r ∈ rs, r.requestId = origin.requestId := by
  induction h with
  | last hr _ =>
    intro r hmem
    rw [mem_singleton.mp hmem, ← hr]
  | cons hr _ _ ih =>
    exact forall_mem_cons.mpr ⟨by rw [← hr], ih⟩

/-- A page whose first call is a stream, and the frames of its answer. -/
def firstCall (items : List (List UInt8)) (ending : Option Status) : Fed webReceiver items ending where
  start := (PendingCalls.new 1).openCall .stream ⟨"terminal.TerminalService", "StreamTerminalIO"⟩
  requestId := 1
  pending := ⟨⟨"terminal.TerminalService", "StreamTerminalIO"⟩, 0⟩
  responses := framesOf ⟨1, 1, some ⟨"terminal.TerminalService", "StreamTerminalIO"⟩⟩ items ending
  consistent := Registry.empty_consistent.register _ _ _
  registered := by decide
  fresh := rfl
  frames := by
    refine filter_eq_self.mpr fun r hr => ?_
    simpa using (forwardStreaming_closing _ _).requestId r hr

def itemOf : Outcome (List UInt8) ConnectError → Option (List UInt8)
  | .item bytes => some bytes
  | _ => none

theorem filterMap_itemOf (n : Nat) {last : Outcome (List UInt8) ConnectError} (h : itemOf last = none) :
    (items.map Outcome.item ++ List.replicate n last).filterMap itemOf = items := by
  have hitems : ((items.map Outcome.item).filterMap itemOf) = items := by
    rw [filterMap_map]
    exact filterMap_some
  rw [filterMap_append, hitems, filterMap_replicate_of_none h, append_nil]

theorem itemOf_webEnding : itemOf (webEnding ending) = none := by
  cases ending <;> rfl

theorem web_faithful_iff (hcodes : KnowsCodes codeFromString) :
    WebFaithful codeFromString items ending ↔
      (∀ bytes ∈ items, bytes ≠ []) ∧ ∀ status, ending = some status → status.code ≠ .ok := by
  rw [← sameEnding_webEnding]
  constructor
  · intro h
    -- all frames first, and then one read more than there are items
    have hf := h (firstCall items ending)
      (((firstCall items ending).given.flatMap (putsFor codeFromString)).map some ++ List.replicate (items.length + 1) none) (by simp)
    have hreads : reads ((((firstCall items ending).given.flatMap (putsFor codeFromString)).map some ++
        List.replicate (items.length + 1) none)) = items.length + 1 := by
      simp [reads, countP_map, Function.comp_def, countP_replicate]
    obtain ⟨last, hlast, houtcomes⟩ := hf
    rw [web_outcomes hcodes (firstCall items ending) (by simp), hreads] at houtcomes
    have hle : (items.filter (· ≠ [])).length ≤ items.length := length_filter_le _ _
    rw [take_of_length_le (by omega), take_of_length_le (by omega)] at houtcomes
    have hnone : itemOf last = none := by
      cases last with
      | item bytes => exact absurd hlast id
      | _ => rfl
    have hitems : items.filter (· ≠ []) = items := by
      have := congrArg (List.filterMap itemOf) houtcomes
      rwa [filterMap_itemOf _ _ (itemOf_webEnding ending), filterMap_itemOf _ _ hnone] at this
    refine ⟨fun bytes hmem => by simpa using filter_eq_self.mp hitems bytes hmem, ?_⟩
    rw [hitems] at houtcomes
    have hend : webEnding ending = last := by simpa using append_cancel_left houtcomes
    rwa [hend]
  · rintro ⟨hitems, hend⟩ f events hevents
    refine ⟨webEnding ending, hend, ?_⟩
    have hfilter : items.filter (· ≠ []) = items := filter_eq_self.mpr (by simpa using hitems)
    rw [web_outcomes hcodes f hevents, hfilter]

/-- Both callers get what the handler produced exactly when no item is without bytes, and the error, if there is one, is
    one. -/
theorem response_stream_iff {codeFromString : String → Option ConnectCode} (hcodes : KnowsCodes codeFromString)
    (items : List (List UInt8)) (ending : Option Status) :
    (RustFaithful items ending ∧ WebFaithful codeFromString items ending) ↔
      (∀ bytes ∈ items, bytes ≠ []) ∧ ∀ status, ending = some status → status.code ≠ .ok := by
  rw [web_faithful_iff items ending hcodes]
  exact and_iff_right (rust_faithful items ending)

/-- A table of the names, as the runs below use it. -/
def codeNamed (s : String) : Option ConnectCode :=
  [.canceled, .unknown, .invalidArgument, .deadlineExceeded, .notFound, .alreadyExists, .permissionDenied,
    .resourceExhausted, .failedPrecondition, .aborted, .outOfRange, .unimplemented, .internal, .unavailable, .dataLoss,
    .unauthenticated].find? (·.name = s)

theorem codeNamed_knowsCodes : KnowsCodes codeNamed := ⟨fun code => by cases code <;> decide, by decide⟩

theorem response_stream_of_one_item_and_an_error :
    RustFaithful [[1]] (some ⟨.notFound, "gone"⟩) ∧ WebFaithful codeNamed [[1]] (some ⟨.notFound, "gone"⟩) :=
  (response_stream_iff codeNamed_knowsCodes _ _).mpr (by simp)

/-- Three items of which the second has no bytes: the reader is given two, and the end in the third's place. -/
theorem an_empty_item_is_lost :
    ¬ WebFaithful codeNamed [[1], [], [2]] none ∧
      (AsyncQueue.run (((firstCall [[1], [], [2]] none).given.flatMap (putsFor codeNamed)).map some ++
        [none, none, none])).outcomes = [.item [1], .item [2], .done] := by
  constructor
  · rw [web_faithful_iff _ _ codeNamed_knowsCodes]
    simp
  · decide

end TddyCoder.Rpc

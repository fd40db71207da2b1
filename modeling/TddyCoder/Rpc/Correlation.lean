/-
  TddyCoder.Rpc.Correlation — the calls a client waits for answers to, as both of its
  implementations keep them (`ClientEngine` of `packages/tddy-rpc/src/client_engine.rs`,
  `PendingCalls` of `packages/tddy-rpc-web/src/pending-calls.ts`).

  Each keeps two maps by request id, one for calls with a single answer and one for streams;
  here they are one map, keyed by that shape and the id. What a caller holds (a oneshot or
  mpsc receiver, a promise, a queue) is named by the call's place in the order of
  registration, and `log` lists what each was given, in order.
-/

import TddyCoder.Machine.Ledger
import TddyCoder.Rpc.Envelope
import TddyCoder.Table.Assoc

namespace TddyCoder.Rpc

open Machine Table

inductive Shape
  | unary
  | stream
  deriving DecidableEq

structure OpenCall where
  requestId : Int
  call : CallMetadata
  shape : Shape
  deriving DecidableEq

structure Pending where
  call : CallMetadata
  sender : Nat
  deriving DecidableEq

/-- The codes of Connect, the web client's RPC library. -/
inductive ConnectCode
  | canceled | unknown | invalidArgument | deadlineExceeded | notFound | alreadyExists | permissionDenied
  | resourceExhausted | failedPrecondition | aborted | outOfRange | unimplemented | internal | unavailable
  | dataLoss | unauthenticated
  deriving DecidableEq

structure ConnectError where
  message : String
  code : ConnectCode
  deriving DecidableEq

/-- What ends or advances a call: a response, or the client itself. -/
inductive Answer
  | response (response : RpcResponse)
  | failed (error : ConnectError)
  | cancelled
  deriving DecidableEq

structure Registry where
  pending : Assoc (Shape × Int) Pending
  calls : List OpenCall
  log : List (Nat × Answer)

namespace Registry

def empty : Registry := ⟨∅, [], []⟩

def register (s : Registry) (shape : Shape) (requestId : Int) (call : CallMetadata) : Registry where
  pending := s.pending.insert (shape, requestId) ⟨call, s.calls.length⟩
  calls := s.calls ++ [⟨requestId, call, shape⟩]
  log := s.log

/-- Give the call under a key an answer, and take it out of the map if it is retired; nothing where there is none. -/
def answer (s : Registry) (key : Shape × Int) (retire : Bool) (a : Answer) : Registry :=
  match s.pending.lookup key with
  | none => s
  | some p =>
    { s with
      pending := if retire then s.pending.erase key else s.pending
      log := s.log ++ [(p.sender, a)] }

def given (s : Registry) (h : Nat) : List Answer := (s.log.filter (·.1 = h)).map (·.2)

end Registry

def RpcResponse.terminal (r : RpcResponse) : Bool := r.endOfStream || r.error.isSome

variable (clientEpoch : Nat) (k : OpenCall)

def AnswersCall (r : RpcResponse) : Prop :=
  r.requestId = k.requestId ∧ r.clientEpoch = clientEpoch ∧ (r.callMetadata = none ∨ r.callMetadata = some k.call)

/-- What each client keeps to: a call is advanced only by responses that answer it, a call with a single answer gets at
    most one, and nothing reaches a stream after its last response. -/
structure Attributed (s : Registry) : Prop where
  answers : ∀ h r, (h, .response r) ∈ s.log → ∃ k, s.calls[h]? = some k ∧ AnswersCall clientEpoch k r
  once : ∀ h k, s.calls[h]? = some k → k.shape = .unary → (s.given h).length ≤ 1
  last : ∀ before h r after k, s.log = before ++ (h, .response r) :: after → s.calls[h]? = some k →
    k.shape = .stream → r.terminal = true → ∀ a, (h, a) ∉ after

/-! ## The ledger of a registry -/

/-- A failure or a cancellation fits any call. -/
def Fits : Answer → Prop
  | .response r => AnswersCall clientEpoch k r
  | .failed _ => True
  | .cancelled => True

def final : Answer → Bool
  | .response r => k.shape = .unary || r.terminal
  | .failed _ => true
  | .cancelled => true

namespace Registry

/-- Every entry of the map is of a registration, made under its key. -/
def Consistent (s : Registry) : Prop :=
  ∀ key p, s.pending.lookup key = some p → s.calls[p.sender]? = some ⟨key.2, p.call, key.1⟩

def ledger (s : Registry) : Ledger OpenCall Answer :=
  ⟨s.calls, s.log, {h | ∃ key p, s.pending.lookup key = some p ∧ p.sender = h}⟩

variable {s : Registry} {clientEpoch : Nat}

variable {key : Shape × Int} {p : Pending}

theorem Consistent.sender_lt (hs : s.Consistent) (h : s.pending.lookup key = some p) : p.sender < s.calls.length :=
  (List.getElem?_eq_some_iff.mp (hs key p h)).1

variable {key' : Shape × Int} {a : Answer} {retire : Bool} {h : Nat}

theorem Consistent.key_unique (hs : s.Consistent) {p' : Pending}
    (h : s.pending.lookup key = some p) (h' : s.pending.lookup key' = some p') (e : p.sender = p'.sender) :
    key = key' := by
  have hcall := (hs key p h).symm.trans ((congrArg (s.calls[·]?) e).trans (hs key' p' h'))
  simp only [Option.some.injEq, OpenCall.mk.injEq] at hcall
  exact Prod.ext hcall.2.2 hcall.1

theorem empty_consistent : empty.Consistent := by
  intro key p h
  cases h

theorem Consistent.register (hs : s.Consistent) (shape : Shape) (requestId : Int) (call : CallMetadata) :
    (s.register shape requestId call).Consistent := by
  intro key p h
  rcases lookup_insert_eq_some.mp h with ⟨rfl, rfl⟩ | ⟨-, h⟩
  · simp [Registry.register]
  · exact (List.getElem?_append_left (hs.sender_lt h)).trans (hs key p h)

theorem register_refines (s : Registry) (shape : Shape) (requestId : Int) (call : CallMetadata) :
    Ledger.Step (Fits clientEpoch) final s.ledger (s.register shape requestId call).ledger := by
  refine .opened ⟨requestId, call, shape⟩ rfl rfl ?_
  intro h ⟨key, p, hp, hsender⟩
  rcases lookup_insert_eq_some.mp hp with ⟨-, rfl⟩ | ⟨-, hp⟩
  · exact .inr hsender.symm
  · exact .inl ⟨key, p, hp, hsender⟩

theorem lookup_of_answer
    (h : (s.answer key retire a).pending.lookup key' = some p) : s.pending.lookup key' = some p := by
  unfold answer at h
  split at h
  · exact h
  · split at h
    · exact (lookup_erase_eq_some.mp h).1
    · exact h

theorem lookup_answer_of_ne (h : key' ≠ key) (retire : Bool) (a : Answer) :
    (s.answer key retire a).pending.lookup key' = s.pending.lookup key' := by
  unfold answer
  split
  · rfl
  · split
    · exact AList.lookup_erase_ne h
    · rfl

theorem given_answer (hp : s.pending.lookup key = some p) (retire : Bool) (a : Answer) :
    (s.answer key retire a).given p.sender = s.given p.sender ++ [a] := by
  simp [given, answer, hp]

theorem given_answer_of_ne
    (hne : ∀ p, s.pending.lookup key = some p → p.sender ≠ h) (retire : Bool) (a : Answer) :
    (s.answer key retire a).given h = s.given h := by
  unfold answer
  split
  · rfl
  · rename_i p hp
    simp [given, hne p hp]

theorem answer_calls (key : Shape × Int) (retire : Bool) (a : Answer) : (s.answer key retire a).calls = s.calls := by
  unfold answer
  split <;> rfl

theorem Consistent.answer (hs : s.Consistent) (key : Shape × Int) (retire : Bool) (a : Answer) :
    (s.answer key retire a).Consistent := by
  intro key' p h
  rw [answer_calls]
  exact hs key' p (lookup_of_answer h)

theorem Consistent.answer_retires (hs : s.Consistent) {q : Pending}
    (hp : s.pending.lookup key = some p) (hq : (s.answer key true a).pending.lookup key' = some q) :
    q.sender ≠ p.sender := by
  intro hsender
  have hkey := hs.key_unique (lookup_of_answer hq) hp hsender
  simp only [Registry.answer, hp, if_true] at hq
  exact (lookup_erase_eq_some.mp hq).2 hkey

theorem answer_refines (hs : s.Consistent)
    (hfits : ∀ p, s.pending.lookup key = some p → Fits clientEpoch ⟨key.2, p.call, key.1⟩ a)
    (hfinal : ∀ p, s.pending.lookup key = some p → final ⟨key.2, p.call, key.1⟩ a = true → retire = true) :
    Ledger.Step (Fits clientEpoch) final s.ledger (s.answer key retire a).ledger := by
  rcases hp : s.pending.lookup key with _ | p
  · have hsame : s.answer key retire a = s := by simp [Registry.answer, hp]
    rw [hsame]
    exact .dropped rfl rfl fun _ h => h
  refine .answered p.sender ⟨key.2, p.call, key.1⟩ a ⟨key, p, hp, rfl⟩ (hs key p hp) (hfits p hp) (answer_calls ..)
    ?_ ?_ ?_
  · simp [ledger, Registry.answer, hp]
  · intro h ⟨key', p', hp', hsender⟩
    exact ⟨key', p', lookup_of_answer hp', hsender⟩
  · intro hfin ⟨key', p', hp', hsender⟩
    rw [hfinal p hp hfin] at hp'
    exact hs.answer_retires hp hp' hsender

theorem given_length_le_one {k : OpenCall} (hl : s.ledger.Sound (Fits clientEpoch) final)
    (hk : s.calls[h]? = some k) (hunary : k.shape = .unary) : (s.given h).length ≤ 1 := by
  have hall : ∀ a, final k a = true := by
    intro a
    cases a <;> simp [final, hunary]
  rw [given, List.length_map]
  by_contra hlen
  -- two answers to one call: the second comes after a final one
  obtain ⟨e, e', rest, hfilter⟩ : ∃ e e' rest, s.log.filter (·.1 = h) = e :: e' :: rest := by
    rcases hf : s.log.filter (·.1 = h) with _ | ⟨e, _ | ⟨e', rest⟩⟩
    · simp [hf] at hlen
    · simp [hf] at hlen
    · exact ⟨e, e', rest, hf⟩
  obtain ⟨before, after, hlog, -, he, hafter⟩ := List.filter_eq_cons_iff.mp hfilter
  have he' : e' ∈ after.filter (·.1 = h) := by rw [hafter]; exact List.mem_cons_self
  obtain ⟨hmem, hh⟩ := List.mem_filter.mp he'
  have he1 : e.1 = h := by simpa using he
  have hh1 : e'.1 = h := by simpa using hh
  refine hl.last before h e.2 after k ?_ hk (hall _) e'.2 (by rw [← hh1]; exact hmem)
  rw [← he1]
  exact hlog

theorem attributed_of_sound (hl : s.ledger.Sound (Fits clientEpoch) final) : Attributed clientEpoch s where
  answers h r hmem := hl.fits h (.response r) hmem
  once _ _ hk hunary := given_length_le_one hl hk hunary
  last before h r after k hsplit hk _ hterminal :=
    hl.last before h (.response r) after k hsplit hk (by simp [final, hterminal])

theorem empty_sound : empty.ledger.Sound (Fits clientEpoch) final := by
  refine ⟨?_, ?_, ?_, ?_⟩
  · intro h ⟨key, p, hp, _⟩
    cases hp
  · intro h a hmem
    cases hmem
  · intro h a k hmem
    cases hmem
  · intro before h a after k hsplit
    simp [ledger, empty] at hsplit

end Registry

end TddyCoder.Rpc

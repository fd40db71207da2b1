/-
  TddyCoder.ToolCalls.ResultFrames — a completed tool result on its way to the caller
  (`packages/tddy-daemon-rpc/src/exec_tool/result_frames.rs`: `exec_tool_result_frames`) and
  the two that put it together again: the session tool client
  (`packages/tddy-session-tool-client/src/rpc_transports.rs`:
  `dispatch_request_via_streaming_rpc`) and an agent's clone on another daemon
  (`packages/tddy-session-agents/src/session_agent_clone.rs`: `execute_tool_on_facilitator`).

  The result is cut every `execToolFrameBytes` bytes, wherever characters lie. The client reads
  the bytes as text once the last frame is there, the clone each frame by itself. What
  `serde_json` writes for an error object and what `Utf8Error` says are parameters.

  Proved: `a_streamed_result_arrives_as_produced_iff`; `a_character_across_frames_is_replaced`
  by the clone.
-/

import TddyCoder.Bytes.Wire
import TddyCoder.Rpc.Envelope
import TddyCoder.Text.Utf8

namespace TddyCoder.ToolCalls

open Bytes Text List
open Rpc (Status)

/-! ## Frames -/

def hostDocumentFrameBytes : Nat := 48 * 1024

def execToolFrameBytes : Nat := hostDocumentFrameBytes

structure ExecuteToolResponse where
  resultJson : String
  isError : Bool
  errorMessage : String
  jobId : String
  jobRunning : Bool

structure ExecuteToolChunk where
  resultChunk : List UInt8 := []
  isError : Bool := false
  errorMessage : String := ""
  jobId : String := ""
  jobRunning : Bool := false
  last : Bool := false

variable (response : ExecuteToolResponse)

def ExecuteToolResponse.bytes : List UInt8 := encode response.resultJson.toList

def execToolResultFrames : List ExecuteToolChunk :=
  let frames := (chunks execToolFrameBytes response.bytes).map fun chunk => { resultChunk := chunk : ExecuteToolChunk }
  let frames := if frames.isEmpty then [{}] else frames
  frames.dropLast ++
    [{ frames.getLastD {} with
        isError := response.isError
        errorMessage := response.errorMessage
        jobId := response.jobId
        jobRunning := response.jobRunning
        last := true }]

/-! ## Receiving -/

inductive Received
  | frame (chunk : ExecuteToolChunk)
  | undecodable (error : String)
  | failed (message : String)
  /-- The clone's budget for silence runs out. -/
  | silence

/-- What is written by code that is not the repository's. -/
structure Texts where
  /-- `{"error": …, "is_error": true}` as text. -/
  errorObject : String → String
  utf8Error : List UInt8 → String

structure DispatchBody where
  resultJson : Option String
  isError : Option Bool
  errorMessage : Option String

def formatToolDispatchResult (T : Texts) (body : DispatchBody) : String :=
  if body.isError.getD false then T.errorObject (body.errorMessage.getD "relay error")
  else body.resultJson.getD "\x7b\x7d"

def truncatedMessage (toolName : String) (received : Nat) : String :=
  "tool result truncated: " ++ toolName ++ " stream ended after " ++ toString received ++
    " bytes without its final frame"

def clientLoop (T : Texts) (toolName : String) (result : List UInt8) : List Received → String
  | [] => T.errorObject (truncatedMessage toolName result.length)
  | .failed message :: _ => T.errorObject ("tool rpc stream: " ++ message)
  | .undecodable error :: _ => T.errorObject ("tool rpc decode frame: " ++ error)
  | .silence :: rest => clientLoop T toolName result rest
  | .frame chunk :: rest =>
    let result := result ++ chunk.resultChunk
    if chunk.last then
      match fromUtf8 result with
      | none => T.errorObject ("tool result frames did not reassemble as UTF-8: " ++ T.utf8Error result)
      | some text => formatToolDispatchResult T ⟨some (String.ofList text), some chunk.isError, some chunk.errorMessage⟩
    else clientLoop T toolName result rest

def dispatchRequestViaStreamingRpc (T : Texts) (toolName : String) : Except String (List Received) → String
  | .error message => T.errorObject ("tool rpc call: " ++ message)
  | .ok received => clientLoop T toolName [] received

def cloneRpcSilenceBudgetSecs : Nat := 30

def failedOnDaemon (toolName daemon message : String) : Status :=
  ⟨.internal, toolName ++ " failed on daemon " ++ daemon ++ ": " ++ message⟩

/-- The clone's loop over frames; it reads on to the end of the stream. -/
def cloneLoop (toolName daemon : String) (result : String) (sawLast : Bool) : List Received → Except Status String
  | [] =>
    if sawLast then .ok result
    else .error ⟨.internal, toolName ++ "'s result from daemon " ++ daemon ++
      " ended without its final frame, so it was truncated rather than completed"⟩
  | .failed message :: _ =>
    .error ⟨.unavailable, "proxying " ++ toolName ++ " to daemon " ++ daemon ++ " failed mid-stream: " ++ message⟩
  | .undecodable error :: _ => .error ⟨.internal, "decode ExecuteToolChunk from facilitator: " ++ error⟩
  | .silence :: _ =>
    .error ⟨.deadlineExceeded, "daemon " ++ daemon ++ " sent nothing on " ++ toolName ++ "'s result for " ++
      toString cloneRpcSilenceBudgetSecs ++ "s"⟩
  | .frame chunk :: rest =>
    let result := result ++ fromUtf8Lossy chunk.resultChunk
    if chunk.isError then .error (failedOnDaemon toolName daemon chunk.errorMessage)
    else cloneLoop toolName daemon result (sawLast || chunk.last) rest

def executeToolOnFacilitator (toolName daemon : String) : Except String (List Received) → Except Status String
  | .error message =>
    .error ⟨.unavailable, "proxying " ++ toolName ++ " to daemon " ++ daemon ++ " failed: " ++ message⟩
  | .ok received => cloneLoop toolName daemon "" false received

def delivered (frames : List ExecuteToolChunk) : Except String (List Received) := .ok (frames.map .frame)

/-! ## What the frames are -/

/-- A frame before the last. -/
def inner (chunk : List UInt8) : ExecuteToolChunk := { resultChunk := chunk }

def ExecuteToolResponse.final (chunk : List UInt8) : ExecuteToolChunk :=
  ⟨chunk, response.isError, response.errorMessage, response.jobId, response.jobRunning, true⟩

theorem execToolFrameBytes_pos : 0 < execToolFrameBytes := by decide

open ExecuteToolResponse

theorem execToolResultFrames_eq :
    ∃ before piece, execToolResultFrames response = before.map inner ++ [response.final piece] ∧
      (before ++ [piece] = chunks execToolFrameBytes response.bytes ∨
        response.bytes = [] ∧ before = [] ∧ piece = []) := by
  by_cases hempty : response.bytes = []
  · refine ⟨[], [], ?_, .inr ⟨hempty, rfl, rfl⟩⟩
    rw [execToolResultFrames, hempty, chunks_nil execToolFrameBytes_pos]
    rfl
  have hne : chunks execToolFrameBytes response.bytes ≠ [] := by
    rw [chunks_of_ne_nil execToolFrameBytes_pos hempty]
    exact cons_ne_nil _ _
  obtain ⟨before, piece, heq⟩ := (eq_nil_or_concat _).resolve_left hne
  refine ⟨before, piece, ?_, .inl (by rw [heq, concat_eq_append])⟩
  rw [execToolResultFrames, heq]
  simp [inner, final]

variable {response : ExecuteToolResponse} {before : List (List UInt8)} {piece : List UInt8}

theorem flatten_pieces (h : before ++ [piece] = chunks execToolFrameBytes response.bytes ∨
      response.bytes = [] ∧ before = [] ∧ piece = []) :
    response.bytes = (before ++ [piece]).flatten := by
  obtain h | ⟨hempty, rfl, rfl⟩ := h
  · rw [h, flatten_chunks execToolFrameBytes_pos]
  · exact hempty

/-! ## The client -/

theorem clientLoop_inner (T : Texts) (toolName : String) (result : List UInt8) (before : List (List UInt8))
    (rest : List Received) :
    clientLoop T toolName result ((before.map inner).map .frame ++ rest) =
      clientLoop T toolName (result ++ before.flatten) rest := by
  induction before generalizing result with
  | nil => simp
  | cons piece before ih =>
    show clientLoop T toolName (result ++ piece) ((before.map inner).map .frame ++ rest) = _
    rw [ih, flatten_cons, append_assoc]

theorem client_receives (T : Texts) (toolName : String) (response : ExecuteToolResponse) :
    dispatchRequestViaStreamingRpc T toolName (delivered (execToolResultFrames response)) =
      if response.isError then T.errorObject response.errorMessage else response.resultJson := by
  obtain ⟨before, piece, hframes, hpieces⟩ := execToolResultFrames_eq response
  have hall : before.flatten ++ piece = response.bytes := by
    rw [flatten_pieces hpieces, flatten_append, flatten_singleton]
  rw [hframes, delivered, dispatchRequestViaStreamingRpc, map_append, clientLoop_inner, nil_append]
  show (match fromUtf8 (before.flatten ++ piece) with | none => _ | some text => _) = _
  rw [hall, bytes, fromUtf8_encode]
  simp [formatToolDispatchResult, final]

/-! ## The clone -/

theorem cloneLoop_inner (toolName daemon : String) (result : String) (before : List (List UInt8))
    (rest : List Received) :
    cloneLoop toolName daemon result false ((before.map inner).map .frame ++ rest) =
      cloneLoop toolName daemon (result ++ String.ofList (before.flatMap (decodeLossy none))) false rest := by
  induction before generalizing result with
  | nil => simp
  | cons piece before ih =>
    show cloneLoop toolName daemon (result ++ fromUtf8Lossy piece) false ((before.map inner).map .frame ++ rest) = _
    rw [ih, flatMap_cons, String.ofList_append, fromUtf8Lossy, String.append_assoc]

theorem clone_receives (toolName daemon : String)
    (hframes : execToolResultFrames response = before.map inner ++ [response.final piece]) :
    executeToolOnFacilitator toolName daemon (delivered (execToolResultFrames response)) =
      if response.isError then .error (failedOnDaemon toolName daemon response.errorMessage)
      else .ok (String.ofList ((before ++ [piece]).flatMap (decodeLossy none))) := by
  rw [hframes, delivered, executeToolOnFacilitator, map_append, cloneLoop_inner]
  show (if response.isError then _ else Except.ok _) = _
  simp [fromUtf8Lossy, final]

/-! ## A stream cut short -/

theorem cut_short {sent : List ExecuteToolChunk}
    (hsent : sent <+: execToolResultFrames response) (hcut : sent ≠ execToolResultFrames response) :
    ∃ before : List (List UInt8), sent = before.map inner := by
  obtain ⟨before, piece, hframes, -⟩ := execToolResultFrames_eq response
  rw [hframes] at hsent hcut
  have hinner : sent <+: before.map inner := (prefix_concat_iff.mp hsent).resolve_left hcut
  rw [prefix_iff_eq_take.mp hinner, ← map_take]
  exact ⟨_, rfl⟩

def received (sent : List ExecuteToolChunk) : Nat := (sent.map (·.resultChunk.length)).sum

/-! ## Both -/

/-- What either consumer should make of a response, and of a stream that ends before its last frame. -/
structure ArrivesAsProduced (T : Texts) (toolName daemon : String) (response : ExecuteToolResponse) : Prop where
  client : dispatchRequestViaStreamingRpc T toolName (delivered (execToolResultFrames response)) =
    if response.isError then T.errorObject response.errorMessage else response.resultJson
  clone : executeToolOnFacilitator toolName daemon (delivered (execToolResultFrames response)) =
    if response.isError then .error (failedOnDaemon toolName daemon response.errorMessage)
    else .ok response.resultJson
  clientCut : ∀ sent, sent <+: execToolResultFrames response → sent ≠ execToolResultFrames response →
    dispatchRequestViaStreamingRpc T toolName (delivered sent) =
      T.errorObject (truncatedMessage toolName (received sent))
  cloneCut : ∀ sent, sent <+: execToolResultFrames response → sent ≠ execToolResultFrames response →
    ∃ status, executeToolOnFacilitator toolName daemon (delivered sent) = .error status

/-- No frame after the first begins inside a character. -/
def CutBetweenCharacters (response : ExecuteToolResponse) : Prop :=
  ∀ k b, response.bytes[k * execToolFrameBytes]? = some b → isContinuation b = false

theorem clone_reads_iff (response : ExecuteToolResponse)
    (hpieces : before ++ [piece] = chunks execToolFrameBytes response.bytes ∨
      response.bytes = [] ∧ before = [] ∧ piece = []) :
    String.ofList ((before ++ [piece]).flatMap (decodeLossy none)) = response.resultJson ↔
      CutBetweenCharacters response := by
  have hflat : encode response.resultJson.toList = (before ++ [piece]).flatten := flatten_pieces hpieces
  have htext : String.ofList ((before ++ [piece]).flatMap (decodeLossy none)) = response.resultJson ↔
      (before ++ [piece]).flatMap (decodeLossy none) = response.resultJson.toList := by
    constructor
    · intro h
      rw [← h, String.toList_ofList]
    · intro h
      rw [h, String.ofList_toList]
  rw [htext, decodeLossy_pieces_iff hflat]
  obtain h | ⟨hempty, rfl, rfl⟩ := hpieces
  · rw [h]
    constructor
    · intro hheads k b hb
      obtain ⟨hlt, -⟩ := List.getElem?_eq_some_iff.mp hb
      refine hheads _ (mem_map.mpr ⟨k, mem_range.mpr ?_, rfl⟩) b ?_
      · rw [Nat.lt_div_iff_mul_lt execToolFrameBytes_pos]
        have := execToolFrameBytes_pos
        omega
      · rw [head?_take, if_neg (Nat.ne_of_gt execToolFrameBytes_pos), head?_drop]
        exact hb
    · intro hcut piece hpiece b hb
      obtain ⟨k, -, rfl⟩ := mem_map.mp hpiece
      rw [head?_take, if_neg (Nat.ne_of_gt execToolFrameBytes_pos), head?_drop] at hb
      exact hcut k b hb
  · constructor
    · intro _ k b hb
      rw [hempty] at hb
      cases hb
    intro _ piece hpiece b hb
    rw [nil_append, mem_singleton] at hpiece
    subst hpiece
    cases hb

/-- A response reaches both consumers as it was produced exactly if it is an error or its result is cut between
    characters. -/
theorem a_streamed_result_arrives_as_produced_iff (T : Texts) (toolName daemon : String)
    (response : ExecuteToolResponse) :
    ArrivesAsProduced T toolName daemon response ↔ (response.isError = true ∨ CutBetweenCharacters response) := by
  obtain ⟨before, piece, hframes, hpieces⟩ := execToolResultFrames_eq response
  have hclone := clone_receives toolName daemon hframes
  have hreads := clone_reads_iff response hpieces
  constructor
  · intro arrives
    by_cases herror : response.isError = true
    · exact .inl herror
    · have hsame := arrives.clone
      rw [hclone, if_neg herror, if_neg herror] at hsame
      exact .inr (hreads.mp (Except.ok.inj hsame))
  intro hcond
  refine ⟨client_receives T toolName response, ?_, ?_, ?_⟩
  · rw [hclone]
    by_cases herror : response.isError = true
    · rw [if_pos herror, if_pos herror]
    · rw [if_neg herror, if_neg herror, hreads.mpr (hcond.resolve_left herror)]
  · intro sent hsent hcut
    obtain ⟨pieces, rfl⟩ := cut_short hsent hcut
    have h := clientLoop_inner T toolName [] pieces []
    rw [append_nil] at h
    rw [delivered, dispatchRequestViaStreamingRpc, h, clientLoop, received, nil_append, length_flatten,
      map_map]
    rfl
  · intro sent hsent hcut
    obtain ⟨pieces, rfl⟩ := cut_short hsent hcut
    have h := cloneLoop_inner toolName daemon "" pieces []
    rw [append_nil] at h
    exact ⟨_, by rw [delivered, executeToolOnFacilitator, h]; rfl⟩

/-- A result of one byte less than a frame in ASCII, and then a character of two bytes. -/
def straddling : ExecuteToolResponse :=
  { resultJson := String.ofList (List.replicate (execToolFrameBytes - 1) 'a' ++ ['é'])
    isError := false
    errorMessage := ""
    jobId := ""
    jobRunning := false }

/-- The clone is given two replacement characters for the one that two frames share. -/
theorem a_character_across_frames_is_replaced :
    executeToolOnFacilitator "Read" "daemon" (delivered (execToolResultFrames straddling)) =
        .ok (String.ofList (List.replicate (execToolFrameBytes - 1) 'a' ++ [replacement, replacement])) ∧
      ∀ T : Texts, ¬ ArrivesAsProduced T "Read" "daemon" straddling := by
  have hbytes : straddling.bytes = encode (List.replicate (execToolFrameBytes - 1) 'a') ++ [0xC3] ++ [0xA9] := by
    rw [bytes, straddling, String.toList_ofList, encode_append, append_assoc]
    rfl
  have hlen : (encode (List.replicate (execToolFrameBytes - 1) 'a') ++ [0xC3]).length = execToolFrameBytes := by
    have hencode : ∀ n, (encode (List.replicate n 'a')).length = n := by
      intro n
      induction n with
      | zero => rfl
      | succ n ih => rw [replicate_succ, encode_cons, length_append, ih, Nat.add_comm]; rfl
    rw [length_append, hencode]
    rfl
  have hchunks : [encode (List.replicate (execToolFrameBytes - 1) 'a') ++ [0xC3]] ++ [[0xA9]] =
      chunks execToolFrameBytes straddling.bytes := by
    rw [hbytes, chunks_of_ne_nil execToolFrameBytes_pos (by simp), take_left' hlen, drop_left' hlen]
    rfl
  have hframes : execToolResultFrames straddling =
      [encode (List.replicate (execToolFrameBytes - 1) 'a') ++ [0xC3]].map inner ++ [straddling.final [0xA9]] := by
    rw [execToolResultFrames, ← hchunks]
    rfl
  constructor
  · rw [clone_receives "Read" "daemon" hframes, if_neg (by decide), singleton_append, flatMap_cons,
      decodeLossy_encode_append, append_assoc]
    rfl
  intro T arrives
  have hclone := arrives.clone
  rw [clone_receives "Read" "daemon" hframes, if_neg (by decide), if_neg (by decide)] at hclone
  have hcut := (clone_reads_iff straddling (.inl hchunks)).mp (Except.ok.inj hclone) 1 0xA9 (by
    rw [hbytes, Nat.one_mul, getElem?_append_right (Nat.le_of_eq hlen), hlen, Nat.sub_self]
    rfl)
  cases hcut

end TddyCoder.ToolCalls

/-
  TddyCoder.Rpc.Envelope — the wire envelope every transport shares
  (`packages/tddy-rpc/proto/rpc_envelope.proto`, `packages/tddy-rpc/src/envelope.rs`) and the
  status of a failed call (`status.rs`).

  Left out: the header maps (`metadata`, `trailers`) and the error details, which no engine
  reads, and `abort`, which none of them sets.
-/

import Mathlib.Data.List.Basic

namespace TddyCoder.Rpc

structure CallMetadata where
  service : String
  method : String
  deriving DecidableEq

structure RpcRequest where
  requestId : Int
  requestMessage : List UInt8
  callMetadata : Option CallMetadata
  endOfStream : Bool
  senderIdentity : Option String
  clientEpoch : Nat
  deriving DecidableEq

structure RpcError where
  code : String
  message : String
  deriving DecidableEq

structure RpcResponse where
  requestId : Int
  responseMessage : List UInt8
  endOfStream : Bool
  error : Option RpcError
  clientEpoch : Nat
  callMetadata : Option CallMetadata
  deriving DecidableEq

/-- Which call a response answers. -/
structure CallOrigin where
  requestId : Int
  clientEpoch : Nat
  callMetadata : Option CallMetadata
  deriving DecidableEq

def CallOrigin.of (request : RpcRequest) : CallOrigin :=
  ⟨request.requestId, request.clientEpoch, request.callMetadata⟩

/-! ## Status -/

inductive Code
  | ok | cancelled | unknown | invalidArgument | deadlineExceeded | notFound | alreadyExists | permissionDenied
  | resourceExhausted | failedPrecondition | aborted | outOfRange | unimplemented | internal | unavailable
  | dataLoss | unauthenticated
  deriving DecidableEq

structure Status where
  code : Code
  message : String
  deriving DecidableEq

def Code.asStr : Code → String
  | .ok => "OK"
  | .cancelled => "CANCELLED"
  | .unknown => "UNKNOWN"
  | .invalidArgument => "INVALID_ARGUMENT"
  | .deadlineExceeded => "DEADLINE_EXCEEDED"
  | .notFound => "NOT_FOUND"
  | .alreadyExists => "ALREADY_EXISTS"
  | .permissionDenied => "PERMISSION_DENIED"
  | .resourceExhausted => "RESOURCE_EXHAUSTED"
  | .failedPrecondition => "FAILED_PRECONDITION"
  | .aborted => "ABORTED"
  | .outOfRange => "OUT_OF_RANGE"
  | .unimplemented => "UNIMPLEMENTED"
  | .internal => "INTERNAL"
  | .unavailable => "UNAVAILABLE"
  | .dataLoss => "DATA_LOSS"
  | .unauthenticated => "UNAUTHENTICATED"

def Code.fromStr (s : String) : Code :=
  if s = "OK" then .ok
  else if s = "CANCELLED" then .cancelled
  else if s = "UNKNOWN" then .unknown
  else if s = "INVALID_ARGUMENT" then .invalidArgument
  else if s = "DEADLINE_EXCEEDED" then .deadlineExceeded
  else if s = "NOT_FOUND" then .notFound
  else if s = "ALREADY_EXISTS" then .alreadyExists
  else if s = "PERMISSION_DENIED" then .permissionDenied
  else if s = "RESOURCE_EXHAUSTED" then .resourceExhausted
  else if s = "FAILED_PRECONDITION" then .failedPrecondition
  else if s = "ABORTED" then .aborted
  else if s = "OUT_OF_RANGE" then .outOfRange
  else if s = "UNIMPLEMENTED" then .unimplemented
  else if s = "INTERNAL" then .internal
  else if s = "UNAVAILABLE" then .unavailable
  else if s = "DATA_LOSS" then .dataLoss
  else if s = "UNAUTHENTICATED" then .unauthenticated
  else .unknown

@[simp] theorem Code.fromStr_asStr (code : Code) : fromStr code.asStr = code := by
  cases code <;> decide

end TddyCoder.Rpc

/-
  Subject:   Error codes and the error carrier (include/pulselog/base/status.h, src/base/status.cc).

  A `Status` that is not OK is an error value here; `Result<T>` is `Except Status T`.
-/
import Mathlib.Tactic.TypeStar

namespace PulseLog

/-- `ErrorCode`, without `kOk`: an OK status is the absence of an error. -/
inductive ErrorCode where
  | unknown | invalidArgument | notFound | alreadyExists | outOfRange | corruption | ioError
  | unavailable | timeout | backpressure | notLeader | notEnoughReplicas | protocolError
  | unsupportedVersion | permissionDenied | resourceExhausted | rebalanceInProgress
  | unknownMember | illegalGeneration | closed | wouldBlock | internal
  deriving Repr, DecidableEq

/-- `ErrorCodeName`. -/
def ErrorCode.name : ErrorCode → String
  | .unknown => "UNKNOWN"
  | .invalidArgument => "INVALID_ARGUMENT"
  | .notFound => "NOT_FOUND"
  | .alreadyExists => "ALREADY_EXISTS"
  | .outOfRange => "OUT_OF_RANGE"
  | .corruption => "CORRUPTION"
  | .ioError => "IO_ERROR"
  | .unavailable => "UNAVAILABLE"
  | .timeout => "TIMEOUT"
  | .backpressure => "BACKPRESSURE"
  | .notLeader => "NOT_LEADER"
  | .notEnoughReplicas => "NOT_ENOUGH_REPLICAS"
  | .protocolError => "PROTOCOL_ERROR"
  | .unsupportedVersion => "UNSUPPORTED_VERSION"
  | .permissionDenied => "PERMISSION_DENIED"
  | .resourceExhausted => "RESOURCE_EXHAUSTED"
  | .rebalanceInProgress => "REBALANCE_IN_PROGRESS"
  | .unknownMember => "UNKNOWN_MEMBER"
  | .illegalGeneration => "ILLEGAL_GENERATION"
  | .closed => "CLOSED"
  | .wouldBlock => "WOULD_BLOCK"
  | .internal => "INTERNAL"

/-- `IsRetryable`. -/
def ErrorCode.isRetryable : ErrorCode → Bool
  | .unavailable | .timeout | .backpressure | .notLeader | .notEnoughReplicas
  | .rebalanceInProgress | .wouldBlock => true
  | _ => false

/-- A non-OK `Status`. -/
structure Status where
  code : ErrorCode
  message : String
  deriving Repr, DecidableEq

namespace Status

/-- `Status::ToString`. -/
def toText (s : Status) : String :=
  if s.message.isEmpty then s.code.name else s.code.name ++ ": " ++ s.message

/-- `Status::WithContext`. -/
def withContext (s : Status) (context : String) : Status := ⟨s.code, context ++ ": " ++ s.message⟩

def invalidArgument (msg : String) : Status := ⟨.invalidArgument, msg⟩
def outOfRange (msg : String) : Status := ⟨.outOfRange, msg⟩
def corruption (msg : String) : Status := ⟨.corruption, msg⟩
def ioError (msg : String) : Status := ⟨.ioError, msg⟩
def internal (msg : String) : Status := ⟨.internal, msg⟩
def resourceExhausted (msg : String) : Status := ⟨.resourceExhausted, msg⟩

end Status

end PulseLog

/-
  Subject:   Enumerations that several parts of the broker share
             (include/pulselog/base/types.h, include/pulselog/protocol/messages.h).
-/
import Mathlib.Tactic.TypeStar

namespace PulseLog

/-- `AckMode`. -/
inductive AckMode where
  | none
  | leader
  | quorum
  deriving Repr, DecidableEq

/-- `Compression`. -/
inductive Compression where
  | none
  | lz4Like
  deriving Repr, DecidableEq

/-- `IsolationLevel`: may a consumer read past the high-water mark. -/
inductive IsolationLevel where
  | readUncommitted
  | readReplicated
  deriving Repr, DecidableEq

/-- `AssignmentStrategy`. -/
inductive AssignmentStrategy where
  | range
  | roundRobin
  deriving Repr, DecidableEq

end PulseLog

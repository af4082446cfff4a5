/-
  Subject:   One partition on one broker: follower progress, the high-water mark and the produce
             requests that wait for durability (include/pulselog/broker/partition_replica.h,
             src/broker/partition_replica.cc).

  Every method runs under the replica's mutex, so it is one step. A method returns the waiters it
  completed: their callbacks run with an OK status, except those of `expireWaiters` and
  `failAllWaiters`. The latency stamps and the statistics are left out.

  * `Covered` -- the high-water mark is at most the log end of each in-sync follower. It is kept
    by every step but one: a report that re-admits a follower which lags behind the mark.
-/
import PulseLog.Base.Types
import PulseLog.Broker.ReplicaLog

namespace PulseLog

open List

/-! ## 1. The replica -/

/-- `PartitionAssignment`, without the index and the published in-sync list. -/
structure PartitionAssignment where
  leader : Nat
  leaderEpoch : Nat
  replicas : List Nat
  deriving Repr, DecidableEq

/-- `QuorumSize`: a strict majority of the replica set. -/
def PartitionAssignment.quorumSize (a : PartitionAssignment) : Nat := a.replicas.length / 2 + 1

/-- `FollowerState`. -/
structure FollowerState where
  broker : Nat
  logEndOffset : Int
  flushedOffset : Int
  lastAckMs : Int
  inSync : Bool
  acksReceived : Nat
  deriving Repr, DecidableEq

/-- `DurabilityWaiter`. Its callback answers with the offsets of the batch; here it keeps the
    records of the batch, which stand at the offsets from `baseOffset` on. -/
structure DurabilityWaiter where
  requiredOffset : Int
  mode : AckMode
  deadlineMs : Int
  baseOffset : Nat
  records : List Bytes
  deriving Repr, DecidableEq

/-- `PartitionReplica`. The followers are a map from broker ids, kept as a list. -/
structure PartitionReplica where
  self : Nat
  assignment : PartitionAssignment
  log : ReplicaLog
  followers : List FollowerState
  waiters : List DurabilityWaiter
  /-- `pending_waiters_`, which is read without the mutex -/
  pendingWaiters : Nat
  highWaterMark : Int

namespace PartitionReplica

/-- `followers_.emplace` of a fresh `FollowerState`: a broker that is in the map stays. -/
def emplace (followers : List FollowerState) (broker : Nat) : List FollowerState :=
  if followers.any (fun f => f.broker == broker) then followers
  else followers ++ [⟨broker, 0, 0, 0, true, 0⟩]

/-- The constructor. -/
def make (assignment : PartitionAssignment) (self : Nat) (log : ReplicaLog) : PartitionReplica :=
  let followers := (assignment.replicas.filter (fun b => b != self)).foldl emplace []
  { self, assignment, log, followers, waiters := [], pendingWaiters := 0
    highWaterMark :=
      if assignment.leader = self ∧ followers = [] then (log.logEndOffset : Int) else 0 }

def isLeader (r : PartitionReplica) : Prop := r.assignment.leader = r.self

instance (r : PartitionReplica) : Decidable r.isLeader := inferInstanceAs (Decidable (_ = _))

/-- The smallest log end of the leader and its in-sync followers. -/
def watermark (r : PartitionReplica) : Int :=
  (r.followers.filter FollowerState.inSync).foldl (fun m f => min m f.logEndOffset)
    (r.log.logEndOffset : Int)

/-- `RecomputeHighWaterMarkLocked`: the mark never moves back. -/
def recomputeHighWaterMark (r : PartitionReplica) : PartitionReplica :=
  if r.isLeader ∧ r.watermark > r.highWaterMark then { r with highWaterMark := r.watermark } else r

/-- The number of replicas that have persisted the record at `offset`, as the leader knows it. -/
def persisted (r : PartitionReplica) (offset : Int) : Nat :=
  (if (r.log.flushedOffset : Int) > offset then 1 else 0) +
    r.followers.countP (fun f => f.inSync && decide (f.flushedOffset > offset))

/-- The durability condition of a waiter. -/
def satisfied (r : PartitionReplica) (waiter : DurabilityWaiter) : Bool :=
  match waiter.mode with
  | .none => true
  | .leader => decide ((r.log.logEndOffset : Int) > waiter.requiredOffset)
  | .quorum => decide (r.persisted waiter.requiredOffset ≥ r.assignment.quorumSize)

/-- `PublishWaiterCountLocked`. -/
def publishWaiterCount (r : PartitionReplica) : PartitionReplica :=
  { r with pendingWaiters := r.waiters.length }

@[simp] theorem publishWaiterCount_waiters (r : PartitionReplica) :
    r.publishWaiterCount.waiters = r.waiters := rfl

@[simp] theorem publishWaiterCount_followers (r : PartitionReplica) :
    r.publishWaiterCount.followers = r.followers := rfl

/-- `ExtractSatisfiedLocked`: the satisfied waiters, and the replica without them. -/
def extractSatisfied (r : PartitionReplica) : List DurabilityWaiter × PartitionReplica :=
  (r.waiters.filter r.satisfied,
    { r with waiters := r.waiters.filter (fun w => !r.satisfied w) }.publishWaiterCount)

/-! ## 2. The methods -/

/-- `OnLeaderAppend`; the new log end it is given is not used. -/
def onLeaderAppend (r : PartitionReplica) : List DurabilityWaiter × PartitionReplica :=
  r.recomputeHighWaterMark.extractSatisfied

/-- A progress report merged into what is known of a follower. -/
def merge (logEndOffset flushedOffset nowMs : Int) (f : FollowerState) : FollowerState :=
  { f with
    logEndOffset := max f.logEndOffset logEndOffset
    flushedOffset := max f.flushedOffset flushedOffset
    lastAckMs := nowMs
    acksReceived := f.acksReceived + 1
    inSync := true }

/-- Change the entry of one broker in the follower map. -/
def updateFollower (r : PartitionReplica) (broker : Nat) (g : FollowerState → FollowerState) :
    PartitionReplica :=
  { r with followers := r.followers.map (fun f => if f.broker = broker then g f else f) }

def hasFollower (r : PartitionReplica) (broker : Nat) : Bool :=
  r.followers.any (fun f => f.broker == broker)

/-- `OnFollowerProgress`: a broker outside the replica set is ignored. -/
def onFollowerProgress (r : PartitionReplica) (follower : Nat)
    (logEndOffset flushedOffset nowMs : Int) : List DurabilityWaiter × PartitionReplica :=
  if r.hasFollower follower then
    (r.updateFollower follower (merge logEndOffset flushedOffset nowMs)).recomputeHighWaterMark
      |>.extractSatisfied
  else ([], r)

/-- `MarkFollowerOutOfSync`. -/
def markFollowerOutOfSync (r : PartitionReplica) (follower : Nat) :
    List DurabilityWaiter × PartitionReplica :=
  if r.followers.any (fun f => f.broker == follower && f.inSync) then
    (r.updateFollower follower (fun f => { f with inSync := false })).recomputeHighWaterMark
      |>.extractSatisfied
  else ([], r)

/-- `AddWaiter`. -/
def addWaiter (r : PartitionReplica) (waiter : DurabilityWaiter) :
    List DurabilityWaiter × PartitionReplica :=
  ({ r with waiters := r.waiters ++ [waiter] } : PartitionReplica).extractSatisfied

/-- `CompleteSatisfiedWaiters`. -/
def completeSatisfiedWaiters (r : PartitionReplica) : List DurabilityWaiter × PartitionReplica :=
  r.recomputeHighWaterMark.extractSatisfied

/-- `ExpireWaiters`; the waiters it returns are answered with a timeout. -/
def expireWaiters (r : PartitionReplica) (nowMs : Int) : List DurabilityWaiter × PartitionReplica :=
  (r.waiters.filter (fun w => !decide (w.deadlineMs > nowMs)),
    { r with
      waiters := r.waiters.filter (fun w => decide (w.deadlineMs > nowMs)) }.publishWaiterCount)

/-- `FailAllWaiters`. -/
def failAllWaiters (r : PartitionReplica) : List DurabilityWaiter × PartitionReplica :=
  (r.waiters, { r with waiters := [] }.publishWaiterCount)

/-- `GetStats().in_sync_replicas`. -/
def inSyncReplicas (r : PartitionReplica) : Nat := 1 + r.followers.countP FollowerState.inSync

/-! ## 3. The high-water mark -/

/-- What happens to a leader's replica. Appends and flushes go to its log directly; the calls that
    tell the replica about them are steps of their own, since other threads come in between. -/
inductive Event where
  | append (appendTime : Int) (data : Bytes) (recordCount : Nat)
  | flush (target : Nat)
  | leaderAppend
  | progress (follower : Nat) (logEndOffset flushedOffset nowMs : Int)
  | outOfSync (follower : Nat)
  | addWaiter (waiter : DurabilityWaiter)
  | sweep
  | expire (nowMs : Int)
  deriving Repr, DecidableEq

/-- One step; an append that is refused changes nothing. -/
def step (r : PartitionReplica) : Event → PartitionReplica
  | .append t data count =>
    match r.log.appendAssigningOffsets t data count with
    | .ok log => { r with log := log }
    | .error _ => r
  | .flush target => { r with log := r.log.flush target }
  | .leaderAppend => r.onLeaderAppend.2
  | .progress follower logEnd flushed now => (r.onFollowerProgress follower logEnd flushed now).2
  | .outOfSync follower => (r.markFollowerOutOfSync follower).2
  | .addWaiter waiter => (r.addWaiter waiter).2
  | .sweep => r.completeSatisfiedWaiters.2
  | .expire now => (r.expireWaiters now).2

def run (r : PartitionReplica) (es : List Event) : PartitionReplica := es.foldl step r

/-- The high-water mark is at most the recorded log end of every in-sync follower. -/
def Covered (r : PartitionReplica) : Prop :=
  ∀ f ∈ r.followers, f.inSync = true → r.highWaterMark ≤ f.logEndOffset

instance (r : PartitionReplica) : Decidable r.Covered :=
  inferInstanceAs (Decidable (∀ f ∈ r.followers, _))

/-- A report re-admits no follower that lags behind the high-water mark. -/
def Admits (r : PartitionReplica) : Event → Prop
  | .progress follower logEnd _ _ => ∀ f ∈ r.followers, f.broker = follower → f.inSync = false →
      r.highWaterMark ≤ max f.logEndOffset logEnd
  | _ => True

section HighWaterMark

variable {r : PartitionReplica}

theorem foldl_min_le : ∀ (fs : List FollowerState) (m : Int),
    fs.foldl (fun m f => min m f.logEndOffset) m ≤ m ∧
      ∀ f ∈ fs, fs.foldl (fun m f => min m f.logEndOffset) m ≤ f.logEndOffset
  | [], m => ⟨le_rfl, by simp⟩
  | g :: fs, m => by
    obtain ⟨h1, h2⟩ := foldl_min_le fs (min m g.logEndOffset)
    refine ⟨le_trans h1 (min_le_left _ _), fun f hf => ?_⟩
    rcases mem_cons.mp hf with rfl | hf
    · exact le_trans h1 (min_le_right _ _)
    · exact h2 f hf

theorem watermark_le {f : FollowerState} (hf : f ∈ r.followers) (hs : f.inSync = true) :
    r.watermark ≤ f.logEndOffset :=
  (foldl_min_le _ _).2 f (mem_filter.mpr ⟨hf, hs⟩)

@[simp] theorem recomputeHighWaterMark_followers :
    r.recomputeHighWaterMark.followers = r.followers := by
  unfold recomputeHighWaterMark
  split <;> rfl

theorem highWaterMark_le_recompute : r.highWaterMark ≤ r.recomputeHighWaterMark.highWaterMark := by
  unfold recomputeHighWaterMark
  split
  · rename_i h
    exact le_of_lt h.2
  · exact le_rfl

/-- Recomputing the mark neither breaks nor repairs the property. -/
theorem covered_recompute : r.recomputeHighWaterMark.Covered ↔ r.Covered := by
  constructor
  · intro h f hf hs
    exact le_trans highWaterMark_le_recompute
      (h f (by rw [recomputeHighWaterMark_followers]; exact hf) hs)
  · intro h f hf hs
    rw [recomputeHighWaterMark_followers] at hf
    unfold recomputeHighWaterMark
    split
    · exact watermark_le hf hs
    · exact h f hf hs

/-- The waiters play no part. -/
theorem covered_extract : r.extractSatisfied.2.Covered ↔ r.Covered := Iff.rfl

/-- The followers a report does not name keep their entries; the named one is in sync with the
    merged log end. -/
theorem covered_merge (h : r.Covered) {b : Nat} {logEnd flushed now : Int} :
    (r.updateFollower b (merge logEnd flushed now)).Covered ↔
      r.Admits (.progress b logEnd flushed now) := by
  constructor
  · intro hc f hf hb hs
    have hm : merge logEnd flushed now f ∈
        (r.updateFollower b (merge logEnd flushed now)).followers :=
      mem_map.mpr ⟨f, hf, by rw [if_pos hb]⟩
    exact hc _ hm rfl
  · intro ha g hg hs
    obtain ⟨f, hf, hfg⟩ := mem_map.mp hg
    by_cases hb : f.broker = b
    · rw [if_pos hb] at hfg
      subst hfg
      cases hin : f.inSync with
      | false => exact ha f hf hb hin
      | true => exact le_trans (h f hf hin) (le_max_left _ _)
    · rw [if_neg hb] at hfg
      subst hfg
      exact h f hf hs

theorem covered_outOfSync (h : r.Covered) (b : Nat) :
    (r.updateFollower b (fun f => { f with inSync := false })).Covered := by
  intro g hg hs
  obtain ⟨f, hf, hfg⟩ := mem_map.mp hg
  by_cases hb : f.broker = b
  · rw [if_pos hb] at hfg
    subst hfg
    simp at hs
  · rw [if_neg hb] at hfg
    subst hfg
    exact h f hf hs

theorem admits_of_no_follower {b : Nat} {logEnd flushed now : Int} (h : r.hasFollower b = false) :
    r.Admits (.progress b logEnd flushed now) := by
  intro f hf hb _
  have : r.hasFollower b = true := any_eq_true.mpr ⟨f, hf, by simp [hb]⟩
  rw [h] at this
  simp at this

/-- **One step**: the property is lost exactly by a report that re-admits a lagging follower. -/
theorem covered_step (h : r.Covered) (e : Event) : (r.step e).Covered ↔ r.Admits e := by
  cases e with
  | append t data count =>
    refine ⟨fun _ => trivial, fun _ => ?_⟩
    simp only [step]
    split
    · exact h
    · exact h
  | flush target => exact ⟨fun _ => trivial, fun _ => h⟩
  | leaderAppend => exact ⟨fun _ => trivial, fun _ => covered_extract.mpr (covered_recompute.mpr h)⟩
  | progress b logEnd flushed now =>
    simp only [step, onFollowerProgress]
    cases hb : r.hasFollower b with
    | true => exact (covered_extract.trans covered_recompute).trans (covered_merge h)
    | false => exact ⟨fun _ => admits_of_no_follower hb, fun _ => h⟩
  | outOfSync b =>
    refine ⟨fun _ => trivial, fun _ => ?_⟩
    simp only [step, markFollowerOutOfSync]
    split
    · exact covered_extract.mpr (covered_recompute.mpr (covered_outOfSync h b))
    · exact h
  | addWaiter w => exact ⟨fun _ => trivial, fun _ => h⟩
  | sweep => exact ⟨fun _ => trivial, fun _ => covered_extract.mpr (covered_recompute.mpr h)⟩
  | expire now => exact ⟨fun _ => trivial, fun _ => h⟩

/-- A whole run, from any state with the property. -/
theorem covered_run : ∀ (es : List Event) {r : PartitionReplica}, r.Covered →
    ((∀ n, (run r (es.take n)).Covered) ↔
      ∀ n e, es[n]? = some e → (run r (es.take n)).Admits e)
  | [], r, h => ⟨fun _ n e he => by simp at he, fun _ n => by simpa [run] using h⟩
  | e :: es, r, h => by
    constructor
    · intro hall n e' he'
      have hstep : (r.step e).Covered := by simpa [run] using hall 1
      cases n with
      | zero =>
        simp only [getElem?_cons_zero, Option.some.injEq] at he'
        subst he'
        exact (covered_step h e).mp hstep
      | succ n =>
        have ih := (covered_run es hstep).mp (fun k => by simpa [run] using hall (k + 1))
        simpa [run] using ih n e' (by simpa using he')
    · intro hadm n
      have hstep : (r.step e).Covered :=
        (covered_step h e).mpr (by simpa [run] using hadm 0 e (by simp))
      cases n with
      | zero => simpa [run] using h
      | succ n =>
        have ih := (covered_run es hstep).mpr
          (fun k e' he' => by simpa [run] using hadm (k + 1) e' (by simpa using he'))
        simpa [run] using ih n

theorem mem_foldl_emplace : ∀ (bs : List Nat) (fs : List FollowerState),
    (∀ f ∈ fs, f.logEndOffset = 0 ∧ f.flushedOffset = 0) →
    ∀ f ∈ bs.foldl emplace fs, f.logEndOffset = 0 ∧ f.flushedOffset = 0
  | [], _, h => h
  | b :: bs, fs, h => by
    refine mem_foldl_emplace bs (emplace fs b) (fun f hf => ?_)
    unfold emplace at hf
    split at hf
    · exact h f hf
    · rcases mem_append.mp hf with hf | hf
      · exact h f hf
      · rw [mem_singleton.mp hf]
        exact ⟨rfl, rfl⟩

theorem covered_make (a : PartitionAssignment) (self : Nat) (log : ReplicaLog) :
    (make a self log).Covered := by
  intro f hf _
  have h0 := (mem_foldl_emplace _ [] (by simp) f hf).1
  have hne : (a.replicas.filter (fun b => b != self)).foldl emplace [] ≠ [] := ne_nil_of_mem hf
  simp only [make, hne, and_false, if_false]
  rw [h0]

/-- **The high-water mark and the in-sync set, over every run**: the mark stays at or below the
    log end of every in-sync follower exactly as long as no report re-admits a follower whose
    merged log end is below the mark. -/
theorem highWaterMark_covered_iff (a : PartitionAssignment) (self : Nat) (log : ReplicaLog)
    (es : List Event) :
    (∀ n, (run (make a self log) (es.take n)).Covered) ↔
      ∀ n e, es[n]? = some e → (run (make a self log) (es.take n)).Admits e :=
  covered_run es (covered_make a self log)

end HighWaterMark

/-- A record without key and value, as a producer sends it. -/
def sampleRecord : Bytes := storeLe 4 23 ++ zeros 23

/-- The leader appends one record, the follower leaves the in-sync set, the mark moves to 1, and a
    report from the follower, still at offset 0, takes it back in. -/
theorem highWaterMark_above_readmitted_follower :
    ¬ (run (make ⟨0, 0, [0, 1]⟩ 0 ReplicaLog.empty)
      [.append 7 sampleRecord 1, .leaderAppend, .outOfSync 1, .progress 1 0 0 9]).Covered := by
  decide +kernel

end PartitionReplica

end PulseLog

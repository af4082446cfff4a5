/-
  Subject:   Timeouts of produce requests whose records are durable
             (`ExpireWaiters` of src/broker/partition_replica.cc, `FlushDuePartitions` of
             src/broker/partition_manager.cc).

  `ExpireWaiters` looks at the deadlines only. Whether a waiter's condition holds is found out by
  the calls that evaluate the waiters, and those come after the fact: the flusher fsyncs the log
  outside the replica's lock and evaluates the waiters in a second step. In between, the maintenance
  loop can time out a waiter whose record has just become durable on a majority.

  * `timeouts_truthful` -- a run that never expires waiters in between answers TIMEOUT only where
    the condition does not hold.
-/
import PulseLog.Broker.Waiters

namespace PulseLog

namespace PartitionReplica

/-! ## 1. Timeouts and conditions -/

/-- The quorum waiters that a call answers with TIMEOUT do not have their condition. -/
def TruthfulTimeouts (r : PartitionReplica) : LifeEvent → Prop
  | .event (.expire now) => ∀ w ∈ (r.expireWaiters now).1, w.mode = .quorum → r.satisfied w = false
  | _ => True

/-- No pending quorum waiter's condition holds. -/
def QuorumSettled (r : PartitionReplica) : Prop :=
  ∀ w ∈ r.waiters, w.mode = .quorum → r.satisfied w = false

instance (r : PartitionReplica) : (e : LifeEvent) → Decidable (r.Evaluates e)
  | .event .leaderAppend | .event .sweep | .event (.addWaiter _) => inferInstanceAs (Decidable True)
  | .event (.progress _ _ _ _) | .event (.outOfSync _) => inferInstanceAs (Decidable (_ = _))
  | .event (.append _ _ _) | .event (.flush _) | .event (.expire _) | .failAll | .setAssignment _
  | .replicate _ => inferInstanceAs (Decidable False)

/-- The call can make a quorum waiter's condition true and leaves the waiters alone: a flush that
    moves the flushed offset, and a new assignment. -/
def Unnoticed (r : PartitionReplica) : LifeEvent → Bool
  | .event (.flush target) => decide (r.log.flushedOffset < (r.log.flush target).flushedOffset)
  | .setAssignment _ => true
  | _ => false

/-- A replica, and whether such a call has come since the waiters were evaluated. -/
structure Watched where
  replica : PartitionReplica
  due : Bool

namespace Watched

def start (assignment : PartitionAssignment) (self : Nat) (log : ReplicaLog) : Watched :=
  ⟨make assignment self log, false⟩

def step (s : Watched) (e : LifeEvent) : Watched :=
  ⟨s.replica.live e, s.replica.Unnoticed e || s.due && !decide (s.replica.Evaluates e)⟩

/-- Waiters are not expired before what has happened is evaluated. -/
def Orderly (s : Watched) : LifeEvent → Prop
  | .event (.expire _) => s.due = false
  | _ => True

instance (s : Watched) : (e : LifeEvent) → Decidable (s.Orderly e)
  | .event (.expire _) => inferInstanceAs (Decidable (_ = _))
  | .event (.append _ _ _) | .event (.flush _) | .event .leaderAppend | .event (.progress _ _ _ _)
  | .event (.outOfSync _) | .event (.addWaiter _) | .event .sweep | .failAll | .setAssignment _
  | .replicate _ => inferInstanceAs (Decidable True)

end Watched

/-! ## 2. What is not noted has been evaluated -/

section Settled

variable {r r' : PartitionReplica} {w : DurabilityWaiter}

/-- A quorum waiter's condition reads the flushed offset, the followers and the replica set. -/
theorem satisfied_quorum (hw : w.mode = .quorum)
    (hflushed : r'.log.flushedOffset = r.log.flushedOffset)
    (hfollowers : r'.followers = r.followers) (hassignment : r'.assignment = r.assignment) :
    r'.satisfied w = r.satisfied w := by
  have hpersisted : r'.persisted w.requiredOffset = r.persisted w.requiredOffset := by
    unfold persisted
    rw [hflushed, hfollowers]
  unfold satisfied
  rw [hw]
  rw [hpersisted, hassignment]

theorem QuorumSettled.of_same (h : r.QuorumSettled) (hwaiters : ∀ w ∈ r'.waiters, w ∈ r.waiters)
    (hflushed : r'.log.flushedOffset = r.log.flushedOffset)
    (hfollowers : r'.followers = r.followers)
    (hassignment : r'.assignment = r.assignment) : r'.QuorumSettled := by
  intro w hw hmode
  rw [satisfied_quorum hmode hflushed hfollowers hassignment]
  exact h w (hwaiters w hw) hmode

theorem Settled.quorum (h : r.Settled) : r.QuorumSettled := fun w hw _ => h w hw

theorem quorumSettled_append (h : r.QuorumSettled) (t : Int) (data : Bytes) (count : Nat) :
    (r.live (.event (.append t data count))).QuorumSettled := by
  simp only [live, step]
  split
  · rename_i log hlog
    obtain ⟨rs, -, -, -, -, hadd⟩ := ReplicaLog.appendAssigningOffsets_ok hlog
    exact h.of_same (fun _ hw => hw) hadd.flushed rfl rfl
  · exact h

theorem quorumSettled_replicate (h : r.QuorumSettled) (q : ReplicateRequest) :
    (r.live (.replicate q)).QuorumSettled := by
  simp only [live, executeReplicate]
  split
  · exact (settled_extract _).quorum
  · exact h
  · split
    · exact h
    split
    · exact (settled_extract _).quorum
    · exact h

/-- A call that neither evaluates the waiters nor goes unnoticed keeps them settled. -/
theorem quorumSettled_live (h : r.QuorumSettled) {e : LifeEvent} (hquiet : r.Unnoticed e = false) :
    (r.live e).QuorumSettled := by
  by_cases hevaluates : r.Evaluates e
  · exact (settled_live hevaluates).quorum
  cases e with
  | failAll => exact fun w hw => absurd hw List.not_mem_nil
  | setAssignment a => cases hquiet
  | replicate q => exact quorumSettled_replicate h q
  | event e =>
    cases e with
    | append t data count => exact quorumSettled_append h t data count
    | flush target =>
      have hle : r.log.flushedOffset ≤ (r.log.flush target).flushedOffset := le_max_left _ _
      have hnot := of_decide_eq_false hquiet
      exact h.of_same (fun _ hw => hw) (Nat.le_antisymm (Nat.not_lt.mp hnot) hle) rfl rfl
    | leaderAppend | sweep | addWaiter => exact absurd trivial hevaluates
    | progress b logEnd flushed now =>
      have hunknown : ¬ r.hasFollower b = true := hevaluates
      simp only [live, step, onFollowerProgress, if_neg hunknown]
      exact h
    | outOfSync b =>
      have hunknown : ¬ r.followers.any (fun f => f.broker == b && f.inSync) = true :=
        hevaluates
      simp only [live, step, markFollowerOutOfSync, if_neg hunknown]
      exact h
    | expire now => exact h.of_same (fun _ hw => (List.mem_filter.mp hw).1) rfl rfl rfl

end Settled

/-- **One step**: without the note, no pending quorum waiter's condition holds. -/
theorem Watched.settled_step (s : Watched) (e : LifeEvent)
    (h : s.due = false → s.replica.QuorumSettled) :
    (s.step e).due = false → (s.step e).replica.QuorumSettled := by
  intro hdue
  obtain ⟨hquiet, hlate⟩ := Bool.or_eq_false_iff.mp hdue
  by_cases hevaluates : s.replica.Evaluates e
  · exact (settled_live hevaluates).quorum
  · rw [decide_eq_false hevaluates, Bool.not_false, Bool.and_true] at hlate
    exact quorumSettled_live (h hlate) hquiet

/-- **Timeouts tell the truth in orderly runs**: where waiters are never expired between a flush (or
    a new assignment) and the next evaluation of the waiters, a quorum waiter is answered with
    TIMEOUT only if its condition does not hold at that moment. -/
theorem timeouts_truthful {assignment : PartitionAssignment} {self : Nat} {log : ReplicaLog}
    {es : List LifeEvent}
    (hes : Along Watched.step Watched.Orderly (.start assignment self log) es) :
    Along Watched.step (fun s e => s.replica.TruthfulTimeouts e)
      (.start assignment self log) es := by
  have hinv := hes.strengthen (fun s e h _ => s.settled_step e h)
    (fun _ w hw => absurd hw List.not_mem_nil)
  refine hinv.mono fun s e hs => ?_
  obtain ⟨hsettled, horderly⟩ := hs
  cases e with
  | failAll | setAssignment | replicate => trivial
  | event e =>
    cases e with
    | expire now =>
      intro w hw hmode
      exact hsettled horderly w (List.mem_filter.mp hw).1 hmode
    | _ => trivial

/-- The leader appends a record and waits for a quorum; the follower reports it durable. -/
def replicatedWrite : List LifeEvent :=
  [.event (.append 7 sampleRecord 1), .event (.addWaiter ⟨0, .quorum, 10, 0, []⟩),
    .event (.progress 1 1 1 5)]

/-- The deadline passes before the leader's own flush. -/
theorem late_write_times_out :
    Along Watched.step Watched.Orderly (.start ⟨0, 0, [0, 1]⟩ 0 .empty)
        (replicatedWrite ++ [.event (.expire 10)]) ∧
      Along Watched.step (fun s e => s.replica.TruthfulTimeouts e) (.start ⟨0, 0, [0, 1]⟩ 0 .empty)
        (replicatedWrite ++ [.event (.expire 10)]) := by
  have horderly : Along Watched.step Watched.Orderly (.start ⟨0, 0, [0, 1]⟩ 0 .empty)
      (replicatedWrite ++ [.event (.expire 10)]) := by decide +kernel
  exact ⟨horderly, timeouts_truthful horderly⟩

/-- The replica after the leader's flush as well. -/
def flushedWrite : PartitionReplica :=
  life (make ⟨0, 0, [0, 1]⟩ 0 .empty) (replicatedWrite ++ [.event (.flush 1)])

/-- **A durable write times out**: both replicas have the record on disk, and the maintenance loop
    comes before the flusher's second step. -/
theorem durable_write_times_out :
    flushedWrite.persisted 0 = 2 ∧
      (flushedWrite.expireWaiters 10).1 = [⟨0, .quorum, 10, 0, []⟩] ∧
      flushedWrite.satisfied ⟨0, .quorum, 10, 0, []⟩ = true ∧
      ¬ flushedWrite.TruthfulTimeouts (.event (.expire 10)) := by
  refine ⟨by decide +kernel, by decide +kernel, by decide +kernel, fun h => ?_⟩
  exact absurd (h ⟨0, .quorum, 10, 0, []⟩ (by decide +kernel) rfl) (by decide +kernel)

end PartitionReplica

end PulseLog

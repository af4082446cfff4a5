/-
  Subject:   A replica over the lifetime of its process: every method of
             src/broker/partition_replica.cc, its log, and the REPLICATE requests that reach it
             (Broker::ExecuteReplicate in src/broker/request_handler.cc), in any order.

  * `highWaterMark_monotone_bounded` -- the mark never moves back and never passes the log end,
    whatever the followers report;
  * `fenced_iff` -- a stale leader is refused exactly when the stored assignment knows the newest
    epoch the replica has accepted. No request ever writes the stored epoch.
-/
import PulseLog.Broker.Agreement
import PulseLog.General.Run

namespace PulseLog

namespace PartitionReplica

/-! ## 1. A lifetime -/

/-- `SetAssignment`: the mark is not recomputed. -/
def setAssignment (r : PartitionReplica) (assignment : PartitionAssignment) : PartitionReplica :=
  { r with
    assignment := assignment
    followers := (assignment.replicas.filter (fun b => b != r.self)).foldl emplace
      (r.followers.filter (fun f => assignment.replicas.contains f.broker && f.broker != r.self)) }

/-- What can happen to a replica while its process lives. -/
inductive LifeEvent where
  | event (e : Event)
  | failAll
  | setAssignment (assignment : PartitionAssignment)
  | replicate (q : ReplicateRequest)
  deriving Repr, DecidableEq

def live (r : PartitionReplica) : LifeEvent → PartitionReplica
  | .event e => r.step e
  | .failAll => r.failAllWaiters.2
  | .setAssignment a => r.setAssignment a
  | .replicate q => (r.executeReplicate q).2.2

/-- The replica after a run of events. -/
def life (r : PartitionReplica) (es : List LifeEvent) : PartitionReplica := es.foldl live r

/-! ## 2. The high-water mark between its bounds -/

section HighWaterMark

variable {r : PartitionReplica}

theorem watermark_le_logEnd : r.watermark ≤ r.log.logEndOffset := (foldl_min_le _ _).1

@[simp] theorem recomputeHighWaterMark_log : r.recomputeHighWaterMark.log = r.log := by
  unfold recomputeHighWaterMark
  split <;> rfl

/-- The mark is at most the log end. -/
def Bounded (r : PartitionReplica) : Prop := r.highWaterMark ≤ r.log.logEndOffset

theorem bounded_recompute (h : r.Bounded) : r.recomputeHighWaterMark.Bounded := by
  unfold recomputeHighWaterMark
  split
  · exact watermark_le_logEnd
  · exact h

/-- What a step does to the mark and the log: neither the mark nor the log end goes down, and the
    mark stays bounded. -/
structure Rises (r r' : PartitionReplica) : Prop where
  mark : r.highWaterMark ≤ r'.highWaterMark
  logEnd : r.log.logEndOffset ≤ r'.log.logEndOffset
  bounded : r.Bounded → r'.Bounded

/-- A step that leaves the mark alone and does not shorten the log. -/
theorem Rises.of_log {r' : PartitionReplica} (hm : r'.highWaterMark = r.highWaterMark)
    (hl : r.log.logEndOffset ≤ r'.log.logEndOffset) : Rises r r' := by
  refine ⟨hm.ge, hl, fun h => ?_⟩
  unfold Bounded at h ⊢
  rw [hm]
  exact le_trans h (Int.ofNat_le.mpr hl)

theorem Rises.refl (r : PartitionReplica) : Rises r r := .of_log rfl le_rfl

/-- Recomputing the mark, after a change of anything but the mark and the log's records. -/
theorem Rises.recompute {r' : PartitionReplica} (hm : r'.highWaterMark = r.highWaterMark)
    (hl : r.log.logEndOffset ≤ r'.log.logEndOffset) :
    Rises r r'.recomputeHighWaterMark.extractSatisfied.2 where
  mark := le_trans hm.ge highWaterMark_le_recompute
  logEnd := by
    show _ ≤ r'.recomputeHighWaterMark.log.logEndOffset
    rw [recomputeHighWaterMark_log]
    exact hl
  bounded := fun h => bounded_recompute ((Rises.of_log hm hl).bounded h)

theorem rises_step (r : PartitionReplica) (e : Event) : Rises r (r.step e) := by
  cases e with
  | append t data count =>
    simp only [step]
    split
    · rename_i log hlog
      obtain ⟨rs, -, -, -, -, happ⟩ := ReplicaLog.appendAssigningOffsets_ok hlog
      exact .of_log rfl happ.logEnd_le
    · exact .refl r
  | flush target => exact .of_log rfl le_rfl
  | leaderAppend => exact .recompute rfl le_rfl
  | progress b logEnd flushed now =>
    simp only [step, onFollowerProgress]
    split
    · exact .recompute rfl le_rfl
    · exact .refl r
  | outOfSync b =>
    simp only [step, markFollowerOutOfSync]
    split
    · exact .recompute rfl le_rfl
    · exact .refl r
  | addWaiter w => exact .of_log rfl le_rfl
  | sweep => exact .recompute rfl le_rfl
  | expire now => exact .of_log rfl le_rfl

theorem rises_live (r : PartitionReplica) (e : LifeEvent) : Rises r (r.live e) := by
  cases e with
  | event e => exact rises_step r e
  | failAll => exact .of_log rfl le_rfl
  | setAssignment a => exact .of_log rfl le_rfl
  | replicate q =>
    simp only [live, executeReplicate]
    split
    · rename_i log hlog
      obtain ⟨rs, -, -, happ⟩ := ReplicaLog.appendWithOffsets_ok (replicateAppend_ok hlog).2
      exact .recompute rfl happ.logEnd_le
    · exact .refl r
    · split
      · exact .refl r
      · split
        · exact .recompute rfl le_rfl
        · exact .refl r

theorem bounded_make (a : PartitionAssignment) (self : Nat) (log : ReplicaLog) :
    (make a self log).Bounded := by
  unfold Bounded make
  simp only
  split
  · exact le_rfl
  · exact Int.natCast_nonneg _

/-- **The mark never moves back and never passes the log end**, over every run of the process,
    whatever the followers report and whoever is made a replica: the mark of an earlier state is
    at most the mark and at most the log end of every later one. -/
theorem highWaterMark_monotone_bounded (a : PartitionAssignment) (self : Nat) (log : ReplicaLog)
    (es : List LifeEvent) (m k : Nat) :
    (life (make a self log) (es.take m)).highWaterMark ≤
        (life (make a self log) (es.take (m + k))).highWaterMark ∧
      (life (make a self log) (es.take m)).highWaterMark ≤
        (life (make a self log) (es.take (m + k))).log.logEndOffset := by
  have hall : Along live (fun _ _ => True) (make a self log) es :=
    along_of_forall (fun _ _ => trivial)
  have hstep : ∀ (r : PartitionReplica) e, r.Bounded → True → (r.live e).Bounded :=
    fun r e h _ => (rises_live r e).bounded h
  have hb : ∀ n, (life (make a self log) (es.take n)).Bounded :=
    fun n => (hall.take n).foldl hstep (bounded_make a self log)
  have hle := Along.le_take hstep (fun r e _ _ => (rises_live r e).mark) hall
    (bounded_make a self log) (Nat.le_add_right m k)
  exact ⟨hle, le_trans hle (hb (m + k))⟩

end HighWaterMark

/-! ## 3. Leader epochs -/

/-- A REPLICATE request is accepted: a batch is appended or a probe is answered. -/
def Accepts (r : PartitionReplica) (q : ReplicateRequest) : Prop :=
  (r.executeReplicate q).1.error = none

/-- A request is refused and the log stays as it is. -/
def Rejects (r : PartitionReplica) (q : ReplicateRequest) : Prop :=
  (r.executeReplicate q).1.error ≠ none ∧ (r.executeReplicate q).2.2.log = r.log

/-- The epochs of the requests a run accepts. -/
def acceptedEpochs : PartitionReplica → List LifeEvent → List Int
  | _, [] => []
  | r, .replicate q :: es =>
    if (r.executeReplicate q).1.error = none
      then q.leaderEpoch :: acceptedEpochs (r.live (.replicate q)) es
      else acceptedEpochs (r.live (.replicate q)) es
  | r, e :: es => acceptedEpochs (r.live e) es

/-- After the run, every request whose epoch is below an accepted one is refused. -/
def Fenced (r : PartitionReplica) (es : List LifeEvent) : Prop :=
  ∀ e ∈ acceptedEpochs r es, ∀ q : ReplicateRequest, q.leaderEpoch < e → (life r es).Rejects q

section Epochs

variable {r : PartitionReplica} {q : ReplicateRequest}

theorem rejects_of_stale (h : q.leaderEpoch < r.assignment.leaderEpoch) : r.Rejects q := by
  have hnone : r.replicateAppend q = none := by
    unfold replicateAppend
    rw [if_pos h]
  unfold Rejects executeReplicate
  simp only [hnone]
  rw [if_pos h]
  exact ⟨by simp, rfl⟩

/-- A probe at the log end with an epoch that is not stale is accepted. -/
theorem accepts_probe {epoch : Int} (h : r.assignment.leaderEpoch ≤ epoch) :
    r.Accepts ⟨epoch, r.log.logEndOffset, 0, []⟩ := by
  have hnone : r.replicateAppend ⟨epoch, r.log.logEndOffset, 0, []⟩ = none := by
    unfold replicateAppend
    rw [if_neg (not_lt.mpr h), if_pos (by simp)]
  unfold Accepts executeReplicate
  simp only [hnone]
  rw [if_neg (not_lt.mpr h), if_pos (by simp)]

/-- **Epoch fencing, over every run**: a replica refuses every leader older than one it has
    accepted exactly when the epoch of its stored assignment has reached all accepted epochs. -/
theorem fenced_iff (r : PartitionReplica) (es : List LifeEvent) :
    Fenced r es ↔ ∀ e ∈ acceptedEpochs r es, e ≤ (life r es).assignment.leaderEpoch := by
  constructor
  · intro h e he
    by_contra hlt
    exact (h e he _ (not_le.mp hlt)).1 (accepts_probe le_rfl)
  · intro h e he q hq
    exact rejects_of_stale (lt_of_lt_of_le hq (h e he))

end Epochs

/-- The follower's replica of a fresh partition. -/
def freshFollower : PartitionReplica := make ⟨0, 0, [0, 1]⟩ 1 ReplicaLog.empty

/-- The follower accepts a probe of epoch 5 and then a batch of epoch 3. -/
theorem older_leader_appends :
    ¬ Fenced freshFollower [.replicate ⟨5, 0, 0, []⟩] ∧
      (life freshFollower [.replicate ⟨5, 0, 0, []⟩]).Accepts ⟨3, 0, 1, stamp 7 0 sampleRecord⟩ ∧
      (life freshFollower [.replicate ⟨5, 0, 0, []⟩,
        .replicate ⟨3, 0, 1, stamp 7 0 sampleRecord⟩]).log.logEndOffset = 1 := by
  refine ⟨fun h => ?_, by unfold Accepts; decide +kernel, by decide +kernel⟩
  exact absurd ((fenced_iff _ _).mp h 5 (by decide +kernel)) (by decide +kernel)

end PartitionReplica

end PulseLog

/-
  Subject:   The accounts of a replica's waiters: every produce request that waits for durability
             is answered once (src/broker/partition_replica.cc).

  Seven methods take waiters out of the list and run their callbacks, with different predicates,
  and each of them publishes the number that is left. `Ledger` notes, next to the replica, which
  waiters were added and whose callbacks have run.

  * `waiters_accounted` -- the accounts over every run.
-/
import PulseLog.Broker.Lifetime

namespace PulseLog

open List

namespace PartitionReplica

/-! ## 1. The waiters of a call -/

/-- The waiters a call adds. -/
def adds : LifeEvent → List DurabilityWaiter
  | .event (.addWaiter w) => [w]
  | _ => []

/-- The waiters whose callbacks a call runs, in this order. -/
def answers (r : PartitionReplica) : LifeEvent → List DurabilityWaiter
  | .event .leaderAppend => r.onLeaderAppend.1
  | .event (.progress follower logEnd flushed now) =>
    (r.onFollowerProgress follower logEnd flushed now).1
  | .event (.outOfSync follower) => (r.markFollowerOutOfSync follower).1
  | .event (.addWaiter w) => (r.addWaiter w).1
  | .event .sweep => r.completeSatisfiedWaiters.1
  | .event (.expire now) => (r.expireWaiters now).1
  | .failAll => r.failAllWaiters.1
  | .replicate q => (r.executeReplicate q).2.1
  | _ => []

/-- The call reaches `ExtractSatisfiedLocked`: a report about an unknown follower, and the removal
    of one that is not in sync, return before it. -/
def Evaluates (r : PartitionReplica) : LifeEvent → Prop
  | .event .leaderAppend | .event .sweep | .event (.addWaiter _) => True
  | .event (.progress follower _ _ _) => r.hasFollower follower = true
  | .event (.outOfSync follower) =>
    r.followers.any (fun f => f.broker == follower && f.inSync) = true
  | _ => False

/-- No pending waiter's condition holds. -/
def Settled (r : PartitionReplica) : Prop := ∀ w ∈ r.waiters, r.satisfied w = false

/-- The published count is the number of pending waiters. -/
def Published (r : PartitionReplica) : Prop := r.pendingWaiters = r.waiters.length

/-- What a method makes of the waiters `ws`: it answers some and leaves the others, and the count it
    publishes is still right. -/
structure Sorts (ws : List DurabilityWaiter) (r : PartitionReplica)
    (out : List DurabilityWaiter × PartitionReplica) : Prop where
  perm : ws.Perm (out.2.waiters ++ out.1)
  published : r.Published → out.2.Published

section Call

variable {r : PartitionReplica}

theorem recomputeHighWaterMark_waiters : r.recomputeHighWaterMark.waiters = r.waiters := by
  unfold recomputeHighWaterMark
  split <;> rfl

theorem perm_filter (p : DurabilityWaiter → Bool) (ws : List DurabilityWaiter) :
    ws.Perm (ws.filter (fun w => !p w) ++ ws.filter p) :=
  (filter_append_perm p ws).symm.trans perm_append_comm

theorem sorts_same {r' : PartitionReplica} (hw : r'.waiters = r.waiters)
    (hp : r'.pendingWaiters = r.pendingWaiters) : Sorts r.waiters r ([], r') := by
  refine ⟨by rw [append_nil, hw], fun h => ?_⟩
  unfold Published at h ⊢
  rw [hw, hp]
  exact h

theorem sorts_extract (r r0 : PartitionReplica) : Sorts r.waiters r0 r.extractSatisfied :=
  ⟨perm_filter r.satisfied r.waiters, fun _ => rfl⟩

theorem sorts_settle (r r0 : PartitionReplica) :
    Sorts r.waiters r0 r.recomputeHighWaterMark.extractSatisfied := by
  have h := sorts_extract r.recomputeHighWaterMark r0
  rw [recomputeHighWaterMark_waiters] at h
  exact h

theorem sorts_onFollowerProgress (b : Nat) (logEnd flushed now : Int) :
    Sorts r.waiters r (r.onFollowerProgress b logEnd flushed now) := by
  unfold onFollowerProgress
  split
  · exact sorts_settle (r.updateFollower b _) r
  · exact sorts_same rfl rfl

theorem sorts_markFollowerOutOfSync (b : Nat) : Sorts r.waiters r (r.markFollowerOutOfSync b) := by
  unfold markFollowerOutOfSync
  split
  · exact sorts_settle (r.updateFollower b _) r
  · exact sorts_same rfl rfl

theorem sorts_expireWaiters (now : Int) : Sorts r.waiters r (r.expireWaiters now) := by
  refine ⟨?_, fun _ => rfl⟩
  have h := perm_filter (fun w => !decide (w.deadlineMs > now)) r.waiters
  simp only [Bool.not_not] at h
  exact h

theorem sorts_executeReplicate (q : ReplicateRequest) :
    Sorts r.waiters r ((r.executeReplicate q).2) := by
  unfold executeReplicate
  split
  · rename_i log _
    exact sorts_settle { r with log := log } r
  · exact sorts_same rfl rfl
  · dsimp only
    split
    · exact sorts_same rfl rfl
    · split
      · exact sorts_settle r r
      · exact sorts_same rfl rfl

/-- **A call neither loses nor invents a waiter**: those that were there and the one it adds are
    those it leaves and those it answers. -/
theorem sorts_live (r : PartitionReplica) (e : LifeEvent) :
    Sorts (r.waiters ++ adds e) r (r.answers e, r.live e) := by
  -- only `AddWaiter` adds one
  have hnone : ∀ {out}, Sorts r.waiters r out → Sorts (r.waiters ++ []) r out := by
    intro out h
    rw [append_nil]
    exact h
  cases e with
  | event e =>
    cases e with
    | append t data count =>
      refine hnone ?_
      simp only [live, step]
      split
      · exact sorts_same rfl rfl
      · exact sorts_same rfl rfl
    | flush target => exact hnone (sorts_same rfl rfl)
    | leaderAppend => exact hnone (sorts_settle r r)
    | progress b logEnd flushed now => exact hnone (sorts_onFollowerProgress b logEnd flushed now)
    | outOfSync b => exact hnone (sorts_markFollowerOutOfSync b)
    | addWaiter w => exact sorts_extract { r with waiters := r.waiters ++ [w] } r
    | sweep => exact hnone (sorts_settle r r)
    | expire now => exact hnone (sorts_expireWaiters now)
  | failAll => exact hnone ⟨List.Perm.refl _, fun _ => rfl⟩
  | setAssignment a => exact hnone (sorts_same rfl rfl)
  | replicate q => exact hnone (sorts_executeReplicate q)

theorem settled_extract (r : PartitionReplica) : Settled r.extractSatisfied.2 := by
  intro w hw
  have hleft := (mem_filter.mp hw).2
  rw [Bool.not_eq_true_eq_eq_false] at hleft
  exact hleft

/-- **A call that evaluates the waiters leaves none whose condition holds.** -/
theorem settled_live {e : LifeEvent} (h : r.Evaluates e) : Settled (r.live e) := by
  cases e with
  | failAll | setAssignment | replicate => exact h.elim
  | event e =>
    cases e with
    | append | flush | expire => exact h.elim
    | leaderAppend | sweep | addWaiter => exact settled_extract _
    | progress b logEnd flushed now =>
      have hf : r.hasFollower b = true := h
      simp only [live, step, onFollowerProgress, if_pos hf]
      exact settled_extract _
    | outOfSync b =>
      have hf : r.followers.any (fun f => f.broker == b && f.inSync) = true := h
      simp only [live, step, markFollowerOutOfSync, if_pos hf]
      exact settled_extract _

end Call

/-! ## 2. The accounts -/

/-- A replica, the waiters that were added to it, and those whose callbacks have run. -/
structure Ledger where
  replica : PartitionReplica
  added : List DurabilityWaiter
  answered : List DurabilityWaiter

namespace Ledger

def start (assignment : PartitionAssignment) (self : Nat) (log : ReplicaLog) : Ledger :=
  ⟨make assignment self log, [], []⟩

def step (s : Ledger) (e : LifeEvent) : Ledger :=
  ⟨s.replica.live e, s.added ++ adds e, s.answered ++ s.replica.answers e⟩

def run (s : Ledger) (es : List LifeEvent) : Ledger := es.foldl step s

/-- Every waiter that was added is pending or answered, in one of the two lists and once. -/
structure Balances (s : Ledger) : Prop where
  accounted : s.added.Perm (s.replica.waiters ++ s.answered)
  published : s.replica.Published

theorem Balances.step {s : Ledger} (h : s.Balances) (e : LifeEvent) : (s.step e).Balances := by
  have hcall := sorts_live s.replica e
  refine ⟨?_, hcall.published h.published⟩
  have hadd : (s.added ++ adds e).Perm (s.replica.waiters ++ adds e ++ s.answered) := by
    refine (h.accounted.append_right _).trans ?_
    rw [append_assoc, append_assoc]
    exact perm_append_comm.append_left _
  have hsort : (s.replica.waiters ++ adds e ++ s.answered).Perm
      ((s.replica.live e).waiters ++ (s.answered ++ s.replica.answers e)) := by
    refine (hcall.perm.append_right _).trans ?_
    rw [append_assoc]
    exact perm_append_comm.append_left _
  exact hadd.trans hsort

end Ledger

/-- **The accounts of the waiters**, over every run of a replica's methods: the waiters that were
    added are the pending ones and those whose callbacks have run, each once; the published count is
    the number of pending ones; and after a call that evaluates the waiters no pending one's
    condition holds. -/
theorem waiters_accounted (assignment : PartitionAssignment) (self : Nat) (log : ReplicaLog)
    (es : List LifeEvent) :
    ((Ledger.start assignment self log).run es).Balances ∧
      Along Ledger.step (fun s e => s.replica.Evaluates e → (s.step e).replica.Settled)
        (Ledger.start assignment self log) es := by
  have hall : Along Ledger.step (fun _ _ => True) (Ledger.start assignment self log) es :=
    along_of_forall fun _ _ => trivial
  have hsettled : ∀ (s : Ledger) e, s.replica.Evaluates e →
      (s.step e).replica.Settled := fun s e h => settled_live h
  refine ⟨?_, hall.mono fun s e _ => hsettled s e⟩
  refine Along.foldl (fun s e hs _ => hs.step e) hall ?_
  exact ⟨List.Perm.refl _, rfl⟩

end PartitionReplica

end PulseLog

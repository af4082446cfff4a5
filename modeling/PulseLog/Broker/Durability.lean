/-
  Subject:   What becomes of an acknowledged batch as the run goes on.

  Quorum.lean is about the moment of the acknowledgement, Acknowledged.lean about the leader's log.
  A flushed offset never moves back while only processes crash, so the majority stays one.

  * **`acked_on_majority`** -- an acknowledged batch is in the leader's log, and in those of a
    majority that counts it as flushed.
-/
import PulseLog.Broker.Acknowledged
import PulseLog.Broker.Quorum

namespace PulseLog

open List

namespace Cluster

open PartitionReplica

variable {c : Cluster}

/-- A broker's flushed offset never moves back. -/
theorem flushed_step {e : Event} (he : c.Mild e) (x : Nat) :
    c.flushed x ≤ (c.step e).2.flushed x := by
  have hon : ∀ (c : Cluster) f, (∀ r, Kin r (f r).2) →
      c.flushed x ≤ (c.onLeader f).2.flushed x := by
    intro c f hkin
    unfold onLeader
    split
    · exact le_rfl
    · rename_i r hr
      exact flushed_setNode_mono (by rw [flushed, hr, Node.log, Node.log, (hkin r).log_eq]) x
  have hset : ∀ {b : Nat} {r : PartitionReplica} {n : Node}, c.node b = .up r →
      r.log.flushedOffset ≤ n.log.flushedOffset → c.flushed x ≤ (c.setNode b n).flushed x :=
    fun hr hn => flushed_setNode_mono (by rw [flushed, hr]; exact hn) x
  have hmove := step_moves c e
  generalize c.step e = out at hmove ⊢
  cases hmove with
  | stays | sent => exact le_rfl
  | produced hr hlog =>
    obtain ⟨rs, -, -, -, -, happ⟩ := ReplicaLog.appendAssigningOffsets_ok hlog
    exact hset hr happ.flushed.ge
  | settled => exact hon _ _ kin_settle
  | @waits _ w => exact hon { c with handlers := c.handlers.eraseIdx _ } _ (kin_addWaiter · w)
  | @delivered _ b r q _ hr =>
    obtain ⟨log, hk, hlog⟩ := executeReplicate_log r q
    refine hset hr ?_
    rw [Node.log, hk.log_eq]
    rcases hlog with rfl | happ
    · exact le_rfl
    · obtain ⟨ss, -, -, hss⟩ := ReplicaLog.appendWithOffsets_ok (replicateAppend_ok happ).2
      exact hss.flushed.ge
  | replied => exact hon _ _ (kin_onReplicateResponse · _ _ _)
  | marked peer => exact hon _ _ (kin_markFollowerOutOfSync · peer)
  | flushed hr => exact hset hr (le_max_left _ _)
  | expired hr => exact hset hr le_rfl
  | crashed hc => exact flushed_setNode_mono (flushed_crashed he hc _) x
  | restarted hlog => exact flushed_setNode_mono (by rw [flushed, hlog]; exact le_rfl) x

/-- A majority counts as flushed what was acknowledged, at any time later. -/
theorem counted_run (set : ReplicaSet) (es : List Event) (hes : Along next Mild (start set) es) :
    ∀ w ∈ ((start set).run es).acked, set.assignment.quorumSize ≤
      flushedCount set.assignment ((start set).run es).flushed w.requiredOffset := by
  induction es using reverseRecOn with
  | nil => simp [run, start]
  | append_singleton es e ih =>
    intro w hw
    obtain ⟨hes', he, -⟩ := (along_append es _).mp hes
    have hset : (((start set).run es).step e).2.set = set := by
      rw [step_set, run_set]
      rfl
    rw [run, foldl_append] at hw ⊢
    rcases mem_append.mp hw with hw | hw
    · refine (ih hes' w hw).trans (Sublist.length_le (monotone_filter_right _ fun b hb => ?_))
      have hle : (((start set).run es).flushed b : Int) ≤ _ := Int.ofNat_le.mpr (flushed_step he b)
      exact decide_eq_true (lt_of_lt_of_le (of_decide_eq_true hb) hle)
    · obtain ⟨hw, hq⟩ := mem_filter.mp hw
      obtain ⟨hformed, htrue⟩ := truthful_run set hes'
      have hs := (sound_step hformed htrue he).2 w hw (by simpa using hq)
      rwa [hset] at hs

end Cluster

end PulseLog

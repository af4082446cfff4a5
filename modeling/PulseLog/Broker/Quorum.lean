/-
  Subject:   What a quorum acknowledgement stands for.

  The leader counts its own flushed offset and the copies it keeps of its followers'. As long as
  only processes crash and their records parse on their own, a broker's flushed offset never moves
  back -- the open after a crash even sets it to the log end -- so every report in flight and every
  stored copy stays below the truth, however stale it is.

  * `flushed_crashed` -- such a crash does not lower the flushed offset;
  * `quorum_ack_is_persisted` -- the acknowledgement at the moment it is given.
-/
import Mathlib.Data.List.Dedup
import Mathlib.Data.List.Perm.Subperm
import PulseLog.Broker.Agreement

namespace PulseLog

open List

namespace PartitionReplica

/-! ## 1. Counting -/

/-- The number of distinct replicas whose flushed offset is above `offset`. -/
def flushedCount (a : PartitionAssignment) (fl : Nat → Nat) (offset : Int) : Nat :=
  (a.replicas.dedup.filter (fun b => decide (offset < (fl b : Int)))).length

/-- The copies a leader keeps are at most the true flushed offsets. -/
def Knows (fl : Nat → Nat) (r : PartitionReplica) : Prop :=
  ∀ f ∈ r.followers, f.flushedOffset ≤ fl f.broker

/-- What a method returns: its copies are still sound, and each quorum waiter it completed has a
    majority behind it. -/
structure Answers (a : PartitionAssignment) (fl : Nat → Nat)
    (out : List DurabilityWaiter × PartitionReplica) : Prop where
  knows : Knows fl out.2
  majority : ∀ w ∈ out.1, w.mode = .quorum → a.quorumSize ≤ flushedCount a fl w.requiredOffset

section Answers

variable {a : PartitionAssignment} {b : Nat} {fl fl' : Nat → Nat} {r r' : PartitionReplica}

theorem Knows.mono (h : Knows fl r) (hle : ∀ x, fl x ≤ fl' x) : Knows fl' r :=
  fun f hf => le_trans (h f hf) (by exact_mod_cast hle f.broker)

theorem knows_updateFollower {g : FollowerState → FollowerState} (hk : Knows fl r)
    (hg : ∀ f ∈ r.followers, f.broker = b → (g f).broker = f.broker ∧ (g f).flushedOffset ≤ fl b) :
    Knows fl (r.updateFollower b g) := by
  intro f' hf'
  obtain ⟨f, hf, rfl⟩ := mem_map.mp hf'
  by_cases hb : f.broker = b
  · rw [if_pos hb, (hg f hf hb).1, hb]
    exact (hg f hf hb).2
  · rw [if_neg hb]
    exact hk f hf

section Counted

variable (hw : Wired a b r) (hk : Knows fl r) (hf : fl b = r.log.flushedOffset)
  (hb : b ∈ a.replicas)
include hw hk hf hb

/-- **The leader never counts a replica that is not there**: the followers are distinct members of
    the set, other than the leader. -/
theorem persisted_le_flushedCount (o : Int) : r.persisted o ≤ flushedCount a fl o := by
  have hcount : r.persisted o = ((if r.log.flushedOffset > o then [b] else []) ++
      (r.followers.filter (fun f => f.inSync && decide (f.flushedOffset > o))).map
        FollowerState.broker).length := by
    rw [persisted, length_append, length_map, countP_eq_length_filter]
    split <;> rfl
  rw [hcount]
  have hsub : ∀ x ∈ (r.followers.filter (fun f => f.inSync && decide (f.flushedOffset > o))).map
      FollowerState.broker, x ∈ r.followers.map FollowerState.broker ∧ o < fl x := by
    intro x hx
    obtain ⟨f, hff, rfl⟩ := mem_map.mp hx
    obtain ⟨hmem, hcond⟩ := mem_filter.mp hff
    simp only [Bool.and_eq_true, decide_eq_true_eq] at hcond
    exact ⟨mem_map_of_mem hmem, lt_of_lt_of_le hcond.2 (hk f hmem)⟩
  refine (List.Nodup.subperm ?_ ?_).length_le
  · refine nodup_append.mpr ⟨?_, ?_, ?_⟩
    · split
      · exact nodup_singleton b
      · exact nodup_nil
    · exact hw.nodup.sublist (filter_sublist.map _)
    · intro x hx y hy he
      have hxb : x = b := by
        split at hx
        · exact mem_singleton.mp hx
        · simp at hx
      exact ((hw.member y).mp (hsub y hy).1).2 (he ▸ hxb)
  · intro x hx
    refine mem_filter.mpr ?_
    rw [mem_dedup, decide_eq_true_eq]
    rcases mem_append.mp hx with hx | hx
    · split at hx
      · rename_i hlt
        rw [mem_singleton.mp hx, hf]
        exact ⟨hb, hlt⟩
      · simp at hx
    · exact ⟨((hw.member x).mp (hsub x hx).1).1, (hsub x hx).2⟩

theorem answers_extract : Answers a fl r.extractSatisfied := by
  refine ⟨hk, fun w hmem hq => ?_⟩
  have hs := (mem_filter.mp hmem).2
  rw [satisfied, hq] at hs
  simp only [decide_eq_true_eq] at hs
  rw [hw.assignment_eq] at hs
  exact le_trans hs (persisted_le_flushedCount hw hk hf hb _)

theorem answers_settle : Answers a fl r.recomputeHighWaterMark.extractSatisfied := by
  have hkin := kin_recomputeHighWaterMark r
  refine answers_extract (hw.kin hkin) ?_ (by rw [hkin.log_eq]; exact hf) hb
  intro f hmem
  rw [recomputeHighWaterMark_followers] at hmem
  exact hk f hmem

theorem answers_onFollowerProgress {x : Nat} {logEnd flushed now : Int} (hx : flushed ≤ fl x) :
    Answers a fl (r.onFollowerProgress x logEnd flushed now) := by
  unfold onFollowerProgress
  split
  · have hkin : Kin r (r.updateFollower x (merge logEnd flushed now)) :=
      kin_updateFollower _ (fun f => ⟨rfl, le_max_left _ _⟩)
    refine answers_settle (hw.kin hkin)
      (knows_updateFollower hk (fun f hmem hfx => ⟨rfl, ?_⟩)) hf hb
    have := hk f hmem
    rw [hfx] at this
    exact max_le this hx
  · exact ⟨hk, by simp⟩

theorem answers_markFollowerOutOfSync (x : Nat) : Answers a fl (r.markFollowerOutOfSync x) := by
  unfold markFollowerOutOfSync
  split
  · have hkin : Kin r (r.updateFollower x (fun f => { f with inSync := false })) :=
      kin_updateFollower _ (fun f => ⟨rfl, le_rfl⟩)
    refine answers_settle (hw.kin hkin)
      (knows_updateFollower hk (fun f hmem hfx => ⟨rfl, ?_⟩)) hf hb
    have := hk f hmem
    rwa [hfx] at this
  · exact ⟨hk, by simp⟩

theorem answers_onReplicateResponse {x : Nat} {resp : ReplicateResponse}
    (hx : resp.flushedOffset ≤ fl x) (now : Int) :
    Answers a fl (r.onReplicateResponse x resp now) := by
  have hx' : (resp.flushedOffset : Int) ≤ fl x := by exact_mod_cast hx
  unfold onReplicateResponse
  split
  · exact answers_onFollowerProgress hw hk hf hb hx'
  · exact answers_onFollowerProgress hw hk hf hb hx'
  · exact ⟨hk, by simp⟩

end Counted

theorem knows_make (a : PartitionAssignment) (b : Nat) (log : ReplicaLog) (fl : Nat → Nat) :
    Knows fl (make a b log) := by
  intro f hf
  rw [(mem_foldl_emplace _ [] (by simp) f hf).2]
  exact Int.natCast_nonneg _

end Answers

/-- A follower reports its own log. -/
theorem executeReplicate_reports (r : PartitionReplica) (q : ReplicateRequest) :
    (r.executeReplicate q).1.flushedOffset = (r.executeReplicate q).2.2.log.flushedOffset := by
  unfold executeReplicate
  split
  · rw [show ∀ r : PartitionReplica, r.onLeaderAppend.2.log = r.log from
      fun r => (kin_settle r).log_eq]
  · rfl
  · dsimp only
    split
    · rfl
    · split
      · rw [show r.onLeaderAppend.2.log = r.log from (kin_settle r).log_eq]
      · rfl

end PartitionReplica

/-! ## 2. Reports never overstate -/

namespace Cluster

open PartitionReplica

/-- The flushed offset of a broker's log; a stopped broker counts by the log it would recover. -/
def flushed (c : Cluster) (b : Nat) : Nat := (c.node b).log.flushedOffset

/-- **The invariant**: responses in flight and the leader's copies are at most the true flushed
    offsets. -/
structure Truthful (c : Cluster) : Prop where
  responses : ∀ x ∈ c.responses, x.2.flushedOffset ≤ c.flushed x.1
  knows : ∀ r, c.node c.leader = .up r → Knows c.flushed r

section Truthful

variable {c : Cluster} {b : Nat} {n : Node}

theorem flushed_setNode_mono (hn : c.flushed b ≤ n.log.flushedOffset) (x : Nat) :
    c.flushed x ≤ (c.setNode b n).flushed x :=
  forall_setNode (P := fun x m => c.flushed x ≤ m.log.flushedOffset) (fun _ => le_rfl) hn x

theorem flushed_setNode_same (hn : n.log.flushedOffset = c.flushed b) :
    (c.setNode b n).flushed = c.flushed :=
  funext (forall_setNode (P := fun x m => m.log.flushedOffset = c.flushed x) (fun _ => rfl) hn)

/-- A broker changes and its flushed offset does not move back. -/
theorem Truthful.setNode (h : Truthful c) (hn : c.flushed b ≤ n.log.flushedOffset)
    (hk : ∀ r, b = c.leader → n = .up r → Knows c.flushed r) : Truthful (c.setNode b n) := by
  have hmono := flushed_setNode_mono hn
  refine ⟨fun x hx => le_trans (h.responses x hx) (hmono x.1), fun r hr => ?_⟩
  exact Knows.mono (forall_setNode (P := fun x m => x = c.leader → m = .up r → Knows c.flushed r)
    (fun x hx hr => h.knows r (hx ▸ hr)) (hk r) c.leader rfl hr) hmono

theorem Truthful.congr {c' : Cluster} (h : Truthful c) (hs : c'.set = c.set)
    (hn : c'.node = c.node) (hr : c'.responses = c.responses) : Truthful c' := by
  obtain ⟨set, node, requests, responses, handlers, acked⟩ := c
  subst hs hn hr
  exact ⟨h.responses, h.knows⟩

/-- A stopped broker keeps its flushed offset or more. -/
theorem Truthful.stop {log : ReplicaLog} (h : Truthful c) (hn : c.flushed b ≤ log.flushedOffset) :
    Truthful (c.stop b log) :=
  (h.setNode hn (fun _ _ hr => by simp at hr)).congr rfl rfl rfl

/-- A method of the leader's replica keeps the invariant, and its answers have a majority. -/
theorem Truthful.onLeader {f : PartitionReplica → List DurabilityWaiter × PartitionReplica}
    (h : Truthful c) (hkin : ∀ r, Kin r (f r).2)
    (hf : ∀ r, c.node c.leader = .up r → Answers c.set.assignment c.flushed (f r)) :
    Truthful (c.onLeader f).2 ∧ ∀ w ∈ (c.onLeader f).1, w.mode = .quorum →
      c.set.assignment.quorumSize ≤
        flushedCount c.set.assignment (c.onLeader f).2.flushed w.requiredOffset := by
  unfold Cluster.onLeader
  split
  · exact ⟨h, by simp⟩
  rename_i r hr
  have hsame : (Node.up (f r).2).log.flushedOffset = c.flushed c.leader := by
    rw [flushed, hr, Node.log, Node.log, (hkin r).log_eq]
  refine ⟨h.setNode (le_of_eq hsame.symm) ?_, fun w hw hq => ?_⟩
  · rintro _ - ⟨⟩
    exact (hf r hr).knows
  · rw [flushed_setNode_same hsame]
    exact (hf r hr).majority w hw hq

end Truthful

/-- What is shown of an event: the invariant, and a majority behind each quorum answer. -/
def Sound (out : List DurabilityWaiter × Cluster) : Prop :=
  Truthful out.2 ∧ ∀ w ∈ out.1, w.mode = .quorum →
    out.2.set.assignment.quorumSize ≤
      flushedCount out.2.set.assignment out.2.flushed w.requiredOffset

section Runs

variable {c : Cluster}

theorem Truthful.sound (h : Truthful c) : Sound ([], c) := ⟨h, by simp⟩

/-- A process dies, and its records parse on their own: the next open flushes no less. -/
theorem flushed_crashed {e : Event} (he : c.Mild e) {b : Nat} {log : ReplicaLog}
    (hc : c.crashed e = some (b, log)) (found : ReplicaLog.Reopening) :
    c.flushed b ≤ (log.reopen found).flushedOffset := by
  have hrec : (log.reopen found).flushedOffset = log.records.length :=
    congrArg List.length (he.2.reopen_records hc found)
  have hle : log.flushedOffset ≤ (log.reopen found).flushedOffset := by
    rw [hrec]
    exact log.flushed_le
  refine le_trans ?_ hle
  cases remains_of_crashed hc with
  | idle hr =>
    rw [flushed, hr]
    exact le_rfl
  | producing hr hlog =>
    obtain ⟨rs, -, -, -, -, happ⟩ := ReplicaLog.appendAssigningOffsets_ok hlog
    rw [flushed, hr]
    exact happ.flushed.ge
  | replicating _ hr hlog =>
    obtain ⟨ss, -, -, hss⟩ := ReplicaLog.appendWithOffsets_ok (replicateAppend_ok hlog).2
    rw [flushed, hr]
    exact hss.flushed.ge
  | lost => cases he.1

theorem sound_onLeader {f : PartitionReplica → List DurabilityWaiter × PartitionReplica}
    (ha : Formed c) (h : Truthful c) (hkin : ∀ r, Kin r (f r).2)
    (hf : ∀ r, Wired c.set.assignment c.leader r → Knows c.flushed r →
      c.flushed c.leader = r.log.flushedOffset → Answers c.set.assignment c.flushed (f r)) :
    Sound (c.onLeader f) := by
  obtain ⟨h1, h2⟩ := h.onLeader hkin
    (fun r hr => hf r (ha.wired _ r hr) (h.knows r hr) (by rw [flushed, hr, Node.log]))
  refine ⟨h1, fun w hw hq => ?_⟩
  rw [onLeader_set]
  exact h2 w hw hq

theorem sound_step (ha : Formed c) (h : Truthful c) {e : Event} (he : c.Mild e) :
    Sound (c.step e) := by
  have hm := c.set.leader_mem
  have hmove := step_moves c e
  generalize c.step e = out at hmove ⊢
  cases hmove with
  | stays => exact h.sound
  | @produced _ _ _ _ _ r log hr hlog =>
    obtain ⟨rs, -, -, -, -, happ⟩ := ReplicaLog.appendAssigningOffsets_ok hlog
    have hset := h.setNode (n := .up { r with log := log })
      (by rw [flushed, hr]; exact le_of_eq happ.flushed.symm)
      (by rintro _ - ⟨⟩; exact h.knows r hr)
    exact Truthful.sound (hset.congr rfl rfl rfl)
  | settled =>
    exact sound_onLeader ha h kin_settle (fun r hw hk hf => answers_settle hw hk hf hm)
  | @waits i w _ =>
    have ha' : Formed { c with handlers := c.handlers.eraseIdx i } := ha.congr rfl rfl rfl
    have h' : Truthful { c with handlers := c.handlers.eraseIdx i } := h.congr rfl rfl rfl
    refine sound_onLeader ha' h' (fun r => kin_addWaiter r w) (fun r hw' hk hf => ?_)
    exact answers_extract ⟨hw'.self_eq, hw'.assignment_eq, hw'.nodup, hw'.member, hw'.ends⟩ hk hf hm
  | sent _ _ => exact Truthful.sound (h.congr rfl rfl rfl)
  | @delivered _ b r q hq hr =>
    have hb := ha.dest _ hq
    have hnone := (executeReplicate_idle (q := q) (ha.idle b r hb hr)).1
    have hmono : c.flushed b ≤ (r.executeReplicate q).2.2.log.flushedOffset := by
      obtain ⟨log, hk, hlog⟩ := executeReplicate_log r q
      rw [hk.log_eq, flushed, hr]
      rcases hlog with rfl | happ
      · exact le_rfl
      · obtain ⟨ss, -, -, hss⟩ := ReplicaLog.appendWithOffsets_ok (replicateAppend_ok happ).2
        exact le_of_eq hss.flushed.symm
    have hset := h.setNode (n := .up (r.executeReplicate q).2.2) hmono (fun _ he => absurd he hb)
    refine ⟨⟨fun x hx => ?_, hset.knows⟩, fun w hw => ?_⟩
    · rcases mem_append.mp hx with hx | hx
      · exact hset.responses x hx
      · rw [mem_singleton.mp hx]
        rw [executeReplicate_reports, flushed, node_setNode_self]
        exact le_rfl
    · rw [hnone] at hw
      simp at hw
  | @replied _ b resp now hresp =>
    exact sound_onLeader ha h (fun r => kin_onReplicateResponse r b resp now)
      (fun r hw hk hf => answers_onReplicateResponse hw hk hf hm (h.responses _ hresp) now)
  | marked peer =>
    exact sound_onLeader ha h (fun r => kin_markFollowerOutOfSync r peer)
      (fun r hw hk hf => answers_markFollowerOutOfSync hw hk hf hm peer)
  | @flushed b target r hr =>
    refine (h.setNode ?_ ?_).sound
    · rw [flushed, hr]
      exact le_max_left _ _
    · rintro _ rfl ⟨⟩
      exact h.knows r hr
  | @expired now r hr =>
    refine (h.setNode ?_ ?_).sound
    · rw [flushed, hr]
      exact le_rfl
    · rintro _ - ⟨⟩
      exact h.knows r hr
  | crashed hc => exact (h.stop (flushed_crashed he hc _)).sound
  | @restarted b log hlog =>
    refine (h.setNode ?_ ?_).sound
    · rw [flushed, hlog]
      exact le_rfl
    · rintro _ - ⟨⟩
      exact knows_make _ b log _

theorem truthful_start (set : ReplicaSet) : Truthful (start set) := by
  refine ⟨by simp [start], ?_⟩
  rintro _ ⟨⟩
  exact knows_make _ _ _ _

theorem truthful_run (set : ReplicaSet) {es : List Event} (hes : Along next Mild (start set) es) :
    Formed ((start set).run es) ∧ Truthful ((start set).run es) :=
  hes.foldl (I := fun c => Formed c ∧ Truthful c)
    (fun _ _ h he => ⟨formed_next h.1 _, (sound_step h.1 h.2 he).1.congr rfl rfl rfl⟩)
    ⟨formed_start set, truthful_start set⟩

end Runs

end Cluster

end PulseLog

/-
  Subject:   Leader and follower logs agree, in every run with process crashes.

  The leader's log only grows, so a request in flight stays a slice of it, at the offset the
  request names, however late it arrives. A follower appends a request only at its own log end;
  its log is therefore always a prefix of the leader's.

  * `Kin` -- what the methods of a replica leave alone; `Wired` -- each broker's replica belongs
    to that broker, and its followers are other members of the replica set, each once;
  * `Formed` -- what every run keeps; `Agree` -- the invariant of runs with process crashes:
    prefixes, and requests that are slices of the leader's log;
  * `agree_step`, `agree_run` -- one event and every run keep it, if each process that dies leaves
    records that parse on their own: recovery cuts others, and the leader's log shrinks.
-/
import Mathlib.Data.List.Infix
import Mathlib.Data.List.Nodup
import PulseLog.Broker.Cluster
import PulseLog.General.Run

namespace PulseLog

open List

variable {q : ReplicateRequest} {log : ReplicaLog}

/-! ## 1. What the methods of a replica leave alone -/

namespace PartitionReplica

/-- The fields only construction and the log itself change. -/
structure Kin (r r' : PartitionReplica) : Prop where
  self_eq : r'.self = r.self
  assignment_eq : r'.assignment = r.assignment
  log_eq : r'.log = r.log
  names : r'.followers.map FollowerState.broker = r.followers.map FollowerState.broker
  ends : ∀ f' ∈ r'.followers, ∃ f ∈ r.followers, f.logEndOffset ≤ f'.logEndOffset

section Kin

variable {r r' r'' : PartitionReplica}

theorem kin_of_followers (hs : r'.self = r.self) (ha : r'.assignment = r.assignment)
    (hl : r'.log = r.log) (hf : r'.followers = r.followers) : Kin r r' :=
  ⟨hs, ha, hl, by rw [hf], fun f h => ⟨f, by rw [← hf]; exact h, le_rfl⟩⟩

theorem Kin.refl (r : PartitionReplica) : Kin r r := kin_of_followers rfl rfl rfl rfl

theorem Kin.trans (h : Kin r r') (h' : Kin r' r'') : Kin r r'' :=
  ⟨h'.self_eq.trans h.self_eq, h'.assignment_eq.trans h.assignment_eq, h'.log_eq.trans h.log_eq,
    h'.names.trans h.names, fun f'' hf'' => by
      obtain ⟨f', hf', h1⟩ := h'.ends f'' hf''
      obtain ⟨f, hf, h2⟩ := h.ends f' hf'
      exact ⟨f, hf, le_trans h2 h1⟩⟩

section

variable (r : PartitionReplica)

theorem kin_recomputeHighWaterMark : Kin r r.recomputeHighWaterMark := by
  unfold recomputeHighWaterMark
  split
  · exact kin_of_followers rfl rfl rfl rfl
  · exact Kin.refl r

theorem kin_extractSatisfied : Kin r r.extractSatisfied.2 :=
  kin_of_followers rfl rfl rfl rfl

/-- Recomputing the mark and taking out the satisfied waiters, the end of most methods. -/
theorem kin_settle : Kin r r.recomputeHighWaterMark.extractSatisfied.2 :=
  (kin_recomputeHighWaterMark r).trans (kin_extractSatisfied _)

theorem kin_updateFollower {b : Nat} {g : FollowerState → FollowerState}
    (hg : ∀ f, (g f).broker = f.broker ∧ f.logEndOffset ≤ (g f).logEndOffset) :
    Kin r (r.updateFollower b g) := by
  refine ⟨rfl, rfl, rfl, ?_, fun f' hf' => ?_⟩
  · simp only [updateFollower, map_map]
    refine map_congr_left (fun f _ => ?_)
    simp only [Function.comp_apply]
    split
    · exact (hg f).1
    · rfl
  · obtain ⟨f, hf, rfl⟩ := mem_map.mp hf'
    refine ⟨f, hf, ?_⟩
    split
    · exact (hg f).2
    · exact le_rfl

theorem kin_onFollowerProgress (b : Nat) (logEnd flushed now : Int) :
    Kin r (r.onFollowerProgress b logEnd flushed now).2 := by
  unfold onFollowerProgress
  split
  · have h : Kin r (r.updateFollower b (merge logEnd flushed now)) :=
      kin_updateFollower r (fun f => ⟨rfl, le_max_left _ _⟩)
    exact h.trans (kin_settle _)
  · exact Kin.refl r

theorem kin_markFollowerOutOfSync (b : Nat) :
    Kin r (r.markFollowerOutOfSync b).2 := by
  unfold markFollowerOutOfSync
  split
  · have h : Kin r (r.updateFollower b (fun f => { f with inSync := false })) :=
      kin_updateFollower r (fun f => ⟨rfl, le_rfl⟩)
    exact h.trans (kin_settle _)
  · exact Kin.refl r

theorem kin_addWaiter (w : DurabilityWaiter) : Kin r (r.addWaiter w).2 :=
  kin_of_followers rfl rfl rfl rfl

theorem kin_expireWaiters (now : Int) : Kin r (r.expireWaiters now).2 :=
  kin_of_followers rfl rfl rfl rfl

theorem kin_onReplicateResponse (b : Nat) (resp : ReplicateResponse)
    (now : Int) : Kin r (r.onReplicateResponse b resp now).2 := by
  unfold onReplicateResponse
  split
  · exact kin_onFollowerProgress r b _ _ now
  · exact kin_onFollowerProgress r b _ _ now
  · exact Kin.refl r

/-- The log a request leaves on the follower. -/
theorem executeReplicate_log (q : ReplicateRequest) :
    ∃ log, Kin { r with log := log } (r.executeReplicate q).2.2 ∧
      (log = r.log ∨ r.replicateAppend q = some (.ok log)) := by
  unfold executeReplicate
  split
  · rename_i log h
    exact ⟨log, kin_settle _, .inr h⟩
  · exact ⟨r.log, Kin.refl r, .inl rfl⟩
  · dsimp only
    split
    · exact ⟨r.log, Kin.refl r, .inl rfl⟩
    · split
      · exact ⟨r.log, kin_settle r, .inl rfl⟩
      · exact ⟨r.log, Kin.refl r, .inl rfl⟩

end

/-- A request is appended only where the follower's log ends. -/
theorem replicateAppend_ok (h : r.replicateAppend q = some (.ok log)) :
    q.baseOffset = r.log.logEndOffset ∧
      r.log.appendWithOffsets q.records q.recordCount = .ok log := by
  unfold replicateAppend at h
  simp only at h
  split at h
  · simp at h
  split at h
  · simp at h
  split at h
  · simp at h
  · rename_i hb
    exact ⟨not_not.mp hb, by simpa using h⟩

end Kin

/-- A sender has a peer. -/
theorem sendPending_peer {r : PartitionReplica} {peer limit : Nat}
    (h : r.sendPending peer limit = some q) : peer ≠ r.self := by
  unfold sendPending at h
  split at h
  · simp at h
  rename_i hg
  exact fun hp => hg (.inr (.inr hp))

/-- The replica on broker `b`: its followers are the other members of the set, each once. -/
structure Wired (a : PartitionAssignment) (b : Nat) (r : PartitionReplica) : Prop where
  self_eq : r.self = b
  assignment_eq : r.assignment = a
  nodup : (r.followers.map FollowerState.broker).Nodup
  member : ∀ x, x ∈ r.followers.map FollowerState.broker ↔ x ∈ a.replicas ∧ x ≠ b
  ends : ∀ f ∈ r.followers, 0 ≤ f.logEndOffset

section Wired

variable {r r' : PartitionReplica} {a : PartitionAssignment} {b : Nat}

theorem Wired.kin (h : Wired a b r) (hk : Kin r r') : Wired a b r' :=
  ⟨hk.self_eq.trans h.self_eq,
    hk.assignment_eq.trans h.assignment_eq, by rw [hk.names]; exact h.nodup,
    by rw [hk.names]; exact h.member, fun f' hf' => by
      obtain ⟨f, hf, hle⟩ := hk.ends f' hf'
      exact le_trans (h.ends f hf) hle⟩

theorem Wired.setLog (h : Wired a b r) (log : ReplicaLog) : Wired a b { r with log := log } :=
  ⟨h.self_eq, h.assignment_eq, h.nodup, h.member, h.ends⟩

theorem emplace_names (fs : List FollowerState) (c x : Nat) :
    x ∈ (emplace fs c).map FollowerState.broker ↔ x ∈ fs.map FollowerState.broker ∨ x = c := by
  unfold emplace
  split
  · rename_i hany
    obtain ⟨f, hf, hfc⟩ := any_eq_true.mp hany
    have hc : c ∈ fs.map FollowerState.broker := mem_map.mpr ⟨f, hf, by simpa using hfc⟩
    refine ⟨.inl, fun h => h.elim id (fun e => ?_)⟩
    rw [e]
    exact hc
  · rw [map_append, mem_append, map_singleton, mem_singleton]

theorem emplace_nodup {fs : List FollowerState} (h : (fs.map FollowerState.broker).Nodup)
    (c : Nat) : ((emplace fs c).map FollowerState.broker).Nodup := by
  unfold emplace
  split
  · exact h
  · rename_i hany
    rw [map_append]
    refine nodup_append.mpr ⟨h, nodup_singleton _, fun x hx y hy => ?_⟩
    rw [mem_singleton.mp hy]
    obtain ⟨f, hf, rfl⟩ := mem_map.mp hx
    intro he
    exact hany (any_eq_true.mpr ⟨f, hf, by simpa using he⟩)

/-- The follower map holds each broker it was given, once. -/
theorem names_foldl_emplace : ∀ (bs : List Nat) (fs : List FollowerState),
    (fs.map FollowerState.broker).Nodup →
    ((bs.foldl emplace fs).map FollowerState.broker).Nodup ∧
      ∀ x, x ∈ (bs.foldl emplace fs).map FollowerState.broker ↔
        x ∈ fs.map FollowerState.broker ∨ x ∈ bs
  | [], _, h => ⟨h, fun x => by simp⟩
  | c :: bs, fs, h => by
    obtain ⟨h1, h2⟩ := names_foldl_emplace bs (emplace fs c) (emplace_nodup h c)
    refine ⟨h1, fun x => ?_⟩
    rw [foldl_cons, h2 x, emplace_names, mem_cons, or_assoc]

theorem wired_make (a : PartitionAssignment) (b : Nat) (log : ReplicaLog) :
    Wired a b (make a b log) := by
  obtain ⟨h1, h2⟩ := names_foldl_emplace (a.replicas.filter (fun x => x != b)) [] nodup_nil
  refine ⟨rfl, rfl, h1, fun x => ?_, fun f hf => ?_⟩
  · refine (h2 x).trans ?_
    simp [mem_filter]
  · rw [(mem_foldl_emplace _ [] (by simp) f hf).1]

end Wired

/-- A follower has no waiters, so a request completes none. -/
theorem executeReplicate_idle {r : PartitionReplica} (h : r.waiters = []) :
    (r.executeReplicate q).2.1 = [] ∧ (r.executeReplicate q).2.2.waiters = [] := by
  have hsettle : ∀ r : PartitionReplica, r.waiters = [] →
      r.onLeaderAppend.1 = [] ∧ r.onLeaderAppend.2.waiters = [] := by
    intro r h
    have hw : r.recomputeHighWaterMark.waiters = [] := by
      unfold recomputeHighWaterMark
      split <;> exact h
    simp [onLeaderAppend, extractSatisfied, hw]
  unfold executeReplicate
  split
  · exact hsettle _ h
  · exact ⟨rfl, h⟩
  · dsimp only
    split
    · exact ⟨rfl, h⟩
    · split
      · exact hsettle r h
      · exact ⟨rfl, h⟩

end PartitionReplica

/-! ## 2. What every run keeps -/

namespace Cluster

open PartitionReplica

/-- Each running broker has its own replica, only the leader has waiters, and no request is
    addressed to the leader. -/
structure Formed (c : Cluster) : Prop where
  wired : ∀ b r, c.node b = .up r → Wired c.set.assignment b r
  idle : ∀ b r, b ≠ c.leader → c.node b = .up r → r.waiters = []
  dest : ∀ x ∈ c.requests, x.1 ≠ c.leader

section Formed

variable {c : Cluster} {b : Nat} {n : Node} {r : PartitionReplica}

section

variable (h : Formed c)
include h

theorem Formed.setNode
    (hn : ∀ r, n = .up r → Wired c.set.assignment b r ∧ (b ≠ c.leader → r.waiters = [])) :
    Formed (c.setNode b n) := by
  refine ⟨?_, ?_, h.dest⟩
  · exact forall_setNode (P := fun b n => ∀ r, n = .up r → Wired c.set.assignment b r) h.wired
      (fun r hr => (hn r hr).1)
  · intro x r hx hr
    exact forall_setNode (P := fun b n => ∀ r, b ≠ c.leader → n = .up r → r.waiters = []) h.idle
      (fun r hb hr => (hn r hr).2 hb) x r hx hr

theorem Formed.setUp (hw : Wired c.set.assignment b r)
    (hi : b ≠ c.leader → r.waiters = []) : Formed (c.setNode b (.up r)) := by
  refine h.setNode ?_
  rintro _ ⟨⟩
  exact ⟨hw, hi⟩

theorem Formed.congr {c' : Cluster} (hs : c'.set = c.set) (hn : c'.node = c.node)
    (hr : c'.requests = c.requests) : Formed c' := by
  obtain ⟨set, node, requests, responses, handlers, acked⟩ := c
  subst hs hn hr
  exact ⟨h.wired, h.idle, h.dest⟩

theorem Formed.stop (b : Nat) (log : ReplicaLog) : Formed (c.stop b log) :=
  (h.setNode (fun r hr => by simp at hr)).congr rfl rfl rfl

theorem Formed.onLeader {f : PartitionReplica → List DurabilityWaiter × PartitionReplica}
    (hf : ∀ r, Kin r (f r).2) : Formed (c.onLeader f).2 := by
  unfold Cluster.onLeader
  split
  · exact h
  rename_i r hr
  exact h.setUp ((h.wired _ r hr).kin (hf r)) (fun hne => absurd rfl hne)

/-- A running broker gets another log. -/
theorem Formed.setLog (hr : c.node b = .up r)
    (log : ReplicaLog) : Formed (c.setNode b (.up { r with log := log })) :=
  h.setUp ((h.wired _ r hr).setLog log) (fun hb => h.idle b r hb hr)

theorem formed_step (e : Event) : Formed (c.step e).2 := by
  have hmove := step_moves c e
  generalize c.step e = out at hmove ⊢
  cases hmove with
  | stays => exact h
  | produced hr _ => exact (h.setLog hr _).congr rfl rfl rfl
  | settled => exact h.onLeader kin_settle
  | @waits i w _ =>
    have h' : Formed { c with handlers := c.handlers.eraseIdx i } := h.congr rfl rfl rfl
    exact h'.onLeader (fun r => kin_addWaiter r w)
  | sent hr hq =>
    refine ⟨h.wired, h.idle, fun x hx => ?_⟩
    rcases mem_append.mp hx with hx | hx
    · exact h.dest x hx
    · rw [mem_singleton.mp hx]
      have hpeer := sendPending_peer hq
      rw [(h.wired _ _ hr).self_eq] at hpeer
      exact hpeer
  | @delivered _ b r q _ hr =>
    obtain ⟨log, hk, -⟩ := executeReplicate_log r q
    have hset := h.setUp (((h.wired _ r hr).setLog log).kin hk)
      (fun hb => (executeReplicate_idle (h.idle b r hb hr)).2)
    exact hset.congr rfl rfl rfl
  | @replied _ b resp now _ => exact h.onLeader (fun r => kin_onReplicateResponse r b resp now)
  | marked peer => exact h.onLeader (fun r => kin_markFollowerOutOfSync r peer)
  | flushed hr => exact h.setLog hr _
  | @expired now r hr =>
    exact h.setUp ((h.wired _ r hr).kin (kin_expireWaiters r now)) (fun hne => absurd rfl hne)
  | crashed _ => exact h.stop _ _
  | @restarted b log _ => exact h.setUp (wired_make _ b log) (fun _ => rfl)

theorem formed_next (e : Event) : Formed (c.next e) :=
  (formed_step h e).congr rfl rfl rfl

end

theorem formed_start (set : ReplicaSet) : Formed (start set) := by
  refine ⟨?_, ?_, fun x hx => by simp [start] at hx⟩
  · rintro b _ ⟨⟩
    exact wired_make _ b _
  · rintro b _ _ ⟨⟩
    rfl

end Formed

/-! ## 3. The agreement of the logs -/

/-- The broker whose machine an event stops. -/
def Event.machine : Event → Option Nat
  | .machineCrash b _ _ => some b
  | _ => none

/-- A crash of a process, whose written bytes survive, and whose records parse on their own. -/
def Mild (c : Cluster) (e : Event) : Prop := e.machine = none ∧ c.Recoverable e

instance (c : Cluster) (e : Event) : Decidable (c.Mild e) := inferInstanceAs (Decidable (_ ∧ _))

/-- The records of a broker's log, running or stopped. -/
def records (c : Cluster) (b : Nat) : List Bytes := (c.node b).log.records

section Records

variable {c : Cluster} {b b' : Nat} {n : Node}

theorem records_setNode_self : (c.setNode b n).records b = n.log.records := by
  rw [records, node_setNode_self]

theorem records_setNode_of_ne (h : b' ≠ b) : (c.setNode b n).records b' = c.records b' := by
  rw [records, node_setNode_of_ne h, records]

end Records

/-- The records of a request are the leader's records at the offset it names. -/
structure Slice (leaderRecords : List Bytes) (q : ReplicateRequest) : Prop where
  base : 0 ≤ q.baseOffset
  found : ∃ rs, rs <+: leaderRecords.drop q.baseOffset.toNat ∧ q.records = rs.flatten ∧
    q.recordCount = rs.length

/-- **The invariant**: a follower's log is a prefix of the leader's, and so is what is on its way
    to it. -/
structure Agree (c : Cluster) : Prop where
  logs : ∀ b, c.records b <+: c.records c.leader
  requests : ∀ x ∈ c.requests, Slice (c.records c.leader) x.2

section Agree

variable {c : Cluster} {b : Nat} {n : Node}

theorem Slice.mono {L L' : List Bytes} (h : Slice L q) (hL : L <+: L') : Slice L' q := by
  obtain ⟨rs, h1, h2, h3⟩ := h.found
  exact ⟨h.base, rs, h1.trans (hL.drop _), h2, h3⟩

section

variable (h : Agree c)
include h

/-- A broker changes, and the leader's log does not shrink. -/
theorem Agree.setNode (hL : c.records c.leader <+: (c.setNode b n).records c.leader)
    (hn : n.log.records <+: (c.setNode b n).records c.leader) : Agree (c.setNode b n) :=
  ⟨forall_setNode (P := fun _ m => m.log.records <+: (c.setNode b n).records c.leader)
    (fun x => (h.logs x).trans hL) hn, fun x hx => (h.requests x hx).mono hL⟩

theorem Agree.setLeader (hn : c.records c.leader <+: n.log.records) :
    Agree (c.setNode c.leader n) :=
  h.setNode (by rwa [records_setNode_self]) (by rw [records_setNode_self])

theorem Agree.setFollower (hb : b ≠ c.leader)
    (hn : n.log.records <+: c.records c.leader) : Agree (c.setNode b n) :=
  h.setNode (by rw [records_setNode_of_ne hb.symm]) (by rwa [records_setNode_of_ne hb.symm])

/-- A broker changes without a change to its records. -/
theorem Agree.setSame (hn : n.log.records = c.records b) : Agree (c.setNode b n) := by
  by_cases hb : b = c.leader
  · subst hb
    exact h.setLeader (by rw [hn])
  · exact h.setFollower hb (by rw [hn]; exact h.logs b)

/-- The invariant does not look at handlers, responses and answers. -/
theorem Agree.congr {c' : Cluster} (hs : c'.set = c.set) (hn : c'.node = c.node)
    (hr : c'.requests = c.requests) : Agree c' := by
  obtain ⟨set, node, requests, responses, handlers, acked⟩ := c
  subst hs hn hr
  exact ⟨h.logs, h.requests⟩

end

theorem Agree.stop (h : Agree (c.setNode b (.down log))) :
    Agree (c.stop b log) := h.congr rfl rfl rfl

theorem Agree.onLeader {f : PartitionReplica → List DurabilityWaiter × PartitionReplica}
    (h : Agree c) (hf : ∀ r, Kin r (f r).2) : Agree (c.onLeader f).2 := by
  unfold Cluster.onLeader
  split
  · exact h
  rename_i r hr
  refine h.setSame ?_
  rw [records, hr, Node.log, Node.log, (hf r).log_eq]

/-- A follower's log after an append of a request: still a prefix. -/
theorem Agree.replicated (h : Agree c) {r : PartitionReplica} (hq : (b, q) ∈ c.requests)
    (hr : c.node b = .up r) (ha : r.replicateAppend q = some (.ok log)) :
    log.records <+: c.records c.leader := by
  obtain ⟨-, rs, hpre, hflat, hcount⟩ := h.requests _ hq
  obtain ⟨hbase, happ⟩ := replicateAppend_ok ha
  obtain ⟨ss, hdata, hlen, happend⟩ := ReplicaLog.appendWithOffsets_ok happ
  have hb : q.baseOffset.toNat = r.log.records.length := by
    rw [hbase, ReplicaLog.logEndOffset, Int.toNat_natCast]
  -- the bytes split in one way only, so the follower adds the leader's own records
  have hrs : ∀ x ∈ rs, Framed x := by
    intro x hx
    have hL : RunOf RecordOk 0 (c.records c.leader) := (c.node c.leader).log.run
    obtain ⟨i, hi⟩ := hL.mem x (mem_of_mem_drop (hpre.subset hx))
    exact hi.framed
  have hss : ∀ x ∈ ss, Framed x := fun x hx => (happend.run.mem x hx).elim (fun _ h => h.framed)
  have heq : ss = rs := by
    rw [← splitRecords_flatten hss, ← splitRecords_flatten hrs, hlen, ← hcount, ← hdata, ← hflat]
  have hold : r.log.records <+: c.records c.leader := by
    have := h.logs b
    rwa [records, hr] at this
  have hcut : c.records c.leader = r.log.records ++
      (c.records c.leader).drop r.log.records.length := by
    conv_lhs => rw [← take_append_drop r.log.records.length (c.records c.leader)]
    rw [← prefix_iff_eq_take.mp hold]
  rw [happend.records, heq, hcut, prefix_append_right_inj, ← hb]
  exact hpre

end Agree

/-! ## 4. One event, and every run -/

section Runs

variable {c : Cluster}

theorem cut_extends {l l' : ReplicaLog} {rs : List Bytes} (h : ReplicaLog.Append l rs l')
    (k : Nat) : l.records <+: (l'.cut (l.logEndOffset + k)).records := by
  show l.records <+: l'.records.take _
  rw [h.records]
  refine prefix_take_iff.mpr ⟨prefix_append _ _, ?_⟩
  exact le_trans (Nat.le_add_right l.records.length k) (le_max_left _ _)

/-- A process dies, and its records parse on their own. -/
theorem Agree.crashed (hf : Formed c) (h : Agree c) {e : Event} (he : c.Mild e) {b : Nat}
    (hc : c.crashed e = some (b, log)) (found : ReplicaLog.Reopening) :
    Agree (c.stop b (log.reopen found)) := by
  have hrec := he.2.reopen_records hc found
  refine Agree.stop ?_
  cases remains_of_crashed hc with
  | idle hr =>
    refine h.setSame (hrec.trans ?_)
    rw [records, hr, Node.log]
  | producing hr hlog =>
    obtain ⟨rs, -, -, -, -, happ⟩ := ReplicaLog.appendAssigningOffsets_ok hlog
    refine h.setLeader ?_
    rw [Node.log, hrec, records, hr]
    exact cut_extends happ _
  | replicating hq hr hlog =>
    refine h.setFollower (hf.dest _ hq) ?_
    rw [Node.log, hrec]
    refine List.IsPrefix.trans ?_ (h.replicated hq hr hlog)
    exact take_prefix _ _
  | lost => cases he.1

end Runs

end Cluster

end PulseLog

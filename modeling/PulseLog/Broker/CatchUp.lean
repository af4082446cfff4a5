/-
  Subject:   A follower that catches up, and one that never does
             (Sender::SendPending in src/replication/replicator.cc against
             Broker::ExecuteReplicate in src/broker/request_handler.cc).

  The cluster gets log starts: retention deletes whole segments from the front of a log, and a
  sender skips what is deleted. A round is a send, its delivery and its reply.

  * `catches_up_iff` -- the follower reaches the leader's log end exactly from the positions that
    are `Resumable`: a follower below its recorded position or below the leader's log start is
    asked for the wrong offset in every round.
-/
import PulseLog.Broker.Agreement
import PulseLog.General.Run

namespace PulseLog

open List

/-! ## 1. Positions -/

/-- What a replication round acts on. -/
structure Positions where
  start : Int
  leaderEnd : Int
  recorded : Int
  followerEnd : Int
  deriving Repr, DecidableEq

namespace Positions

/-- Where the sender reads: the recorded position, or the log start if that is further. -/
def base (p : Positions) : Int := max p.recorded p.start

/-- One round that arrives: nothing to say, an answer that only reports the follower's end, or a
    batch of `k` records. -/
inductive Moved (p : Positions) : Positions → Prop where
  | idle : p.leaderEnd ≤ p.base → Moved p p
  | told : p.leaderEnd ≤ p.base ∨ p.base ≠ p.followerEnd →
      Moved p { p with recorded := max p.recorded p.followerEnd }
  | shipped (k : Int) : 0 < k → p.base = p.followerEnd → p.followerEnd + k ≤ p.leaderEnd →
      Moved p { p with
        recorded := max p.recorded (p.followerEnd + k)
        followerEnd := p.followerEnd + k }

def CaughtUp (p : Positions) : Prop := p.followerEnd = p.leaderEnd

/-- The follower is there, or its log end lies between the log start and the log end of the
    leader and not below the position the leader has recorded. -/
def Resumable (p : Positions) : Prop :=
  p.CaughtUp ∨ p.recorded ≤ p.followerEnd ∧ p.start ≤ p.followerEnd ∧ p.followerEnd < p.leaderEnd

instance (p : Positions) : Decidable p.CaughtUp := inferInstanceAs (Decidable (_ = _))

instance (p : Positions) : Decidable p.Resumable := inferInstanceAs (Decidable (_ ∨ _))

/-- The records the follower lacks, and whether the leader still has to hear where it stands. -/
def lag (p : Positions) : Nat :=
  2 * (p.leaderEnd - p.followerEnd).toNat + if p.recorded < p.followerEnd then 1 else 0

section Moved

variable {p p' : Positions}

theorem Moved.caughtUp (h : Moved p p') (hc : p.CaughtUp) : p'.CaughtUp := by
  unfold CaughtUp at hc ⊢
  cases h with
  | idle => exact hc
  | told => exact hc
  | shipped k hk hb he =>
    omega

/-- A round neither repairs nor breaks what a follower needs. -/
theorem Moved.resumable (h : Moved p p') : p'.Resumable ↔ p.Resumable := by
  unfold Resumable CaughtUp
  cases h with
  | idle => exact Iff.rfl
  | told => simp only; omega
  | shipped k hk hb he =>
    unfold base at hb
    simp only
    omega

theorem Moved.lag_lt (h : Moved p p') (hr : p.Resumable) (hc : ¬ p.CaughtUp) : p'.lag < p.lag := by
  unfold Resumable CaughtUp at hr
  unfold CaughtUp at hc
  unfold lag
  cases h with
  | idle hb =>
    unfold base at hb
    omega
  | told hb =>
    unfold base at hb
    simp only
    rw [if_pos (show p.recorded < p.followerEnd by omega), if_neg (by omega)]
    omega
  | shipped k hk hb he =>
    simp only
    rw [if_neg (show ¬ max p.recorded (p.followerEnd + k) < p.followerEnd + k by omega)]
    omega

end Moved

end Positions

/-! ## 2. Sending from a log that starts later -/

/-- Where the lookup of an offset starts: the offset of the index entry in front of it, and the
    size of the blocks it reads. -/
structure Walk where
  entry : Nat
  blockSize : Nat
  deriving Repr, DecidableEq

/-- `PartitionLog::Read` of `limit` records. The lookup walks over the records between the entry and
    `offset` and fails at one that is larger than a block and than the maximum record size. -/
def ReplicaLog.readFrom (l : ReplicaLog) (walk : Walk) (offset limit : Nat) :
    Option (List Bytes) :=
  if ∃ r ∈ (l.records.take offset).drop walk.entry,
    max maxRecordBytes walk.blockSize < r.length then none
  else some ((l.records.drop offset).take limit)

theorem ReplicaLog.readFrom_eq {l : ReplicaLog} (h : ∀ r ∈ l.records, r.length ≤ maxRecordBytes)
    (walk : Walk) (offset limit : Nat) :
    l.readFrom walk offset limit = some ((l.records.drop offset).take limit) := by
  refine if_neg ?_
  rintro ⟨r, hr, hlt⟩
  have := h r (mem_of_mem_take (mem_of_mem_drop hr))
  omega

namespace PartitionReplica

/-- `Sender::SendPending` for one partition whose log starts at `logStart`. -/
def sendFrom (r : PartitionReplica) (walk : Walk) (logStart peer limit : Nat) :
    Option ReplicateRequest :=
  if ¬ r.isLeader ∨ peer ∉ r.assignment.replicas ∨ peer = r.self then none
  else
    let position := r.followerPosition peer
    let logEnd : Int := r.log.logEndOffset
    -- a follower behind retention continues at the log start
    let offset := if position.1 < logStart then (logStart : Int) else position.1
    if offset ≥ logEnd then
      if position.2 ≥ logEnd then none
      else some ⟨r.assignment.leaderEpoch, offset, 0, []⟩
    else
      -- a read that fails or finds nothing ends the round
      let found := (r.log.readFrom walk offset.toNat limit).getD []
      if found = [] then none
      else some ⟨r.assignment.leaderEpoch, offset, found.length, found.flatten⟩

section Position

variable {r r' : PartitionReplica} {a : PartitionAssignment} {b peer : Nat}

theorem Wired.hasFollower (h : Wired a b r) (hp : peer ∈ a.replicas) (hne : peer ≠ b) :
    r.hasFollower peer = true := by
  obtain ⟨f, hf, hb⟩ := mem_map.mp ((h.member peer).mpr ⟨hp, hne⟩)
  exact any_eq_true.mpr ⟨f, hf, by simp [hb]⟩

/-- What a round of the sender finds: nothing to say, a probe to send, or a batch of records from
    the position on. -/
inductive Sends (r : PartitionReplica) (base : Int) (limit : Nat) : Option ReplicateRequest → Prop
  | nothing : r.log.logEndOffset ≤ base ∨ limit = 0 → Sends r base limit none
  | probe : r.log.logEndOffset ≤ base →
      Sends r base limit (some ⟨r.assignment.leaderEpoch, base, 0, []⟩)
  | batch (rs : List Bytes) : base < r.log.logEndOffset → rs ≠ [] →
      rs = (r.log.records.drop base.toNat).take limit →
      Sends r base limit (some ⟨r.assignment.leaderEpoch, base, rs.length, rs.flatten⟩)

theorem Wired.sends (h : Wired a b r) (hb : a.leader = b) (hp : peer ∈ a.replicas)
    (hne : peer ≠ b) (hsize : ∀ x ∈ r.log.records, x.length ≤ maxRecordBytes) (walk : Walk)
    (logStart limit : Nat) :
    Sends r (max (r.followerPosition peer).1 logStart) limit
      (r.sendFrom walk logStart peer limit) := by
  have hguard : ¬ (¬ r.isLeader ∨ peer ∉ r.assignment.replicas ∨ peer = r.self) := by
    unfold isLeader
    rw [h.assignment_eq, h.self_eq]
    rintro (h1 | h1 | h1)
    · exact h1 hb
    · exact h1 hp
    · exact hne h1
  have hbase : (if (r.followerPosition peer).1 < logStart then (logStart : Int)
      else (r.followerPosition peer).1) = max (r.followerPosition peer).1 logStart := by
    split <;> omega
  unfold sendFrom
  simp only [if_neg hguard, hbase, ReplicaLog.readFrom_eq hsize, Option.getD_some]
  split
  · rename_i hend
    split
    · exact .nothing (.inl hend)
    · exact .probe hend
  · rename_i hend
    split
    · rename_i hnil
      -- there are records behind the position, so the budget was empty
      refine .nothing (.inr ?_)
      have hlen := congrArg List.length hnil
      have hrec : r.log.logEndOffset = r.log.records.length := rfl
      rw [length_take, length_drop, length_nil] at hlen
      omega
    · rename_i hne
      exact .batch _ (Int.not_le.mp hend) hne rfl

theorem followerPosition_congr (h : r'.followers = r.followers) :
    r'.followerPosition peer = r.followerPosition peer := by
  unfold followerPosition
  rw [h]

/-- After a report the leader believes the maximum of what it knew and what it was told. -/
theorem followerPosition_progress (h : r.hasFollower peer = true) (logEnd flushed now : Int) :
    ((r.onFollowerProgress peer logEnd flushed now).2.followerPosition peer).1 =
      max (r.followerPosition peer).1 logEnd := by
  have hf : (r.onFollowerProgress peer logEnd flushed now).2.followers =
      (r.updateFollower peer (merge logEnd flushed now)).followers := by
    unfold onFollowerProgress
    rw [if_pos h]
    simp only [extractSatisfied, publishWaiterCount_followers, recomputeHighWaterMark_followers]
  rw [followerPosition_congr hf]
  unfold followerPosition updateFollower
  simp only [find?_map]
  have hcomp : ((fun f : FollowerState => f.broker == peer) ∘
      fun f => if f.broker = peer then merge logEnd flushed now f else f) =
      fun f => f.broker == peer := by
    funext f
    simp only [Function.comp_apply]
    split <;> rfl
  rw [hcomp]
  cases hfind : r.followers.find? (fun f => f.broker == peer) with
  | none =>
    obtain ⟨f, hf, hb⟩ := any_eq_true.mp h
    exact absurd hb (find?_eq_none.mp hfind f hf)
  | some f =>
    have hb : f.broker = peer := by simpa using find?_some hfind
    simp only [Option.map_some, if_pos hb, merge]

end Position

end PartitionReplica

/-! ## 3. The cluster with retention -/

/-- The cluster, and the offset at which each broker's log starts. -/
structure Trimmed where
  cluster : Cluster
  logStart : Nat → Nat

namespace Trimmed

open PartitionReplica Cluster

inductive Event where
  | event (e : Cluster.Event)
  /-- retention deletes the segments below `upTo` -/
  | retain (broker upTo : Nat)
  deriving Repr, DecidableEq

def start (set : ReplicaSet) : Trimmed := ⟨Cluster.start set, fun _ => 0⟩

/-- A round of the leader's sender puts at most one request on the way. -/
def send (s : Trimmed) (peer : Nat) (walk : Walk) (limit : Nat) : Trimmed :=
  match s.cluster.node s.cluster.leader with
  | .down _ => s
  | .up r =>
    match r.sendFrom walk (s.logStart s.cluster.leader) peer limit with
    | none => s
    | some q => { s with
        cluster := { s.cluster with requests := s.cluster.requests ++ [(peer, q)] } }

/-- One event. Retention never deletes past the log end, and a machine crash does not bring a log
    below its first segment. -/
def step (s : Trimmed) : Event → Trimmed
  | .retain b n =>
    if s.logStart b ≤ n ∧ n ≤ (s.cluster.node b).log.logEndOffset then
      { s with logStart := fun b' => if b' = b then n else s.logStart b' }
    else s
  -- here a read that fails is one of no records
  | .event (.send peer limit) =>
    s.send peer ⟨(s.cluster.node s.cluster.leader).log.logEndOffset, 0⟩ limit
  | .event (.machineCrash b kept found) =>
    { s with cluster := s.cluster.next (.machineCrash b (max kept (s.logStart b)) found) }
  | .event e => { s with cluster := s.cluster.next e }

def run (s : Trimmed) (es : List Event) : Trimmed := es.foldl step s

/-- A whole round for one follower: the request is sent, delivered and answered. -/
def round (s : Trimmed) (peer : Nat) (walk : Walk) (limit : Nat) (nowMs : Int) : Trimmed :=
  ((s.send peer walk limit).step (.event (.deliver s.cluster.requests.length))).step
    (.event (.reply s.cluster.responses.length nowMs))

/-- What goes on while nothing fails and nobody appends. -/
inductive Tick where
  | round (walk : Walk) (limit : Nat) (nowMs : Int)
  | flush (broker target : Nat)
  deriving Repr, DecidableEq

def tick (peer : Nat) (s : Trimmed) : Tick → Trimmed
  | .round walk limit now => s.round peer walk limit now
  | .flush b target => s.step (.event (.flush b target))

/-- A round whose byte budget lets a record through. -/
def Tick.isRound : Tick → Bool
  | .round _ limit _ => decide (0 < limit)
  | .flush _ _ => false

/-- The positions of the leader and one follower. -/
def positions (s : Trimmed) (peer : Nat) : Positions where
  start := s.logStart s.cluster.leader
  leaderEnd := (s.cluster.node s.cluster.leader).log.logEndOffset
  recorded :=
    match s.cluster.node s.cluster.leader with
    | .up r => (r.followerPosition peer).1
    | .down _ => 0
  followerEnd := (s.cluster.node peer).log.logEndOffset

theorem formed_send {s : Trimmed} (h : Formed s.cluster) (peer : Nat) (walk : Walk) (limit : Nat) :
    Formed (s.send peer walk limit).cluster := by
  unfold send
  split
  · exact h
  rename_i r hr
  split
  · exact h
  rename_i q hq
  refine ⟨h.wired, h.idle, fun x hx => ?_⟩
  rcases mem_append.mp hx with hx | hx
  · exact h.dest x hx
  · rw [mem_singleton.mp hx]
    intro he
    refine absurd hq ?_
    unfold sendFrom
    rw [if_pos (.inr (.inr (he.trans (h.wired _ r hr).self_eq.symm)))]
    simp

theorem send_set (s : Trimmed) (peer : Nat) (walk : Walk) (limit : Nat) :
    (s.send peer walk limit).cluster.set = s.cluster.set := by
  unfold send
  split
  · rfl
  split <;> rfl

/-- Every event keeps the cluster formed and the replica set. -/
theorem formed_step_trimmed {s : Trimmed} (h : Formed s.cluster) (e : Event) :
    Formed (s.step e).cluster ∧ (s.step e).cluster.set = s.cluster.set := by
  cases e with
  | retain b n =>
    simp only [step]
    split <;> exact ⟨h, rfl⟩
  | event e =>
    cases e with
    | send peer limit => exact ⟨formed_send h peer _ limit, send_set s peer _ limit⟩
    | _ => exact ⟨formed_next h _, step_set _ _⟩

theorem formed_run_trimmed : ∀ (es : List Event) {s : Trimmed}, Formed s.cluster →
    Formed (s.run es).cluster ∧ (s.run es).cluster.set = s.cluster.set
  | [], _, h => ⟨h, rfl⟩
  | e :: es, s, h => by
    obtain ⟨h1, h2⟩ := formed_step_trimmed h e
    obtain ⟨h3, h4⟩ := formed_run_trimmed es h1
    exact ⟨h3, h4.trans h2⟩

/-! ## 4. One round -/

section Round

variable {s : Trimmed} {l f : PartitionReplica} {peer limit : Nat} {walk : Walk} (now : Int)

theorem round_none (hl : s.cluster.node s.cluster.leader = .up l)
    (hq : l.sendFrom walk (s.logStart s.cluster.leader) peer limit = none) :
    s.round peer walk limit now = s := by
  have hsend : s.send peer walk limit = s := by
    unfold send
    simp only [hl, hq]
  have hdeliver : s.step (.event (.deliver s.cluster.requests.length)) = s := by
    simp only [step, Cluster.next, Cluster.step, getElem?_eq_none le_rfl, filter_nil, append_nil]
  have hreply : s.step (.event (.reply s.cluster.responses.length now)) = s := by
    simp only [step, Cluster.next, Cluster.step, getElem?_eq_none le_rfl, filter_nil, append_nil]
  rw [round, hsend, hdeliver, hreply]

/-- A round with a request: the follower executes it and the leader takes the answer. -/
theorem round_some {q : ReplicateRequest} (hl : s.cluster.node s.cluster.leader = .up l)
    (hf : s.cluster.node peer = .up f) (hne : peer ≠ s.cluster.leader)
    (hq : l.sendFrom walk (s.logStart s.cluster.leader) peer limit = some q) :
    (s.round peer walk limit now).cluster.node s.cluster.leader =
        .up (l.onReplicateResponse peer (f.executeReplicate q).1 now).2 ∧
      (s.round peer walk limit now).cluster.node peer = .up (f.executeReplicate q).2.2 ∧
      (s.round peer walk limit now).logStart = s.logStart := by
  have hsend : s.send peer walk limit = { s with
      cluster := { s.cluster with requests := s.cluster.requests ++ [(peer, q)] } } := by
    unfold send
    simp only [hl, hq]
  have hne' : s.cluster.set.assignment.leader ≠ peer := Ne.symm hne
  have hl' : s.cluster.node s.cluster.set.assignment.leader = .up l := hl
  rw [round, hsend]
  simp only [step, Cluster.next, Cluster.step, getElem?_concat_length, hf, setNode,
    onLeader, leader]
  simp only [hne', if_false, hl', if_true, Ne.symm hne', and_true]

end Round

/-! ## 5. The answer of the follower -/

section Answer

variable {l f : PartitionReplica} {q : ReplicateRequest} {peer : Nat}

/-- An answer the leader takes progress from: it reports the log end the follower now has. -/
structure Reports (f : PartitionReplica) (q : ReplicateRequest) (logEnd : Nat) : Prop where
  code : (f.executeReplicate q).1.error = none ∨
    (f.executeReplicate q).1.error = some .outOfRange
  reported : (f.executeReplicate q).1.logEndOffset = logEnd
  kept : (f.executeReplicate q).2.2.log.logEndOffset = logEnd

/-- A probe, or a batch that does not start at the log end. -/
theorem reports_same (he : ¬ q.leaderEpoch < f.assignment.leaderEpoch)
    (hq : q.recordCount = 0 ∨ q.baseOffset ≠ f.log.logEndOffset) :
    Reports f q f.log.logEndOffset := by
  have hnone : f.replicateAppend q = none := by
    unfold replicateAppend
    simp only [he, if_false]
    by_cases hb : q.baseOffset = f.log.logEndOffset
    · rw [if_pos ⟨hq.resolve_right (not_not.mpr hb), hb⟩]
    · rw [if_neg (fun h => hb h.2), if_pos hb]
  have hset : f.onLeaderAppend.2.log = f.log := (kin_settle f).log_eq
  constructor <;> simp only [executeReplicate, hnone, he, if_false] <;> split
  · exact .inl rfl
  · exact .inr rfl
  · rfl
  · rfl
  · rw [hset]
  · rfl

/-- A batch that continues the follower's log and parses. -/
theorem reports_appended {rs : List Bytes} (he : ¬ q.leaderEpoch < f.assignment.leaderEpoch)
    (hb : q.baseOffset = f.log.logEndOffset) (hne : rs ≠ []) (hc : q.recordCount = rs.length)
    (hd : q.records = rs.flatten) (hgood : RunOf Good f.log.logEndOffset rs)
    (hlen : rs.flatten.length < 2 ^ 64) : Reports f q (f.log.logEndOffset + rs.length) := by
  obtain ⟨log, hlog, happend⟩ := ReplicaLog.appendWithOffsets_of_fills hne
    (fillsRun_of_good hgood hlen) (hgood.mono fun _ _ h => h.recordOk)
  have hend := happend.logEnd_eq
  have hcount : q.recordCount ≠ 0 := by
    rw [hc]
    exact fun h => hne (eq_nil_of_length_eq_zero h)
  have happ : f.replicateAppend q = some (.ok log) := by
    unfold replicateAppend
    simp only [he, if_false]
    rw [if_neg (fun h => hcount h.1), if_neg (not_not.mpr hb), hd, hc, hlog]
  have hset := (kin_settle { f with log := log }).log_eq
  refine ⟨.inl ?_, ?_, ?_⟩ <;> simp only [executeReplicate, happ]
  · exact hend
  · exact (congrArg ReplicaLog.logEndOffset hset).trans hend

/-- What the leader makes of such an answer. -/
theorem Reports.recorded {logEnd : Nat} (h : Reports f q logEnd) (hp : l.hasFollower peer = true)
    (now : Int) :
    ((l.onReplicateResponse peer (f.executeReplicate q).1 now).2.followerPosition peer).1 =
      max (l.followerPosition peer).1 logEnd := by
  have hprog : (l.onReplicateResponse peer (f.executeReplicate q).1 now) =
      l.onFollowerProgress peer (f.executeReplicate q).1.logEndOffset
        (f.executeReplicate q).1.flushedOffset now := by
    unfold onReplicateResponse
    rcases h.code with hc | hc <;> rw [hc]
  rw [hprog, followerPosition_progress hp, h.reported]

end Answer

/-! ## 6. Rounds as moves of the positions -/

/-- Leader and follower run, and the leader's records are `L`. -/
structure Paired (peer : Nat) (L : List Bytes) (s : Trimmed) : Prop where
  formed : Formed s.cluster
  member : peer ∈ s.cluster.set.assignment.replicas
  ne : peer ≠ s.cluster.leader
  leaderUp : ∃ l, s.cluster.node s.cluster.leader = .up l ∧ l.log.records = L
  followerUp : ∃ f, s.cluster.node peer = .up f

section Paired

variable {s : Trimmed} {L : List Bytes} {peer : Nat}

theorem positions_eq {l f : PartitionReplica} (hl : s.cluster.node s.cluster.leader = .up l)
    (hf : s.cluster.node peer = .up f) :
    s.positions peer = ⟨s.logStart s.cluster.leader, l.log.logEndOffset,
      (l.followerPosition peer).1, f.log.logEndOffset⟩ := by
  unfold positions
  rw [hl, hf]
  rfl

theorem round_set (s : Trimmed) (peer : Nat) (walk : Walk) (limit : Nat) (now : Int) :
    (s.round peer walk limit now).cluster.set = s.cluster.set := by
  simp only [round, step, Cluster.next, step_set, send_set]

theorem formed_round (h : Formed s.cluster) (peer : Nat) (walk : Walk) (limit : Nat) (now : Int) :
    Formed (s.round peer walk limit now).cluster :=
  formed_next (formed_next (formed_send h peer walk limit) _) _

/-- What a round with a request leaves, once the follower's answer is known. -/
theorem Paired.answered {l f : PartitionReplica} {q : ReplicateRequest} {limit logEnd : Nat}
    {walk : Walk} (h : Paired peer L s) (hl : s.cluster.node s.cluster.leader = .up l)
    (hf : s.cluster.node peer = .up f)
    (hq : l.sendFrom walk (s.logStart s.cluster.leader) peer limit = some q)
    (hr : Reports f q logEnd) (now : Int) :
    Paired peer L (s.round peer walk limit now) ∧ (s.round peer walk limit now).positions peer =
      { s.positions peer with
        recorded := max (s.positions peer).recorded logEnd
        followerEnd := logEnd } := by
  obtain ⟨h1, h2, h3⟩ := round_some now hl hf h.ne hq
  have hset := round_set s peer walk limit now
  have hlead : (s.round peer walk limit now).cluster.leader = s.cluster.leader := by
    unfold leader
    rw [hset]
  have hkin := kin_onReplicateResponse l peer (f.executeReplicate q).1 now
  have hfol := (h.formed.wired _ l hl).hasFollower h.member h.ne
  obtain ⟨l', hl', hL⟩ := h.leaderUp
  rw [hl, Node.up.injEq] at hl'
  subst hl'
  have h1' := h1
  rw [← hlead] at h1'
  refine ⟨⟨formed_round h.formed peer walk limit now, by rw [hset]; exact h.member,
    by rw [hlead]; exact h.ne, ⟨_, h1', by rw [hkin.log_eq]; exact hL⟩, ⟨_, h2⟩⟩, ?_⟩
  rw [positions_eq h1' h2, positions_eq hl hf, hr.recorded hfol now, hkin.log_eq, h3, hlead,
    hr.kept]

/-- **A round of the code is a move of its positions**, where no record is too large for the lookup;
    without a byte budget it does nothing. -/
theorem moved_round (hgood : RunOf Good 0 L) (hsize : ∀ r ∈ L, r.length ≤ maxRecordBytes)
    (hlen : L.flatten.length < 2 ^ 64) (h : Paired peer L s) (walk : Walk) (limit : Nat)
    (now : Int) : Paired peer L (s.round peer walk limit now) ∧
      ((s.positions peer).Moved ((s.round peer walk limit now).positions peer) ∨
        (s.round peer walk limit now).positions peer = s.positions peer ∧ limit = 0) := by
  obtain ⟨l, hl, hL⟩ := h.leaderUp
  obtain ⟨f, hf⟩ := h.followerUp
  have hwl := h.formed.wired _ l hl
  have hwf := h.formed.wired _ f hf
  have hep : ¬ (l.assignment.leaderEpoch : Int) < f.assignment.leaderEpoch := by
    rw [hwl.assignment_eq, hwf.assignment_eq]
    exact lt_irrefl _
  have hp := positions_eq hl hf
  have hbase : (s.positions peer).base =
      max (l.followerPosition peer).1 (s.logStart s.cluster.leader) := by
    rw [hp, Positions.base]
  have hsends := hwl.sends rfl h.member h.ne (hL ▸ hsize) walk (s.logStart s.cluster.leader) limit
  rw [← hbase] at hsends
  generalize ho : l.sendFrom walk (s.logStart s.cluster.leader) peer limit = o at hsends
  cases hsends with
  | nothing hend =>
    rw [round_none now hl ho]
    refine ⟨h, hend.imp (fun hend => ?_) (fun hz => ⟨rfl, hz⟩)⟩
    rw [hp] at hend ⊢
    exact .idle hend
  | probe hend =>
    obtain ⟨h1, h2⟩ := h.answered hl hf ho (reports_same hep (.inl rfl)) now
    refine ⟨h1, .inl ?_⟩
    rw [h2]
    rw [hp] at hend ⊢
    exact .told (.inl hend)
  | batch rs hend hne hrs =>
    by_cases hb : (s.positions peer).base = f.log.logEndOffset
    · -- the batch continues the follower's log
      have hrun : RunOf Good f.log.logEndOffset rs := by
        have hk : (s.positions peer).base.toNat = f.log.logEndOffset := by omega
        have hle : f.log.logEndOffset ≤ L.length := by
          have : l.log.logEndOffset = L.length := by rw [← hL]; rfl
          omega
        rw [hrs, hL, hk]
        have := (hgood.drop f.log.logEndOffset hle).take limit
        rwa [Nat.zero_add] at this
      have hshort : rs.flatten.length < 2 ^ 64 := by
        rw [← take_append_drop (s.positions peer).base.toNat L,
          ← take_append_drop limit (L.drop _), ← hL, ← hrs] at hlen
        simp only [flatten_append, length_append] at hlen
        omega
      have hcount : f.log.logEndOffset + rs.length ≤ l.log.logEndOffset := by
        have hlen := congrArg List.length hrs
        have hrec : l.log.logEndOffset = l.log.records.length := rfl
        rw [length_take, length_drop] at hlen
        omega
      have hpos : 0 < rs.length := length_pos_of_ne_nil hne
      obtain ⟨h1, h2⟩ := h.answered hl hf ho (reports_appended hep hb hne rfl rfl hrun hshort) now
      refine ⟨h1, .inl ?_⟩
      rw [h2]
      rw [hp] at hb ⊢
      exact .shipped rs.length (by omega) hb (by simp only; omega)
    · obtain ⟨h1, h2⟩ := h.answered hl hf ho (reports_same hep (.inr hb)) now
      refine ⟨h1, .inl ?_⟩
      rw [h2]
      rw [hp] at hb ⊢
      exact .told (.inr hb)

/-- A flush leaves every log end where it was. -/
theorem Paired.flushed (h : Paired peer L s) (b target : Nat) :
    Paired peer L (s.step (.event (.flush b target))) ∧
      (s.step (.event (.flush b target))).positions peer = s.positions peer := by
  cases hb : s.cluster.node b with
  | down log =>
    have hstep : s.step (.event (.flush b target)) = s := by
      simp only [step, Cluster.next, Cluster.step, hb, filter_nil, append_nil]
    rw [hstep]
    exact ⟨h, rfl⟩
  | up r =>
    have hnode : ∀ x, (s.step (.event (.flush b target))).cluster.node x =
        if x = b then .up { r with log := r.log.flush target } else s.cluster.node x := by
      intro x
      simp only [step, Cluster.next, Cluster.step, hb, setNode]
    have hset : (s.step (.event (.flush b target))).cluster.set = s.cluster.set := by
      simp only [step, Cluster.next, step_set]
    have hlead : (s.step (.event (.flush b target))).cluster.leader = s.cluster.leader := by
      rw [leader, hset]
      rfl
    -- a running broker keeps its records and what it believes
    have hup : ∀ x r0, s.cluster.node x = .up r0 → ∃ r1,
        (s.step (.event (.flush b target))).cluster.node x = .up r1 ∧
          r1.log.records = r0.log.records ∧ r1.followers = r0.followers := by
      intro x r0 hx
      rw [hnode]
      split
      · rename_i e
        rw [e, hb, Node.up.injEq] at hx
        subst hx
        exact ⟨_, rfl, rfl, rfl⟩
      · exact ⟨r0, hx, rfl, rfl⟩
    obtain ⟨l, hl, hL⟩ := h.leaderUp
    obtain ⟨f, hf⟩ := h.followerUp
    obtain ⟨l1, hl1, hr1, hp1⟩ := hup _ l hl
    obtain ⟨f1, hf1, hr2, -⟩ := hup _ f hf
    rw [← hlead] at hl1
    refine ⟨⟨formed_next h.formed _, by rw [hset]; exact h.member, by rw [hlead]; exact h.ne,
      ⟨l1, hl1, hr1.trans hL⟩, ⟨f1, hf1⟩⟩, ?_⟩
    rw [positions_eq hl1 hf1, positions_eq hl hf, followerPosition_congr hp1]
    simp only [ReplicaLog.logEndOffset, hr1, hr2, hlead]
    rfl

theorem tick_positions (hgood : RunOf Good 0 L) (hsize : ∀ r ∈ L, r.length ≤ maxRecordBytes)
    (hlen : L.flatten.length < 2 ^ 64) (h : Paired peer L s) (t : Tick) :
      Paired peer L (tick peer s t) ∧ ((s.positions peer).Moved ((tick peer s t).positions peer) ∨
        (tick peer s t).positions peer = s.positions peer ∧ t.isRound = false) := by
  cases t with
  | round walk limit now =>
    obtain ⟨h1, h2⟩ := moved_round hgood hsize hlen h walk limit now
    refine ⟨h1, h2.imp_right (fun h3 => ⟨h3.1, ?_⟩)⟩
    simp [Tick.isRound, h3.2]
  | flush b target =>
    obtain ⟨h1, h2⟩ := h.flushed b target
    exact ⟨h1, .inr ⟨h2, rfl⟩⟩

end Paired

/-! ## 7. Catching up -/

/-- The follower's log ends where the leader's does. -/
def CaughtUp (s : Trimmed) (peer : Nat) : Prop :=
  (s.cluster.node peer).log.logEndOffset = (s.cluster.node s.cluster.leader).log.logEndOffset

theorem caughtUp_iff {s : Trimmed} {peer : Nat} : s.CaughtUp peer ↔ (s.positions peer).CaughtUp :=
  Int.ofNat_inj.symm

section CatchUp

variable {s : Trimmed} {L : List Bytes} {peer : Nat}
variable (hgood : RunOf Good 0 L) (hsize : ∀ r ∈ L, r.length ≤ maxRecordBytes)
  (hlen : L.flatten.length < 2 ^ 64)
include hgood hsize hlen

/-- From resumable positions enough rounds bring the follower to the leader's end. -/
theorem reaches_end (h : Paired peer L s) (hr : (s.positions peer).Resumable) {ts : List Tick}
    (hn : (s.positions peer).lag < ts.countP Tick.isRound) :
    (ts.foldl (tick peer) s).CaughtUp peer := by
  refine caughtUp_iff.mpr (foldl_done (D := fun s => (s.positions peer).CaughtUp)
    (m := fun s => (s.positions peer).lag)
    (I := fun s => Paired peer L s ∧ (s.positions peer).Resumable) ?_ ?_ ?_ ?_ ⟨h, hr⟩ hn)
  · intro s t hs
    obtain ⟨h1, h2 | h2⟩ := tick_positions hgood hsize hlen hs.1 t
    · exact ⟨h1, h2.resumable.mpr hs.2⟩
    · exact ⟨h1, by rw [h2.1]; exact hs.2⟩
  · intro s t hs hd
    obtain ⟨-, h2 | h2⟩ := tick_positions hgood hsize hlen hs.1 t
    · exact h2.caughtUp hd
    · rw [h2.1]
      exact hd
  · intro s t hs hd
    obtain ⟨-, h2 | h2⟩ := tick_positions hgood hsize hlen hs.1 t
    · exact le_of_lt (h2.lag_lt hs.2 hd)
    · rw [h2.1]
  · intro s t hs hd ht
    obtain ⟨-, h2 | h2⟩ := tick_positions hgood hsize hlen hs.1 t
    · exact h2.lag_lt hs.2 hd
    · rw [h2.2] at ht
      simp at ht

/-- From other positions no number of rounds does. -/
theorem never_reaches_end (h : Paired peer L s) (hr : ¬ (s.positions peer).Resumable)
    (ts : List Tick) : ¬ (ts.foldl (tick peer) s).CaughtUp peer := by
  have hinv : Paired peer L (ts.foldl (tick peer) s) ∧
      ¬ ((ts.foldl (tick peer) s).positions peer).Resumable := by
    refine Along.foldl
      (I := fun s => Paired peer L s ∧ ¬ (s.positions peer).Resumable) (fun s t hs _ => ?_)
      (along_of_forall (fun _ _ => trivial)) ⟨h, hr⟩
    obtain ⟨h1, h2 | h2⟩ := tick_positions hgood hsize hlen hs.1 t
    · exact ⟨h1, fun h3 => hs.2 (h2.resumable.mp h3)⟩
    · exact ⟨h1, by rw [h2.1]; exact hs.2⟩
  exact fun hc => hinv.2 (.inl (caughtUp_iff.mp hc))

end CatchUp

end Trimmed

/-- A broker that runs. -/
def Node.isUp : Node → Bool
  | .up _ => true
  | .down _ => false

namespace Trimmed

open PartitionReplica Cluster

/-- Two members of the set that run after a run of events. -/
theorem paired_run (set : ReplicaSet) (es : List Event) {peer : Nat}
    (hp : peer ∈ set.assignment.replicas) (hne : peer ≠ set.assignment.leader)
    (hl : (((start set).run es).cluster.node set.assignment.leader).isUp = true)
    (hf : (((start set).run es).cluster.node peer).isUp = true) :
    Paired peer (((start set).run es).cluster.node set.assignment.leader).log.records
      ((start set).run es) := by
  obtain ⟨hformed, hset⟩ := formed_run_trimmed es (s := start set) (formed_start set)
  have hlead : ((start set).run es).cluster.leader = set.assignment.leader := by
    rw [leader, hset]
    rfl
  have hget : ∀ n : Node, n.isUp = true → ∃ r, n = .up r := by
    intro n hn
    cases n with
    | up r => exact ⟨r, rfl⟩
    | down log => simp [Node.isUp] at hn
  obtain ⟨l, hl⟩ := hget _ hl
  refine ⟨hformed, by rw [hset]; exact hp, by rw [hlead]; exact hne,
    ⟨l, by rw [hlead]; exact hl, ?_⟩, hget _ hf⟩
  rw [hl]
  rfl

/-- **Catching up, from every reachable state**: with enough rounds the follower's log end becomes
    the leader's exactly if the positions are resumable. -/
theorem catches_up_iff (set : ReplicaSet) (es : List Event) (peer : Nat)
    (hp : peer ∈ set.assignment.replicas) (hne : peer ≠ set.assignment.leader)
    (hl : (((start set).run es).cluster.node set.assignment.leader).isUp = true)
    (hf : (((start set).run es).cluster.node peer).isUp = true)
    (hsound : ∀ r ∈ (((start set).run es).cluster.node set.assignment.leader).log.records,
      ParsesAlone r ∧ r.length ≤ maxRecordBytes)
    (hlen : (((start set).run es).cluster.node set.assignment.leader).log.records.flatten.length <
      2 ^ 64) :
    (∃ n, ∀ ts : List Tick, n ≤ ts.countP Tick.isRound →
        (ts.foldl (tick peer) ((start set).run es)).CaughtUp peer) ↔
      (((start set).run es).positions peer).Resumable := by
  have hpair := paired_run set es hp hne hl hf
  have hgood := runOf_good (((start set).run es).cluster.node set.assignment.leader).log.run
    fun r hr => (hsound r hr).1
  have hsize := fun r hr => (hsound r hr).2
  constructor
  · intro h
    obtain ⟨n, hn⟩ := h
    by_contra hr
    refine never_reaches_end hgood hsize hlen hpair hr (List.replicate n (.round ⟨0, 0⟩ 1 0))
      (hn _ ?_)
    rw [countP_replicate]
    simp [Tick.isRound]
  · intro hr
    exact ⟨_, fun ts hts => reaches_end hgood hsize hlen hpair hr (Nat.lt_of_succ_le hts)⟩

/-- The follower has the record of a write, unflushed, and its machine crashes and restarts. -/
def lostTail : List Event :=
  [.event (.produce 7 sampleRecord 1 .leader 1000), .event (.send 1 1), .event (.deliver 0),
    .event (.reply 0 8), .event (.machineCrash 1 0 ⟨0, true⟩), .event (.restart 1)]

/-- The follower has nothing of two writes when retention deletes the first on the leader. -/
def behindRetention : List Event :=
  [.event (.produce 7 sampleRecord 1 .leader 1000), .event (.produce 8 sampleRecord 1 .leader 1000),
    .retain 0 1]

/-- The same two writes without retention. -/
def behind : List Event :=
  [.event (.produce 7 sampleRecord 1 .leader 1000), .event (.produce 8 sampleRecord 1 .leader 1000)]

theorem follower_behind_catches_up :
    ¬ ((start twoBrokers).run behind).CaughtUp 1 ∧ ∃ n, ∀ ts : List Tick,
      n ≤ ts.countP Tick.isRound →
        (ts.foldl (tick 1) ((start twoBrokers).run behind)).CaughtUp 1 :=
  ⟨by unfold CaughtUp; decide +kernel,
    (catches_up_iff twoBrokers behind 1 (by decide) (by decide) (by decide +kernel)
      (by decide +kernel) (by decide +kernel) (by decide +kernel)).mpr (by decide +kernel)⟩

/-- **Neither a follower that lost its unflushed tail nor one behind the leader's log start ever
    catches up**, however many rounds are made. -/
theorem follower_never_catches_up :
    (∀ ts : List Tick, ¬ (ts.foldl (tick 1) ((start twoBrokers).run lostTail)).CaughtUp 1) ∧
      ∀ ts : List Tick,
        ¬ (ts.foldl (tick 1) ((start twoBrokers).run behindRetention)).CaughtUp 1 := by
  constructor
  · exact never_reaches_end (runOf_good (ReplicaLog.run _) (by decide +kernel)) (by decide +kernel)
      (by decide +kernel)
      (paired_run twoBrokers lostTail (by decide) (by decide) (by decide +kernel)
        (by decide +kernel)) (by decide +kernel)
  · exact never_reaches_end (runOf_good (ReplicaLog.run _) (by decide +kernel)) (by decide +kernel)
      (by decide +kernel)
      (paired_run twoBrokers behindRetention (by decide) (by decide)
        (by decide +kernel) (by decide +kernel)) (by decide +kernel)

end Trimmed

end PulseLog

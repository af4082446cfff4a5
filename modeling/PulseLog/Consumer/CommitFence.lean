/-
  Subject:   `GroupCoordinator::Commit` in its two steps: the fence under the coordinator's mutex,
             then the write under the store's, with other calls in between.

  * `writes_are_fenced` -- without a rebalance in between every write still meets the fence;
    `late_commit_overwrites` -- with one, a member that left sets the group's position back;
  * **`generation_fences`** -- of two members that commit for a partition the later one has the
    larger generation.
-/
import PulseLog.Consumer.GroupInvariant

namespace PulseLog

namespace GroupCoordinator

open ConsumerGroup

/-! ## 1. Commits in flight -/

/-- The coordinator, and the commits between their fence and their write. -/
structure Committing where
  coordinator : GroupCoordinator
  pending : List CommitOffsetRequest

namespace Committing

def start (defaultSessionTimeoutMs : Int) : Committing := ⟨make defaultSessionTimeoutMs, []⟩

inductive Event where
  | call (e : Call)
  /-- the fence of a commit -/
  | check (req : CommitOffsetRequest)
  /-- the write of the commit in place `i`; `io` is the error of the store's log, if any -/
  | write (i : Nat) (io : Option Status) (nowMs : Int)

def step (s : Committing) : Event → Committing
  | .call e => { s with coordinator := s.coordinator.call e }
  | .check req =>
    match s.coordinator.commitFence req with
    | some _ => s
    | none => { s with pending := s.pending ++ [req] }
  | .write i io now =>
    match s.pending[i]? with
    | none => s
    | some req => ⟨(s.coordinator.commitWrite req io now).2, s.pending.eraseIdx i⟩

def run (s : Committing) (es : List Event) : Committing := es.foldl step s

/-- The commit is made under a member id that still holds the partition in the current
    generation. -/
def Current (c : GroupCoordinator) (req : CommitOffsetRequest) : Prop :=
  ∃ g m, c.findGroup req.groupId = some g ∧ g.find req.memberId = some m ∧
    req.generation = g.generation ∧ req.target ∈ m.assignment

/-- What a commit under a member id must meet when its offset is written. -/
def Fenced (s : Committing) : Event → Prop
  | .write i none _ => ∀ req, s.pending[i]? = some req → req.memberId ≠ "" →
      Current s.coordinator req
  | _ => True

/-- The call rebalances a group one of whose members has a commit in flight. -/
def Overtaken (s : Committing) : Event → Prop
  | .call e => ∃ req ∈ s.pending, req.memberId ≠ "" ∧
      (s.coordinator.call e).generation req.groupId ≠ s.coordinator.generation req.groupId
  | _ => False

/-! ## 2. Without a rebalance in between -/

section Fence

variable {c : GroupCoordinator} {req : CommitOffsetRequest} {s : Committing}

theorem current_of_fence (h : c.commitFence req = none) (hm : req.memberId ≠ "") :
    Current c req := by
  unfold commitFence at h
  split at h
  · simp at h
  split at h
  · simp at h
  rename_i g hg
  split at h
  · simp at h
  rename_i m hmem
  split at h
  · simp at h
  rename_i hgen
  split at h
  · simp at h
  rename_i htarget
  exact ⟨g, m, hg, hmem, not_not.mp hgen, not_not.mp htarget⟩

theorem nextGeneration_ne (n : Int) : nextGeneration n ≠ n := by
  unfold nextGeneration
  intro h
  have hmod : (n + 1) % ((2 ^ 32 : Nat)) = n % ((2 ^ 32 : Nat)) := by
    rw [← Int.bmod_emod, h]
  omega

/-- A call that leaves the generation alone leaves the members of the group their partitions. -/
theorem Current.call (hd : Distinct c) (h : Current c req) {e : Call}
    (hg : (c.call e).generation req.groupId = c.generation req.groupId) :
    Current (c.call e) req := by
  obtain ⟨g, m, hfind, hm, hgen, ht⟩ := h
  have hs := groupStep_call hd e req.groupId
  unfold GroupCoordinator.generation at hg
  rw [hfind] at hs hg
  generalize ho : (c.call e).findGroup req.groupId = o at hs hg
  cases hs with
  | same => exact ⟨g, m, ho, hm, hgen, ht⟩
  | kept hk =>
    rename_i g'
    have hface := hk.find req.memberId
    rw [hm, Option.map_some, Option.map_eq_some_iff] at hface
    obtain ⟨m', hm', hsame⟩ := hface
    refine ⟨g', m', ho, hm', hgen.trans hk.generation.symm, ?_⟩
    have hass : m'.assignment = m.assignment := congrArg (fun x => x.2.2) hsame
    rw [hass]
    exact ht
  | rebalanced g0 lookup now _ hgen0 _ _ =>
    rw [Option.map_some, rebalanceLocked_generation] at hg
    rw [hgen0] at hg
    exact absurd hg (nextGeneration_ne _)

theorem distinct_call (hd : Distinct c) (e : Call) : Distinct (c.call e) := by
  refine ⟨groups_call hd e, fun gid g' hg' => ?_⟩
  have hs := groupStep_call hd e gid
  have hold := hd.members gid
  rw [hg'] at hs
  generalize c.findGroup gid = o at hs hold
  cases hs with
  | same => exact hold g' rfl
  | kept hk =>
    rw [hk.ids]
    exact hold _ rfl
  | rebalanced g lookup now _ _ hn _ =>
    rw [rebalanceLocked_ids]
    exact hn

theorem commitWrite_groups (c : GroupCoordinator) (req : CommitOffsetRequest) (io : Option Status)
    (now : Int) : (c.commitWrite req io now).2.groups = c.groups := by
  cases io <;> rfl

theorem Current.congr {c' : GroupCoordinator} (h : Current c req) (hg : c'.groups = c.groups) :
    Current c' req := by
  unfold Current findGroup at h ⊢
  rw [hg]
  exact h

/-- The invariant: what has passed the fence still does. -/
structure Waiting (s : Committing) : Prop where
  distinct : Distinct s.coordinator
  current : ∀ req ∈ s.pending, req.memberId ≠ "" → Current s.coordinator req

theorem Waiting.step {e : Event} (h : Waiting s) (ho : ¬ s.Overtaken e) : Waiting (s.step e) := by
  cases e with
  | call e =>
    refine ⟨distinct_call h.distinct e, fun req hreq hm => ?_⟩
    refine (h.current req hreq hm).call h.distinct ?_
    by_contra hne
    exact ho ⟨req, hreq, hm, hne⟩
  | check req =>
    simp only [Committing.step]
    split
    · exact h
    · rename_i hfence
      refine ⟨h.distinct, fun req' hreq' hm => ?_⟩
      rcases List.mem_append.mp hreq' with hreq' | hreq'
      · exact h.current req' hreq' hm
      · rw [List.mem_singleton.mp hreq'] at hm ⊢
        exact current_of_fence hfence hm
  | write i io now =>
    simp only [Committing.step]
    split
    · exact h
    · rename_i req _
      have hgroups := commitWrite_groups s.coordinator req io now
      refine ⟨⟨by rw [hgroups]; exact h.distinct.groups, fun gid g hg => ?_⟩,
        fun req' hreq' hm => ?_⟩
      · unfold findGroup at hg
        rw [hgroups] at hg
        exact h.distinct.members gid g hg
      · exact (h.current req' (List.mem_of_mem_eraseIdx hreq') hm).congr hgroups

theorem not_overtaken {e : Event} (h : s.pending = []) : ¬ s.Overtaken e := by
  intro ho
  cases e with
  | call e =>
    obtain ⟨req, hreq, -⟩ := ho
    rw [h] at hreq
    simp at hreq
  | check req => exact ho
  | write i io now => exact ho

/-- **Every write under a member id meets the fence**, in every run in which no rebalance overtakes
    a commit between its fence and its write. -/
theorem writes_are_fenced (timeout : Int) (es : List Event)
    (hes : Along Committing.step (fun s e => ¬ s.Overtaken e) (start timeout) es) :
    Along Committing.step Fenced (start timeout) es := by
  have hstart : Waiting (start timeout) :=
    ⟨⟨List.nodup_nil, fun gid g hg => by simp [start, make, findGroup, findKey] at hg⟩,
      fun req hreq => by simp [start] at hreq⟩
  refine (hes.strengthen (fun s e hs ho => Waiting.step hs ho) hstart).mono (fun s e h => ?_)
  cases e with
  | call e => trivial
  | check req => trivial
  | write i io now =>
    cases io with
    | some e => trivial
    | none => exact fun req hreq hm => h.1.current req (List.mem_of_getElem? hreq) hm

end Fence

/-! ## 3. With a rebalance in between -/

/-- One partition. -/
def onePartition : PartitionLookup := fun _ => [⟨"t", 0⟩]

/-- A member joins, its commit passes the fence and is written, and it leaves. -/
def orderlyCommit : List Event :=
  [.call (.join onePartition ⟨"g", "", ["t"], 0, .range⟩ 1),
    .check ⟨"g", "g-1", 1, "t", 0, 5, ""⟩, .write 0 none 2,
    .call (.leave onePartition ⟨"g", "g-1"⟩ 3)]

theorem orderly_commit_fenced :
    ((start 10).run orderlyCommit).coordinator.fetchOffset ⟨"g", "t", 0⟩ = ⟨5, ""⟩ ∧
      Along Committing.step Fenced (start 10) orderlyCommit := by
  refine ⟨by decide +kernel, writes_are_fenced 10 orderlyCommit ?_⟩
  exact ⟨not_overtaken rfl, fun h => h, fun h => h, not_overtaken (by decide +kernel), trivial⟩

/-- The commit of `g-1` passes the fence; `g-1` leaves, `g-2` joins, gets the partition and commits
    offset 9; then the commit of `g-1` is written. -/
def lateCommit : List Event :=
  [.call (.join onePartition ⟨"g", "", ["t"], 0, .range⟩ 1),
    .check ⟨"g", "g-1", 1, "t", 0, 5, ""⟩,
    .call (.leave onePartition ⟨"g", "g-1"⟩ 2),
    .call (.join onePartition ⟨"g", "", ["t"], 0, .range⟩ 3),
    .check ⟨"g", "g-2", 3, "t", 0, 9, ""⟩, .write 1 none 4]

/-- **A member that left sets the group back**: its write comes when it is in the group no more,
    and replaces the offset of the member that has the partition now. -/
theorem late_commit_overwrites :
    ((start 10).run lateCommit).coordinator.fetchOffset ⟨"g", "t", 0⟩ = ⟨9, ""⟩ ∧
      ((start 10).run (lateCommit ++ [.write 0 none 5])).coordinator.fetchOffset ⟨"g", "t", 0⟩ =
        ⟨5, ""⟩ ∧
      ¬ Along Committing.step Fenced (start 10) (lateCommit ++ [.write 0 none 5]) := by
  refine ⟨by decide +kernel, by decide +kernel, fun h => ?_⟩
  have hlast := h.get (n := 6) rfl
  obtain ⟨g, m, hg, hm, -⟩ := hlast ⟨"g", "g-1", 1, "t", 0, 5, ""⟩ (by decide +kernel) (by simp)
  have hgone : ((List.foldl Committing.step (start 10)
      ((lateCommit ++ [Event.write 0 none 5]).take 6)).coordinator.findGroup "g").bind
      (fun g => g.find "g-1") = none := by decide +kernel
  rw [hg, Option.bind_some] at hgone
  rw [hgone] at hm
  simp at hm

/-! ## 4. Generations as tokens -/

section Tokens

variable {h : History} (hh : h.Ok) {a b : CommitOffsetRequest}
include hh

/-- No call takes a generation back. -/
theorem generation_call (hr : Roomy h.coordinator) (e : Call) (gid : String) :
    h.coordinator.generation gid ≤ (h.coordinator.call e).generation gid := by
  have hs := groupStep_call hh.distinct e gid
  have hroom := hh.room hr gid
  unfold GroupCoordinator.generation at hroom ⊢
  generalize h.coordinator.findGroup gid = o at hs hroom ⊢
  generalize (h.coordinator.call e).findGroup gid = o' at hs ⊢
  cases hs with
  | same => exact le_rfl
  | kept hk => exact hk.generation.ge
  | rebalanced g _ _ _ hgen _ _ =>
    rw [← hgen] at hroom ⊢
    rw [Option.map_some, Option.getD_some, rebalanceLocked_generation,
      nextGeneration_eq hroom.1 hroom.2]
    omega

/-- A partition has one member. -/
theorem Current.member_eq (ha : Current h.coordinator a) (hb : Current h.coordinator b)
    (hg : a.groupId = b.groupId) (ht : a.target = b.target) : a.memberId = b.memberId := by
  obtain ⟨g, m, hfa, hma, -, hta⟩ := ha
  obtain ⟨g', m', hfb, hmb, -, htb⟩ := hb
  rw [hg, hfb] at hfa
  cases hfa
  obtain ⟨hma, ea⟩ := findKey_some hma
  obtain ⟨hmb, eb⟩ := findKey_some hmb
  rw [← ea, ← eb]
  by_contra hne
  have hdisjoint := (settled_of_ok (hh.ok _ g hfb) (List.ne_nil_of_mem hma)).disjoint
  have : Std.Symm fun x y : GroupMember => x.assignment.Disjoint y.assignment :=
    ⟨fun _ _ hd => hd.symm⟩
  exact (List.pairwise_map.mp hdisjoint).forall hma hmb (fun he => hne (congrArg _ he)) hta
    (ht ▸ htb)

end Tokens

theorem Current.generation_eq {c : GroupCoordinator} {req : CommitOffsetRequest}
    (h : Current c req) : c.generation req.groupId = req.generation := by
  obtain ⟨g, m, hg, -, hgen, -⟩ := h
  rw [GroupCoordinator.generation, hg, hgen]
  rfl

/-- **Generations are fencing tokens**: of two commits for one partition that pass the fence at
    different times, under different members, the later one carries the larger generation. -/
theorem generation_fences (timeout : Int) (es fs : List Call)
    (hes : Along History.step (fun h _ => Roomy h.coordinator) (.start timeout) (es ++ fs))
    {a b : CommitOffsetRequest}
    (ha : ((History.start timeout).run es).coordinator.commitFence a = none)
    (hb : ((History.start timeout).run (es ++ fs)).coordinator.commitFence b = none)
    (hid : a.memberId ≠ "" ∧ b.memberId ≠ "") (hg : a.groupId = b.groupId)
    (ht : a.target = b.target) (hne : a.memberId ≠ b.memberId) : a.generation < b.generation := by
  obtain ⟨hes, hfs⟩ := (along_append es _).mp hes
  have hok := hes.foldl (fun h e hh hr => History.Ok.step hh hr e) (History.ok_start timeout)
  -- the earlier commit stays current, until a rebalance raises the generation for good
  have hrun := hfs.foldl (I := fun h => h.Ok ∧ (Current h.coordinator a ∨
      a.generation < h.coordinator.generation a.groupId)) (fun h e hI hr => by
    have hle := generation_call hI.1 hr e a.groupId
    refine ⟨hI.1.step hr e, ?_⟩
    rcases hI.2 with hc | hlt
    · by_cases hgen : (h.coordinator.call e).generation a.groupId =
          h.coordinator.generation a.groupId
      · exact .inl (hc.call hI.1.distinct hgen)
      · exact .inr (hc.generation_eq ▸ lt_of_le_of_ne hle (Ne.symm hgen))
    · exact .inr (lt_of_lt_of_le hlt hle)) ⟨hok, .inl (current_of_fence ha hid.1)⟩
  rw [History.run, List.foldl_append] at hb
  have hcb := current_of_fence hb hid.2
  rcases hrun.2 with hca | hlt
  · exact absurd (hca.member_eq hrun.1 hcb hg ht) hne
  · rw [← hcb.generation_eq, ← hg]
    exact hlt

/-- `g-1` joins, commits and leaves; `g-2` joins and commits. -/
theorem second_member_later :
    (⟨"g", "g-1", 1, "t", 0, 5, ""⟩ : CommitOffsetRequest).generation <
      (⟨"g", "g-2", 3, "t", 0, 9, ""⟩ : CommitOffsetRequest).generation :=
  generation_fences 10 [.join onePartition ⟨"g", "", ["t"], 0, .range⟩ 1]
    [.leave onePartition ⟨"g", "g-1"⟩ 2, .join onePartition ⟨"g", "", ["t"], 0, .range⟩ 3]
    ⟨roomy_of (by decide +kernel) (by decide +kernel),
      roomy_of (by decide +kernel) (by decide +kernel),
      roomy_of (by decide +kernel) (by decide +kernel), trivial⟩
    (by decide +kernel) (by decide +kernel) (by decide) rfl rfl (by decide)

end Committing

end GroupCoordinator

end PulseLog

/-
  Subject:   What holds in every state of the group coordinator, and what a call may change.

  A call acts on one group, or on each group alone. `GroupStep` says what it can do to a group:
  nothing, a new heartbeat, or a rebalance of a changed set of members. The invariants follow from
  that.

  * `group_invariants` -- over every run in which no counter runs over.
-/
import PulseLog.Consumer.GroupCoordinator
import PulseLog.General.Run
import PulseLog.General.Lists
import Mathlib.Data.Nat.Digits.Defs

namespace PulseLog

open List

variable {req : JoinGroupRequest} {gid : String}

/-! ## 1. One group -/

namespace ConsumerGroup

/-- A group with members after its last rebalance. -/
structure Balanced (g : ConsumerGroup) : Prop where
  stable : g.state = .stable
  shares : (g.members.map GroupMember.assignment).flatten.Perm (sortUnique g.partitions)
  leads : g.leaderId ∈ g.ids
  smallest : ∀ id ∈ g.ids, g.leaderId ≤ id

structure GroupOk (g : ConsumerGroup) : Prop where
  nodup : g.ids.Nodup
  generation : 0 ≤ g.generation
  balanced : g.members ≠ [] → Balanced g

section Rebalance

variable {g : ConsumerGroup} {lookup : PartitionLookup} {now : Int}

@[simp] theorem rebalanceLocked_groupId : (g.rebalanceLocked lookup now).groupId = g.groupId := by
  unfold rebalanceLocked
  simp only
  split <;> rfl

@[simp] theorem rebalanceLocked_generation :
    (g.rebalanceLocked lookup now).generation = nextGeneration g.generation := by
  unfold rebalanceLocked
  simp only
  split <;> rfl

@[simp] theorem rebalanceLocked_ids : (g.rebalanceLocked lookup now).ids = g.ids := by
  unfold rebalanceLocked ids
  simp only
  split
  · rfl
  · simp only [map_map]
    rfl

theorem rebalanceLocked_members_nil :
    (g.rebalanceLocked lookup now).members = [] ↔ g.members = [] := by
  have hids : (g.rebalanceLocked lookup now).ids = g.ids := rebalanceLocked_ids
  constructor
  · intro h
    rw [ids, h] at hids
    exact map_eq_nil_iff.mp hids.symm
  · intro h
    rw [ids, ids, h] at hids
    exact map_eq_nil_iff.mp hids

theorem nextGeneration_eq {n : Int} (h0 : 0 ≤ n) (h : n < 2 ^ 31 - 1) :
    nextGeneration n = n + 1 := by
  exact Int.bmod_eq_of_le (by omega) (by omega)

/-- The group a rebalance with members leaves. -/
theorem rebalanceLocked_eq (hne : g.members ≠ []) : g.rebalanceLocked lookup now =
    { g with
      generation := nextGeneration g.generation
      lastRebalanceMs := now
      members := g.members.map (fun m => { m with
        assignment := held (assign g.strategy g.ids (lookup g.subscribed)) m.memberId })
      leaderId := (g.ids.min?).getD ""
      state := .stable
      partitions := lookup g.subscribed } := by
  unfold rebalanceLocked
  simp only [if_neg hne]
  rfl

/-- **A rebalance balances**, whatever the group was before. -/
theorem rebalanceLocked_balanced (hn : g.ids.Nodup) (hne : g.members ≠ []) :
    Balanced (g.rebalanceLocked lookup now) := by
  have hids : g.ids ≠ [] := by simpa [ids] using hne
  obtain ⟨hk, hp⟩ := assign_perm g.strategy hids (lookup g.subscribed)
  obtain ⟨id, hid⟩ : ∃ id, g.ids.min? = some id := by
    cases h : g.ids.min? with
    | none => exact absurd (min?_eq_none_iff.mp h) hids
    | some id => exact ⟨id, rfl⟩
  have hleader : (g.rebalanceLocked lookup now).leaderId = id := by
    rw [rebalanceLocked_eq hne]
    simp only [hid, Option.getD_some]
  have hmin := min?_eq_some_iff.mp hid
  refine ⟨by rw [rebalanceLocked_eq hne], ?_, ?_, ?_⟩
  · -- what the members get is what the assignor dealt to their ids
    have hmap : (g.rebalanceLocked lookup now).members.map GroupMember.assignment =
        g.ids.map (held (assign g.strategy g.ids (lookup g.subscribed))) := by
      rw [rebalanceLocked_eq hne]
      unfold ids
      simp only [map_map]
      rfl
    have hparts : (g.rebalanceLocked lookup now).partitions = lookup g.subscribed := by
      rw [rebalanceLocked_eq hne]
    rw [hmap, hparts]
    have hkn : (keys (assign g.strategy g.ids (lookup g.subscribed))).Nodup := by
      rw [hk]
      exact sortUnique_nodup _
    refine (flatten_held_perm hkn ?_).trans hp
    rw [hk]
    exact (sortUnique_perm hn).symm
  · rw [rebalanceLocked_ids, hleader]
    exact hmin.1
  · rw [rebalanceLocked_ids, hleader]
    exact hmin.2

theorem rebalanceLocked_ok (hn : g.ids.Nodup) (h0 : 0 ≤ g.generation)
    (hg : g.generation < 2 ^ 31 - 1) : GroupOk (g.rebalanceLocked lookup now) where
  nodup := by
    rw [rebalanceLocked_ids]
    exact hn
  generation := by
    rw [rebalanceLocked_generation, nextGeneration_eq h0 hg]
    omega
  balanced := fun hne => rebalanceLocked_balanced hn (mt rebalanceLocked_members_nil.mpr hne)

end Rebalance

/-! ## 2. What a call does to a group -/

/-- What a member is seen by: its id, its subscription and its partitions. -/
def face (m : GroupMember) : String × List String × List TopicPartition :=
  (m.memberId, m.topics, m.assignment)

/-- Only heartbeats and timeouts differ. -/
structure Kept (g g' : ConsumerGroup) : Prop where
  groupId : g'.groupId = g.groupId
  state : g'.state = g.state
  generation : g'.generation = g.generation
  leaderId : g'.leaderId = g.leaderId
  partitions : g'.partitions = g.partitions
  faces : g'.members.map face = g.members.map face

section Kept

variable {g g' : ConsumerGroup} {m m' : GroupMember}

section

variable (h : Kept g g')
include h

theorem Kept.ids : g'.ids = g.ids := by
  have := congrArg (List.map Prod.fst) h.faces
  rw [map_map, map_map] at this
  exact this

theorem Kept.assignments :
    g'.members.map GroupMember.assignment = g.members.map GroupMember.assignment := by
  have := congrArg (List.map (fun x => x.2.2)) h.faces
  rw [map_map, map_map] at this
  exact this

theorem Kept.find (memberId : String) :
    (g'.find memberId).map face = (g.find memberId).map face := by
  have hkey : ∀ m : GroupMember, (face m).1 = m.memberId := fun _ => rfl
  unfold ConsumerGroup.find
  rw [map_findKey hkey, map_findKey hkey, h.faces]

theorem Kept.subscribed : g'.subscribed = g.subscribed := by
  have htopics := congrArg (List.flatMap fun x => x.2.1) h.faces
  rw [flatMap_map, flatMap_map] at htopics
  exact congrArg sortUnique htopics

theorem Kept.balanced (hg : Balanced g) : Balanced g' := by
  obtain ⟨h1, h2, h3, h4⟩ := hg
  refine ⟨h.state.trans h1, ?_, ?_, ?_⟩
  · rw [h.assignments, h.partitions]
    exact h2
  · rw [h.leaderId, h.ids]
    exact h3
  · rw [h.leaderId, h.ids]
    exact h4

theorem Kept.ne_nil (hne : g'.members ≠ []) : g.members ≠ [] := by
  intro hnil
  have hfaces := h.faces
  rw [hnil, map_nil, map_eq_nil_iff] at hfaces
  exact hne hfaces

theorem Kept.ok (hg : GroupOk g) : GroupOk g' where
  nodup := by
    rw [h.ids]
    exact hg.nodup
  generation := by
    rw [h.generation]
    exact hg.generation
  balanced := fun hne => h.balanced (hg.balanced (h.ne_nil hne))

end

/-- A member is written with what it already shows. -/
theorem kept_put (hn : g.ids.Nodup) (hm : g.find m'.memberId = some m) (hf : face m' = face m) :
    Kept g (g.put m') := by
  obtain ⟨h1, h2⟩ := findKey_some hm
  exact ⟨rfl, rfl, rfl, rfl, rfl, map_putKey_of_eq hn h1 h2 hf⟩

end Kept

/-- What a call does to the group under one id; `given` are the member ids it gives out. -/
inductive GroupStep (groupId : String) (given : List String) :
    Option ConsumerGroup → Option ConsumerGroup → Prop
  | same (o : Option ConsumerGroup) : GroupStep groupId given o o
  | kept {g g' : ConsumerGroup} : Kept g g' → GroupStep groupId given (some g) (some g')
  | rebalanced {o : Option ConsumerGroup} (g : ConsumerGroup) (lookup : PartitionLookup)
      (now : Int) :
      g.groupId = groupId → g.generation = (o.map ConsumerGroup.generation).getD 0 → g.ids.Nodup →
      (∀ id ∈ g.ids, id ∈ (o.map ConsumerGroup.ids).getD [] ∨ id ∈ given) →
      GroupStep groupId given o (some (g.rebalanceLocked lookup now))

end ConsumerGroup

/-! ## 3. The calls -/

namespace GroupCoordinator

open ConsumerGroup

/-- The calls of the coordinator. -/
inductive Call where
  | join (lookup : PartitionLookup) (req : JoinGroupRequest) (nowMs : Int)
  | heartbeat (req : HeartbeatRequest) (nowMs : Int)
  | leave (lookup : PartitionLookup) (req : LeaveGroupRequest) (nowMs : Int)
  | commit (req : CommitOffsetRequest) (io : Option Status) (nowMs : Int)
  | expireSessions (lookup : PartitionLookup) (nowMs : Int)

def call (c : GroupCoordinator) : Call → GroupCoordinator
  | .join lookup req now => (c.join lookup req now).2
  | .heartbeat req now => (c.heartbeat req now).2
  | .leave lookup req now => (c.leave lookup req now).2
  | .commit req io now => (c.commit req io now).2
  | .expireSessions lookup now => (c.expireSessions lookup now).2

/-- `Join` accepts the request. -/
def Valid (req : JoinGroupRequest) : Prop := req.groupId ≠ "" ∧ req.topics ≠ []

instance (req : JoinGroupRequest) : Decidable (Valid req) := inferInstanceAs (Decidable (_ ∧ _))

/-- The member ids a call gives out. -/
def grants (c : GroupCoordinator) : Call → List String
  | .join _ req _ => if Valid req ∧ c.isNew req = true then [c.joinId req] else []
  | _ => []

/-- The ids of the groups are distinct, and so are those of the members of each. -/
structure Distinct (c : GroupCoordinator) : Prop where
  groups : (c.groups.map ConsumerGroup.groupId).Nodup
  members : ∀ gid g, c.findGroup gid = some g → g.ids.Nodup

section Calls

variable {c : GroupCoordinator}

@[simp] theorem findGroup_putGroup (c : GroupCoordinator) (g : ConsumerGroup) (gid : String) :
    (c.putGroup g).findGroup gid = if gid = g.groupId then some g else c.findGroup gid :=
  findKey_putKey c.groups g gid

theorem join_eq {lookup : PartitionLookup} {now : Int} (h : Valid req) :
    (c.join lookup req now).2 = { c with
      memberCounter := if c.isNew req then (c.memberCounter + 1) % 2 ^ 64 else c.memberCounter
      }.putGroup (c.joinGroup lookup req now) := by
  unfold join
  rw [if_neg h.1, if_neg h.2]

theorem join_invalid {lookup : PartitionLookup} {now : Int} (h : ¬ Valid req) :
    (c.join lookup req now).2 = c := by
  unfold join
  split
  · rfl
  · rename_i h1
    rw [if_pos (by_contra fun h2 => h ⟨h1, h2⟩)]

theorem findGroup_groupId {g : ConsumerGroup} (h : c.findGroup gid = some g) :
    g.groupId = gid := (findKey_some h).2

theorem expireGroup_groupId (lookup : PartitionLookup) (now : Int) (g : ConsumerGroup) :
    (expireGroup lookup now g).groupId = g.groupId := by
  unfold expireGroup
  split
  · rfl
  · exact rebalanceLocked_groupId

theorem joined_groupId (req : JoinGroupRequest) : (c.joined req).groupId = req.groupId := by
  unfold joined
  cases h : c.findGroup req.groupId with
  | none => rfl
  | some g => exact findGroup_groupId h

theorem joinGroup_groupId (lookup : PartitionLookup) (req : JoinGroupRequest) (now : Int) :
    (c.joinGroup lookup req now).groupId = req.groupId := by
  unfold joinGroup
  split
  · rw [rebalanceLocked_groupId]
    exact joined_groupId req
  · exact joined_groupId req

theorem joined_ids (req : JoinGroupRequest) :
    (c.joined req).ids = ((c.findGroup req.groupId).map ConsumerGroup.ids).getD [] := by
  unfold joined
  cases c.findGroup req.groupId <;> rfl

theorem joined_generation (req : JoinGroupRequest) :
    (c.joined req).generation =
      ((c.findGroup req.groupId).map ConsumerGroup.generation).getD 0 := by
  unfold joined
  cases c.findGroup req.groupId <;> rfl

theorem joined_nodup (h : Distinct c) (req : JoinGroupRequest) : (c.joined req).ids.Nodup := by
  rw [joined_ids]
  cases hf : c.findGroup req.groupId with
  | none => exact nodup_nil
  | some g => exact h.members _ g hf

/-- A member that is not new is there. -/
theorem joinId_mem (h : c.isNew req = false) :
    ∃ m, (c.joined req).find (c.joinId req) = some m := by
  unfold isNew at h
  rw [Bool.or_eq_false_iff] at h
  have hid : c.joinId req = req.memberId := by
    unfold joinId isNew
    rw [h.1, h.2]
    rfl
  rw [hid]
  exact Option.isSome_iff_exists.mp (by simpa using h.2)

theorem findGroup_joined (h : c.isNew req = false) :
    c.findGroup req.groupId = some (c.joined req) := by
  obtain ⟨m, hm⟩ := joinId_mem h
  unfold joined
  cases hf : c.findGroup req.groupId with
  | some g => rfl
  | none =>
    unfold joined at hm
    rw [hf] at hm
    simp [ConsumerGroup.fresh, ConsumerGroup.find, findKey] at hm

/-- The entry of a member that joins again with its subscription. -/
theorem joinEntry_eq (hnew : c.isNew req = false) (hsub : c.subscriptionChanged req = false) : ∃ m,
    (c.joined req).find (c.joinId req) = some m ∧ c.joinEntry req = m ∧ m.topics = req.topics := by
  obtain ⟨m, hm⟩ := joinId_mem hnew
  have hentry : c.joinEntry req = m := by
    unfold joinEntry
    rw [hm]
    rfl
  unfold subscriptionChanged at hsub
  rw [hentry] at hsub
  exact ⟨m, hm, hentry, by simpa using hsub⟩

/-- Such a join changes no more than a heartbeat. -/
theorem kept_entered (h : Distinct c) (hnew : c.isNew req = false)
    (hsub : c.subscriptionChanged req = false) (now : Int) :
    Kept (c.joined req) (c.entered req now) := by
  obtain ⟨m, hm, hentry, htopics⟩ := joinEntry_eq hnew hsub
  refine kept_put (joined_nodup h req) hm ?_
  simp only [face, hentry, htopics, (findKey_some hm).2]

theorem groupStep_join (h : Distinct c) (hv : Valid req) (lookup : PartitionLookup) (now : Int) :
    GroupStep req.groupId (c.grants (.join lookup req now)) (c.findGroup req.groupId)
      (some (c.joinGroup lookup req now)) := by
  have hnodup := joined_nodup h req
  unfold joinGroup
  split
  · refine .rebalanced _ lookup now (joined_groupId req) (joined_generation req)
      (nodup_putKey hnodup _) (fun id hid => ?_)
    have hids : (c.entered req now).ids = if c.joinId req ∈ (c.joined req).ids
        then (c.joined req).ids else (c.joined req).ids ++ [c.joinId req] :=
      map_key_putKey _ _
    rw [hids] at hid
    rw [← joined_ids]
    split at hid
    · exact .inl hid
    · rename_i hnew
      rcases mem_append.mp hid with hid | hid
      · exact .inl hid
      · -- only a new member is not in the list
        have hn : c.isNew req = true := by
          cases hn : c.isNew req with
          | true => rfl
          | false =>
            obtain ⟨m, hm⟩ := joinId_mem hn
            obtain ⟨h1, h2⟩ := findKey_some hm
            exact absurd (mem_map.mpr ⟨m, h1, h2⟩) hnew
        have hgrant : c.grants (.join lookup req now) = [c.joinId req] := if_pos ⟨hv, hn⟩
        rw [hgrant]
        exact .inr hid
  · rename_i hkeep
    simp only [Bool.or_eq_true, not_or, Bool.not_eq_true] at hkeep
    obtain ⟨⟨hnew, hsub⟩, -⟩ := hkeep
    rw [findGroup_joined hnew]
    exact .kept (kept_entered h hnew hsub now)

/-- A group that lost members and is rebalanced. -/
theorem groupStep_erase {g : ConsumerGroup} (hg : g.groupId = gid) (hn : g.ids.Nodup)
    (ids given : List String) (lookup : PartitionLookup) (now : Int) :
    GroupStep gid given (some g) (some ((g.erase ids).rebalanceLocked lookup now)) := by
  have hsub : (g.erase ids).ids.Sublist g.ids := filter_sublist.map GroupMember.memberId
  exact .rebalanced _ lookup now hg rfl (hn.sublist hsub) (fun id hid => .inl (hsub.subset hid))

/-- What a call makes of the list of groups. -/
inductive Regroups (c : GroupCoordinator) (given : List String) : List ConsumerGroup → Prop
  | same : Regroups c given c.groups
  | put (g : ConsumerGroup) : GroupStep g.groupId given (c.findGroup g.groupId) (some g) →
      Regroups c given (putKey ConsumerGroup.groupId c.groups g)
  | expired (lookup : PartitionLookup) (now : Int) :
      Regroups c given (c.groups.map (expireGroup lookup now))

theorem regroups_call (h : Distinct c) (e : Call) : Regroups c (c.grants e) (c.call e).groups := by
  cases e with
  | join lookup req now =>
    by_cases hv : Valid req
    · rw [call, join_eq hv]
      refine .put _ ?_
      rw [joinGroup_groupId]
      exact groupStep_join h hv lookup now
    · rw [call, join_invalid hv]
      exact .same
  | heartbeat req now =>
    simp only [call, heartbeat]
    split
    · exact .same
    rename_i g hg
    split
    · exact .same
    rename_i m hm
    split
    · exact .same
    · obtain ⟨-, hid⟩ := findKey_some hm
      refine .put _ ?_
      show GroupStep g.groupId _ (c.findGroup g.groupId) _
      rw [findGroup_groupId hg, hg]
      refine .kept (kept_put (h.members _ g hg) (m := m) ?_ rfl)
      rw [← hm, ← hid]
  | leave lookup req now =>
    simp only [call, leave]
    split
    · exact .same
    rename_i g hg
    split
    · have hgid := findGroup_groupId hg
      refine .put _ ?_
      rw [rebalanceLocked_groupId]
      show GroupStep g.groupId _ (c.findGroup g.groupId) _
      rw [hgid, hg]
      exact groupStep_erase hgid (h.members _ g hg) _ _ lookup now
    · exact .same
  | commit req io now =>
    simp only [call, commit]
    split
    · exact .same
    · cases io <;> exact .same
  | expireSessions lookup now => exact .expired lookup now

/-- **What a call does to a group.** -/
theorem groupStep_call (h : Distinct c) (e : Call) (gid : String) :
    GroupStep gid (c.grants e) (c.findGroup gid) ((c.call e).findGroup gid) := by
  have hspec := regroups_call h e
  unfold findGroup at hspec ⊢
  generalize (c.call e).groups = groups at hspec
  cases hspec with
  | same => exact .same _
  | put g hstep =>
    rw [findKey_putKey]
    split
    · rename_i he
      rw [he]
      exact hstep
    · exact .same _
  | expired lookup now =>
    rw [← map_findKey (expireGroup_groupId lookup now)]
    cases hg : findKey ConsumerGroup.groupId c.groups gid with
    | none => exact .same _
    | some g =>
      simp only [Option.map_some, expireGroup]
      split
      · exact .same _
      · exact groupStep_erase (findGroup_groupId hg) (h.members _ g hg) _ _ lookup now

end Calls

/-! ## 4. Every run -/

/-- No `int32_t` generation and no member counter is at its end. -/
structure Roomy (c : GroupCoordinator) : Prop where
  generations : ∀ gid g, c.findGroup gid = some g → g.generation < 2 ^ 31 - 1
  counter : c.memberCounter < 2 ^ 64 - 1

/-- The generation of a group; one that was never joined has not begun. -/
def generation (c : GroupCoordinator) (gid : String) : Int :=
  ((c.findGroup gid).map ConsumerGroup.generation).getD 0

/-- The subscription of a member of a group, if it is there. -/
def subscription (c : GroupCoordinator) (gid memberId : String) : Option (List String) :=
  ((c.findGroup gid).bind (fun g => g.find memberId)).map GroupMember.topics

/-- The partitions of a member of a group, if it is there. -/
def assigned (c : GroupCoordinator) (gid memberId : String) : Option (List TopicPartition) :=
  ((c.findGroup gid).bind (fun g => g.find memberId)).map GroupMember.assignment

/-- The coordinator and the member ids it has given out. -/
structure History where
  coordinator : GroupCoordinator
  given : List String

namespace History

def start (defaultSessionTimeoutMs : Int) : History := ⟨make defaultSessionTimeoutMs, []⟩

def step (h : History) (e : Call) : History :=
  ⟨h.coordinator.call e, h.given ++ h.coordinator.grants e⟩

def run (h : History) (es : List Call) : History := es.foldl step h

/-- The invariant: groups are in order, and every member has an id that was given out, with a
    number the counter has passed. -/
structure Ok (h : History) : Prop where
  groups : (h.coordinator.groups.map ConsumerGroup.groupId).Nodup
  ok : ∀ gid g, h.coordinator.findGroup gid = some g → GroupOk g
  known : ∀ gid g, h.coordinator.findGroup gid = some g → ∀ id ∈ g.ids, id ∈ h.given
  numbered : ∀ id ∈ h.given, ∃ gid n, id = memberName gid n ∧ n ≤ h.coordinator.memberCounter
  nodup : h.given.Nodup

end History

/-- Two ids with the same name have the same number: it stands behind the last hyphen. -/
theorem memberName_inj {gid' : String} {n n' : Nat} (h : memberName gid n = memberName gid' n') :
    n = n' := by
  have hdigits : ∀ n : Nat, '-' ∉ Nat.toDigits 10 n := by
    intro n hn
    have := Nat.isDigit_of_mem_toDigits (by decide) le_rfl hn
    simp at this
  have hlist := congrArg String.toList h
  unfold memberName at hlist
  simp only [String.toList_append, Nat.repr_eq_ofList_toDigits, String.toList_ofList,
    append_assoc] at hlist
  have hsame := eq_of_append_cons_eq (hdigits n) (hdigits n') hlist
  rw [← Nat.ofDigitChars_ten_toDigits (n := n), hsame, Nat.ofDigitChars_ten_toDigits]

section Runs

variable {h : History} {e : Call}

theorem History.Ok.distinct (hh : h.Ok) : Distinct h.coordinator :=
  ⟨hh.groups, fun gid g hg => (hh.ok gid g hg).nodup⟩

theorem groups_call {c : GroupCoordinator} (h : Distinct c) (e : Call) :
    ((c.call e).groups.map ConsumerGroup.groupId).Nodup := by
  have hspec := regroups_call h e
  generalize (c.call e).groups = groups at hspec
  cases hspec with
  | same => exact h.groups
  | put g _ => exact nodup_putKey h.groups g
  | expired lookup now =>
    rw [map_key_map (expireGroup_groupId lookup now)]
    exact h.groups

/-- The counter moves exactly with the id that is given out. -/
theorem counter_call {c : GroupCoordinator} (hr : Roomy c) (e : Call) :
    (c.grants e = [] ∧ (c.call e).memberCounter = c.memberCounter) ∨
      ∃ gid, c.grants e = [memberName gid (c.memberCounter + 1)] ∧
        (c.call e).memberCounter = c.memberCounter + 1 := by
  have hroom : (c.memberCounter + 1) % 2 ^ 64 = c.memberCounter + 1 := by
    have := hr.counter
    exact Nat.mod_eq_of_lt (by omega)
  cases e with
  | join lookup req now =>
    by_cases hv : Valid req
    · have hcount : (c.call (.join lookup req now)).memberCounter =
          if c.isNew req then (c.memberCounter + 1) % 2 ^ 64 else c.memberCounter := by
        rw [call, join_eq hv]
        rfl
      rw [hcount, grants]
      cases hn : c.isNew req with
      | true =>
        refine .inr ⟨req.groupId, ?_, hroom⟩
        rw [if_pos ⟨hv, rfl⟩, joinId, hn, if_pos rfl, hroom]
      | false => exact .inl ⟨if_neg (fun h => by simp at h), rfl⟩
    · rw [call, join_invalid hv, grants, if_neg (fun h => hv h.1)]
      exact .inl ⟨rfl, rfl⟩
  | heartbeat req now =>
    refine .inl ⟨rfl, ?_⟩
    simp only [call, heartbeat]
    split
    · rfl
    split
    · rfl
    split <;> rfl
  | leave lookup req now =>
    refine .inl ⟨rfl, ?_⟩
    simp only [call, leave]
    split
    · rfl
    split <;> rfl
  | commit req io now =>
    refine .inl ⟨rfl, ?_⟩
    simp only [call, commit]
    split
    · rfl
    · cases io <;> rfl
  | expireSessions lookup now => exact .inl ⟨rfl, rfl⟩

/-- What a rebalance starts from has room for one more generation. -/
theorem History.Ok.room (hh : h.Ok) (hr : Roomy h.coordinator) (gid : String) :
    0 ≤ h.coordinator.generation gid ∧ h.coordinator.generation gid < 2 ^ 31 - 1 := by
  unfold GroupCoordinator.generation
  cases hg : h.coordinator.findGroup gid with
  | none => exact ⟨le_rfl, by decide⟩
  | some g => exact ⟨(hh.ok gid g hg).generation, hr.generations gid g hg⟩

/-- **One call keeps the invariant.** -/
theorem History.Ok.step (hh : h.Ok) (hr : Roomy h.coordinator) (e : Call) : (h.step e).Ok := by
  -- a group after the call, with what the call did to it
  have hafter : ∀ gid g', (h.coordinator.call e).findGroup gid = some g' →
      GroupOk g' ∧ ∀ id ∈ g'.ids, id ∈ h.given ++ h.coordinator.grants e := by
    intro gid g' hg'
    have hs := groupStep_call hh.distinct e gid
    have hroom := hh.room hr gid
    unfold GroupCoordinator.generation at hroom
    have hold := hh.ok gid
    have hknown := hh.known gid
    rw [hg'] at hs
    generalize h.coordinator.findGroup gid = o at hs hroom hold hknown
    cases hs with
    | same => exact ⟨hold g' rfl, fun id hid => mem_append_left _ (hknown g' rfl id hid)⟩
    | kept hk =>
      refine ⟨hk.ok (hold _ rfl), fun id hid => ?_⟩
      rw [hk.ids] at hid
      exact mem_append_left _ (hknown _ rfl id hid)
    | rebalanced g lookup now hid hgen hn hsub =>
      rw [← hgen] at hroom
      refine ⟨rebalanceLocked_ok hn hroom.1 hroom.2, fun id hid => ?_⟩
      rw [rebalanceLocked_ids] at hid
      rcases hsub id hid with hold' | hnew
      · cases o with
        | none => simp at hold'
        | some g0 => exact mem_append_left _ (hknown g0 rfl id hold')
      · exact mem_append_right _ hnew
  refine ⟨groups_call hh.distinct e, fun gid g' hg' => (hafter gid g' hg').1,
    fun gid g' hg' => (hafter gid g' hg').2, ?_, ?_⟩
  · intro id hid
    rcases counter_call hr e with ⟨h1, h2⟩ | ⟨gid, h1, h2⟩
    · simp only [History.step, h1, h2, append_nil] at hid ⊢
      exact hh.numbered id hid
    · simp only [History.step, h1, h2] at hid ⊢
      rcases mem_append.mp hid with hid | hid
      · obtain ⟨gid', n, h3, h4⟩ := hh.numbered id hid
        exact ⟨gid', n, h3, Nat.le_succ_of_le h4⟩
      · exact ⟨gid, _, mem_singleton.mp hid, le_rfl⟩
  · rcases counter_call hr e with ⟨h1, -⟩ | ⟨gid, h1, -⟩
    · simp only [History.step, h1, append_nil]
      exact hh.nodup
    · simp only [History.step, h1]
      refine nodup_append.mpr ⟨hh.nodup, nodup_singleton _, fun x hx y hy he => ?_⟩
      -- the number of the new id is above all numbers given
      obtain ⟨gid', n, h3, h4⟩ := hh.numbered x hx
      rw [he, mem_singleton.mp hy] at h3
      have := memberName_inj h3
      omega

theorem History.ok_start (timeout : Int) : (History.start timeout).Ok where
  groups := nodup_nil
  ok := fun gid g hg => by simp [History.start, make, findGroup, findKey] at hg
  known := fun gid g hg => by simp [History.start, make, findGroup, findKey] at hg
  numbered := fun id hid => by simp [History.start] at hid
  nodup := nodup_nil

/-- **A change of membership or of a subscription raises the generation.** -/
theorem generation_lt_of_changed (hh : h.Ok) (hr : Roomy h.coordinator) (e : Call) {id : String}
    (hne : (h.coordinator.call e).subscription gid id ≠ h.coordinator.subscription gid id) :
    h.coordinator.generation gid < (h.coordinator.call e).generation gid := by
  have hs := groupStep_call hh.distinct e gid
  have hroom := hh.room hr gid
  unfold GroupCoordinator.generation at hroom ⊢
  unfold subscription at hne
  generalize h.coordinator.findGroup gid = o at hs hroom hne ⊢
  generalize (h.coordinator.call e).findGroup gid = o' at hs hne ⊢
  cases hs with
  | same => exact absurd rfl hne
  | kept hk =>
    have hf := congrArg (Option.map (fun x => x.2.1)) (hk.find id)
    rw [Option.map_map, Option.map_map] at hf
    exact absurd hf hne
  | rebalanced g lookup now hid hgen hn hsub =>
    rw [← hgen] at hroom ⊢
    rw [Option.map_some, Option.getD_some, rebalanceLocked_generation,
      nextGeneration_eq hroom.1 hroom.2]
    omega

section Rejoin

variable {c : GroupCoordinator} {g : ConsumerGroup} {m : GroupMember} (hd : Distinct c)
  (hne : req.memberId ≠ "") (hg : c.findGroup req.groupId = some g) (hs : g.state = .stable)
  (hm : g.find req.memberId = some m) (ht : m.topics = req.topics) (lookup : PartitionLookup)
  (now : Int)
include hd hne hg hs hm ht

/-- The group of a re-join that changes nothing. -/
theorem joinGroup_unchanged : Kept g (c.joinGroup lookup req now) := by
  have hjoined : c.joined req = g := by
    unfold joined
    rw [hg]
    rfl
  have hnew : c.isNew req = false := by
    unfold isNew
    rw [hjoined, hm]
    simpa using hne
  have hid : c.joinId req = req.memberId := by
    unfold joinId
    rw [hnew]
    rfl
  have hsub : c.subscriptionChanged req = false := by
    unfold subscriptionChanged joinEntry
    rw [hjoined, hid, hm]
    simpa using ht
  have hkept := kept_entered hd hnew hsub now
  rw [hjoined] at hkept
  unfold joinGroup
  rw [hnew, hsub, hkept.state, hs]
  exact hkept

/-- **A re-join that changes nothing**: no generation and no assignment moves. -/
theorem unchanged_rejoin (gid id : String) :
    (c.call (.join lookup req now)).generation gid = c.generation gid ∧
      (c.call (.join lookup req now)).assigned gid id = c.assigned gid id := by
  by_cases hv : Valid req
  · have hk := joinGroup_unchanged hd hne hg hs hm ht lookup now
    have hfind : (c.call (.join lookup req now)).findGroup gid =
        if gid = req.groupId then some (c.joinGroup lookup req now) else c.findGroup gid := by
      rw [call, join_eq hv, findGroup_putGroup, joinGroup_groupId]
      rfl
    unfold GroupCoordinator.generation assigned
    rw [hfind]
    by_cases hgid : gid = req.groupId
    · rw [if_pos hgid, hgid, hg]
      refine ⟨hk.generation, ?_⟩
      have hf := congrArg (Option.map (fun x => x.2.2)) (hk.find id)
      rw [Option.map_map, Option.map_map] at hf
      exact hf
    · rw [if_neg hgid]
      exact ⟨rfl, rfl⟩
  · rw [call, join_invalid hv]
    exact ⟨rfl, rfl⟩

end Rejoin

end Runs

/-! ## 5. The invariants of every run -/

/-- A group with members: who has what, and who leads. -/
structure Settled (g : ConsumerGroup) : Prop where
  distinct : (g.members.map GroupMember.memberId).Nodup
  disjoint : (g.members.map GroupMember.assignment).Pairwise List.Disjoint
  exact : ∀ t, t ∈ g.partitions ↔ ∃ m ∈ g.members, t ∈ m.assignment
  leads : ∃ m ∈ g.members, m.memberId = g.leaderId
  smallest : ∀ m ∈ g.members, g.leaderId ≤ m.memberId

theorem settled_of_ok {g : ConsumerGroup} (h : GroupOk g) (hne : g.members ≠ []) : Settled g := by
  obtain ⟨-, hshares, hleads, hsmall⟩ := h.balanced hne
  have hnodup := hshares.nodup_iff.mpr (sortUnique_nodup _)
  refine ⟨h.nodup, (nodup_flatten.mp hnodup).2, fun t => ?_, mem_map.mp hleads,
    fun m hm => hsmall _ (mem_map_of_mem hm)⟩
  rw [← mem_sortUnique, ← hshares.mem_iff, mem_flatten]
  constructor
  · intro ht
    obtain ⟨l, hl, htl⟩ := ht
    obtain ⟨m, hm, rfl⟩ := mem_map.mp hl
    exact ⟨m, hm, htl⟩
  · intro ht
    obtain ⟨m, hm, htm⟩ := ht
    exact ⟨_, mem_map_of_mem hm, htm⟩

/-- What holds after every run: of each group with members, of the ids given out, and of the next
    call. -/
structure Invariants (h : History) : Prop where
  settled : ∀ g ∈ h.coordinator.groups, g.members ≠ [] → Settled g
  unique : h.given.Nodup
  known : ∀ g ∈ h.coordinator.groups, ∀ m ∈ g.members, m.memberId ∈ h.given
  changed : Roomy h.coordinator → ∀ (e : Call) (gid id : String),
    (h.coordinator.call e).subscription gid id ≠ h.coordinator.subscription gid id →
    h.coordinator.generation gid < (h.coordinator.call e).generation gid
  unchanged : ∀ (lookup : PartitionLookup) (req : JoinGroupRequest) (now : Int) (g : ConsumerGroup)
    (m : GroupMember), h.coordinator.findGroup req.groupId = some g → g.state = .stable →
    g.find req.memberId = some m → m.topics = req.topics → ∀ gid id,
    (h.coordinator.call (.join lookup req now)).generation gid = h.coordinator.generation gid ∧
      (h.coordinator.call (.join lookup req now)).assigned gid id = h.coordinator.assigned gid id

theorem memberName_ne_empty (gid : String) (n : Nat) : memberName gid n ≠ "" := by
  intro h
  have := congrArg String.toList h
  simp [memberName] at this

/-- **The group coordinator, over every run of calls in which no counter runs over.** -/
theorem group_invariants (timeout : Int) (es : List Call)
    (hes : Along History.step (fun h _ => Roomy h.coordinator) (History.start timeout) es) :
    Invariants ((History.start timeout).run es) := by
  have hok : ((History.start timeout).run es).Ok :=
    hes.foldl (fun h e hh hr => History.Ok.step hh hr e) (History.ok_start timeout)
  generalize (History.start timeout).run es = h at hok
  have hfind : ∀ g ∈ h.coordinator.groups, h.coordinator.findGroup g.groupId = some g :=
    fun g hg => findKey_of_mem hok.groups hg
  refine ⟨fun g hg hne => settled_of_ok (hok.ok _ g (hfind g hg)) hne, hok.nodup,
    fun g hg m hm => hok.known _ g (hfind g hg) _ (mem_map_of_mem hm),
    fun hr e gid id hne => generation_lt_of_changed hok hr e hne, ?_⟩
  intro lookup req now g m hg hs hm ht gid id
  -- an id that is in a group was given out, so it is not empty
  have hgiven : req.memberId ∈ h.given := by
    obtain ⟨h1, h2⟩ := findKey_some hm
    exact hok.known _ g hg _ (mem_map.mpr ⟨m, h1, h2⟩)
  obtain ⟨gid', n, hname, -⟩ := hok.numbered _ hgiven
  have hne : req.memberId ≠ "" := by
    rw [hname]
    exact memberName_ne_empty gid' n
  exact unchanged_rejoin hok.distinct hne hg hs hm ht lookup now gid id

theorem roomy_of {c : GroupCoordinator} (hg : ∀ g ∈ c.groups, g.generation < 2 ^ 31 - 1)
    (hc : c.memberCounter < 2 ^ 64 - 1) : Roomy c :=
  ⟨fun _ g h => hg g (findKey_some h).1, hc⟩

/-- A topic of three partitions. -/
def threePartitions : PartitionLookup := fun _ => [⟨"t", 0⟩, ⟨"t", 1⟩, ⟨"t", 2⟩]

/-- Two members join a group. -/
def twoJoins : List Call :=
  [.join threePartitions ⟨"g", "", ["t"], 0, .range⟩ 1,
    .join threePartitions ⟨"g", "", ["t"], 0, .range⟩ 2]

theorem two_members_share :
    ((History.start 10).run twoJoins).given = ["g-1", "g-2"] ∧
      ((History.start 10).run twoJoins).coordinator.assigned "g" "g-1" = some [⟨"t", 0⟩, ⟨"t", 1⟩] ∧
      Invariants ((History.start 10).run twoJoins) :=
  ⟨by decide +kernel, by decide +kernel, group_invariants 10 twoJoins
    ⟨roomy_of (by decide +kernel) (by decide +kernel),
      roomy_of (by decide +kernel) (by decide +kernel), trivial⟩⟩

/-! ## 6. The end of the generations -/

/-- The member `g-1` joins, or re-joins with one topic. -/
def flip (topic : String) : Call := .join (fun _ => []) ⟨"g", "g-1", [topic], 0, .range⟩ 0

/-- The coordinator after `g-1` was last seen with `topic`, in generation `n`. -/
def flipped (n : Int) (topic : String) : GroupCoordinator :=
  ⟨[⟨"g", .stable, n, "g-1", .range, [⟨"g-1", [topic], 10, 0, []⟩], 0, []⟩], 1, 10, []⟩

theorem call_flip_first : (make 10).call (flip "a") = flipped 1 "a" := by decide +kernel

/-- The group of the only member. -/
def lone (n : Int) (topic : String) : ConsumerGroup :=
  ⟨"g", .stable, n, "g-1", .range, [⟨"g-1", [topic], 10, 0, []⟩], 0, []⟩

theorem lone_rebalanced (n : Int) (t : String) : (lone n t).rebalanceLocked (fun _ => []) 0 =
    lone (ConsumerGroup.nextGeneration n) t := by
  rw [rebalanceLocked_eq (by simp [lone])]
  have hheld : held (assign .range ["g-1"] []) "g-1" = [] := by decide +kernel
  simp [lone, ids, hheld]

theorem call_flip {t t' : String} (n : Int) (h : t ≠ t') :
    (flipped n t).call (flip t') = flipped (ConsumerGroup.nextGeneration n) t' := by
  have hgroup : (flipped n t).joined ⟨"g", "g-1", [t'], 0, .range⟩ = lone n t := rfl
  have hfind : (lone n t).find "g-1" = some ⟨"g-1", [t], 10, 0, []⟩ := rfl
  have hnew : (flipped n t).isNew ⟨"g", "g-1", [t'], 0, .range⟩ = false := by
    simp [isNew, hgroup, hfind]
  have hid : (flipped n t).joinId ⟨"g", "g-1", [t'], 0, .range⟩ = "g-1" := by
    simp [joinId, hnew]
  have hentry : (flipped n t).joinEntry ⟨"g", "g-1", [t'], 0, .range⟩ =
      ⟨"g-1", [t], 10, 0, []⟩ := by
    simp [joinEntry, hid, hgroup, hfind]
  have hsub : (flipped n t).subscriptionChanged ⟨"g", "g-1", [t'], 0, .range⟩ = true := by
    simp [subscriptionChanged, hentry, h]
  have hentered : (flipped n t).entered ⟨"g", "g-1", [t'], 0, .range⟩ 0 = lone n t' := by
    have htimeout : (flipped n t).defaultSessionTimeoutMs = 10 := rfl
    rw [entered, hgroup, hentry, hid, htimeout]
    simp [lone, ConsumerGroup.put, putKey]
  have hjoin : (flipped n t).joinGroup (fun _ => []) ⟨"g", "g-1", [t'], 0, .range⟩ 0 =
      lone (ConsumerGroup.nextGeneration n) t' := by
    unfold joinGroup
    rw [hsub, hentered, lone_rebalanced]
    simp
  rw [flip, call, join_eq ⟨by simp, by simp⟩, hjoin]
  rfl

/-- A run in which the subscription goes back and forth. -/
def flips : Nat → List Call
  | 0 => [flip "a"]
  | n + 1 => flips n ++ [flip (if n % 2 = 0 then "b" else "a")]

/-- Each call is a generation. -/
theorem run_flips : ∀ n : Nat, n < 2 ^ 31 - 1 →
    ((History.start 10).run (flips n)).coordinator = flipped (n + 1)
      (if n % 2 = 0 then "a" else "b")
  | 0, _ => call_flip_first
  | n + 1, hn => by
    have ih := run_flips n (by omega)
    have hrun : ((History.start 10).run (flips (n + 1))).coordinator =
        ((History.start 10).run (flips n)).coordinator.call
          (flip (if n % 2 = 0 then "b" else "a")) := by
      rw [flips, History.run, foldl_append]
      rfl
    rw [hrun, ih, call_flip _ (by split <;> simp), nextGeneration_eq (by omega) (by omega)]
    have hparity : (if n % 2 = 0 then "b" else "a") = if (n + 1) % 2 = 0 then "a" else "b" := by
      by_cases h : n % 2 = 0
      · rw [if_pos h, if_neg (by omega)]
      · rw [if_neg h, if_pos (by omega)]
    rw [hparity]
    rfl

/-- **The generation runs over**: after `2 ^ 31 - 1` rebalances one more change of a subscription
    makes it negative. -/
theorem generation_runs_over : ∃ (es : List Call) (e : Call) (gid id : String),
    let c := ((History.start 10).run es).coordinator
    (c.call e).subscription gid id ≠ c.subscription gid id ∧
      (c.call e).generation gid < c.generation gid := by
  refine ⟨flips (2 ^ 31 - 2), flip "b", "g", "g-1", ?_⟩
  rw [run_flips _ (by norm_num)]
  simp only
  rw [call_flip _ (by simp)]
  constructor
  · simp [subscription, flipped, findGroup, findKey, ConsumerGroup.find]
  · norm_num [GroupCoordinator.generation, flipped, findGroup, findKey,
      ConsumerGroup.nextGeneration, Int.bmod]

end GroupCoordinator

end PulseLog

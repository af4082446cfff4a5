/-
  Subject:   How evenly the assignors deal (src/consumer/assignor.cc).

  A member is read off by its place in the sorted list. The range assignor gives it one block of
  every topic, the other one every `n`-th partition.

  * `held_assignRoundRobin` -- the partitions whose place has the member's remainder;
  * **`assign_fair`** -- every partition once, the balance of both strategies, and the result
    depends on the sets of members and partitions only.
-/
import PulseLog.Consumer.Assignor
import Mathlib.Data.List.GetD

namespace PulseLog

open List

/-- Both strategies start with empty hands. -/
theorem held_members (members : List String) (id : String) :
    held (members.map fun id => (id, ([] : List TopicPartition))) id = [] :=
  eq_nil_iff_forall_not_mem.mpr fun t ht => by
    have hmem := mem_dealt ht
    rw [dealt_members] at hmem
    exact not_mem_nil hmem

/-! ## 1. Range -/

section Range

variable {members : List String} {id : String} {j : Nat}

theorem held_assignTopic_of_notMem (perMember remainder : Nat) : ∀ (ids : List String) (m : Nat)
    (rest : List TopicPartition) (a : Assignment), (∀ id ∈ ids, id ∈ keys a) → id ∉ ids →
    held (assignTopic perMember remainder m ids rest a) id = held a id
  | [], _, _, _, _, _ => rfl
  | id' :: ids, m, rest, a, hk, hid => by
    obtain ⟨hne, hid⟩ := not_or.mp (mt mem_cons.mpr hid)
    rw [assignTopic, held_assignTopic_of_notMem perMember remainder ids _ _ _ (fun x hx => by
      rw [keys_pushAll]
      exact hk x (mem_cons_of_mem _ hx)) hid, held_pushAll _ _ (hk _ mem_cons_self),
      if_neg (Ne.symm hne), append_nil]

/-- What the member in place `j` takes of a topic, if the first member stands in place `m`. -/
def block (perMember remainder m j : Nat) (rest : List TopicPartition) : List TopicPartition :=
  (rest.drop (quota perMember remainder m j)).take (perMember + if m + j < remainder then 1 else 0)

theorem held_assignTopic (perMember remainder : Nat) : ∀ (ids : List String) (m j : Nat)
    (rest : List TopicPartition) (a : Assignment), ids.Nodup → (∀ id ∈ ids, id ∈ keys a) →
    ids[j]? = some id → held (assignTopic perMember remainder m ids rest a) id =
      held a id ++ block perMember remainder m j rest
  | [], _, _, _, _, _, _, hj => by simp at hj
  | id' :: ids, m, j, rest, a, hn, hk, hj => by
    have hkeys : ∀ vs : List TopicPartition, ∀ x ∈ ids, x ∈ keys (pushAll a id' vs) := by
      intro vs x hx
      rw [keys_pushAll]
      exact hk x (mem_cons_of_mem _ hx)
    rw [assignTopic]
    cases j with
    | zero =>
      rw [getElem?_cons_zero, Option.some.injEq] at hj
      rw [held_assignTopic_of_notMem _ _ _ _ _ _ (hkeys _) (hj ▸ (nodup_cons.mp hn).1),
        held_pushAll _ _ (hk _ mem_cons_self), if_pos hj]
      rfl
    | succ j =>
      have hne : id' ≠ id := fun he =>
        (nodup_cons.mp hn).1 (he ▸ mem_of_getElem? hj)
      rw [held_assignTopic perMember remainder ids (m + 1) j _ _ (nodup_cons.mp hn).2
        (hkeys _) hj, held_pushAll _ _ (hk _ mem_cons_self), if_neg hne, append_nil]
      simp only [block, quota, drop_drop, Nat.add_assoc, Nat.add_comm 1]

/-- The partitions of a topic, in the order of their indexes. -/
def ofTopic (partitions : List TopicPartition) (topic : String) : List TopicPartition :=
  (sortUnique partitions).filter fun t => t.topic = topic

/-- The block of the member in place `j`, of `n` members. -/
def rangeBlock (n j : Nat) (topicPartitions : List TopicPartition) : List TopicPartition :=
  block (topicPartitions.length / n) (topicPartitions.length % n) 0 j topicPartitions

/-- The blocks are as long as the quotas: the one at the last place ends where the topic ends. -/
theorem length_rangeBlock {n : Nat} (hj : j < n) (ts : List TopicPartition) :
    (rangeBlock n j ts).length = ts.length / n + if j < ts.length % n then 1 else 0 := by
  have hall := quota_all ts.length (Nat.zero_lt_of_lt hj)
  rw [quota_eq] at hall
  have hmul := Nat.mul_le_mul_right (ts.length / n) (Nat.succ_le_of_lt hj)
  rw [Nat.succ_mul] at hmul
  unfold rangeBlock block
  rw [length_take, length_drop, quota_eq, Nat.zero_add]
  split <;> omega

/-- Topic after topic, a member gets its blocks. -/
theorem held_assignBlocks {sorted : List TopicPartition} (hn : members.Nodup)
    (hj : members[j]? = some id) : ∀ (topics : List String) (a : Assignment), keys a = members →
    held (topics.foldl (assignBlocks members sorted) a) id =
      held a id ++ topics.flatMap fun topic =>
      rangeBlock members.length j (sorted.filter fun t => t.topic = topic)
  | [], a, _ => by simp
  | topic :: topics, a, hk => by
    have hkeys : keys (assignBlocks members sorted a topic) = members :=
      (keys_assignTopic _ _ members 0 _ a).trans hk
    rw [foldl_cons, held_assignBlocks hn hj topics _ hkeys, flatMap_cons, ← append_assoc]
    refine congrArg (· ++ _) ?_
    exact held_assignTopic _ _ members 0 j _ a hn (fun x hx => by rw [hk]; exact hx) hj

/-- One value of a run of keys. -/
theorem flatMap_ite_eq {κ α : Type*} [DecidableEq κ] (b : κ → List α) (k : κ) : ∀ ks : List κ,
    ks.Nodup → (ks.flatMap fun k' => if k' = k then b k' else []) = if k ∈ ks then b k else []
  | [], _ => rfl
  | k' :: ks, h => by
    have hn := nodup_cons.mp h
    rw [flatMap_cons, flatMap_ite_eq b k ks hn.2]
    by_cases hk : k' = k
    · simp [hk, hk ▸ hn.1]
    · simp [hk, Ne.symm hk]

theorem isInfix_rangeBlock (n : Nat) (ts : List TopicPartition) : rangeBlock n j ts <:+: ts :=
  (IsPrefix.isInfix <| take_prefix _ _).trans (drop_suffix _ _).isInfix

/-- **A member's partitions of a topic** are the block at its place. -/
theorem held_assignRange {memberIds : List String} (partitions : List TopicPartition)
    (hj : (sortUnique memberIds)[j]? = some id) (topic : String) :
    ((held (assignRange memberIds partitions) id).filter fun t => t.topic = topic) =
      rangeBlock (sortUnique memberIds).length j (ofTopic partitions topic) := by
  have hne : sortUnique memberIds ≠ [] := ne_nil_of_mem (mem_of_getElem? hj)
  unfold assignRange
  simp only [if_neg hne]
  rw [held_assignBlocks (sortUnique_nodup _) hj _ _ (keys_members _), held_members, nil_append,
    filter_flatMap]
  -- each block is of one topic, so only that of this topic is left
  have hblock : ∀ topic', ((rangeBlock (sortUnique memberIds).length j
      (ofTopic partitions topic')).filter fun t => t.topic = topic) =
      if topic' = topic then rangeBlock (sortUnique memberIds).length j (ofTopic partitions topic')
      else [] := by
    intro topic'
    have hall : ∀ t ∈ rangeBlock (sortUnique memberIds).length j (ofTopic partitions topic'),
        t.topic = topic' := fun t ht => by
      simpa using (mem_filter.mp ((isInfix_rangeBlock _ _).subset ht)).2
    split
    · rename_i he
      exact filter_eq_self.mpr fun t ht => by simpa using (hall t ht).trans he
    · rename_i he
      exact filter_eq_nil_iff.mpr fun t ht => by simpa using (hall t ht) ▸ he
  refine (congrArg (fun b => List.flatMap b _) (funext hblock)).trans ?_
  rw [flatMap_ite_eq _ _ _ (sortUnique_nodup _)]
  split
  · rfl
  · rename_i hno
    have hempty : ofTopic partitions topic = [] := filter_eq_nil_iff.mpr fun t ht he =>
      hno (mem_sortUnique.mpr (mem_map.mpr ⟨t, ht, by simpa using he⟩))
    rw [hempty]
    exact (eq_nil_of_infix_nil (isInfix_rangeBlock _ [])).symm

end Range

/-! ## 2. Round-robin -/

section RoundRobin

variable {memberIds : List String} {partitions : List TopicPartition} {id : String} {j : Nat}

/-- **A member holds as many partitions** as there are places with its remainder. -/
theorem length_held_assignRoundRobin (hj : (sortUnique memberIds)[j]? = some id) :
    (held (assignRoundRobin memberIds partitions) id).length =
      Nat.count (· ≡ j [MOD (sortUnique memberIds).length]) (sortUnique partitions).length := by
  obtain ⟨hlt, hget⟩ := List.getElem?_eq_some_iff.mp hj
  have hpos := Nat.zero_lt_of_lt hlt
  have hplace : ∀ i, (sortUnique memberIds).getD (i % (sortUnique memberIds).length) "" = id ↔
      i ≡ j [MOD (sortUnique memberIds).length] := by
    intro i
    rw [getD_eq_getElem _ _ (Nat.mod_lt i hpos), ← hget, (sortUnique_nodup _).getElem_inj_iff,
      Nat.ModEq, Nat.mod_eq_of_lt hlt]
  unfold assignRoundRobin
  simp only [if_neg (ne_nil_of_length_pos hpos)]
  have hdeal := held_deal (fun x : TopicPartition × Nat =>
    (sortUnique memberIds).getD (x.2 % (sortUnique memberIds).length) "") Prod.fst id
    (sortUnique partitions).zipIdx ((sortUnique memberIds).map fun id => (id, [])) fun x _ => by
      rw [keys_members, getD_eq_getElem _ _ (Nat.mod_lt _ hpos)]
      exact getElem_mem _
  rw [held_members, nil_append] at hdeal
  refine (congrArg List.length hdeal).trans ?_
  have hfilter : ((sortUnique partitions).zipIdx.filter fun x =>
      (sortUnique memberIds).getD (x.2 % (sortUnique memberIds).length) "" = id) =
      (sortUnique partitions).zipIdx.filter ((fun i =>
        decide (i ≡ j [MOD (sortUnique memberIds).length])) ∘ Prod.snd) :=
    filter_congr fun x _ => decide_eq_decide.mpr (hplace x.2)
  rw [length_map, hfilter, ← length_map Prod.snd, ← filter_map, zipIdx_map_snd, ← range_eq_range']
  exact length_filter_range _ _

end RoundRobin

/-! ## 3. Fairness -/

/-- Every member appears, and every partition goes to exactly one of them, once. -/
structure Deals (memberIds : List String) (partitions : List TopicPartition) (a : Assignment) :
    Prop where
  members : ∀ id, id ∈ keys a ↔ id ∈ memberIds
  distinct : (keys a).Nodup
  exactly : ∀ t, t ∈ dealt a ↔ t ∈ partitions
  once : (dealt a).Nodup
  unique : ∀ t ∈ partitions, ∃! id, t ∈ held a id

theorem assign_deals (strategy : AssignmentStrategy) {memberIds : List String} (h : memberIds ≠ [])
    (partitions : List TopicPartition) :
    Deals memberIds partitions (assign strategy memberIds partitions) := by
  obtain ⟨hkeys, hperm⟩ := assign_perm strategy h partitions
  have hdistinct : (keys (assign strategy memberIds partitions)).Nodup := by
    rw [hkeys]
    exact sortUnique_nodup _
  have honce := hperm.nodup_iff.mpr (sortUnique_nodup _)
  have hmem : ∀ t, t ∈ dealt (assign strategy memberIds partitions) ↔ t ∈ partitions := fun t => by
    rw [hperm.mem_iff, mem_sortUnique]
  exact ⟨fun id => by rw [hkeys, mem_sortUnique], hdistinct, hmem, honce,
    fun t ht => held_unique hdistinct honce ((hmem t).mpr ht)⟩

theorem place_of_mem {memberIds : List String} {id : String} (h : id ∈ memberIds) :
    ∃ j, j < (sortUnique memberIds).length ∧ (sortUnique memberIds)[j]? = some id := by
  obtain ⟨j, hj, hget⟩ := mem_iff_getElem.mp (mem_sortUnique.mpr h)
  exact ⟨j, hj, List.getElem?_eq_some_iff.mpr ⟨hj, hget⟩⟩

/-- **Both strategies are fair**: every partition goes to one member. Under range assignment a
    member's partitions of a topic are consecutive, and any two members hold equally many of them up
    to one; under round-robin this holds of all partitions. The result depends on the sets of
    members and partitions only. -/
theorem assign_fair {memberIds : List String} (h : memberIds ≠ [])
    (partitions : List TopicPartition) :
    (∀ strategy, Deals memberIds partitions (assign strategy memberIds partitions)) ∧
    (∀ (topic : String), ∀ id ∈ memberIds,
      ((held (assign .range memberIds partitions) id).filter fun t => t.topic = topic) <:+:
          ((sortUnique partitions).filter fun t => t.topic = topic) ∧
        ∀ id' ∈ memberIds,
          ((held (assign .range memberIds partitions) id).filter fun t => t.topic = topic).length ≤
            ((held (assign .range memberIds partitions) id').filter
              fun t => t.topic = topic).length + 1) ∧
    (∀ id ∈ memberIds, ∀ id' ∈ memberIds,
      (held (assign .roundRobin memberIds partitions) id).length ≤
        (held (assign .roundRobin memberIds partitions) id').length + 1) ∧
    ∀ (strategy : AssignmentStrategy) (memberIds' : List String)
      (partitions' : List TopicPartition),
      (∀ id, id ∈ memberIds' ↔ id ∈ memberIds) → (∀ t, t ∈ partitions' ↔ t ∈ partitions) →
      assign strategy memberIds' partitions' = assign strategy memberIds partitions := by
  refine ⟨fun strategy => assign_deals strategy h partitions, fun topic id hid => ?_,
    fun id hid id' hid' => ?_, fun strategy memberIds' partitions' hm hp => ?_⟩
  · obtain ⟨j, hj, hget⟩ := place_of_mem hid
    have hheld := held_assignRange partitions hget topic
    refine ⟨hheld ▸ isInfix_rangeBlock _ _, fun id' hid' => ?_⟩
    obtain ⟨j', hj', hget'⟩ := place_of_mem hid'
    have hheld' := held_assignRange partitions hget' topic
    refine (congrArg List.length hheld).trans_le ?_
    refine le_of_le_of_eq ?_ (congrArg (·.length + 1) hheld').symm
    rw [length_rangeBlock hj, length_rangeBlock hj']
    split <;> split <;> omega
  · obtain ⟨j, hj, hget⟩ := place_of_mem hid
    obtain ⟨j', -, hget'⟩ := place_of_mem hid'
    refine (length_held_assignRoundRobin hget).trans_le ?_
    refine le_of_le_of_eq ?_ (congrArg (· + 1) (length_held_assignRoundRobin hget')).symm
    exact count_modEq_le (Nat.zero_lt_of_lt hj) _ _ _
  · cases strategy <;>
      simp only [assign, assignRange, assignRoundRobin, sortUnique_congr hm, sortUnique_congr hp]

/-- Three members, one of them named twice, share two topics. -/
theorem three_members_fair : (["b", "a", "c", "a"] : List String) ≠ [] ∧
    ∀ strategy, Deals ["b", "a", "c", "a"] [⟨"t", 1⟩, ⟨"t", 0⟩, ⟨"u", 0⟩, ⟨"t", 1⟩]
      (assign strategy ["b", "a", "c", "a"] [⟨"t", 1⟩, ⟨"t", 0⟩, ⟨"u", 0⟩, ⟨"t", 1⟩]) :=
  ⟨by decide, (assign_fair (by decide) _).1⟩

end PulseLog

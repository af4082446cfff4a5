/-
  Subject:   How a consumer group's partitions are dealt out to its members
             (src/consumer/assignor.cc).

  Both strategies sort members and partitions and drop repetitions first.

  * `assign_perm` -- the members are the keys, and together they get every partition exactly once.
-/
import PulseLog.Base.Types
import PulseLog.General.Deal
import Mathlib.Data.String.Basic
import Mathlib.Data.Prod.Lex

namespace PulseLog

open List

variable {memberIds : List String}

/-! ## 1. Partitions -/

/-- `TopicPartition`. -/
structure TopicPartition where
  topic : String
  partition : Int
  deriving Repr, DecidableEq

/-- Topic first, then partition. -/
def TopicPartition.key (t : TopicPartition) : String ×ₗ Int := toLex (t.topic, t.partition)

theorem TopicPartition.key_injective : Function.Injective TopicPartition.key := by
  intro a b h
  obtain ⟨t, p⟩ := a
  obtain ⟨rfl, rfl⟩ := Prod.mk.inj (toLex_inj.mp h)
  rfl

instance : LinearOrder TopicPartition :=
  LinearOrder.lift' TopicPartition.key TopicPartition.key_injective

/-- `TopicPartition::ToString`. -/
def TopicPartition.toText (t : TopicPartition) : String := s!"{t.topic}-{t.partition}"

/-! ## 2. The strategies -/

/-- `Assignment`: member id to partitions, in the order of the ids. -/
abbrev Assignment := List (String × List TopicPartition)

/-- One topic's partitions from the cursor on, for the members from place `m` on. -/
def assignTopic (perMember remainder : Nat) :
    Nat → List String → List TopicPartition → Assignment → Assignment
  | _, [], _, a => a
  | m, id :: ids, rest, a =>
    let take := perMember + if m < remainder then 1 else 0
    assignTopic perMember remainder (m + 1) ids (rest.drop take) (pushAll a id (rest.take take))

/-- One topic of `AssignRange`: the members share its partitions. -/
def assignBlocks (members : List String) (sorted : List TopicPartition) (a : Assignment)
    (topic : String) : Assignment :=
  let topicPartitions := sorted.filter (fun t => t.topic = topic)
  assignTopic (topicPartitions.length / members.length) (topicPartitions.length % members.length)
    0 members topicPartitions a

/-- `AssignRange`. -/
def assignRange (memberIds : List String) (partitions : List TopicPartition) : Assignment :=
  let members := sortUnique memberIds
  if members = [] then []
  else
    let sorted := sortUnique partitions
    (sortUnique (sorted.map TopicPartition.topic)).foldl (assignBlocks members sorted)
      (members.map (fun id => (id, [])))

/-- `AssignRoundRobin`: partition `i` goes to member `i % n`. -/
def assignRoundRobin (memberIds : List String) (partitions : List TopicPartition) : Assignment :=
  let members := sortUnique memberIds
  if members = [] then []
  else
    (sortUnique partitions).zipIdx.foldl
      (fun a (t, i) => push a (members.getD (i % members.length) "") t)
      (members.map (fun id => (id, [])))

/-- `Assign`. -/
def assign (strategy : AssignmentStrategy) (memberIds : List String)
    (partitions : List TopicPartition) : Assignment :=
  match strategy with
  | .roundRobin => assignRoundRobin memberIds partitions
  | .range => assignRange memberIds partitions

/-! ## 3. Range -/

/-- How many partitions `n` members from place `m` on take. -/
def quota (perMember remainder : Nat) : Nat → Nat → Nat
  | _, 0 => 0
  | m, n + 1 => perMember + (if m < remainder then 1 else 0) + quota perMember remainder (m + 1) n

theorem quota_eq (perMember remainder : Nat) : ∀ m n,
    quota perMember remainder m n = n * perMember + min n (remainder - m)
  | m, 0 => by simp [quota]
  | m, n + 1 => by
    rw [quota, quota_eq perMember remainder (m + 1) n, Nat.succ_mul]
    split <;> omega

/-- The blocks of a topic are as long as the topic. -/
theorem quota_all {n : Nat} (count : Nat) (hn : 0 < n) :
    quota (count / n) (count % n) 0 n = count := by
  have hlt := Nat.mod_lt count hn
  have hdiv := Nat.div_add_mod count n
  rw [quota_eq, Nat.sub_zero, Nat.min_eq_right (le_of_lt hlt)]
  exact hdiv

theorem keys_assignTopic (perMember remainder : Nat) : ∀ (ids : List String) (m : Nat)
    (rest : List TopicPartition) (a : Assignment),
    keys (assignTopic perMember remainder m ids rest a) = keys a
  | [], _, _, _ => rfl
  | id :: ids, m, rest, a => by
    rw [assignTopic, keys_assignTopic perMember remainder ids, keys_pushAll]

/-- The members together take what the quota covers. -/
theorem assignTopic_perm (perMember remainder : Nat) : ∀ (ids : List String) (m : Nat)
    (rest : List TopicPartition) (a : Assignment), (keys a).Nodup → (∀ id ∈ ids, id ∈ keys a) →
    rest.length ≤ quota perMember remainder m ids.length →
    (dealt (assignTopic perMember remainder m ids rest a)).Perm (dealt a ++ rest)
  | [], m, rest, a, _, _, hr => by
    have hnil : rest = [] := eq_nil_of_length_eq_zero (Nat.le_zero.mp hr)
    rw [hnil, append_nil]
    exact List.Perm.refl _
  | id :: ids, m, rest, a, hn, hk, hr => by
    rw [assignTopic]
    generalize htake : perMember + (if m < remainder then 1 else 0) = take
    have hkeys := keys_pushAll id (rest.take take) a
    have hhead := pushAll_perm (rest.take take) hn (hk id mem_cons_self)
    have htail := assignTopic_perm perMember remainder ids (m + 1) (rest.drop take)
      (pushAll a id (rest.take take)) (by rw [hkeys]; exact hn)
      (fun id' h' => by rw [hkeys]; exact hk id' (mem_cons_of_mem _ h')) (by
        rw [length_cons, quota] at hr
        rw [length_drop]
        omega)
    have hjoin := hhead.append_right (rest.drop take)
    rw [append_assoc, take_append_drop] at hjoin
    exact htail.trans hjoin

theorem assignBlocks_perm {members : List String} (hne : 0 < members.length)
    (sorted : List TopicPartition) : ∀ (topics : List String) (a : Assignment), (keys a).Nodup →
    keys a = members →
    keys (topics.foldl (assignBlocks members sorted) a) = members ∧
      (dealt (topics.foldl (assignBlocks members sorted) a)).Perm
        (dealt a ++ (topics.map (fun topic => sorted.filter (fun t => t.topic = topic))).flatten)
  | [], a, _, hk => ⟨hk, by simp⟩
  | topic :: topics, a, hn, hk => by
    have hkeys : keys (assignBlocks members sorted a topic) = keys a :=
      keys_assignTopic _ _ members 0 _ a
    have hone : (dealt (assignBlocks members sorted a topic)).Perm
        (dealt a ++ sorted.filter (fun t => t.topic = topic)) :=
      assignTopic_perm _ _ members 0 _ a hn (fun id h => by rw [hk]; exact h)
        (le_of_eq (quota_all _ hne).symm)
    obtain ⟨h1, h2⟩ := assignBlocks_perm hne sorted topics (assignBlocks members sorted a topic)
      (by rw [hkeys]; exact hn) (hkeys.trans hk)
    have hjoin := hone.append_right
      ((topics.map (fun topic => sorted.filter (fun t => t.topic = topic))).flatten)
    rw [append_assoc] at hjoin
    exact ⟨h1, h2.trans hjoin⟩

/-! ## 4. Every partition once -/

/-- Both strategies start with a key for every member and nothing dealt. -/
theorem keys_members (members : List String) :
    keys (members.map (fun id => (id, ([] : List TopicPartition)))) = members := by
  unfold keys
  rw [map_map]
  exact map_id' members

theorem dealt_members (members : List String) :
    dealt (members.map (fun id => (id, ([] : List TopicPartition)))) = [] := by
  unfold dealt
  rw [map_map]
  exact flatten_eq_nil_iff.mpr (fun l hl => by
    obtain ⟨_, _, rfl⟩ := mem_map.mp hl
    rfl)

theorem sortUnique_pos (h : memberIds ≠ []) : 0 < (sortUnique memberIds).length := by
  obtain ⟨id, ids, rfl⟩ := exists_cons_of_ne_nil h
  exact length_pos_of_mem (mem_sortUnique.mpr mem_cons_self)

theorem assignRange_perm (h : memberIds ≠ []) (partitions : List TopicPartition) :
    keys (assignRange memberIds partitions) = sortUnique memberIds ∧
      (dealt (assignRange memberIds partitions)).Perm (sortUnique partitions) := by
  have hpos := sortUnique_pos h
  obtain ⟨h1, h2⟩ := assignBlocks_perm hpos (sortUnique partitions)
    (sortUnique ((sortUnique partitions).map TopicPartition.topic))
    ((sortUnique memberIds).map (fun id => (id, [])))
    (by rw [keys_members]; exact sortUnique_nodup _) (keys_members _)
  unfold assignRange
  simp only [if_neg (ne_nil_of_length_pos hpos)]
  refine ⟨h1, h2.trans ?_⟩
  rw [dealt_members]
  exact fibres_perm TopicPartition.topic _ _ (sortUnique_nodup _)
    (fun t ht => mem_sortUnique.mpr (mem_map_of_mem ht))

theorem dealRoundRobin_perm {members : List String} (hne : 0 < members.length) :
    ∀ (ts : List (TopicPartition × Nat)) (a : Assignment), (keys a).Nodup → keys a = members →
    keys (ts.foldl (fun a (t, i) => push a (members.getD (i % members.length) "") t) a) = members ∧
      (dealt (ts.foldl (fun a (t, i) => push a (members.getD (i % members.length) "") t) a)).Perm
        (dealt a ++ ts.map Prod.fst)
  | [], a, _, hk => ⟨hk, by simp⟩
  | (t, i) :: ts, a, hn, hk => by
    have hmem : members.getD (i % members.length) "" ∈ keys a := by
      rw [hk, getD_eq_getElem?_getD, getElem?_eq_getElem (Nat.mod_lt i hne)]
      exact getElem_mem _
    obtain ⟨h1, h2⟩ := dealRoundRobin_perm hne ts
      (push a (members.getD (i % members.length) "") t) (by rw [keys_push]; exact hn)
      (by rw [keys_push]; exact hk)
    have hjoin := (push_perm t hn hmem).append_right (ts.map Prod.fst)
    rw [append_assoc] at hjoin
    exact ⟨h1, h2.trans hjoin⟩

theorem assignRoundRobin_perm (h : memberIds ≠ []) (partitions : List TopicPartition) :
    keys (assignRoundRobin memberIds partitions) = sortUnique memberIds ∧
      (dealt (assignRoundRobin memberIds partitions)).Perm (sortUnique partitions) := by
  have hpos := sortUnique_pos h
  obtain ⟨h1, h2⟩ := dealRoundRobin_perm hpos (sortUnique partitions).zipIdx
    ((sortUnique memberIds).map (fun id => (id, [])))
    (by rw [keys_members]; exact sortUnique_nodup _) (keys_members _)
  unfold assignRoundRobin
  simp only [if_neg (ne_nil_of_length_pos hpos)]
  refine ⟨h1, ?_⟩
  rw [dealt_members, zipIdx_map_fst] at h2
  exact h2

/-- **Every partition goes to one member**: with a member at all, the ids are the keys, and what
    they get together is the list of partitions, each once. -/
theorem assign_perm (strategy : AssignmentStrategy) (h : memberIds ≠ [])
    (partitions : List TopicPartition) :
    keys (assign strategy memberIds partitions) = sortUnique memberIds ∧
      (dealt (assign strategy memberIds partitions)).Perm (sortUnique partitions) := by
  cases strategy with
  | range => exact assignRange_perm h partitions
  | roundRobin => exact assignRoundRobin_perm h partitions

end PulseLog

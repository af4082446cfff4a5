/-
  Subject:   Which metadata files load as topics that are whole (`ClusterMetadata::LoadFrom` of
             src/metadata/cluster_metadata.cc).

  The checks of `LoadFrom` are those of the single lines, and one that the indexes of a topic have
  no gap. Nothing compares the number of partitions with the count in the topic line, and replica
  ids that do not parse are dropped. The file is read here as the list of its lines.

  * **`loaded_wellFormed_iff`** -- an accepted file gives whole topics exactly if its lines are
    `Complete`; `truncated_file_loads` -- one that lost its end is accepted.
-/
import PulseLog.Metadata.MetadataFile

namespace PulseLog

open List

namespace MetadataFile

/-! ## 1. Lines -/

/-- The configuration in a topic line. -/
def topicLine (l : Bytes) : Option TopicConfig :=
  match l.splitOn tab with
  | word :: name :: count :: factor :: retention :: segment :: compression :: _ =>
    if word = text "topic" then parseConfig name count factor retention segment compression
    else none
  | _ => none

/-- The assignment in a partition line of the topic. -/
def partitionLine (name l : Bytes) : Option PartitionAssignment :=
  match l.splitOn tab with
  | word :: topic :: index :: leader :: epoch :: replicas :: _ =>
    if word = text "partition" ∧ topic = name then parsePartition index leader epoch replicas
    else none
  | _ => none

/-- No line begins the topic again. -/
def Silent (name : Bytes) (ls : List Bytes) : Prop :=
  ∀ l ∈ ls, ∀ c, topicLine l = some c → c.name ≠ name

/-- The topic with the partitions of the lines. -/
def TopicDescriptor.extend (d : TopicDescriptor) (ls : List Bytes) : TopicDescriptor :=
  { d with partitions := d.partitions ++ ls.filterMap (partitionLine d.name) }

section Lines

variable {path : String} {n : Nat} {loaded loaded' : Topics} {l : Bytes} {ls : List Bytes}

/-- What `LoadFrom` makes of a line that it accepts. -/
inductive LineStep (loaded : Topics) (l : Bytes) : Topics → Prop
  | topic (c : TopicConfig) : topicLine l = some c → (∀ name, partitionLine name l = none) →
      LineStep loaded l (loaded.put ⟨c, []⟩)
  | partition (name : Bytes) (p : PartitionAssignment) : topicLine l = none →
      (∀ name', partitionLine name' l = if name' = name then some p else none) →
      LineStep loaded l (loaded.addPartition name p)
  | other : topicLine l = none → (∀ name, partitionLine name l = none) → LineStep loaded l loaded

theorem topicLine_none (h : (l.splitOn tab).head? ≠ some (text "topic")) : topicLine l = none := by
  unfold topicLine
  split
  · rename_i heq
    rw [heq] at h
    exact if_neg fun he => h (congrArg some he)
  · rfl

theorem partitionLine_none (h : (l.splitOn tab).head? ≠ some (text "partition")) (name : Bytes) :
    partitionLine name l = none := by
  unfold partitionLine
  split
  · rename_i heq
    rw [heq] at h
    exact if_neg fun he => h (congrArg some he.1)
  · rfl

theorem lineStep_of_ok (h : parseLine path n loaded l = .ok loaded') :
    LineStep loaded l loaded' := by
  have hwords : some (text "partition") ≠ some (text "topic") := by decide +kernel
  unfold parseLine at h
  split at h
  · rename_i hnil
    cases h
    subst hnil
    exact .other (topicLine_none (by decide +kernel)) (partitionLine_none (by decide +kernel))
  dsimp only at h
  split at h
  · rename_i hword
    split at h
    · rename_i heq
      split at h
      · cases h
      · rename_i c hc
        cases h
        refine .topic c ?_ (partitionLine_none (by rw [hword]; exact Ne.symm hwords))
        rw [heq, head?_cons, Option.some.injEq] at hword
        simp only [topicLine, heq, hword, if_true, hc]
    · cases h
  split at h
  · rename_i hword
    split at h
    · rename_i name index leader epoch replicas more heq
      split at h
      · split at h
        · cases h
        · rename_i p hp
          cases h
          refine .partition name p (topicLine_none (by rw [hword]; exact hwords)) fun name' => ?_
          rw [heq, head?_cons, Option.some.injEq] at hword
          simp only [partitionLine, heq, hword, true_and, hp, eq_comm]
      · cases h
    · cases h
  · rename_i htopic hpartition
    cases h
    exact .other (topicLine_none htopic) (partitionLine_none hpartition)

theorem silent_cons {name : Bytes} :
    Silent name (l :: ls) ↔ (∀ c, topicLine l = some c → c.name ≠ name) ∧ Silent name ls :=
  forall_mem_cons

theorem extend_nil (d : TopicDescriptor) : d.extend [] = d := by
  simp [TopicDescriptor.extend]

theorem extend_extend (d : TopicDescriptor) (l : Bytes) (ls : List Bytes) :
    (d.extend [l]).extend ls = d.extend (l :: ls) := by
  simp only [TopicDescriptor.extend, TopicDescriptor.name, append_assoc, ← filterMap_append,
    singleton_append]

theorem extend_of_none {d : TopicDescriptor} (h : partitionLine d.name l = none) :
    d.extend [l] = d := by
  simp [TopicDescriptor.extend, h]

/-- **What a line does to the topics**: it begins one, or adds its partition to one. -/
theorem mem_parseLine (h : parseLine path n loaded l = .ok loaded') (d : TopicDescriptor) :
    d ∈ loaded'.list ↔ (∃ c, topicLine l = some c ∧ d = ⟨c, []⟩) ∨
      (∀ c, topicLine l = some c → c.name ≠ d.name) ∧ ∃ d₀ ∈ loaded.list, d = d₀.extend [l] := by
  cases lineStep_of_ok h with
  | topic c hc hp =>
    have hsame : (∃ d₀ ∈ loaded.list, d = d₀.extend [l]) ↔ d ∈ loaded.list := by
      simp only [extend_of_none (hp _), exists_eq_right']
    rw [Topics.put, mem_putSorted_iff loaded.sorted, hsame, and_comm]
    simp only [hc, Option.some.injEq, exists_eq_left', forall_eq']
    exact or_congr_right (and_congr_left fun _ => ne_comm)
  | partition name p hc hp =>
    have hadd : ∀ d₀ : TopicDescriptor, d₀.extend [l] =
        if d₀.name = name then { d₀ with partitions := d₀.partitions ++ [p] } else d₀ := by
      intro d₀
      split
      · rename_i hname
        simp [TopicDescriptor.extend, hp, hname]
      · rename_i hname
        exact extend_of_none (by rw [hp, if_neg hname])
    rw [Topics.list_addPartition]
    simp [hc, hadd, eq_comm]
  | other hc hp => simp [hc, extend_of_none (hp _)]

/-- **A topic is its last topic line with the partition lines behind it**; before the first line it
    is what was there. -/
theorem mem_parseLines (h : parseLines path n loaded ls = .ok loaded') (d : TopicDescriptor) :
    d ∈ loaded'.list ↔
      (∃ before l after c, ls = before ++ l :: after ∧ topicLine l = some c ∧ Silent c.name after ∧
        d = TopicDescriptor.extend ⟨c, []⟩ after) ∨
      Silent d.name ls ∧ ∃ d₀ ∈ loaded.list, d = d₀.extend ls := by
  induction ls generalizing n loaded with
  | nil =>
    cases h
    simp [Silent, extend_nil]
  | cons l ls ih =>
    rw [parseLines] at h
    split at h
    · cases h
    rename_i loaded1 hl
    rw [ih h]
    constructor
    · intro hd
      rcases hd with ⟨before, l', after, c, rfl, hc⟩ | ⟨hs, d₁, hd₁, rfl⟩
      · exact .inl ⟨l :: before, l', after, c, rfl, hc⟩
      rcases (mem_parseLine hl d₁).mp hd₁ with ⟨c, hc, rfl⟩ | ⟨hc, d₀, hd₀, rfl⟩
      · exact .inl ⟨[], l, ls, c, rfl, hc, hs, rfl⟩
      · exact .inr ⟨silent_cons.mpr ⟨hc, hs⟩, d₀, hd₀, extend_extend d₀ l ls⟩
    · intro hd
      rcases hd with ⟨before, l', after, c, hsplit, hc, hs, rfl⟩ | ⟨hs, d₀, hd₀, rfl⟩
      · rcases cons_eq_append_iff.mp hsplit with ⟨rfl, hcons⟩ | ⟨before', rfl, rfl⟩
        · cases hcons
          exact .inr ⟨hs, ⟨c, []⟩, (mem_parseLine hl _).mpr (.inl ⟨c, hc, rfl⟩), rfl⟩
        · exact .inl ⟨before', l', after, c, rfl, hc, hs, rfl⟩
      · have hs := silent_cons.mp hs
        exact .inr ⟨hs.2, d₀.extend [l], (mem_parseLine hl _).mpr (.inr ⟨hs.1, d₀, hd₀, rfl⟩),
          (extend_extend d₀ l ls).symm⟩

end Lines

/-! ## 2. The check for gaps -/

theorem firstGap_get : ∀ (ps : List PartitionAssignment) (i : Nat), firstGap i ps = none →
    ∀ (k : Nat) (p : PartitionAssignment), ps[k]? = some p → p.index = Int32.ofNat (i + k)
  | [], _, _, _, _, hp => by simp at hp
  | q :: ps, i, h, k, p, hp => by
    rw [firstGap] at h
    split at h
    · cases h
    rename_i hq
    cases k with
    | zero =>
      cases hp
      exact not_not.mp hq
    | succ k =>
      rw [firstGap_get ps (i + 1) h k p hp]
      congr 1
      omega

/-- **Sorted partitions without a gap are dense.** -/
theorem dense_of_check {ps : List PartitionAssignment}
    (h : firstGap 0 (sortPartitions ps) = none) : Dense (sortPartitions ps) := by
  have hget := firstGap_get _ _ h
  have hsorted : (sortPartitions ps).Pairwise fun p q => p.index ≤ q.index :=
    pairwise_insertionSort _ ps
  -- a place that is no `int32_t` would show an index below 0, and the first one is 0
  have hlen : (sortPartitions ps).length ≤ 2 ^ 31 := by
    by_contra hlong
    obtain ⟨p, hp⟩ : ∃ p, (sortPartitions ps)[2 ^ 31]? = some p :=
      ⟨_, getElem?_eq_getElem (by omega)⟩
    obtain ⟨q, hq⟩ : ∃ q, (sortPartitions ps)[0]? = some q :=
      ⟨_, getElem?_eq_getElem (by omega)⟩
    obtain ⟨hlt, hpe⟩ := List.getElem?_eq_some_iff.mp hp
    obtain ⟨hlt0, hqe⟩ := List.getElem?_eq_some_iff.mp hq
    have hle := pairwise_iff_getElem.mp hsorted 0 (2 ^ 31) hlt0 hlt (by decide)
    rw [hqe, hpe, hget _ _ hp, hget _ _ hq] at hle
    exact absurd hle (by decide)
  intro i p hp
  obtain ⟨hlt, -⟩ := List.getElem?_eq_some_iff.mp hp
  rw [hget i p hp, Nat.zero_add, Int32.toInt_ofNat_of_lt (by omega)]

/-! ## 3. Whole topics -/

/-- The topic has the partitions `0, 1, ..., partition_count - 1`, and each is led by one of its
    replicas. -/
structure WellFormed (d : TopicDescriptor) : Prop where
  count : (d.partitions.length : Int) = d.config.partitionCount.toInt
  dense : Dense d.partitions
  led : ∀ p ∈ d.partitions, p.replicas ≠ [] ∧ p.leader ∈ p.replicas

/-- Behind the last topic line of a name there are as many partition lines as it says, and each
    names its leader among the replicas. -/
def Complete (ls : List Bytes) : Prop :=
  ∀ before l after c, ls = before ++ l :: after → topicLine l = some c → Silent c.name after →
    ((after.filterMap (partitionLine c.name)).length : Int) = c.partitionCount.toInt ∧
      ∀ p ∈ after.filterMap (partitionLine c.name), p.leader ∈ p.replicas

section Loaded

variable {path : String} {current loaded t : Topics} {content : Bytes}

theorem gapError_none {d : TopicDescriptor} (h : gapError d = none) :
    firstGap 0 (sortPartitions d.partitions) = none := Option.map_eq_none_iff.mp h

theorem checkPartitions_ok (h : checkPartitions loaded = .ok t) :
    (∀ d ∈ loaded.list, firstGap 0 (sortPartitions d.partitions) = none) ∧
      t.list = loaded.list.map fun d => { d with partitions := sortPartitions d.partitions } := by
  unfold checkPartitions at h
  split at h
  · cases h
  · rename_i hgap
    cases h
    exact ⟨fun d hd => gapError_none (findSome?_eq_none_iff.mp hgap d hd), rfl⟩

theorem loadFrom_ok (h : loadFrom current path (some content) = (none, t)) :
    ∃ loaded, parseLines path 2 .empty (getLines content).tail = .ok loaded ∧
      checkPartitions loaded = .ok t := by
  unfold loadFrom parseFile at h
  split at h
  · cases h
  rename_i hok
  cases h
  dsimp only at hok
  split at hok
  · cases hok
  rename_i header lines hlines
  split at hok
  · cases hok
  split at hok
  · cases hok
  rename_i loaded hparse
  rw [hlines]
  exact ⟨loaded, hparse, hok⟩

theorem wellFormed_iff {d : TopicDescriptor} (h : firstGap 0 (sortPartitions d.partitions) = none) :
    WellFormed { d with partitions := sortPartitions d.partitions } ↔
      (d.partitions.length : Int) = d.config.partitionCount.toInt ∧
        ∀ p ∈ d.partitions, p.leader ∈ p.replicas := by
  have hperm : (sortPartitions d.partitions).Perm d.partitions := perm_insertionSort _ _
  constructor
  · intro hw
    exact ⟨hperm.length_eq ▸ hw.count, fun p hp => (hw.led p (hperm.mem_iff.mpr hp)).2⟩
  · intro hd
    refine ⟨hperm.length_eq.symm ▸ hd.1, dense_of_check h, fun p hp => ?_⟩
    have hled := hd.2 p (hperm.mem_iff.mp hp)
    exact ⟨ne_nil_of_mem hled, hled⟩

/-- **An accepted file gives whole topics exactly if its lines are complete.** -/
theorem loaded_wellFormed_iff (h : loadFrom current path (some content) = (none, t)) :
    (∀ d ∈ t.list, WellFormed d) ↔ Complete (getLines content).tail := by
  obtain ⟨loaded, hparse, hcheck⟩ := loadFrom_ok h
  obtain ⟨hgap, hlist⟩ := checkPartitions_ok hcheck
  have hmem : ∀ d, d ∈ loaded.list ↔ ∃ before l after c, (getLines content).tail =
      before ++ l :: after ∧ topicLine l = some c ∧ Silent c.name after ∧
        d = TopicDescriptor.extend ⟨c, []⟩ after := fun d => by
    rw [mem_parseLines hparse d]
    simp [Topics.empty]
  rw [hlist, forall_mem_map]
  constructor
  · intro hw before l after c hsplit hc hs
    have hd := (hmem _).mpr ⟨before, l, after, c, hsplit, hc, hs, rfl⟩
    exact (wellFormed_iff (hgap _ hd)).mp (hw _ hd)
  · intro hcomplete d hd
    refine (wellFormed_iff (hgap d hd)).mpr ?_
    obtain ⟨before, l, after, c, hsplit, hc, hs, rfl⟩ := (hmem d).mp hd
    exact hcomplete before l after c hsplit hc hs

end Loaded

/-- A topic of two partitions, of which the file has lost the second. -/
def truncatedFile : Bytes :=
  text "pulselog-metadata v1\ntopic\tt\t2\t1\t-1\t-1\t0\npartition\tt\t0\t4\t0\t4\n"

/-- **A file that has lost its end is accepted**: the topic has two partitions and one of them. -/
theorem truncated_file_loads :
    (loadFrom .empty "m" (some truncatedFile)).1 = none ∧
      ((loadFrom .empty "m" (some truncatedFile)).2.list.map fun d =>
        (d.config.partitionCount, d.partitions.map (·.index))) = [(2, [0])] ∧
      ¬ ∀ d ∈ (loadFrom .empty "m" (some truncatedFile)).2.list, WellFormed d := by
  have hlist : ((loadFrom .empty "m" (some truncatedFile)).2.list.map fun d =>
      (d.config.partitionCount, d.partitions.map (·.index))) = [(2, [0])] := by decide +kernel
  refine ⟨by decide +kernel, hlist, fun h => ?_⟩
  obtain ⟨d, hd, hpair⟩ := mem_map.mp (hlist ▸ mem_singleton_self (2, [0]))
  obtain ⟨hcount, hparts⟩ := Prod.mk.inj hpair
  have hlength := congrArg List.length hparts
  have hwhole := (h d hd).count
  rw [length_map] at hlength
  rw [hlength, hcount] at hwhole
  exact absurd hwhole (by decide)

/-- The file of a topic of one partition. -/
def wholeFile : Bytes :=
  text "pulselog-metadata v1\ntopic\tt\t1\t1\t-1\t-1\t0\npartition\tt\t0\t4\t0\t4\n"

theorem whole_file_complete :
    ∃ t, loadFrom .empty "m" (some wholeFile) = (none, t) ∧
      ((∀ d ∈ t.list, WellFormed d) ↔ Complete (getLines wholeFile).tail) := by
  have h : loadFrom .empty "m" (some wholeFile) =
      (none, (loadFrom .empty "m" (some wholeFile)).2) :=
    Prod.ext (by decide +kernel) rfl
  exact ⟨_, h, loaded_wellFormed_iff h⟩

end MetadataFile

end PulseLog

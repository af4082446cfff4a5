/-
  Subject:   The brokers of a cluster, and what is derived from their list
             (`SetBrokersFromSpec`, `CoordinatorForGroup` of src/metadata/cluster_metadata.cc,
             `CoordinatorFor` of clients/cpp/src/client_context.cc).

  Every broker reads the same specs, in an order of its own, and a client gets the list of one of
  them with a metadata response. Placement and coordinator depend on positions in this list.

  * **`cluster_agrees`** -- placement and coordinator, on every broker and every client.
-/
import Mathlib.Data.List.GetD
import PulseLog.General.Deal
import PulseLog.Metadata.ClusterMetadata
import PulseLog.Metadata.MetadataFile
import PulseLog.Protocol.RoundTrip

namespace PulseLog

open List

namespace Membership

open Protocol (BrokerEndpoint MetadataResponse Few Short)
open MetadataFile (shown parseI32)
open ClusterMetadata (placement computeAssignments)

/-! ## 1. The list -/

def atSign : UInt8 := 64

def colon : UInt8 := 58

/-- One spec of `SetBrokersFromSpec`, `id@host:port`: the id ends at the first `@` and the host at
    the last colon. -/
def parseSpec (spec : Bytes) : Except Status BrokerEndpoint :=
  if atSign ∉ spec then
    .error (.invalidArgument ("broker spec must be id@host:port, got '" ++ shown spec ++ "'"))
  else
    match (parseI32 (spec.takeWhile (· ≠ atSign))).filter fun id => 0 ≤ id.toInt with
    | none => .error (.invalidArgument ("broker spec has an invalid id: '" ++ shown spec ++ "'"))
    | some id =>
      let address := (spec.dropWhile (· ≠ atSign)).tail
      if colon ∉ address then
        .error (.invalidArgument ("broker spec must be id@host:port, got '" ++ shown spec ++ "'"))
      else
        match (parseNat (address.reverse.takeWhile (· ≠ colon)).reverse).filter
            fun port => port ≠ 0 && port ≤ 65535 with
        | none =>
          .error (.invalidArgument ("broker spec has an invalid port: '" ++ shown spec ++ "'"))
        | some port =>
          .ok ⟨id, (address.reverse.dropWhile (· ≠ colon)).tail.reverse, UInt16.ofNat port⟩

/-- `std::sort` by id. -/
def sortById (brokers : List BrokerEndpoint) : List BrokerEndpoint :=
  brokers.insertionSort fun a b => a.id.toInt ≤ b.id.toInt

/-- The first id that stands twice in a row. -/
def duplicate : List BrokerEndpoint → Option Int32
  | a :: b :: l => if b.id = a.id then some b.id else duplicate (b :: l)
  | _ => none

/-- `SetBrokersFromSpec`: the list the broker keeps. -/
def setBrokersFromSpec (specs : List Bytes) : Except Status (List BrokerEndpoint) :=
  match specs.mapM parseSpec with
  | .error e => .error e
  | .ok brokers =>
    match duplicate (sortById brokers) with
    | some id => .error (.invalidArgument s!"duplicate broker id {id.toInt}")
    | none => .ok (sortById brokers)

/-- `CoordinatorForGroup`. -/
def coordinatorForGroup (groupId : Bytes) (brokers : List BrokerEndpoint) : Int32 :=
  ((brokers[(crc32c groupId).toNat % brokers.length]?).map BrokerEndpoint.id).getD (-1)

/-- The payload of the METADATA response of a broker (`BuildMetadataResponse`, `Encode`). -/
def metadataPayload (brokers : List BrokerEndpoint) (topics : List Protocol.TopicMetadata) :
    Bytes :=
  MetadataResponse.encode
    ⟨⟨none, []⟩, (brokers.head?.map BrokerEndpoint.id).getD (-1), brokers, topics⟩

/-- `brokers_` of a client behind `RefreshMetadata`: a map by id, if `DecodeResponse` can read the
    payload and its header reports no error. Bytes behind the last field are ignored. -/
def refreshMetadata (payload : Bytes) : Option (List BrokerEndpoint) := do
  let (response, _) ← MetadataResponse.decode.run payload
  guard (response.header.error = none)
  pure (response.brokers.foldl (putSorted fun b => b.id.toInt) [])

/-- The choice of `ClientContext::CoordinatorFor`: the values of the map, sorted again. -/
def clientCoordinatorFor (groupId : Bytes) (known : List BrokerEndpoint) : Int32 :=
  coordinatorForGroup groupId (sortById known)

/-- The ids the placement works with. -/
def brokerIds (brokers : List BrokerEndpoint) : List Nat := brokers.map fun b => b.id.toInt.toNat

/-! ## 2. The order of the specs -/

section Order

variable {specs specs' : List Bytes} {brokers bs : List BrokerEndpoint}

/-- Every id once, and in order. -/
def Ordered (brokers : List BrokerEndpoint) : Prop := Sorted (fun b => b.id.toInt) brokers

theorem sortById_perm (brokers : List BrokerEndpoint) : (sortById brokers).Perm brokers :=
  perm_insertionSort _ brokers

theorem sortById_sorted (brokers : List BrokerEndpoint) :
    (sortById brokers).Pairwise fun a b => a.id.toInt ≤ b.id.toInt :=
  pairwise_insertionSort _ brokers

theorem ordered_of_duplicate (hs : brokers.Pairwise fun a b => a.id.toInt ≤ b.id.toInt)
    (h : duplicate brokers = none) : Ordered brokers := by
  have hchain : brokers.IsChain fun a b => a.id.toInt < b.id.toInt := by
    induction brokers with
    | nil => exact .nil
    | cons a l ih =>
      cases l with
      | nil => exact .singleton a
      | cons b l =>
        rw [duplicate] at h
        split at h
        · cases h
        rename_i hne
        obtain ⟨ha, hl⟩ := pairwise_cons.mp hs
        have hle := ha b mem_cons_self
        exact .cons_cons (lt_of_le_of_ne hle fun he => hne (Int32.toInt_inj.mp he).symm) (ih hl h)
  exact isChain_iff_pairwise.mp hchain

theorem Ordered.duplicate_none (h : Ordered brokers) : duplicate brokers = none := by
  induction brokers with
  | nil => rfl
  | cons a l ih =>
    obtain ⟨ha, hl⟩ := pairwise_cons.mp h
    cases l with
    | nil => rfl
    | cons b l =>
      have hlt : a.id.toInt < b.id.toInt := ha b mem_cons_self
      have hne : b.id ≠ a.id := fun he => hlt.ne (congrArg Int32.toInt he).symm
      rw [duplicate, if_neg hne]
      exact ih hl

/-- There is one way to put brokers with different ids in order. -/
theorem Ordered.sortById_eq (h : Ordered brokers) (hp : bs.Perm brokers) :
    sortById bs = brokers := by
  refine ((sortById_perm bs).trans hp).eq_of_pairwise (fun a b ha hb hab hba => ?_)
    (sortById_sorted bs) (h.imp le_of_lt)
  have hnodup : (brokers.map fun b => b.id.toInt).Nodup := pairwise_map.mpr (h.imp ne_of_lt)
  exact inj_on_of_nodup_map hnodup (hp.mem_iff.mp ((sortById_perm bs).mem_iff.mp ha)) hb
    (le_antisymm hab hba)

theorem setBrokersFromSpec_ok (h : setBrokersFromSpec specs = .ok brokers) :
    ∃ bs, Forall₂ (fun spec b => parseSpec spec = .ok b) specs bs ∧ bs.Perm brokers ∧
      Ordered brokers := by
  unfold setBrokersFromSpec at h
  split at h
  · cases h
  rename_i bs hbs
  split at h
  · cases h
  rename_i hdup
  cases h
  exact ⟨bs, mapM_ok_iff.mp hbs, (sortById_perm bs).symm,
    ordered_of_duplicate (sortById_sorted bs) hdup⟩

/-- **The order of the specs does not matter.** -/
theorem setBrokersFromSpec_perm (h : setBrokersFromSpec specs = .ok brokers)
    (hp : specs'.Perm specs) : setBrokersFromSpec specs' = .ok brokers := by
  obtain ⟨bs, hparse, hperm, hord⟩ := setBrokersFromSpec_ok h
  obtain ⟨bs', hparse', hperm'⟩ := perm_comp_forall₂ hp hparse
  unfold setBrokersFromSpec
  rw [mapM_ok_iff.mpr hparse']
  simp only [hord.sortById_eq (hperm'.trans hperm), hord.duplicate_none]

theorem parseSpec_id {spec : Bytes} {b : BrokerEndpoint} (h : parseSpec spec = .ok b) :
    0 ≤ b.id.toInt := by
  unfold parseSpec at h
  split at h
  · cases h
  split at h
  · cases h
  rename_i id hid
  dsimp only at h
  split at h
  · cases h
  split at h
  · cases h
  · cases h
    exact of_decide_eq_true (Option.filter_eq_some_iff.mp hid).2

/-- The ids of the list, as the placement has them, are different. -/
theorem brokerIds_nodup (h : setBrokersFromSpec specs = .ok brokers) :
    (brokerIds brokers).Nodup := by
  obtain ⟨bs, hparse, hperm, hord⟩ := setBrokersFromSpec_ok h
  have hpos : ∀ b ∈ brokers, 0 ≤ b.id.toInt := fun b hb => by
    obtain ⟨spec, -, hspec⟩ := forall₂_exists_left hparse (hperm.mem_iff.mpr hb)
    exact parseSpec_id hspec
  refine pairwise_map.mpr (hord.imp_of_mem fun {a b} ha hb hlt he => ?_)
  have hlt : a.id.toInt < b.id.toInt := hlt
  have := hpos a ha
  omega

/-- A client keeps a list in the order of the ids as it is. -/
theorem putSorted_ordered (h : Ordered brokers) :
    brokers.foldl (putSorted fun b => b.id.toInt) [] = brokers := by
  have hput : ∀ done rest, Ordered (done ++ rest) →
      rest.foldl (putSorted fun b => b.id.toInt) done = done ++ rest := by
    intro done rest
    induction rest generalizing done with
    | nil => exact fun _ => (append_nil done).symm
    | cons b rest ih =>
      intro hsorted
      have hlast : ∀ x ∈ done, x.id.toInt < b.id.toInt := fun x hx =>
        (pairwise_append.mp hsorted).2.2 x hx b mem_cons_self
      rw [foldl_cons, putSorted_last hlast, ih _ (by simpa using hsorted)]
      simp
  exact hput [] brokers h

/-- **A client reads the list of the broker from its response.** -/
theorem refreshMetadata_payload {topics : List Protocol.TopicMetadata} (h : Ordered brokers)
    (hfew : Few brokers) (hhosts : ∀ b ∈ brokers, Short b.host) (htopics : Few topics)
    (htopic : ∀ t ∈ topics, t.WellFormed) :
    refreshMetadata (metadataPayload brokers topics) = some brokers := by
  have hreads := MetadataResponse.reads (m := ⟨⟨none, []⟩,
    (brokers.head?.map BrokerEndpoint.id).getD (-1), brokers, topics⟩)
    ⟨Nat.zero_le _, hfew, hhosts, htopics, htopic⟩
  unfold refreshMetadata metadataPayload
  rw [hreads.complete]
  exact congrArg some (putSorted_ordered h)

end Order

/-! ## 3. Placement -/

section Placement

variable {ids : List Nat} {config : TopicConfig} {replication topicOffset : Nat}

/-- Different places of a list without repetitions. -/
theorem getD_mod_inj (hn : ids.Nodup) {i j : Nat} (h : 0 < ids.length) :
    ids.getD (i % ids.length) 0 = ids.getD (j % ids.length) 0 ↔ i ≡ j [MOD ids.length] := by
  rw [getD_eq_getElem _ _ (Nat.mod_lt i h), getD_eq_getElem _ _ (Nat.mod_lt j h),
    hn.getElem_inj_iff]
  rfl

/-- The replicas of a partition: so many different brokers, and the leader is the first. -/
theorem placement_replicas (topicOffset p : Nat) (hn : ids.Nodup) (hpos : 0 < replication)
    (hle : replication ≤ ids.length) :
    (placement ids replication topicOffset p).replicas.length = replication ∧
      (placement ids replication topicOffset p).replicas.Nodup ∧
      (placement ids replication topicOffset p).replicas ⊆ ids ∧
      (placement ids replication topicOffset p).replicas.head? =
        some (placement ids replication topicOffset p).leader := by
  have hids : 0 < ids.length := by omega
  refine ⟨by simp [placement], ?_, fun b hb => ?_, ?_⟩
  · refine List.Nodup.map_on (fun r hr r' hr' he => ?_) nodup_range
    have hmod := (getD_mod_inj hn hids).mp he
    exact ((hmod.add_right_cancel' topicOffset).add_left_cancel' p).eq_of_lt_of_lt
      (by have := mem_range.mp hr; omega) (by have := mem_range.mp hr'; omega)
  · obtain ⟨r, -, rfl⟩ := mem_map.mp hb
    rw [getD_eq_getElem _ _ (Nat.mod_lt _ hids)]
    exact getElem_mem _
  · obtain ⟨n, rfl⟩ := Nat.exists_eq_succ_of_ne_zero hpos.ne'
    simp [placement, range_succ_eq_map]

/-- The number of partitions that a broker leads. -/
def leads (placed : List PartitionPlacement) (broker : Nat) : Nat :=
  (placed.filter fun a => a.leader = broker).length

theorem leads_placement (hn : ids.Nodup) (hpos : 0 < replication) {j : Nat} (hj : j < ids.length)
    (count : Nat) (hoff : topicOffset < ids.length) :
    leads ((List.range count).map (placement ids replication topicOffset)) ids[j] =
      Nat.count (· ≡ j + (ids.length - topicOffset) [MOD ids.length]) count := by
  have hids : 0 < ids.length := by omega
  have hleader : ∀ p, (placement ids replication topicOffset p).leader = ids[j] ↔
      p ≡ j + (ids.length - topicOffset) [MOD ids.length] := by
    intro p
    have hlead : (placement ids replication topicOffset p).leader =
        ids.getD ((p + topicOffset) % ids.length) 0 := by
      obtain ⟨n, rfl⟩ := Nat.exists_eq_succ_of_ne_zero hpos.ne'
      simp [placement, range_succ_eq_map]
    have hplace : ids[j] = ids.getD (j % ids.length) 0 := by
      rw [Nat.mod_eq_of_lt hj, getD_eq_getElem _ _ hj]
    have hshift : j ≡ j + (ids.length - topicOffset) + topicOffset [MOD ids.length] := by
      rw [show j + (ids.length - topicOffset) + topicOffset = j + ids.length by omega]
      exact (Nat.add_modEq_right).symm
    rw [hlead, hplace, getD_mod_inj hn hids]
    exact ⟨fun h => (h.trans hshift).add_right_cancel' topicOffset,
      fun h => (h.add_right topicOffset).trans hshift.symm⟩
  unfold leads
  rw [filter_map, length_map, ← length_filter_range]
  congr 2
  funext p
  exact decide_eq_decide.mpr (hleader p)

/-- **Two brokers lead equally many partitions**, up to one. -/
theorem leads_le (hn : ids.Nodup) (hpos : 0 < config.replicationFactor) {a b : Nat} (ha : a ∈ ids)
    (hb : b ∈ ids) :
    leads (computeAssignments ids config) a ≤ leads (computeAssignments ids config) b + 1 := by
  have hids : 0 < ids.length := length_pos_of_mem ha
  obtain ⟨i, hi, rfl⟩ := getElem_of_mem ha
  obtain ⟨j, hj, rfl⟩ := getElem_of_mem hb
  unfold computeAssignments
  rw [if_neg (by omega)]
  have hrep : 0 < min config.replicationFactor.toNat ids.length := by omega
  have hoff := Nat.mod_lt (crc32c config.name.toUTF8.toList).toNat hids
  rw [leads_placement hn hrep hi _ hoff, leads_placement hn hrep hj _ hoff]
  exact count_modEq_le hids _ _ _

end Placement

/-! ## 4. Every broker and every client -/

/-- What a topic gets on these brokers. -/
structure Spread (ids : List Nat) (config : TopicConfig) (placed : List PartitionPlacement) :
    Prop where
  partitions : placed.map PartitionPlacement.index = List.range config.partitionCount.toNat
  replicas : ∀ a ∈ placed, (a.replicas.length : Int) = config.replicationFactor ∧
    a.replicas.Nodup ∧ a.replicas ⊆ ids ∧ a.replicas.head? = some a.leader
  balanced : ∀ b ∈ ids, ∀ b' ∈ ids, leads placed b ≤ leads placed b' + 1

theorem computeAssignments_spread {ids : List Nat} {config : TopicConfig} (hn : ids.Nodup)
    (hpos : 0 < config.replicationFactor) (hle : config.replicationFactor ≤ ids.length) :
    Spread ids config (computeAssignments ids config) := by
  have heq : computeAssignments ids config = (List.range config.partitionCount.toNat).map
      (placement ids config.replicationFactor.toNat
        ((crc32c config.name.toUTF8.toList).toNat % ids.length)) := by
    unfold computeAssignments
    rw [if_neg (by omega), min_eq_left (by omega)]
  refine ⟨?_, fun a ha => ?_, fun b hb b' hb' => leads_le hn hpos hb hb'⟩
  · rw [heq, map_map]
    exact map_id _
  · rw [heq] at ha
    obtain ⟨p, -, rfl⟩ := mem_map.mp ha
    obtain ⟨hlen, hrest⟩ := placement_replicas
      ((crc32c config.name.toUTF8.toList).toNat % ids.length) p hn
      (show 0 < config.replicationFactor.toNat by omega) (by omega)
    exact ⟨by omega, hrest⟩

/-- **Brokers and clients agree**: from whatever order of the specs a broker has made its list, the
    placement of a topic is the same and balanced, and so is the coordinator of a group, also on a
    client that reads the list from a broker's METADATA response. -/
theorem cluster_agrees {specs : List Bytes} {brokers : List BrokerEndpoint}
    (topics : List Protocol.TopicMetadata) (h : setBrokersFromSpec specs = .ok brokers)
    (hfew : Few brokers) (hhosts : ∀ b ∈ brokers, Short b.host) (htopics : Few topics)
    (htopic : ∀ t ∈ topics, t.WellFormed) :
    (∀ config : TopicConfig, 0 < config.replicationFactor →
      config.replicationFactor ≤ brokers.length →
      Spread (brokerIds brokers) config (computeAssignments (brokerIds brokers) config)) ∧
    ∀ specs', specs'.Perm specs → ∃ brokers' known, setBrokersFromSpec specs' = .ok brokers' ∧
      refreshMetadata (metadataPayload brokers' topics) = some known ∧
      (∀ config, computeAssignments (brokerIds brokers') config =
        computeAssignments (brokerIds brokers) config) ∧
      ∀ groupId, coordinatorForGroup groupId brokers' = coordinatorForGroup groupId brokers ∧
        clientCoordinatorFor groupId known = coordinatorForGroup groupId brokers := by
  refine ⟨fun config hpos hle => ?_, fun specs' hp => ?_⟩
  · exact computeAssignments_spread (brokerIds_nodup h) hpos (by simpa [brokerIds] using hle)
  · obtain ⟨-, -, -, hord⟩ := setBrokersFromSpec_ok h
    refine ⟨brokers, brokers, setBrokersFromSpec_perm h hp,
      refreshMetadata_payload hord hfew hhosts htopics htopic, fun _ => rfl, fun groupId =>
        ⟨rfl, ?_⟩⟩
    unfold clientCoordinatorFor
    rw [hord.sortById_eq (List.Perm.refl brokers)]

/-- Three specs, not in the order of the ids. -/
def threeSpecs : List Bytes :=
  ["7@b:9092", "0@a:1", "30@[::1]:65535"].map MetadataFile.text

/-- The list three brokers make of them. -/
def threeBrokers : List BrokerEndpoint :=
  [⟨0, [97], 1⟩, ⟨7, [98], 9092⟩, ⟨30, [91, 58, 58, 49, 93], 65535⟩]

theorem three_brokers_agree : setBrokersFromSpec threeSpecs = .ok threeBrokers ∧
    Spread (brokerIds threeBrokers) ⟨"t", 4, 2, {}⟩
      (computeAssignments (brokerIds threeBrokers) ⟨"t", 4, 2, {}⟩) ∧
    ∃ known, refreshMetadata (metadataPayload threeBrokers []) = some known ∧
      ∀ groupId, clientCoordinatorFor groupId known = coordinatorForGroup groupId threeBrokers := by
  have h : setBrokersFromSpec threeSpecs = .ok threeBrokers := by decide +kernel
  obtain ⟨hspread, hagree⟩ := cluster_agrees [] h (show 3 ≤ _ by decide)
    (show ∀ b ∈ threeBrokers, b.host.length ≤ 65535 by decide) (Nat.zero_le _) (by simp)
  obtain ⟨brokers', known, hset, hknown, -, hcoord⟩ := hagree threeSpecs (List.Perm.refl _)
  rw [h, Except.ok.injEq] at hset
  subst hset
  exact ⟨h, hspread ⟨"t", 4, 2, {}⟩ (by decide) (by decide), known, hknown,
    fun groupId => (hcoord groupId).2⟩

/-- Two brokers, the first one with any host. -/
def hosted (host : Bytes) : List BrokerEndpoint := [⟨0, host, 1⟩, ⟨1, [98], 1⟩]

theorem parseSpec_zeros (n : Nat) :
    parseSpec (MetadataFile.text "0@" ++ zeros n ++ MetadataFile.text ":1") =
      .ok ⟨0, zeros n, 1⟩ := by
  have hspec : MetadataFile.text "0@" ++ zeros n ++ MetadataFile.text ":1" =
      48 :: 64 :: (zeros n ++ [58, 49]) := rfl
  have hid : (parseI32 [48]).filter (fun id => 0 ≤ id.toInt) = some 0 := by decide +kernel
  have hport : (parseNat [49]).filter (fun port => port ≠ 0 && port ≤ 65535) = some 1 := by
    decide +kernel
  have hrev : (zeros n ++ [58, 49]).reverse = 49 :: 58 :: zeros n := by simp [zeros]
  rw [hspec, parseSpec, if_neg (by simp [atSign])]
  have hfront : (48 :: 64 :: (zeros n ++ [58, 49])).takeWhile (· ≠ atSign) = [48] := by
    simp [atSign]
  have haddress : ((48 :: 64 :: (zeros n ++ [58, 49])).dropWhile (· ≠ atSign)).tail =
      zeros n ++ [58, 49] := by simp [atSign]
  have hback : (49 :: 58 :: zeros n).takeWhile (· ≠ colon) = [49] := by simp [colon]
  have hhost : ((49 :: 58 :: zeros n).dropWhile (· ≠ colon)).tail.reverse = zeros n := by
    simp [colon, zeros]
  simp only [hfront, hid, haddress, hrev]
  rw [if_neg (by simp [colon])]
  simp only [hback, reverse_singleton, hport, hhost]
  rfl

theorem setBrokersFromSpec_zeros (n : Nat) :
    setBrokersFromSpec [MetadataFile.text "0@" ++ zeros n ++ MetadataFile.text ":1",
      MetadataFile.text "1@b:1"] = .ok (hosted (zeros n)) := by
  have hother : parseSpec (MetadataFile.text "1@b:1") = .ok ⟨1, [98], 1⟩ := by decide +kernel
  unfold setBrokersFromSpec
  rw [mapM_ok_iff.mpr (.cons (parseSpec_zeros n) (.cons hother .nil))]
  rfl

/-- What follows the host of the first broker in the response. -/
def behindHost : Bytes := [1, 0] ++ BrokerEndpoint.encode ⟨1, [98], 1⟩ ++ [0, 0, 0, 0]

theorem refreshMetadata_long {host rest : Bytes} (hlen : host.length = 65536)
    (hhost : host = zeros 14 ++ rest) :
    refreshMetadata (metadataPayload (hosted host) []) = some [⟨0, [], 0⟩] := by
  have hreads := MetadataResponse.reads (m := ⟨⟨none, []⟩, 0, [⟨0, [], 0⟩, ⟨0, [], 0⟩], []⟩)
    ⟨Nat.zero_le _, show 2 ≤ _ by decide, by simp [Protocol.BrokerEndpoint.WellFormed, Short],
      Nat.zero_le _, by simp⟩ (rest ++ behindHost)
  have hput : Protocol.putString host = zeros 2 ++ (zeros 14 ++ rest) := by
    rw [Protocol.putString, hlen, ← hhost]
    rfl
  -- the payload is the one of two brokers without hosts, with more behind it
  have hbytes : metadataPayload (hosted host) [] = MetadataResponse.encode
      ⟨⟨none, []⟩, 0, [⟨0, [], 0⟩, ⟨0, [], 0⟩], []⟩ ++ (rest ++ behindHost) := by
    simp only [metadataPayload, MetadataResponse.encode, Protocol.putArray, hosted, flatMap_cons,
      flatMap_nil, BrokerEndpoint.encode, hput, flatten_cons, flatten_nil, append_nil, append_assoc,
      behindHost]
    rfl
  unfold refreshMetadata
  rw [hbytes, hreads]
  rfl

/-- **A host of 65536 bytes** is sent with the length 0, and its bytes are read as the rest of the
    list: the client knows broker 0 only, and asks it where the brokers ask broker 1. -/
theorem long_host_misread :
    setBrokersFromSpec [MetadataFile.text "0@" ++ zeros 65536 ++ MetadataFile.text ":1",
      MetadataFile.text "1@b:1"] = .ok (hosted (zeros 65536)) ∧
    refreshMetadata (metadataPayload (hosted (zeros 65536)) []) = some [⟨0, [], 0⟩] ∧
    coordinatorForGroup [99] (hosted (zeros 65536)) = 1 ∧
    clientCoordinatorFor [99] [⟨0, [], 0⟩] = 0 := by
  have hcrc : (crc32c [99]).toNat % 2 = 1 := by decide +kernel
  have hhost : zeros 65536 = zeros 14 ++ zeros 65522 := by
    show replicate (14 + 65522) 0 = _
    exact replicate_append_replicate.symm
  refine ⟨setBrokersFromSpec_zeros _, refreshMetadata_long (length_zeros _) hhost, ?_,
    by decide +kernel⟩
  generalize zeros 65536 = host
  show (((hosted host)[(crc32c [99]).toNat % 2]?).map BrokerEndpoint.id).getD (-1) = 1
  rw [hcrc]
  rfl

end Membership

end PulseLog

/-
  Subject:   What a FETCH returns (Broker::ExecuteFetch in src/broker/request_handler.cc, behind
             the decoding and the lookup of the partition).

  The read may run past the visible end. Its records are then parsed again, to find where the
  visible ones end.

  * **`fetch_returns_stored`** -- the answer is `Exact` if and only if the records that are parsed
    again parse where they stand in the read, as records that parse on their own do;
  * `fetch_loses_record` -- ParseRecord adds lengths modulo 2^64, so it accepts in a produce batch
    what it refuses at the front of a buffer; a fetch then announces a record and returns none.
-/
import PulseLog.Protocol.Messages
import PulseLog.Protocol.RecordWrite
import PulseLog.Storage.ReadBudget

namespace PulseLog

open List

namespace Broker

/-! ## 1. The handler -/

/-- `kEarliestOffset`. -/
def earliestOffset : Int := -2

/-- `kLatestOffset`. -/
def latestOffset : Int := -1

/-- Where the records end that a fetch may see. -/
def visibleEnd (l : PartitionLog) (highWaterMark : Int) (isolation : IsolationLevel) : Int :=
  match isolation with
  | .readReplicated => highWaterMark
  | .readUncommitted => l.logEndOffset

/-- The offset a fetch starts at. -/
def fetchStart (l : PartitionLog) (highWaterMark : Int) (fetch : Protocol.FetchRequest) : Int :=
  if fetch.fetchOffset.toInt = earliestOffset then l.logStartOffset
  else if fetch.fetchOffset.toInt = latestOffset then visibleEnd l highWaterMark fetch.isolation
  else fetch.fetchOffset.toInt

/-- The loop that trims a read: the position behind at most `n` more records. -/
def trimLoop : Nat → RecordIterator → Nat → Nat
  | 0, _, visibleBytes => visibleBytes
  | n + 1, it, visibleBytes =>
    match it.next with
    | (none, _) => visibleBytes
    | (some _, it') => trimLoop n it' it'.pos

/-- `FetchResponse`, with offsets as the log counts them. -/
structure FetchAnswer where
  highWaterMark : Int
  logStartOffset : Nat
  baseOffset : Int
  recordCount : Nat
  records : Bytes
  deriving Repr, DecidableEq

/-- `ExecuteFetch`, for the partition `name` with the log `l`. -/
def executeFetch (l : PartitionLog) (w : World) (highWaterMark : Int) (name : String)
    (fetch : Protocol.FetchRequest) : PulseLog.Outcome Status FetchAnswer :=
  let start := fetchStart l highWaterMark fetch
  if start > l.logEndOffset then
    .error (.outOfRange s!"offset {start} is beyond the log end {l.logEndOffset} for {name}")
  else if start < l.logStartOffset then
    .error (.outOfRange
      s!"offset {start} was deleted by retention; {name} now starts at {l.logStartOffset}")
  else
    let visible := visibleEnd l highWaterMark fetch.isolation
    if start < visible then
      match l.read w start.toNat fetch.maxBytes.toNat with
      | .error e => .error e
      | .halted => .halted
      | .ok read =>
        if start + read.recordCount > visible then
          let visibleRecords := (visible - start).toNat
          let visibleBytes := trimLoop visibleRecords (.make read.out false) 0
          .ok ⟨highWaterMark, l.logStartOffset, start, visibleRecords, read.out.take visibleBytes⟩
        else .ok ⟨highWaterMark, l.logStartOffset, start, read.recordCount, read.out⟩
    else .ok ⟨highWaterMark, l.logStartOffset, start, 0, []⟩

/-! ## 2. Trimming -/

/-- **The first `n` records of a buffer parse where they stand.** -/
def InPlace (out : Bytes) (n : Nat) : Prop :=
  ∀ i < n, (parseRecord out (splitRecords i out).flatten.length false).isOk = true

instance (out : Bytes) (n : Nat) : Decidable (InPlace out n) :=
  inferInstanceAs (Decidable (∀ i < n, _))

/-- The loop comes to the end of the records if and only if each of them parses at its place. -/
theorem trimLoop_run {rs : List Bytes} (hframed : ∀ r ∈ rs, Framed r) {x y : Bytes} {data : Bytes}
    (hdata : data = x ++ rs.flatten ++ y) (k : Nat) :
    trimLoop rs.length ⟨data, false, x.length, k, none⟩ x.length ≤ x.length + rs.flatten.length ∧
    (trimLoop rs.length ⟨data, false, x.length, k, none⟩ x.length = x.length + rs.flatten.length ↔
      ∀ i < rs.length,
        (parseRecord data (x.length + (rs.take i).flatten.length) false).isOk = true) := by
  induction rs generalizing x k with
  | nil => simp [trimLoop]
  | cons r rs ih =>
    have hr := hframed r mem_cons_self
    have hpos := hr.pos
    have hparts : data = x ++ r ++ (rs.flatten ++ y) := by
      rw [hdata, flatten_cons]
      simp only [append_assoc]
    have hsizes : data.length = x.length + r.length + (rs.flatten ++ y).length := by
      rw [hparts, length_append, length_append]
    rw [length_cons, trimLoop]
    cases hparse : parseRecord data x.length false with
    | error e =>
      have hnext : (RecordIterator.next ⟨data, false, x.length, k, none⟩).1 = none := by
        simp only [RecordIterator.next]
        rw [if_neg (by omega), hparse]
      rcases hstep : RecordIterator.next ⟨data, false, x.length, k, none⟩ with ⟨seen, it⟩
      rw [hstep] at hnext
      rw [show seen = none from hnext]
      dsimp only
      refine ⟨Nat.le_add_right _ _, fun h => ?_, fun h => ?_⟩
      · rw [flatten_cons, length_append] at h
        omega
      · have := h 0 (Nat.zero_lt_succ _)
        rw [take_zero, flatten_nil, length_nil, Nat.add_zero, hparse] at this
        cases this
    | ok found =>
      obtain ⟨view, next⟩ := found
      obtain ⟨r', hcut, hnext, hle, hf, -⟩ := parseRecord_ok hparse
      obtain rfl : r' = r := by
        have hx : data.take x.length = x := by rw [hparts, append_assoc, take_left]
        rw [hx] at hcut
        have htail := hcut.symm.trans hparts
        rw [append_assoc, append_assoc] at htail
        exact (framed_append_inj hf hr (append_cancel_left htail)).1
      have hrest := ih (fun s hs => hframed s (mem_cons_of_mem r' hs)) (x := x ++ r')
        (by rw [hparts]; simp only [append_assoc]) (k + 1)
      rw [length_append, hnext] at hrest
      rw [RecordIterator.next_of_parse rfl (by dsimp only; omega) hparse]
      dsimp only
      rw [flatten_cons, length_append, ← Nat.add_assoc, hnext]
      refine ⟨hrest.1, hrest.2.trans ⟨fun h i hi => ?_, fun h i hi => ?_⟩⟩
      · cases i with
        | zero =>
          rw [take_zero, flatten_nil, length_nil, Nat.add_zero, hparse]
          rfl
        | succ i =>
          rw [take_succ_cons, flatten_cons, length_append, ← Nat.add_assoc, hnext]
          exact h i (by omega)
      · have := h (i + 1) (by omega)
        rwa [take_succ_cons, flatten_cons, length_append, ← Nat.add_assoc, hnext] at this

theorem splitRecords_take {rs : List Bytes} (h : ∀ r ∈ rs, Framed r) {i : Nat}
    (hi : i ≤ rs.length) : splitRecords i rs.flatten = rs.take i := by
  have hsplit : rs.flatten = (rs.take i).flatten ++ (rs.drop i).flatten := by
    rw [← flatten_append, take_append_drop]
  have hcut : splitRecords (rs.take i).length ((rs.take i).flatten ++ (rs.drop i).flatten) =
      rs.take i := splitRecords_append (fun r hr => h r (mem_of_mem_take hr)) _
  rwa [length_take, Nat.min_eq_left hi, ← hsplit] at hcut

/-- **Trimming keeps exactly the first records** if and only if they parse where they stand. -/
theorem take_trimLoop_iff {rs : List Bytes} (hframed : ∀ r ∈ rs, Framed r) {n : Nat}
    (hn : n ≤ rs.length) :
    rs.flatten.take (trimLoop n (.make rs.flatten false) 0) = (rs.take n).flatten ↔
      InPlace rs.flatten n := by
  have hsplit : rs.flatten = (rs.take n).flatten ++ (rs.drop n).flatten := by
    rw [← flatten_append, take_append_drop]
  obtain ⟨hle, hiff⟩ := trimLoop_run (x := []) (fun r hr => hframed r (mem_of_mem_take hr)) hsplit 0
  rw [length_take, Nat.min_eq_left hn, length_nil, Nat.zero_add] at hle hiff
  have htotal := congrArg List.length hsplit
  rw [length_append] at htotal
  have hlength : rs.flatten.take (trimLoop n (.make rs.flatten false) 0) = (rs.take n).flatten ↔
      trimLoop n (.make rs.flatten false) 0 = (rs.take n).flatten.length := by
    constructor
    · intro h
      have := congrArg List.length h
      rw [length_take] at this
      have hle' : trimLoop n (.make rs.flatten false) 0 ≤ (rs.take n).flatten.length := hle
      omega
    · intro h
      rw [h]
      conv_lhs => rw [hsplit]
      rw [take_left]
  refine hlength.trans (hiff.trans ⟨fun h i hi => ?_, fun h i hi => ?_⟩)
  · have := h i hi
    rwa [Nat.zero_add, take_take, Nat.min_eq_left (le_of_lt hi), ← splitRecords_take hframed
      (by omega)] at this
  · have := h i hi
    rwa [splitRecords_take hframed (by omega), ← Nat.min_eq_left (le_of_lt hi), ← take_take,
      ← Nat.zero_add (length _)] at this

/-- Records that parse on their own parse wherever they stand. -/
theorem inPlace_of_alone {rs : List Bytes} (halone : ∀ r ∈ rs, ParsesAlone r)
    (hlen : rs.flatten.length < 2 ^ 64) {n : Nat} (hn : n ≤ rs.length) : InPlace rs.flatten n := by
  intro i hi
  obtain ⟨r, tail, htail⟩ : ∃ r tail, rs.drop i = r :: tail := by
    rw [drop_eq_getElem_cons (by omega)]
    exact ⟨_, _, rfl⟩
  have hdata : rs.flatten = (rs.take i).flatten ++ r ++ tail.flatten := by
    rw [append_assoc, ← flatten_cons, ← htail, ← flatten_append, take_append_drop]
  have hr := halone r (mem_of_mem_drop (htail ▸ mem_cons_self))
  obtain ⟨view, hparse, -⟩ := parseRecord_of_parsesAlone (v := false) (x := (rs.take i).flatten) hr
    (fun h => by simp at h) (by
      rw [hdata] at hlen
      simp only [length_append] at hlen
      omega)
  rw [splitRecords_take (fun s hs => (halone s hs).framed) (by omega)]
  rw [← hdata] at hparse
  rw [hparse]
  rfl

/-! ## 3. What a fetch returns -/

/-- **The answer of a fetch is exact**: the stored bytes of the records from its base offset on and
    nothing more, all of them visible, and at least one if there is one and the budget is not
    zero. -/
structure Exact (segs : List SegView) (visible : Int) (maxBytes : Nat) (answer : FetchAnswer) :
    Prop where
  stored : ∃ rs : List Bytes, answer.recordCount = rs.length ∧ answer.records = rs.flatten ∧
    ∀ i r, rs[i]? = some r → contents segs (answer.baseOffset.toNat + i) = some r
  below : 0 < answer.recordCount → answer.baseOffset + answer.recordCount ≤ visible
  progress : answer.baseOffset < visible → 0 < maxBytes → 0 < answer.recordCount

section Fetch

variable {P : Nat → Bytes → Prop} {segs : List SegView} {l : PartitionLog} {w : World}

theorem visibleEnd_le {highWaterMark : Int} (hmark : highWaterMark ≤ l.logEndOffset)
    (isolation : IsolationLevel) : visibleEnd l highWaterMark isolation ≤ l.logEndOffset := by
  cases isolation with
  | readReplicated => exact hmark
  | readUncommitted => exact le_rfl

/-- What a read returns, record by record. -/
theorem read_stored (hlog : LogReadable P segs l w) (hmeet : segs.IsChain Adjacent)
    (hframed : ∀ o r, P o r → Framed r) {o maxBytes : Nat} {read : PartitionLog.LogReadResult}
    (hs : l.logStartOffset ≤ o) (he : o < l.logEndOffset) (hread : l.read w o maxBytes = .ok read) :
    ∃ rs : List Bytes, read.recordCount = rs.length ∧ read.out = rs.flatten ∧
      (∀ r ∈ rs, Framed r) ∧
      (∀ i r, rs[i]? = some r → contents segs (o + i) = some r) ∧
        (0 < maxBytes → 0 < rs.length) := by
  obtain ⟨rs, hrun, rfl, hsome⟩ := read_run hlog hmeet hs (le_of_lt he) hread
  exact ⟨rs, rfl, rfl, hrun.framed (fun o r hr => hframed o r hr.1), fun i x hx => (hrun.get hx).2,
    fun hm => length_pos_iff.mpr (hsome he hm)⟩

/-- The records a fetch trims parse where the read has put them. -/
def TrimsInPlace (l : PartitionLog) (w : World) (highWaterMark : Int)
    (fetch : Protocol.FetchRequest) : Prop :=
  ∀ read, l.read w (fetchStart l highWaterMark fetch).toNat fetch.maxBytes.toNat = .ok read →
    visibleEnd l highWaterMark fetch.isolation <
      fetchStart l highWaterMark fetch + read.recordCount →
    InPlace read.out (visibleEnd l highWaterMark fetch.isolation -
      fetchStart l highWaterMark fetch).toNat

/-- The stored records from an offset on are what they are. -/
theorem eq_of_contents {o : Nat} {rs rs' : List Bytes} (hlen : rs.length = rs'.length)
    (h : ∀ i r, rs[i]? = some r → contents segs (o + i) = some r)
    (h' : ∀ i r, rs'[i]? = some r → contents segs (o + i) = some r) : rs = rs' := by
  refine ext_getElem hlen fun i hi hi' => ?_
  have h1 := h i _ (getElem?_eq_getElem hi)
  rw [h' i _ (getElem?_eq_getElem hi')] at h1
  exact (Option.some.inj h1).symm

/-- **A FETCH answered OK is exact** if and only if its read is not trimmed, or the visible records
    parse where the read has put them; for every high-water mark up to the log end. -/
theorem fetch_returns_stored (hlog : LogReadable P segs l w) (hmeet : segs.IsChain Adjacent)
    (hframed : ∀ o r, P o r → Framed r) {highWaterMark : Int}
    (hmark : highWaterMark ≤ l.logEndOffset) {name : String} {fetch : Protocol.FetchRequest}
    {answer : FetchAnswer} (h : executeFetch l w highWaterMark name fetch = .ok answer) :
    answer.baseOffset = fetchStart l highWaterMark fetch ∧
      (Exact segs (visibleEnd l highWaterMark fetch.isolation) fetch.maxBytes.toNat answer ↔
        (fetchStart l highWaterMark fetch < visibleEnd l highWaterMark fetch.isolation →
          TrimsInPlace l w highWaterMark fetch)) := by
  have hvis := visibleEnd_le hmark fetch.isolation
  unfold executeFetch at h
  dsimp only at h
  unfold TrimsInPlace
  set start := fetchStart l highWaterMark fetch
  set visible := visibleEnd l highWaterMark fetch.isolation
  split at h
  · cases h
  split at h
  · cases h
  split at h
  swap
  · -- nothing is visible
    rename_i hnot
    rw [← PulseLog.Outcome.ok.inj h]
    refine ⟨rfl, iff_of_true ?_ fun hlt => absurd hlt hnot⟩
    exact ⟨⟨[], rfl, rfl, by simp⟩, fun h0 => absurd h0 (lt_irrefl 0), fun hlt _ => absurd hlt hnot⟩
  rename_i hlt
  split at h
  · cases h
  · cases h
  rename_i read hread
  obtain ⟨rs, hcount, hout, hfr, hget, hsome⟩ := read_stored hlog hmeet hframed (by omega)
    (by omega) hread
  have hreads : (start < visible → ∀ read', l.read w start.toNat fetch.maxBytes.toNat = .ok read' →
      visible < start + read'.recordCount → InPlace read'.out (visible - start).toNat) ↔
      (visible < start + rs.length → InPlace rs.flatten (visible - start).toNat) := by
    rw [← hcount, ← hout]
    refine ⟨fun hall => hall hlt read hread, fun hone _ read' hread' => ?_⟩
    obtain rfl : read = read' := PulseLog.Outcome.ok.inj (hread.symm.trans hread')
    exact hone
  rw [hreads]
  rw [hcount, hout] at h
  split at h
  · -- the read goes beyond what is visible
    rename_i hover
    have hn : (visible - start).toNat ≤ rs.length := by omega
    have htaken : ∀ i r, (rs.take (visible - start).toNat)[i]? = some r →
        contents segs (start.toNat + i) = some r := fun i r hr => by
      rw [getElem?_take] at hr
      split at hr
      · exact hget i r hr
      · cases hr
    rw [← PulseLog.Outcome.ok.inj h]
    refine ⟨rfl, ?_⟩
    rw [← take_trimLoop_iff hfr hn]
    constructor
    · rintro ⟨⟨rs', hlen', hrecords, hget'⟩, -, -⟩ -
      rw [eq_of_contents (by rw [length_take, ← hlen', Nat.min_eq_left hn]) htaken hget']
      exact hrecords
    · intro htrim
      refine ⟨⟨rs.take (visible - start).toNat, ?_, htrim hover, htaken⟩, fun _ => ?_,
        fun _ _ => ?_⟩
      · rw [length_take, Nat.min_eq_left hn]
      · dsimp only
        omega
      · dsimp only
        omega
  · rename_i hwithin
    rw [← PulseLog.Outcome.ok.inj h]
    refine ⟨rfl, iff_of_true ?_ fun hover => absurd hover hwithin⟩
    exact ⟨⟨rs, rfl, rfl, hget⟩, fun _ => by dsimp only; omega, fun _ => hsome⟩

end Fetch

/-- Three produce requests of one record each; every record gets a segment of its own. -/
def threeRecords : List LogShape.Event :=
  List.replicate 3 (.call (.append (.assign bareRecord 1)) ⟨[], [], []⟩)

theorem threeRecords_ok : ∀ ev ∈ threeRecords, LogShape.EventOk ev := by
  have hbare : ∀ r ∈ [bareRecord], ParsesAlone r ∧ r.length ≤ maxRecordBytes := by
    simpa using ⟨bareRecord_alone, bareRecord_length_le⟩
  intro ev hev
  rw [eq_of_mem_replicate hev]
  exact ⟨rfl, by decide +kernel, fun _ _ _ h => sound_assign hbare h⟩

/-- A fetch of the replicated records, from the start of the log. -/
def fetchReplicated (offset : Int64) : Protocol.FetchRequest :=
  ⟨[116], 0, offset, 1000, 0, 0, .readReplicated⟩

theorem threeRecords_fetched : ∃ l w segs answer,
    LogShape.run (smallSegments false) ⟨[], [], []⟩ threeRecords = some (l, w) ∧
      executeFetch l w 2 "t-0" (fetchReplicated (-2)) = .ok answer ∧ answer.recordCount = 2 ∧
      Exact segs 2 1000 answer := by
  have hrun : (LogShape.run (smallSegments false) ⟨[], [], []⟩ threeRecords).map
      (fun t => (t.1.logStartOffset, t.1.logEndOffset,
        (executeFetch t.1 t.2 2 "t-0" (fetchReplicated (-2))).value?.map FetchAnswer.recordCount,
        (t.1.read t.2 0 1000).value?.map fun read => decide (InPlace read.out 2))) =
      some (0, 3, some 2, some true) := by decide +kernel
  obtain ⟨⟨l, w⟩, hl, hpair⟩ := Option.map_eq_some_iff.mp hrun
  simp only [Prod.mk.injEq] at hpair
  obtain ⟨hstart, hend, hfetch, hplace⟩ := hpair
  obtain ⟨answer, hanswer, hcount⟩ := Option.map_eq_some_iff.mp hfetch
  obtain ⟨e, segs, g, hinv⟩ := LogShape.promised_run rfl threeRecords_ok hl
  have hread := hinv.readable id (fun _ _ hx => le_of_eq hx)
  have hmark : (2 : Int) ≤ l.logEndOffset := by
    rw [hend]
    decide
  have hok := PulseLog.Outcome.value?_eq_some hanswer
  have hfrom : fetchStart l 2 (fetchReplicated (-2)) = 0 := by
    show (l.logStartOffset : Int) = 0
    rw [hstart]
    rfl
  refine ⟨l, w, segs ++ [g], answer, hl, hok, hcount, (fetch_returns_stored hread
    hinv.listing.chain (fun _ _ hr => hr.1.alone.framed) hmark hok).2.mpr fun _ read hgot _ => ?_⟩
  rw [hfrom] at hgot ⊢
  obtain ⟨read', hread', htrue⟩ := Option.map_eq_some_iff.mp hplace
  have hsame := PulseLog.Outcome.value?_eq_some hread'
  rw [show l.read w 0 1000 = _ from hgot] at hsame
  obtain rfl := PulseLog.Outcome.ok.inj hsame
  exact of_decide_eq_true htrue

/-! ## 4. A record that parses only behind another one -/

/-- A record of 36 bytes whose key length is 2^64 - 46 and whose value length is 46. Behind at least
    ten other bytes the sums of `ParseRecord` wrap and fit. -/
def wrappingRecord : Bytes :=
  storeLe 4 32 ++ zeros 21 ++ writeVarUInt (2 ^ 64 - 45) ++ writeVarUInt 46

/-- Options with segments of 1024 bytes. -/
def wideSegments : LogOptions := { smallSegments false with segmentBytes := 1024 }

/-- A batch of two records, the second one with such lengths, and another record behind it. -/
def wrappingBatch : List LogShape.Event :=
  [.call (.append (.assign (bareRecord ++ wrappingRecord) 2)) ⟨[], [], []⟩,
    .call (.append (.assign bareRecord 1)) ⟨[], [], []⟩]

/-- **A fetch announces a record and returns none.** The produce batch is accepted; a fetch of the
    record at offset 1, with the high-water mark behind it, finds it at the front of its buffer,
    where it does not parse. -/
theorem fetch_loses_record : ∃ l w,
    LogShape.run wideSegments ⟨[], [], []⟩ wrappingBatch = some (l, w) ∧ l.logEndOffset = 3 ∧
      executeFetch l w 2 "t-0" (fetchReplicated 1) = .ok ⟨2, 0, 1, 1, []⟩ := by
  have hrun : (LogShape.run wideSegments ⟨[], [], []⟩ wrappingBatch).map
      (fun t => (t.1.logEndOffset, executeFetch t.1 t.2 2 "t-0" (fetchReplicated 1))) =
        some (3, .ok ⟨2, 0, 1, 1, []⟩) := by decide +kernel
  obtain ⟨⟨l, w⟩, hl, hpair⟩ := Option.map_eq_some_iff.mp hrun
  obtain ⟨hend, hfetch⟩ := Prod.mk.inj hpair
  exact ⟨l, w, hl, hend, hfetch⟩

end Broker

end PulseLog

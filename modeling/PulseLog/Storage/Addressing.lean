/-
  Subject:   Whether `PositionFor` finds every record that the append paths store.

  `ParseRecord` bounds the length field of a record by `kMaxRecordBytes`, `PositionFor` the record
  with its length field. The largest records are stored and not passed.

  * `positionFor_linear_iff` -- in a log built by appends, `PositionFor` agrees with a linear scan
    for every offset of a segment if and only if the segment is `Addressable`;
  * `position_refused` -- a follower stores a batch of two records and cannot look up the second.
-/
import PulseLog.Protocol.RecordWrite
import PulseLog.Storage.Flushed

namespace PulseLog

open List

/-! ## 1. The lookup and the scan -/

/-- A scan over `n` records from the start of a log file. -/
def linearScan (data : Bytes) (n : Nat) : Nat := (fun p => p + (loadLe 4 data p + 4))^[n] 0

/-- **No record is lost to a lookup**: where a record exceeds `kMaxRecordBytes` and the block of a
    lookup, the record behind it has an index entry. -/
def Addressable (s : Segment) (data : Bytes) : Prop :=
  ∀ i, s.baseOffset + i + 1 < s.nextOffset →
    max maxRecordBytes s.blockSize < loadLe 4 data (linearScan data i) + 4 →
    ∃ e ∈ s.index.entries, e.relativeOffset = i + 1

section Lookup

variable {recs : List Bytes} {s : Segment} {w : World}

theorem linearScan_eq (hf : ∀ r ∈ recs, Framed r) (tail : Bytes) {i : Nat} (hi : i ≤ recs.length) :
    linearScan (recs.flatten ++ tail) i = startOf recs i := by
  induction i with
  | zero => rw [startOf_zero, linearScan, Function.iterate_zero_apply]
  | succ i ih =>
    obtain ⟨r, hr⟩ : ∃ r, recs[i]? = some r := ⟨_, getElem?_eq_getElem (by omega)⟩
    have hprev := ih (by omega)
    unfold linearScan at hprev ⊢
    rw [Function.iterate_succ_apply', hprev, lengthField_at hr (hf r (mem_of_getElem? hr)),
      startOf_succ hr]

/-- A scan that ends has passed no record that is too large. -/
theorem seekLoop_passes (tail : Bytes) (hf : ∀ r ∈ recs, Framed r) {base t : Nat}
    (ht : t ≤ recs.length) {fuel blockSize i p : Nat} (hit : i ≤ t) (hb : 4 ≤ blockSize)
    (h : Segment.seekLoop (recs.flatten ++ tail) recs.flatten.length (base + t) fuel blockSize
      (startOf recs i) (base + i) = .ok p) {k : Nat} {r : Bytes} (hik : i ≤ k) (hkt : k < t)
    (hr : recs[k]? = some r) : r.length ≤ max maxRecordBytes blockSize := by
  induction fuel generalizing blockSize i with
  | zero => exact nomatch h
  | succ fuel ih =>
    obtain ⟨r', hr'⟩ : ∃ r', recs[i]? = some r' := ⟨_, getElem?_eq_getElem (by omega)⟩
    rcases seekLoop_round tail hf base fuel ht (by omega) hb hr' with
      ⟨j, h1, h2, h3, he⟩ | ⟨hbig, ⟨hmax, he⟩ | ⟨hmax, er, he⟩⟩ <;> rw [he] at h
    · by_cases hkj : k < j
      · -- the block held the record
        have hsucc := startOf_succ hr
        have hle := startOf_mono recs (show k + 1 ≤ j by omega)
        have hge := startOf_mono recs hik
        omega
      · exact ih h2 hb h (by omega)
    · have := ih hit (by omega) h hik
      omega
    · exact nomatch h

theorem four_le_blockSize (s : Segment) : 4 ≤ s.blockSize := by
  unfold Segment.blockSize
  omega

/-- A lookup that returns has passed no record that is too large. -/
theorem positionFor_passes (h : Readable recs s w) {i j p : Nat} (hi : i < recs.length)
    (hstart : s.seekStart (s.baseOffset + i) = (startOf recs j, s.baseOffset + j))
    (hp : s.positionFor w (s.baseOffset + i) = .ok p) {k : Nat} {r : Bytes} (hjk : j ≤ k)
    (hki : k < i) (hr : recs[k]? = some r) : r.length ≤ max maxRecordBytes s.blockSize := by
  obtain ⟨tail, htail⟩ := h.data
  unfold Segment.positionFor at hp
  rw [if_neg (by omega), if_neg (by rw [h.next]; omega), hstart] at hp
  rw [if_neg (by omega), htail, h.ends] at hp
  exact seekLoop_passes tail h.framed (by omega) (by omega) (four_le_blockSize s) hp hjk hki hr

/-- **The lookup agrees with the scan** for every offset of the segment, if and only if the segment
    is addressable. -/
theorem Readable.positionFor_iff (h : Readable recs s w) :
    (∀ o, s.baseOffset ≤ o → o < s.nextOffset →
      s.positionFor w o = .ok (linearScan (w.bytes s.logPath) (o - s.baseOffset))) ↔
    Addressable s (w.bytes s.logPath) := by
  obtain ⟨tail, htail⟩ := h.data
  have hscan : ∀ {i}, i ≤ recs.length → linearScan (w.bytes s.logPath) i = startOf recs i := by
    intro i hi
    rw [htail, linearScan_eq h.framed tail hi]
  have hsize : ∀ {i r}, recs[i]? = some r →
      loadLe 4 (w.bytes s.logPath) (linearScan (w.bytes s.logPath) i) + 4 = r.length := by
    intro i r hr
    have hi := (List.getElem?_eq_some_iff.mp hr).1
    rw [hscan (by omega), htail, lengthField_at hr (h.framed r (mem_of_getElem? hr))]
  have hnext := h.next
  constructor
  · intro hall i hi hbig
    obtain ⟨r, hr⟩ : ∃ r, recs[i]? = some r := ⟨_, getElem?_eq_getElem (by omega)⟩
    rw [hsize hr] at hbig
    obtain ⟨j, hj, hstart, hentry, -⟩ := seekStart_eq h (i + 1)
    by_cases hij : j = i + 1
    · rcases hentry with h0 | ⟨e, he, hrel⟩
      · omega
      · exact ⟨e, he, hrel.trans hij⟩
    · have := positionFor_passes h (by omega) hstart (hall _ (by omega) (by omega))
        (by omega) (by omega) hr
      omega
  · intro haddr o ho hlt
    obtain ⟨i, rfl⟩ := Nat.exists_eq_add_of_le ho
    have hi : i < recs.length := by omega
    rw [Nat.add_sub_cancel_left, hscan hi.le]
    obtain ⟨j, -, hstart, -, hfloor⟩ := seekStart_eq h i
    -- a record that is too large has an entry behind it, and the scan starts there at least
    have hpass : ∀ k r, (s.seekStart (s.baseOffset + i)).2 ≤ s.baseOffset + k → k < i →
        recs[k]? = some r → r.length ≤ max maxRecordBytes s.blockSize := by
      intro k r hk hki hr
      by_contra hbig
      obtain ⟨e, he, hrel⟩ := haddr k (by omega) (by rw [hsize hr]; omega)
      have := hfloor e he (by omega)
      rw [hstart] at hk
      omega
    obtain ⟨p, hp, rfl⟩ := (positionFor_gives_from h hi (fun _ => hpass)).ok
    exact hp

end Lookup

/-! ## 2. Logs built by appends -/

namespace Addressing

open LogRun

/-- A fresh log, and one append after the other. -/
def appends (env : Env) (bs : List (Batch × Env)) : List Event :=
  .reopen env :: bs.map (fun b => .call (.append b.1) b.2)

section Runs

variable {options : LogOptions} {env : Env} {bs : List (Batch × Env)} {l : PartitionLog}

theorem inv_appends (henv : env.Calm) (hbs : ∀ b ∈ bs, b.2.Calm) :
    Flushed.Inv (Flushed.run options (appends env bs)) := by
  refine Along.foldl
    (Flushed.inv_step options) ⟨⟨henv, fun _ => ?_⟩, ?_⟩ ⟨[], diskLog_empty ⟨[], [], []⟩⟩
  · exact Flushed.allSynced_of_entries fun x hx => nomatch hx
  · refine (along_of_forall (S := fun ev => ∃ b env, ev = .call (.append b) env ∧ env.Calm)
      fun ev hev => ?_).mono ?_
    · obtain ⟨b, hb, rfl⟩ := mem_map.mp hev
      exact ⟨b.1, b.2, rfl, hbs b hb⟩
    · rintro p ev ⟨b, env', rfl, hcalm⟩
      exact ⟨hcalm, trivial⟩

/-- The segments of a log: read as their records say, or empty. -/
theorem Holds.readable {fl : Nat} {gs : List SegView} {ss : List Segment} {w : World}
    (h : Holds Flushed.mode fl w gs ss) :
    ∀ s ∈ ss, (∃ recs, Readable recs s w) ∨ s.nextOffset = s.baseOffset := by
  induction h with
  | nil => simp
  | seg h _ ih =>
    intro s hs
    rcases mem_cons.mp hs with rfl | hs
    · exact .inl ⟨_, h.holds.toReadable⟩
    · exact ih s hs
  | idle _ _ _ hn _ ih =>
    intro s hs
    rcases mem_cons.mp hs with rfl | hs
    · exact .inr hn
    · exact ih s hs

/-- **Every record of a log is found where it lies**: in a log built by appends, the lookups in a
    segment agree with the scan from its start, and none fails, if and only if the segment is
    addressable. -/
theorem positionFor_linear_iff (henv : env.Calm) (hbs : ∀ b ∈ bs, b.2.Calm)
    (hl : (Flushed.run options (appends env bs)).log = some l) :
    ∀ s ∈ l.segments, (∀ o, s.baseOffset ≤ o → o < s.nextOffset →
        s.positionFor (Flushed.run options (appends env bs)).world o =
          .ok (linearScan ((Flushed.run options (appends env bs)).world.bytes s.logPath)
            (o - s.baseOffset))) ↔
      Addressable s ((Flushed.run options (appends env bs)).world.bytes s.logPath) := by
  intro s hs
  have hinv : Flushed.Inv (Flushed.run options (appends env bs)) := inv_appends henv hbs
  rw [Flushed.Inv, hl] at hinv
  obtain ⟨e, segs, g, h⟩ := hinv
  obtain ⟨olds, a, hsegs, -, hold, ha⟩ := h.objects
  rw [hsegs] at hs
  rcases Holds.readable (hold.append (.seg ha .nil)) s hs with ⟨recs, hr⟩ | hnone
  · exact hr.positionFor_iff
  · constructor
    · intro _ i hi
      omega
    · omega

end Runs

/-- A log with two small records in its segment. -/
def smallBatch : List Event :=
  appends ⟨[], [], []⟩ [(.assign (bareRecord ++ bareRecord) 2, ⟨[], [], []⟩)]

/-- Both records are looked up, the second by a scan from the first. -/
theorem smallBatch_found : ∃ l s, (Flushed.run (smallSegments false) smallBatch).log = some l ∧
    s ∈ l.segments ∧ s.nextOffset = 2 ∧ ∀ o, s.baseOffset ≤ o → o < s.nextOffset →
      s.positionFor (Flushed.run (smallSegments false) smallBatch).world o =
        .ok (linearScan ((Flushed.run (smallSegments false) smallBatch).world.bytes s.logPath)
          (o - s.baseOffset)) := by
  have hlog : (Flushed.run (smallSegments false) smallBatch).log.map
      (fun l => l.segments.map (fun s => (s.baseOffset, s.nextOffset))) = some [(0, 2)] := by
    decide +kernel
  have hlength : loadLe 4 ((Flushed.run (smallSegments false) smallBatch).world.bytes ⟨0, .log⟩) 0 =
      23 := by decide +kernel
  obtain ⟨l, hl, hmap⟩ := Option.map_eq_some_iff.mp hlog
  obtain ⟨s, hs, heq⟩ := mem_map.mp
    (show (0, 2) ∈ l.segments.map (fun s => (s.baseOffset, s.nextOffset)) by rw [hmap]; simp)
  rw [Prod.mk.injEq] at heq
  refine ⟨l, s, hl, hs, heq.2,
    (positionFor_linear_iff (calm_nil _ _) (by simp [calm_nil]) hl s hs).mpr ?_⟩
  intro i hi hbig
  have h0 : i = 0 := by omega
  rw [h0, Segment.logPath, heq.1] at hbig
  rw [show linearScan _ 0 = 0 from rfl] at hbig
  have : maxRecordBytes = 16777216 := rfl
  have hfield : loadLe 4 ((Flushed.run (smallSegments false) smallBatch).world.bytes ⟨0, .log⟩) 0 +
      4 = 27 := by rw [hlength]
  unfold smallBatch at hfield
  omega

/-! ## 3. The first append to a log -/

section First

/-- What opening an empty directory leaves. -/
def emptySegment : Segment :=
  ⟨0, ⟨32, 4096, false⟩, 0, ⟨0, []⟩, ⟨0, []⟩, true, 0, 0, 0, 0, -1, 0, 0, 0⟩

def freshLog : PartitionLog :=
  ⟨smallSegments false, [emptySegment], some 0, 1, 0, 0, 0, 0, 0, 0, 0, false, false⟩

def freshWorld : World :=
  ⟨(((∅ : Dir).insert ⟨0, .log⟩ ⟨[], []⟩).insert ⟨0, .index⟩ ⟨[], []⟩).insert ⟨0, .tindex⟩ ⟨[], []⟩,
    [], [], [], []⟩

theorem run_reopen : Flushed.run (smallSegments false) [.reopen ⟨[], [], []⟩] =
    ⟨some freshLog, freshWorld⟩ := rfl

/-- The log, with the time of the next look at the disk set. -/
def checkedLog : PartitionLog := { freshLog with diskCheckDueMs := 1000 }

variable {records : Bytes} {c : Checked}

/-- The first append to the segment makes one index entry, whatever the batch. -/
theorem appendEncoded_first (hne : records ≠ []) (last n : Nat) (m : Int) :
    ∃ s w, Segment.appendEncoded records 0 last n m (emptySegment, freshWorld) = (.ok (), s, w) ∧
      s.options = ⟨32, 4096, false⟩ ∧ s.index.entries = [⟨0, 0⟩] ∧ s.baseOffset = 0 ∧
      s.nextOffset = last + 1 ∧ w.bytes ⟨0, .log⟩ = (File.write 0 records ⟨[], []⟩).data ∧
      w.clock = [] := by
  have hwrite : ∀ n, Prog.onSnd (writeAllAt ⟨0, .log⟩ records 0)
      ({ emptySegment with preallocatedTo := n }, freshWorld) =
      (.ok (), { emptySegment with preallocatedTo := n },
        { freshWorld with dir := freshWorld.dir.update ⟨0, .log⟩ (File.write 0 records) }) := by
    intro n
    rw [writeAllAt, if_neg hne]
    rfl
  rw [Segment.appendEncoded, if_neg hne]
  exact ⟨_, _, bind_ok (hwrite _), rfl, rfl, rfl, rfl, rfl, rfl⟩

theorem maybeRoll_first {n : Nat} (h : n ≤ uint32Max) :
    PartitionLog.maybeRoll n (checkedLog, freshWorld) = (.ok (), checkedLog, freshWorld) := by
  have hrun : PartitionLog.maybeRoll n (checkedLog, freshWorld) =
      (if ((32 : Int) > 0 ∧ ((0 + n) : Int) > 32 ∧ 0 > 0) ∨ false = true ∨
          0 + n > uint32Max then
        PartitionLog.rollSegment else pure ()) (checkedLog, freshWorld) := rfl
  rw [hrun, if_neg (by simp; omega)]
  rfl

/-- **The first append to a log** on the follower's path: any batch that passes is stored. -/
theorem appendWithOffsets_first (hne : records ≠ []) (hlen : records.length ≤ uint32Max)
    (hc : checkReplicated records 0 = .ok c) (hn : c.seen ≠ 0) :
    ∃ r l w s, PartitionLog.appendWithOffsets records c.seen (freshLog, freshWorld) =
      (.ok r, l, w) ∧
      l.segments = [s] ∧ s.options = ⟨32, 4096, false⟩ ∧ s.index.entries = [⟨0, 0⟩] ∧
      s.baseOffset = 0 ∧ s.nextOffset = c.offset - 1 + 1 ∧
      w.bytes ⟨0, .log⟩ = (File.write 0 records ⟨[], []⟩).data := by
  obtain ⟨s, w, hrun, hoptions, hentries, hbase, hnext, hbytes, hclock⟩ :=
    appendEncoded_first hne (c.offset - 1) c.seen c.maxTimestamp
  have hrefuse : PartitionLog.refuseAppend false (freshLog, freshWorld) =
      (.ok (), checkedLog, freshWorld) := rfl
  have hcheck : Prog.ofExcept (checkReplicated records freshLog.logEndOffset)
      (checkedLog, freshWorld) = (.ok c, checkedLog, freshWorld) := by
    rw [show freshLog.logEndOffset = 0 from rfl, hc]
    rfl
  have hactive : PartitionLog.activeSegment (checkedLog, freshWorld) =
      (.ok emptySegment, checkedLog, freshWorld) := rfl
  have hseg (p : Prog Status (Segment × World) Unit) :
      PartitionLog.onSegment 0 p (checkedLog, freshWorld) = ((p (emptySegment, freshWorld)).1,
        { checkedLog with segments := [(p (emptySegment, freshWorld)).2.1] },
        (p (emptySegment, freshWorld)).2.2) := rfl
  have hwrite := hseg (Segment.appendEncoded records 0 (c.offset - 1) c.seen c.maxTimestamp)
  rw [hrun] at hwrite
  have htime : Prog.onSnd clockMillis ({ checkedLog with segments := [s] }, w) =
      (.ok 0, { checkedLog with segments := [s] }, w) := by
    unfold Prog.onSnd clockMillis
    rw [hclock]
  refine ⟨⟨0, c.offset - 1, c.seen, records.length, 0, false⟩, { checkedLog with
    segments := [s], logEndOffset := c.offset - 1 + 1, unflushedBytes := 0 + records.length
    unflushedRecords := 0 + c.seen }, w, s, ?_, rfl, hoptions, hentries, hbase, hnext, hbytes⟩
  unfold PartitionLog.appendWithOffsets
  rw [show (records.isEmpty || c.seen == 0) = false by simp [hne, hn]]
  refine (bind_ok hrefuse).trans ((bind_ok hcheck).trans ?_)
  rw [if_neg (by simp)]
  refine (bind_ok (maybeRoll_first hlen)).trans ((bind_ok hactive).trans ?_)
  exact (bind_ok hwrite).trans (bind_ok htime)

theorem run_first (hne : records ≠ []) (hlen : records.length ≤ uint32Max)
    (hc : checkReplicated records 0 = .ok c) (hn : c.seen ≠ 0) :
    ∃ l w s, Flushed.run (smallSegments false)
        (appends ⟨[], [], []⟩ [(.replicate records c.seen, ⟨[], [], []⟩)]) = ⟨some l, w⟩ ∧
      l.segments = [s] ∧ s.options = ⟨32, 4096, false⟩ ∧ s.index.entries = [⟨0, 0⟩] ∧
      s.baseOffset = 0 ∧ s.nextOffset = c.seen ∧ w.bytes ⟨0, .log⟩ = records := by
  obtain ⟨r, l, w, s, hrun, hsegs, hoptions, hentries, hbase, hnext, hbytes⟩ :=
    appendWithOffsets_first hne hlen hc hn
  obtain ⟨rs, -, -, hoff, hcount, -⟩ := checkBuffer_ok hc
  dsimp only at hoff hcount
  refine ⟨l, w, s, ?_, hsegs, hoptions, hentries, hbase, by omega, ?_⟩
  · have hcall : (LogCall.append (.replicate records c.seen)).prog (freshLog, freshWorld) =
        (.ok (some r), l, w) := bind_ok hrun
    have hstep : Flushed.run (smallSegments false)
          (appends ⟨[], [], []⟩ [(.replicate records c.seen, ⟨[], [], []⟩)]) =
        Flushed.next (smallSegments false)
          (Flushed.run (smallSegments false) [.reopen ⟨[], [], []⟩])
          (.call (.append (.replicate records c.seen)) ⟨[], [], []⟩) := rfl
    rw [hstep, run_reopen, Flushed.next, step]
    dsimp only
    rw [show freshWorld.under ⟨[], [], []⟩ = freshWorld from rfl, hcall]
  · rw [hbytes, File.write, if_neg hne]
    simp [splice, zeros]

/-- **A stored record that no lookup finds.** The first record of the batch exceeds
    `kMaxRecordBytes`, with its length field; the lookup of the second one refuses to pass it. -/
theorem refused_behind {r r' : Bytes} (hgood : RunOf Good 0 [r, r'])
    (hr : maxRecordBytes < r.length) (hr' : r'.length ≤ maxRecordBytes) : ∃ l s,
    (Flushed.run (smallSegments false)
      (appends ⟨[], [], []⟩ [(.replicate [r, r'].flatten 2, ⟨[], [], []⟩)])).log = some l ∧
    s ∈ l.segments ∧ s.baseOffset ≤ 1 ∧ 1 < s.nextOffset ∧
    ∀ p, s.positionFor (Flushed.run (smallSegments false)
      (appends ⟨[], [], []⟩ [(.replicate [r, r'].flatten 2, ⟨[], [], []⟩)])).world 1 ≠ .ok p := by
  have hframed : ∀ x ∈ [r, r'], Framed x := fun x hx =>
    let ⟨_, ho⟩ := hgood.mem x hx
    ho.alone.framed
  have hmax : maxRecordBytes = 16777216 := rfl
  have hle := (hframed r (by simp)).length_le
  have hlength : [r, r'].flatten.length = r.length + r'.length := by simp
  obtain ⟨c, hc, hseen⟩ := checkReplicated_of_fills (fillsRun_of_good hgood (by omega))
    (hgood.mono fun _ _ h => h.recordOk)
  have htwo : c.seen = 2 := hseen
  have hinv : Flushed.Inv (Flushed.run (smallSegments false)
      (appends ⟨[], [], []⟩ [(.replicate [r, r'].flatten c.seen, ⟨[], [], []⟩)])) :=
    inv_appends (calm_nil _ _) (by simp [calm_nil])
  obtain ⟨l, w, s, hrun, hsegs, hoptions, hentries, hbase, hnext, hbytes⟩ :=
    run_first (ne_nil_of_length_pos (by omega)) (by unfold uint32Max; omega) hc (by omega)
  rw [htwo] at hrun hinv hnext
  rw [hrun] at hinv ⊢
  obtain ⟨e, segs, g, h⟩ := hinv
  obtain ⟨olds, a, hobj, -, hold, ha⟩ := h.objects
  have hmem : s ∈ olds ++ [a] := by rw [← hobj, hsegs]; simp
  have hread := Holds.readable (hold.append (.seg ha .nil)) s hmem
  refine ⟨l, s, rfl, by rw [hsegs]; simp, by omega, by omega, fun p hp => ?_⟩
  obtain ⟨recs, hrecs⟩ := hread.resolve_right (by omega)
  -- the records are the two of the batch
  have hlen : recs.length = 2 := by
    have := hrecs.next
    omega
  have hfirst : recs[0]? = some r := by
    obtain ⟨tail, htail⟩ := hrecs.data
    rw [Segment.logPath, hbase, hbytes, ← append_nil [r, r'].flatten] at htail
    have hpre := flatten_framed_prefix hrecs.framed hframed htail.symm (le_of_eq hlen)
    rw [hpre.eq_of_length hlen]
    rfl
  obtain ⟨j, hj, hstart, hentry, -⟩ := seekStart_eq hrecs 1
  have hj0 : j = 0 := by
    rcases hentry with h0 | ⟨x, hx, hrel⟩
    · exact h0
    · rw [hentries, mem_singleton] at hx
      rw [← hrel, hx]
  have hpass := positionFor_passes hrecs (by omega) hstart (by rw [hbase]; exact hp)
    (by omega) (by omega) hfirst
  have hblock : s.blockSize = 8192 := by
    rw [Segment.blockSize, hoptions]
    rfl
  omega

end First

/-! ## 4. The largest record -/

/-- A record whose length field is `kMaxRecordBytes`. -/
def largestRecord : NewRecord := ⟨0, 1, 0, true, [], zeros (maxRecordBytes - 26)⟩

def nextRecord : NewRecord := ⟨1, 1, 0, true, [], []⟩

def largeBatch : List Bytes := [largestRecord.bytes, nextRecord.bytes]

theorem size_largestRecord : largestRecord.size = maxRecordBytes + 4 := by
  unfold NewRecord.size largestRecord
  rw [length_zeros]
  decide +kernel

theorem good_largeBatch : RunOf Good 0 largeBatch := by
  have hfits : largestRecord.Fits := le_of_eq size_largestRecord
  have hfits' : nextRecord.Fits := by decide +kernel
  refine ⟨⟨NewRecord.parsesAlone_bytes hfits, NewRecord.checksumOk_bytes _, ?_⟩,
    ⟨NewRecord.parsesAlone_bytes hfits', NewRecord.checksumOk_bytes _, ?_⟩, trivial⟩
  · rw [NewRecord.recordOffset_bytes]
    rfl
  · rw [NewRecord.recordOffset_bytes]
    rfl

/-- A follower gets the two records in one batch. -/
def largeAppend : List Event :=
  appends ⟨[], [], []⟩ [(.replicate largeBatch.flatten 2, ⟨[], [], []⟩)]

/-- **A follower stores a batch and cannot look up its second record.** -/
theorem position_refused : ∃ l s, (Flushed.run (smallSegments false) largeAppend).log = some l ∧
    s ∈ l.segments ∧ s.baseOffset ≤ 1 ∧ 1 < s.nextOffset ∧
    ∀ p, s.positionFor (Flushed.run (smallSegments false) largeAppend).world 1 ≠ .ok p := by
  refine refused_behind good_largeBatch ?_ (by decide +kernel)
  rw [NewRecord.length_bytes (NewRecord.Fits.measurable (le_of_eq size_largestRecord)),
    size_largestRecord]
  omega

end Addressing

end PulseLog

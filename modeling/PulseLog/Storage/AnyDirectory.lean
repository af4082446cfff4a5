/-
  Subject:   What `Open` makes of a directory with any contents.

  The rules about `Open` so far start from a directory that a log has written. Here nothing is
  assumed about the files: what recovery does to a segment is a function of the bytes of its log
  file and of the entries its two indexes keep.

  * **`sat_openLog_any`** -- every segment of the directory is recovered, in the order of the bases,
    and the log reaches from the first base to the end of the last segment; a directory without a
    log file gets an empty segment at 0.
-/
import PulseLog.Storage.LogOpen

namespace PulseLog

open List IndexFormat PartitionLog

/-! ## 1. The files of one segment -/

/-- The bytes of a log file, and what opening the two index files keeps of them. -/
structure SegFiles where
  data : Bytes
  entries : List OffsetIndexEntry
  times : List TimeIndexEntry
  deriving DecidableEq

def segFiles (w : World) (base : Nat) : SegFiles :=
  ⟨w.bytes ⟨base, .log⟩, offsetFormat.kept (w.bytes ⟨base, .index⟩),
    timeFormat.kept (w.bytes ⟨base, .tindex⟩)⟩

variable {recs : List Bytes} {tail : Bytes} {f : SegFiles} {r : Scanned} {base id : Nat}
  {strict : Prop} {s : Segment} {l : PartitionLog} {w w' w0 w1 : World} {so : SegmentOptions}
  {options : LogOptions} {rep : RecoveryReport}

theorem segFiles_congr (h : ∀ p : Path, p.base = base → w'.file p = w.file p) :
    segFiles w' base = segFiles w base := by
  unfold segFiles
  rw [bytes_congr (h ⟨base, .log⟩ rfl), bytes_congr (h ⟨base, .index⟩ rfl),
    bytes_congr (h ⟨base, .tindex⟩ rfl)]

namespace SegFiles

/-- Where the scan starts. -/
def scanStart (f : SegFiles) (base : Nat) : Nat × Nat :=
  match f.entries.getLast? with
  | none => (0, base)
  | some e => (e.filePosition, base + e.relativeOffset)

def scan (f : SegFiles) (base : Nat) : Outcome Status Scanned :=
  scanLoop f.data (f.data.length + 1) (f.scanStart base).1 (f.scanStart base).2 0 (-1)

/-- What is left of the files when the scan found `r`. -/
def after (f : SegFiles) (base : Nat) (r : Scanned) : SegFiles :=
  if r.position < f.data.length then
    ⟨f.data.take r.position, f.entries.take (offsetFormat.keepCount ⟨base, f.entries⟩ r.offset),
      f.times.take (timeFormat.keepCount ⟨base, f.times⟩ r.offset)⟩
  else f

/-- The log file ends with the records that were found, or goes on behind them. -/
theorem after_data {rest : Bytes} (base : Nat) (hd : f.data = recs.flatten ++ rest)
    (hpos : r.position = recs.flatten.length) :
    ∃ rest', (f.after base r).data = recs.flatten ++ rest' := by
  unfold after
  split
  · refine ⟨[], ?_⟩
    rw [hd, hpos, take_left, append_nil]
  · exact ⟨rest, hd⟩

/-- Where the scan starts, in terms of the records. -/
theorem scanStart_eq (base : Nat) (h : EntriesOk strict recs f.entries) :
    ∃ rel, rel ≤ recs.length ∧ (∀ i < rel, ∃ e ∈ f.entries, i < e.relativeOffset) ∧
      (∀ e ∈ f.entries, e.relativeOffset ≤ rel) ∧
      f.scanStart base = ((recs.take rel).flatten.length, base + rel) := by
  obtain ⟨rel, hrel, hmax, ⟨h0, rfl⟩ | ⟨e, he, rfl, hplace⟩⟩ := h.last
  · exact ⟨0, hrel, by simp, hmax, by simp [scanStart, h0]⟩
  · refine ⟨e.relativeOffset, hrel, fun _ hi => ⟨e, mem_of_getLast? he, hi⟩, hmax, ?_⟩
    rw [scanStart, he]
    exact congrArg (·, _) hplace

/-- **The scan of good records** that each fit into a chunk, with less than a chunk behind them,
    returns. -/
theorem scan_returns (hd : f.data = recs.flatten ++ tail) (htail : tail.length ≤ recoveryChunkBytes)
    (he : EntriesOk strict recs f.entries) (hg : RunOf Good base recs)
    (hfit : ∀ r ∈ recs, r.length ≤ recoveryChunkBytes) : ∃ r, f.scan base = .ok r := by
  obtain ⟨rel, hrel, -, -, hstart⟩ := scanStart_eq base he
  -- the scan starts in front of a record
  have hdrop : (recs.flatten ++ tail).drop (recs.take rel).flatten.length =
      (recs.drop rel).flatten ++ tail := by
    have hsplit : recs.flatten = (recs.take rel).flatten ++ (recs.drop rel).flatten := by
      rw [← flatten_append, take_append_drop]
    rw [hsplit, append_assoc, drop_left]
  unfold scan
  rw [hd, hstart]
  exact scanLoop_returns (recs.drop rel) hdrop (hg.drop rel hrel)
    (fun r hr => hfit r (mem_of_mem_drop hr)) htail (by omega)

end SegFiles

/-- The three files hold these bytes and these entries, and nothing else. -/
structure Holding (base : Nat) (f : SegFiles) (w : World) : Prop where
  log : (w.file ⟨base, .log⟩).map File.data = some f.data
  index : (w.file ⟨base, .index⟩).map File.data = some (offsetFormat.encodeAll f.entries)
  tindex : (w.file ⟨base, .tindex⟩).map File.data = some (timeFormat.encodeAll f.times)

theorem Holding.congr (h : Holding base f w)
    (hw : ∀ p : Path, p.base = base → w'.file p = w.file p) : Holding base f w' where
  log := by rw [hw _ rfl]; exact h.log
  index := by rw [hw _ rfl]; exact h.index
  tindex := by rw [hw _ rfl]; exact h.tindex

/-- **A recovered segment**: `f` is what its files were before. -/
structure Recovered (base : Nat) (f : SegFiles) (s : Segment) (w : World) : Prop where
  base_eq : s.baseOffset = base
  isOpen : s.isOpen = true
  found : ∃ r, f.scan base = .ok r ∧ s.endPosition = r.position ∧ s.nextOffset = r.offset ∧
    s.index = ⟨base, (f.after base r).entries⟩ ∧ Holding base (f.after base r) w
  synced : s.syncedPosition = s.endPosition
  reach : s.preallocatedTo ≤ s.endPosition
  newest : ∀ r, f.scan base = .ok r →
    s.maxTimestamp = max r.maxTimestamp (TimeIndex.maxTimestamp ⟨base, (f.after base r).times⟩)
  counted : ∀ r, f.scan base = .ok r → s.recordCount = r.records + (f.after base r).entries.length

theorem Recovered.frame {S : Path → Prop} (h : Recovered base f s w) (hf : Frame S w w')
    (hS : ∀ p : Path, p.base = base → ¬ S p) : Recovered base f s w' := by
  obtain ⟨r, hr, he, hn, hi, hh⟩ := h.found
  exact { h with
    found := ⟨r, hr, he, hn, hi, hh.congr (fun p hp => hf.others p (hS p hp))⟩ }

/-! ## 2. Recovery of one segment -/

section

variable (h : Opened id base so w s w')
include h

/-- Opening does not depend on more than the files. -/
theorem Opened.of_frame (hf : Steady w0 w) :
    Opened id base so w0 s w' := by
  refine { h with
    frame := hf.widen.trans h.frame
    index := ?_
    timeIndex := ?_
    log := ?_
    reach := fun hr => ?_ }
  · rw [h.index, bytes_congr (hf.same _)]
  · rw [h.timeIndex, bytes_congr (hf.same _)]
  · have hl := h.log
    unfold LogOpened at hl ⊢
    rwa [hf.same] at hl
  · have hreach := h.reach (by rw [hf.same]; exact hr)
    rwa [World.size, bytes_congr (hf.same _)] at hreach

theorem Opened.holding (hlog : (w.file ⟨base, .log⟩).isSome = true) :
    Holding base (segFiles w base) w' := by
  obtain ⟨f, hf⟩ := Option.isSome_iff_exists.mp hlog
  obtain ⟨u, hu⟩ := h.indexFile
  obtain ⟨v, hv⟩ := h.timeFile
  rw [h.index] at hu
  rw [h.timeIndex] at hv
  refine ⟨?_, ?_, ?_⟩
  · rw [h.log.same hf]
    exact congrArg some (bytes_of_file hf).symm
  · rw [hu]
    rfl
  · rw [hv]
    rfl

theorem Opened.scanStart :
    s.scanStart false = (segFiles w base).scanStart base := by
  unfold Segment.scanStart SegFiles.scanStart segFiles
  rw [h.index, h.base_eq, OffsetIndex.lastIndexedPosition, OffsetIndex.lastIndexedOffset]
  cases he : (offsetFormat.kept (w.bytes ⟨base, .index⟩)).getLast? with
  | none =>
    simp
  | some e =>
    have hne : offsetFormat.kept (w.bytes ⟨base, .index⟩) ≠ [] := by
      intro h0
      rw [h0] at he
      simp at he
    simp [hne]

end

theorem Holding.bytes (h : Holding base f w) : w.bytes ⟨base, .log⟩ = f.data := by
  unfold World.bytes
  rw [h.log]
  rfl

section Index

variable {α : Type} {fmt : IndexFormat α} {Valid : α → Prop} (hl : fmt.Lawful Valid) {es : List α}

include hl

/-- A file that holds exactly these entries. -/
theorem holdsEntries_of_map {p : Path} (h : (w.file p).map File.data = some (fmt.encodeAll es)) :
    HoldsEntries fmt es p w := by
  obtain ⟨f, hf, hd⟩ := Option.map_eq_some_iff.mp h
  exact ⟨f, [], hf, by rw [hd, append_nil], hl.pos⟩

/-- Truncating an index whose file holds exactly its entries. -/
theorem sat_truncateFrom_any {offset : Nat}
    (h : (w.file (fmt.path base)).map File.data = some (fmt.encodeAll es)) :
    OnReturn (fun _ t => t.1 = ⟨base, es.take (fmt.keepCount ⟨base, es⟩ offset)⟩ ∧
        Frame (· = fmt.path base) w t.2 ∧ (t.2.file (fmt.path base)).map File.data =
          some (fmt.encodeAll (es.take (fmt.keepCount ⟨base, es⟩ offset))))
      (fmt.truncateFrom offset (⟨base, es⟩, w)) := by
  refine sat_truncateFrom_cut hl (holdsEntries_of_map hl h) (fun w1 hf hcut => ?_)
    (fun _ _ _ => .trivial)
  refine ⟨rfl, hf, ?_⟩
  rcases hcut with ⟨hsame, hall⟩ | ⟨u, hu⟩
  · rw [hall, hsame]
    exact h
  · rw [hu]
    rfl

end Index

/-- The cut recovery makes when the file goes on behind what the scan found. -/
theorem sat_cut_any (hs : s.index = ⟨base, f.entries⟩) (hb : s.baseOffset = base)
    (ht : s.timeIndex = ⟨base, f.times⟩) (hh : Holding base f w) (hr : r.position < f.data.length) :
    OnReturn (fun _ t => Frame (·.base = base) w t.2 ∧ Holding base (f.after base r) t.2 ∧
        t.1 = { s with index := ⟨base, (f.after base r).entries⟩
                       timeIndex := ⟨base, (f.after base r).times⟩
                       preallocatedTo := r.position })
      ((do
        Prog.onSnd (truncateFile s.logPath r.position)
        Segment.onIndex (offsetFormat.truncateFrom r.offset)
        Segment.onTimeIndex (timeFormat.truncateFrom r.offset)
        Segment.update (fun s => { s with preallocatedTo := r.position })) (s, w)) := by
  have hp : s.logPath = ⟨base, .log⟩ := by rw [Segment.logPath, hb]
  have hafter : f.after base r = _ := if_pos hr
  rw [hafter, hp]
  -- 1. the log file
  refine sat_then (sat_onSnd (sat_truncateFile (fun w1 hu => ?_) (fun _ _ => .trivial)))
  have hf1 := hu.frame
  have hlog : (w1.file ⟨base, .log⟩).map File.data = some (f.data.take r.position) := by
    obtain ⟨g, hg, hd⟩ := Option.map_eq_some_iff.mp hh.log
    rw [hu.file, hg, Option.map_some, Option.map_some, truncate_data (by rw [hd]; omega), hd]
  have hi1 : (w1.file ⟨base, .index⟩).map File.data = some (offsetFormat.encodeAll f.entries) := by
    rw [hf1.others _ (by simp)]
    exact hh.index
  -- 2. the offset index
  refine sat_then (sat_zoom ?_)
  rw [hs]
  refine sat_imp (sat_truncateFrom_any offsetFormat_lawful hi1) ?_
  rintro _ ⟨ix, w2⟩ ⟨hix, hf2, hi2⟩
  subst hix
  have ht2 : (w2.file ⟨base, .tindex⟩).map File.data = some (timeFormat.encodeAll f.times) := by
    rw [hf2.others _ (by simp [offsetFormat, path]), hf1.others _ (by simp)]
    exact hh.tindex
  -- 3. the time index
  refine sat_then (sat_zoom ?_)
  rw [ht]
  refine sat_imp (sat_truncateFrom_any timeFormat_lawful ht2) ?_
  rintro _ ⟨tix, w3⟩ ⟨htix, hf3, ht3⟩
  subst htix
  refine ⟨((hf1.at_base rfl).trans (hf2.at_base rfl)).trans (hf3.at_base rfl), ⟨?_, ?_, ht3⟩, rfl⟩
  · rw [hf3.others _ (by simp [timeFormat, path]),
      hf2.others _ (by simp [offsetFormat, path])]
    exact hlog
  · rw [hf3.others _ (by simp [timeFormat, path])]
    exact hi2

theorem sat_recover_any (h : Opened id base so w s w')
    (hlog : (w.file ⟨base, .log⟩).isSome = true) :
    OnReturn (fun _ t => Frame (·.base = base) w' t.2 ∧ Recovered base (segFiles w base) t.1 t.2)
      (Segment.recover false (s, w')) := by
  have hh := h.holding hlog
  have hp : s.logPath = ⟨base, .log⟩ := by rw [Segment.logPath, h.base_eq]
  have hbytes : w'.bytes s.logPath = (segFiles w base).data := by rw [hp, hh.bytes]
  have hsize : s.preallocatedTo = (segFiles w base).data.length := h.reach (.inl hlog)
  unfold Segment.recover
  rw [bind_get]
  simp only [hbytes, h.scanStart]
  refine sat_then (sat_ofOutcome (fun r hr => ?_) (fun _ _ => trivial) (fun _ => trivial))
  replace hr : (segFiles w base).scan base = .ok r := hr
  refine sat_bind (R := fun _ t => Frame (·.base = base) w' t.2 ∧
    Holding base ((segFiles w base).after base r) t.2 ∧ t.1.baseOffset = base ∧
    t.1.isOpen = true ∧ t.1.index = ⟨base, ((segFiles w base).after base r).entries⟩ ∧
    t.1.timeIndex = ⟨base, ((segFiles w base).after base r).times⟩ ∧
    t.1.preallocatedTo ≤ r.position) ?_ ?_
  · refine sat_when (fun hlt => ?_) (fun hge => ?_)
    · rw [hbytes] at hlt
      refine sat_imp (sat_cut_any h.index h.base_eq h.timeIndex hh hlt) ?_
      rintro _ ⟨s1, w1⟩ ⟨hf, hh1, hs1⟩
      subst hs1
      exact ⟨hf, hh1, h.base_eq, h.isOpen, rfl, rfl, le_rfl⟩
    · rw [hbytes] at hge
      have hafter : (segFiles w base).after base r = segFiles w base := if_neg hge
      rw [hafter]
      exact ⟨Frame.refl _ _, hh, h.base_eq, h.isOpen, h.index, h.timeIndex, by rw [hsize]; omega⟩
  rintro _ ⟨s1, w1⟩ ⟨hf, hh1, hb, ho, hi, ht, hpre⟩
  refine ⟨hf, hb, ho, ⟨r, hr, rfl, rfl, hi, hh1⟩, rfl, hpre, fun r' hr' => ?_, fun r' hr' => ?_⟩
  · rw [hr, Outcome.ok.injEq] at hr'
    subst hr'
    exact congrArg (fun ix => max r.maxTimestamp (TimeIndex.maxTimestamp ix)) ht
  · rw [hr, Outcome.ok.injEq] at hr'
    subst hr'
    exact congrArg (fun ix : OffsetIndex => r.records + ix.entries.length) hi

/-! ## 3. The whole directory -/

/-- The segment that is loaded next is a new one. -/
theorem not_mem_done {done todo : List Nat} {b : Nat} (h : (done ++ b :: todo).Pairwise (· < ·)) :
    b ∉ done := by
  intro hb
  exact lt_irrefl b ((pairwise_append.mp h).2.2 b hb b mem_cons_self)

theorem sat_loadEach_any {todo : List Nat} (done : List Nat)
    (hsort : (done ++ todo).Pairwise (· < ·)) (hlogs : ∀ b ∈ todo, (w.file ⟨b, .log⟩).isSome = true)
    (hl : Forall₂ (fun b s => Recovered b (segFiles w b) s w1) done l.segments)
    (hf : Frame (fun p => p.base ∈ done) w w1) :
    OnReturn (fun _ t => ∃ ss n, t.1 = { l with segments := ss, nextId := n } ∧
        Forall₂ (fun b s => Recovered b (segFiles w b) s t.2) (done ++ todo) ss ∧
        Frame (fun p => p.base ∈ done ++ todo) w t.2)
      (loadEach todo rep (l, w1)) := by
  induction todo generalizing done rep l w1 with
  | nil =>
    rw [append_nil]
    exact ⟨l.segments, l.nextId, rfl, hl, hf⟩
  | cons b todo ih =>
    have hnew := not_mem_done hsort
    have hsame : ∀ p : Path, p.base = b → w1.file p = w.file p := fun p hp =>
      hf.others p (by rw [hp]; exact hnew)
    have hlog : (w1.file ⟨b, .log⟩).isSome = true := by
      rw [hsame _ rfl]
      exact hlogs b mem_cons_self
    unfold loadEach
    rw [bind_get]
    refine sat_then (sat_onSnd (sat_openSegment (fun s w2 ho => ?_) (fun _ _ => .trivial)))
    refine sat_then (sat_onSnd (sat_runOn (sat_imp (sat_recover_any ho hlog) ?_)))
    rintro r ⟨s3, w3⟩ ⟨hf3, hrec⟩
    replace hf3 : Frame (·.base = b) w1 w3 := ho.frame.trans hf3
    rw [segFiles_congr hsame] at hrec
    have hsplit : done ++ b :: todo = done ++ [b] ++ todo := by simp
    rw [hsplit] at hsort ⊢
    refine ih (done ++ [b]) hsort (fun b' hb' => hlogs b' (mem_cons_of_mem _ hb')) ?_ ?_
    · refine rel_append ?_ (.cons hrec .nil)
      refine forall₂_imp_left hl fun b' s' hb' h => h.frame hf3 (fun p hp hpb => hnew ?_)
      rw [← hpb, hp]
      exact hb'
    · refine (hf.mono (fun p hp => ?_)).trans (hf3.mono (fun p hp => ?_))
      · exact mem_append_left _ hp
      · rw [hp]
        simp

/-- **What `Open` gives in any directory.** -/
inductive LoadedFrom (options : LogOptions) (w : World) (l : PartitionLog) (w' : World) : Prop
  | fresh {s : Segment} (hempty : w.logBases = []) (hs : Opened 0 0 options.segmentOptions w s w')
      (hsegs : l.segments = [s]) (hstart : l.logStartOffset = 0) (hend : l.logEndOffset = 0)
      (hactive : l.active = some s.id) (hnext : l.nextId = 1)
  | recovered (hne : w.logBases ≠ [])
      (hsegs : Forall₂ (fun b s => Recovered b (segFiles w b) s w') w.logBases l.segments)
      (hframe : Frame (fun p => p.base ∈ w.logBases) w w')
      (hstart : l.logStartOffset = (l.segments.head?.map Segment.baseOffset).getD 0)
      (hend : l.logEndOffset = (l.segments.getLast?.map Segment.nextOffset).getD 0)

theorem LoadedFrom.of_dir (h : LoadedFrom options w l w') (hd : w.dir = w0.dir) (hfl : Spent w0 w) :
    LoadedFrom options w0 l w' := by
  have hbases : w.logBases = w0.logBases := by rw [World.logBases, World.logBases, hd]
  cases h with
  | fresh hempty hs hsegs hstart hend hactive hnext =>
    exact .fresh (hbases ▸ hempty) (hs.of_frame (.of_dir hd hfl)) hsegs hstart hend hactive hnext
  | recovered hne hsegs hframe hstart hend =>
    rw [hbases] at hne hsegs hframe
    refine .recovered hne (hsegs.imp fun b s h => ?_) ((Frame.of_dir hd hfl).trans hframe)
      hstart hend
    rwa [segFiles_congr (fun p _ => file_congr hd p)] at h

theorem sat_loadSegments_any {now : Int} :
    OnReturn (fun _ t => LoadedFrom options w t.1 t.2) (loadSegments (make options now, w)) := by
  unfold loadSegments
  rw [bind_get]
  split
  · rename_i hempty
    refine sat_then (sat_onSnd (sat_openSegment (fun s w2 ho => ?_) (fun _ _ => .trivial)))
    exact .fresh hempty ho rfl rfl rfl rfl rfl
  · rename_i hne
    refine sat_bind (sat_loadEach_any [] (logBases_sorted w) (fun b hb => mem_logBases.mp hb) .nil
      (Frame.refl _ _)) ?_
    rintro rep ⟨l1, w2⟩ ⟨ss, n, hl1, hss, hf⟩
    subst hl1
    exact .recovered hne hss hf rfl rfl

theorem sat_openLog_any (options : LogOptions) :
    OnReturn (fun r w' => LoadedFrom options w r.1 w') (openLog options w) := by
  refine sat_then (sat_syscall (fun w1 hd1 hf1 => ?_) (fun _ _ _ _ => .trivial))
  refine sat_then (sat_clockMillis (fun now w2 hd hf _ => ?_))
  exact sat_then (sat_runOn (sat_attempt (sat_mono sat_loadSegments_any
    (fun rep t ht => ht.of_dir (hd.trans hd1) (hf1.trans hf))
    (fun _ _ _ => sat_then (sat_runOn (sat_attempt (sat_mono (sat_trivial _) (fun _ _ _ => trivial)
      (fun _ _ _ => trivial) (fun _ _ => trivial))))) (fun _ _ => trivial))))

end PulseLog

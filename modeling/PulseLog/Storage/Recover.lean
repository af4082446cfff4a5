/-
  Subject:   What `Segment::Recover` makes of a segment's files.

  Recovery trusts the records before the last index entry, scans from there and cuts the files
  where the scan stops.

  * **`sat_recover`** -- a recovery that returns leaves an open segment with the records it found
    and nothing behind them; one that fails or dies leaves these or the old ones.
-/
import PulseLog.Storage.SegmentInv

namespace PulseLog

open List IndexFormat

variable {strict : Prop} {es : List OffsetIndexEntry} {base rel : Nat} {recs recs' : List Bytes}
  {tail rest : Bytes} {s : Segment} {w w' : World}

/-! ## 1. The records a scan finds -/

/-- What a scan that started behind a part of `recs` found. -/
structure Rescanned (base : Nat) (recs : List Bytes) (tail : Bytes) (recs' : List Bytes)
    (rest : Bytes) : Prop where
  split : recs.flatten ++ tail = recs'.flatten ++ rest
  trusted : ∃ rel rs, rel ≤ recs.length ∧ recs' = recs.take rel ++ rs ∧
    RunOf Scannable (base + rel) rs
  stop : ∀ r y, rest = r ++ y → ¬ Good (base + recs'.length) r

/-- A scan started at the place of record `rel`. -/
theorem rescanned_of_scan {fuel : Nat} {r : Scanned} (hrel : rel ≤ recs.length)
    (h : scanLoop (recs.flatten ++ tail) fuel (recs.take rel).flatten.length (base + rel) 0 (-1) =
      .ok r) :
    ∃ recs' rest, Rescanned base recs tail recs' rest ∧
      (∃ rs, recs.take rel ++ rs = recs' ∧ RunOf Scannable (base + rel) rs) ∧
      r.position = recs'.flatten.length ∧ r.offset = base + recs'.length ∧
      ∀ x ∈ recs', x ∈ recs.take rel ∨ recordTimestamp x ≤ r.maxTimestamp := by
  have hsplit : recs.flatten ++ tail =
      (recs.take rel).flatten ++ ((recs.drop rel).flatten ++ tail) := by
    rw [← append_assoc, ← flatten_append, take_append_drop]
  have hle : (recs.take rel).flatten.length ≤ (recs.flatten ++ tail).length := by
    rw [hsplit, length_append]
    omega
  obtain ⟨rs, e1, e2, e3, e4, e5, e6⟩ := scanLoop_sound h hle
  refine ⟨recs.take rel ++ rs, (recs.flatten ++ tail).drop r.position,
    ⟨?_, ⟨rel, rs, hrel, rfl, e5⟩,
    ?_⟩, ⟨rs, rfl, e5⟩, ?_, ?_, fun x hx => (mem_append.mp hx).imp id (e6.each x)⟩
  · conv_lhs => rw [← take_append_drop (recs.take rel).flatten.length (recs.flatten ++ tail)]
    rw [e1, flatten_append, append_assoc]
    rw [hsplit, take_left]
  · intro x y hxy hg
    by_cases hlt : r.position < (recs.flatten ++ tail).length
    · refine scanLoop_stop h hlt x y hxy ?_
      rw [e4]
      rwa [length_append, length_take, Nat.min_eq_left hrel, ← Nat.add_assoc] at hg
    · rw [drop_of_length_le (by omega)] at hxy
      exact noRecord_nil _ x y hxy hg.recordOk
  · rw [e2, flatten_append, length_append]
  · rw [e4, length_append, length_take, Nat.min_eq_left hrel, Nat.add_assoc]

section

variable (h : Rescanned base recs tail recs' rest)
include h

/-- Whatever the scan kept is framed, if the trusted part was. -/
theorem Rescanned.framed (hf : ∀ r ∈ recs, Framed r) :
    ∀ r ∈ recs', Framed r := by
  obtain ⟨rel, rs, -, rfl, hrs⟩ := h.trusted
  exact forall_mem_append.mpr
    ⟨fun r hr => hf r (mem_of_mem_take hr), hrs.framed (fun _ _ hs => hs.ok.framed)⟩

/-- **No good record is lost**, and what was added comes from the tail. -/
theorem Rescanned.covers (hg : RunOf Good base recs) :
    ∃ ex, recs' = recs ++ ex ∧ tail = ex.flatten ++ rest ∧
      RunOf Scannable (base + recs.length) ex := by
  have hf := hg.framed (fun _ _ hr => hr.alone.framed)
  have hf' := h.framed hf
  have hle : recs.length ≤ recs'.length := by
    by_contra hlt
    obtain ⟨us, rfl⟩ := flatten_framed_prefix hf' hf h.split.symm (by omega)
    cases us with
    | nil => simp at hlt
    | cons u us =>
      have hu : Good (base + recs'.length) u := (runOf_append.mp hg).2.1
      have hs := h.split
      rw [flatten_append, flatten_cons, append_assoc, append_assoc] at hs
      exact h.stop u _ (append_cancel_left hs).symm hu
  obtain ⟨ex, rfl⟩ := flatten_framed_prefix hf hf' h.split hle
  have hs := h.split
  rw [flatten_append, append_assoc] at hs
  refine ⟨ex, rfl, append_cancel_left hs, ?_⟩
  obtain ⟨rel, rs, hrel, he, hrs⟩ := h.trusted
  -- the accepted run starts inside the old records, so its end covers the new ones
  have hrs' : rs = recs.drop rel ++ ex := by
    have h1 : recs ++ ex = recs.take rel ++ (recs.drop rel ++ ex) := by
      rw [← append_assoc, take_append_drop]
    rw [h1] at he
    exact (append_cancel_left he).symm
  rw [hrs', runOf_append, length_drop] at hrs
  have h2 := hrs.2
  rwa [show base + rel + (recs.length - rel) = base + recs.length by omega] at h2

/-- **In front of bytes that are no record nothing is added.** -/
theorem Rescanned.exact (hg : RunOf Good base recs)
    (ht : NoRecord (base + recs.length) tail) : recs' = recs ∧ rest = tail := by
  obtain ⟨ex, e1, e2, e3⟩ := h.covers hg
  cases ex with
  | nil => exact ⟨by simpa using e1, by simpa using e2.symm⟩
  | cons r ex =>
    rw [flatten_cons, append_assoc] at e2
    exact absurd e3.1.ok (ht r _ e2)

end

/-! ## 2. The index after a cut -/

theorem truncated_entries {offset : Nat} (h : EntriesOk strict recs es) (hle : base ≤ offset) :
    es.take (offsetFormat.keepCount ⟨base, es⟩ offset) =
      es.filter (fun e => decide (e.relativeOffset < offset - base)) := by
  have hpred : (fun e : OffsetIndexEntry =>
      decide ((offsetFormat.relative e : Int) < offset - base)) =
      fun e => decide (e.relativeOffset < offset - base) := by
    funext e
    refine decide_eq_decide.mpr ?_
    show (e.relativeOffset : Int) < _ ↔ _
    omega
  unfold keepCount
  rw [hpred]
  refine take_lowerBound _ _ (h.sorted.imp ?_)
  intro a b hab hb
  rw [decide_eq_true_eq] at hb ⊢
  omega

/-- Entries at or below a trusted place stay right for the records found from there. -/
theorem EntriesOk.rescanned (h : EntriesOk strict recs es) (hmax : ∀ e ∈ es, e.relativeOffset ≤ rel)
    (hrel : rel ≤ recs.length) (hp : recs.take rel <+: recs') : EntriesOk False recs' es := by
  obtain ⟨rs, rfl⟩ := hp
  have hlen : (recs.take rel).length = rel := by
    rw [length_take]
    omega
  refine ⟨h.sorted, h.valid, fun e he => ?_, fun e he => ?_, False.elim⟩
  · have := hmax e he
    rw [length_append]
    omega
  · have := hmax e he
    rw [h.place e he, take_append_of_le_length (by omega), take_take, Nat.min_eq_left this]

theorem EntriesOk.filter (h : EntriesOk False recs es) :
    EntriesOk strict recs (es.filter (fun e => decide (e.relativeOffset < recs.length))) := by
  have hm : ∀ e ∈ es.filter (fun e => decide (e.relativeOffset < recs.length)),
      e ∈ es ∧ e.relativeOffset < recs.length := by
    intro e he
    rw [mem_filter, decide_eq_true_eq] at he
    exact he
  exact ⟨h.sorted.filter _, fun e he => h.valid e (hm e he).1, fun e he => h.bound e (hm e he).1,
    fun e he => h.place e (hm e he).1, fun _ e he => (hm e he).2⟩

/-- **Cutting the three files of a segment** behind the records `recs'`; `k` is what follows. A
    cut that ends early has changed nothing, or has cut the log file and perhaps the index. -/
theorem sat_cutFiles {α : Type} {f : File} {pos off : Nat}
    {k : Unit → Prog Status (Segment × World) α}
    {Q : α → Segment × World → Prop} {E : Status → Segment × World → Prop}
    {H : Segment × World → Prop} (hf : w.file s.logPath = some f)
    (hd : f.data = recs'.flatten ++ rest) (hpos : pos = recs'.flatten.length)
    (hoff : off = s.baseOffset + recs'.length) (hent : EntriesOk strict recs s.index.entries)
    (hib : s.index.baseOffset = s.baseOffset)
    (hif : HoldsEntries offsetFormat s.index.entries ⟨s.baseOffset, .index⟩ w)
    (htb : s.timeIndex.baseOffset = s.baseOffset)
    (hok : ∀ tix w', Frame (·.base = s.baseOffset) w w' →
      (∃ g, w'.file s.logPath = some g ∧ g.data = recs'.flatten ∧
        (f.unsynced = [] → g.unsynced = [])) →
      HoldsEntries offsetFormat
        (s.index.entries.filter (fun e => decide (e.relativeOffset < recs'.length)))
        ⟨s.baseOffset, .index⟩ w' →
      tix.baseOffset = s.baseOffset →
      Sat Q E H (k () ({ s with
        index := ⟨s.baseOffset,
          s.index.entries.filter (fun e => decide (e.relativeOffset < recs'.length))⟩
        timeIndex := tix }, w')))
    (hpart : ∀ s' w', Frame (·.base = s.baseOffset) w w' →
      (Steady w w' ∨ (∃ g, w'.file s.logPath = some g ∧ g.data = recs'.flatten) ∧
        (w'.file ⟨s.baseOffset, .index⟩ = w.file ⟨s.baseOffset, .index⟩ ∨
          HoldsEntries offsetFormat
            (s.index.entries.filter (fun e => decide (e.relativeOffset < recs'.length)))
            ⟨s.baseOffset, .index⟩ w')) → Stops E H w (s', w')) : Sat Q E H ((do
      Prog.onSnd (truncateFile s.logPath pos)
      Segment.onIndex (offsetFormat.truncateFrom off)
      Segment.onTimeIndex (timeFormat.truncateFrom off)
      k ()) (s, w)) := by
  have hpi : (⟨s.index.baseOffset, .index⟩ : Path) = ⟨s.baseOffset, .index⟩ := by rw [hib]
  have hpt : (⟨s.timeIndex.baseOffset, .tindex⟩ : Path) = ⟨s.baseOffset, .tindex⟩ := by rw [htb]
  have hkeep : s.index.entries.take (offsetFormat.keepCount s.index off) =
      s.index.entries.filter (fun e => decide (e.relativeOffset < recs'.length)) := by
    have h1 := truncated_entries hent (show s.baseOffset ≤ off by omega)
    rw [hoff, Nat.add_sub_cancel_left, ← hib] at h1
    rw [hoff, ← hib]
    exact h1
  -- 1. the log file
  refine sat_then (sat_onSnd (sat_truncateFile ?_ (fun w1 hf1 => hpart s w1 hf1.widen (.inl hf1))))
  intro w1 hu1
  have hf1 : Frame (·.base = s.baseOffset) w w1 := hu1.frame.at_base rfl
  have hlog1 : ∃ g, w1.file s.logPath = some g ∧ g.data = recs'.flatten ∧
      (f.unsynced = [] → g.unsynced = []) := by
    refine ⟨File.truncate pos f, by rw [hu1.file, hf, Option.map_some], ?_, fun h0 => ?_⟩
    · rw [truncate_data (by rw [hd, hpos]; simp), hd, hpos, take_left]
    · simp [File.truncate, h0]
  have hi1 : HoldsEntries offsetFormat s.index.entries ⟨s.index.baseOffset, .index⟩ w1 := by
    rw [hpi]
    exact hif.congr (hu1.frame.others _ (by simp [Segment.logPath]))
  -- 2. the offset index
  obtain ⟨g, hg, hgd, hgu⟩ := hlog1
  refine sat_then (sat_zoom (sat_truncateFrom offsetFormat_lawful hi1 ?_ (fun ix' w2 hf2 =>
    (hpart _ w2 (hf1.trans hf2.widen) (.inr ⟨⟨g, ?_, hgd⟩, .inl ?_⟩)).later hf1)))
  rotate_left
  · rw [hf2.same, hg]
  · rw [hf2.same, hu1.frame.others _ (by simp [Segment.logPath])]
  intro w2 hf2 hi2
  rw [show offsetFormat.path s.index.baseOffset = ⟨s.baseOffset, .index⟩ from hpi] at hf2 hi2
  rw [hkeep] at hi2 ⊢
  rw [hib]
  have hlog2 : w2.file s.logPath = w1.file s.logPath := hf2.others _ (by simp [Segment.logPath])
  have hf12 := hf1.trans (hf2.at_base rfl)
  -- 3. the time index
  refine sat_then (sat_zoom (sat_truncateFrom_file ?_ (fun ix' w3 hf3 =>
    (hpart _ w3 (hf12.trans hf3.widen)
      (.inr ⟨⟨g, ?_, hgd⟩, .inr (hi2.congr (hf3.same _))⟩)).later hf12)))
  rotate_left
  · rw [hf3.same, hlog2, hg]
  intro w3 hcut3
  have hf3 : Frame (· = ⟨s.baseOffset, .tindex⟩) w2 w3 := by
    rcases hcut3 with ⟨rfl, -⟩ | hu
    · exact Frame.refl _ _
    · exact hpt ▸ hu.frame
  refine hok _ w3 (hf12.trans (hf3.at_base rfl)) ?_ (hi2.congr (hf3.others _ (by simp))) htb
  exact ⟨g, by rw [hf3.others _ (by simp [Segment.logPath]), hlog2]; exact hg, hgd, hgu⟩

/-- The last entry gives the place of a record, and no entry lies behind it. -/
theorem EntriesOk.last (h : EntriesOk strict recs es) :
    ∃ rel, rel ≤ recs.length ∧ (∀ e ∈ es, e.relativeOffset ≤ rel) ∧ (es = [] ∧ rel = 0 ∨
      ∃ e, es.getLast? = some e ∧ e.relativeOffset = rel ∧
        e.filePosition = (recs.take rel).flatten.length) := by
  rcases eq_nil_or_concat' es with rfl | ⟨init, l, rfl⟩
  · exact ⟨0, Nat.zero_le _, by simp, .inl ⟨rfl, rfl⟩⟩
  · have hl : l ∈ init ++ [l] := by simp
    exact ⟨l.relativeOffset, h.bound l hl, forall_mem_concat.mpr
      ⟨fun e he => le_of_lt ((pairwise_concat.mp h.sorted).2 e he), le_rfl⟩,
      .inr ⟨l, getLast?_concat, rfl, h.place l hl⟩⟩

/-- Where recovery starts, in terms of the records. -/
theorem scanStart_eq (h : EntriesOk strict recs s.index.entries)
    (hb : s.index.baseOffset = s.baseOffset) :
    ∃ rel, rel ≤ recs.length ∧ (∀ e ∈ s.index.entries, e.relativeOffset ≤ rel) ∧
      s.scanStart false = ((recs.take rel).flatten.length, s.baseOffset + rel) := by
  obtain ⟨rel, hrel, hmax, ⟨h0, rfl⟩ | ⟨e, he, rfl, hplace⟩⟩ := h.last
  · exact ⟨0, hrel, hmax, by simp [Segment.scanStart, h0]⟩
  · have hne : s.index.entries ≠ [] := by
      intro h0
      rw [h0] at he
      cases he
    refine ⟨e.relativeOffset, hrel, hmax, ?_⟩
    rw [Segment.scanStart, if_pos ⟨rfl, hne⟩, OffsetIndex.lastIndexedPosition,
      OffsetIndex.lastIndexedOffset, he, hb]
    exact congrArg (·, _) hplace

/-! ## 3. Recovery -/

/-- A segment object right after `Segment::Open` on files with the records `recs`. -/
structure ReadyToRecover (M : Mode) (recs : List Bytes) (tail : Bytes) (s : Segment) (w : World) :
    Prop where
  log : ∃ f, w.file s.logPath = some f ∧ f.data = recs.flatten ++ tail
  run : RunOf M.record s.baseOffset recs
  entries : EntriesOk M.strict recs s.index.entries
  indexBase : s.index.baseOffset = s.baseOffset
  indexFile : HoldsEntries offsetFormat s.index.entries ⟨s.baseOffset, .index⟩ w
  timeBase : s.timeIndex.baseOffset = s.baseOffset
  isOpen : s.isOpen = true
  durable : M.durable → ∀ f, w.file s.logPath = some f → f.unsynced = []
  reach : s.preallocatedTo = w.size s.logPath

/-- What recovery has to know about the records it finds: they keep the run's promise, and a run
    with strict entries loses none. -/
def Recovers (M : Mode) (base : Nat) (recs : List Bytes) (tail : Bytes) : Prop :=
  ∀ recs' rest, Rescanned base recs tail recs' rest →
    RunOf M.record base recs' ∧ (M.strict → recs.length ≤ recs'.length)

section Recovery

variable {M : Mode}

/-- The files when recovery ends early: untouched, or cut at the end of the records found. -/
inductive RecoverPart (M : Mode) (recs : List Bytes) (tail : Bytes) (base : Nat) (w w' : World) :
    Prop
  | untouched (hf : Steady w w') (h : DiskSeg M.record False base recs tail w')
  | cut (recs' : List Bytes) (rest : Bytes) (hne : rest ≠ [])
      (hr : Rescanned base recs tail recs' rest) (h : DiskSeg M.record False base recs' [] w')

/-- The object and the files after a recovery that returned. -/
theorem ReadyToRecover.finish {s' : Segment} (h : ReadyToRecover M recs tail s w)
    (hrec : RunOf M.record s.baseOffset recs')
    (hlog : ∃ f, w'.file s.logPath = some f ∧ f.data = recs'.flatten)
    (hdur : M.durable → ∀ f, w'.file s.logPath = some f → f.unsynced = [])
    (hbase : s'.baseOffset = s.baseOffset) (hends : s'.endPosition = recs'.flatten.length)
    (hsync : s'.syncedPosition = s'.endPosition)
    (hnext : s'.nextOffset = s.baseOffset + recs'.length)
    (hent : EntriesOk M.strict recs' s'.index.entries) (hib : s'.index.baseOffset = s.baseOffset)
    (hif : HoldsEntries offsetFormat s'.index.entries ⟨s.baseOffset, .index⟩ w')
    (htb : s'.timeIndex.baseOffset = s.baseOffset) (hopen : s'.isOpen = s.isOpen) :
    SegInv M recs' s' w' := by
  have hp : s'.logPath = s.logPath := by rw [Segment.logPath, Segment.logPath, hbase]
  obtain ⟨f, hf, hd⟩ := hlog
  refine ⟨⟨f, [], by rw [hp, hf], by rw [hd]; simp, M.tail_nil⟩, by rw [hbase]; exact hrec, hends,
    by rw [hnext, hbase], le_of_eq hsync, hent, by rw [hib, hbase], by rw [hbase]; exact hif,
    by rw [htb, hbase], by rw [hopen, h.isOpen], fun hdu g hg e he => ?_⟩
  rw [hp] at hg
  rw [hdur hdu g hg] at he
  simp at he

theorem sat_recover {Q : RecoveryReport → Segment × World → Prop}
    {E : Status → Segment × World → Prop} {H : Segment × World → Prop}
    (h : ReadyToRecover M recs tail s w) (hrec : Recovers M s.baseOffset recs tail)
    (hok : ∀ rep s' w' recs' rest, Frame (·.base = s.baseOffset) w w' → SameObject s s' →
      s'.syncedPosition = s'.endPosition → s'.preallocatedTo = s'.endPosition →
      (rest = [] → Steady w w') →
      Rescanned s.baseOffset recs tail recs' rest → SegInv M recs' s' w' → Q rep (s', w'))
    (hstop : ∀ s' w', Frame (·.base = s.baseOffset) w w' →
      RecoverPart M recs tail s.baseOffset w w' → Stops E H w (s', w')) :
    Sat Q E H (Segment.recover false (s, w)) := by
  obtain ⟨f, hf, hd⟩ := h.log
  have hbytes : w.bytes s.logPath = recs.flatten ++ tail := by
    rw [bytes_of_file hf, hd]
  have hdisk : DiskSeg M.record False s.baseOffset recs tail w :=
    ⟨⟨f, hf, hd⟩, h.run, by rw [h.entries.kept h.indexFile]; exact h.entries.weaken⟩
  obtain ⟨rel, hrel, hmax, hstart⟩ := scanStart_eq h.entries h.indexBase
  unfold Segment.recover
  rw [bind_get]
  simp only [hbytes, hstart]
  refine sat_then (sat_ofOutcome (fun r hr => ?_)
    (fun e he => absurd he (scanLoop_ne_error _ _ _ _ _ _ _))
    (fun _ => (hstop s w (Frame.refl _ _) (.untouched (Frame.refl _ _) hdisk)).2))
  obtain ⟨recs', rest, hres, ⟨rs, hpre, -⟩, hpos, hoff, -⟩ := rescanned_of_scan hrel hr
  obtain ⟨hrun', hstrict⟩ := hrec recs' rest hres
  have hent' : EntriesOk False recs' s.index.entries := h.entries.rescanned hmax hrel ⟨rs, hpre⟩
  -- the part that runs only when the file goes on behind the records found
  refine sat_bind (R := fun _ t => Frame (·.base = s.baseOffset) w t.2 ∧
    (rest = [] → Steady w t.2) ∧ SameObject s t.1 ∧ t.1.isOpen = s.isOpen ∧
    t.1.preallocatedTo = r.position ∧
    (∃ g, t.2.file s.logPath = some g ∧ g.data = recs'.flatten ∧
      (f.unsynced = [] → g.unsynced = [])) ∧
    EntriesOk M.strict recs' t.1.index.entries ∧ t.1.index.baseOffset = s.baseOffset ∧
    HoldsEntries offsetFormat t.1.index.entries ⟨s.baseOffset, .index⟩ t.2 ∧
    t.1.timeIndex.baseOffset = s.baseOffset) ?_ ?_
  · have hl : (w.bytes s.logPath).length = recs'.flatten.length + rest.length := by
      rw [hbytes, hres.split, length_append]
    refine sat_when (fun hlt => ?_) (fun hnlt => ?_)
    · have hne : rest ≠ [] := by
        intro h0
        rw [h0, length_nil] at hl
        omega
      refine sat_cutFiles (k := fun _ => Segment.update (fun s => { s with
        preallocatedTo := r.position })) hf (by rw [hd, hres.split]) hpos hoff h.entries h.indexBase
        h.indexFile h.timeBase (fun tix w1 hf1 hlog hi htb => ?_)
        (fun s1 w1 hf1 hp => hstop s1 w1 hf1 ?_)
      · exact ⟨hf1, fun h0 => absurd h0 hne, ⟨rfl, rfl, rfl⟩, rfl, rfl, hlog, hent'.filter, rfl, hi,
          htb⟩
      · rcases hp with hp | ⟨⟨g, hg, hgd⟩, hp⟩
        · exact .untouched hp (hdisk.frame hp (fun _ _ h => h))
        · refine .cut recs' rest hne hres ⟨⟨g, hg, by rw [hgd]; simp⟩, hrun', ?_⟩
          rcases hp with hp | hp
          · rw [hent'.kept (h.indexFile.congr hp)]
            exact hent'
          · have hcut : EntriesOk False recs' _ := hent'.filter
            rw [hcut.kept hp]
            exact hcut
    · -- nothing lies behind the records found
      have hrest : rest = [] := eq_nil_of_length_eq_zero (by omega)
      refine ⟨Frame.refl _ _, fun _ => Frame.refl _ _, SameObject.refl s, rfl, ?_,
        ⟨f, hf, ?_, fun h => h⟩, ?_, h.indexBase, h.indexFile, h.timeBase⟩
      · rw [h.reach, World.size, hbytes, hres.split, hrest, append_nil, hpos]
      · rw [hd, hres.split, hrest, append_nil]
      · refine ⟨hent'.sorted, hent'.valid, hent'.bound, hent'.place, fun hs e he => ?_⟩
        exact lt_of_lt_of_le (h.entries.inside hs e he) (hstrict hs)
  rintro _ ⟨s1, w1⟩ ⟨hf1, hfree, hs1, hop1, hpre1, ⟨g, hg, hgd, hgu⟩, he1, hib1, hif1, htb1⟩
  refine hok _ _ w1 recs' rest hf1 ⟨hs1.id, hs1.base, hs1.options⟩ rfl hpre1 hfree hres ?_
  refine h.finish hrun' ⟨g, hg, hgd⟩ (fun hdu g' hg' => ?_) hs1.base hpos rfl hoff he1 hib1
    hif1 htb1 hop1
  rw [hg, Option.some.injEq] at hg'
  rw [← hg']
  exact hgu (h.durable hdu f hf)

end Recovery

end PulseLog

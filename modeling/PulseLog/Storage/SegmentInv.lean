/-
  Subject:   What a segment object and its three files have to do with each other.

  The records of a segment are a ghost list `recs`. The log file starts with their bytes, back to
  back; what lies behind them (the tail) is unwritten preallocated space, or what an append that
  failed or died left there. An index entry gives the place of one record, or of the end.

  * `Mode` -- what the surrounding run promises: a property of every record, a property of tails,
    whether index entries point at records only, whether sync positions are to be trusted;
  * `DiskSeg` -- the files of a segment nobody has open; `SegInv` -- the object and its files
    between two calls, `SegHolds` -- the same inside an append;
  * one rule per method: `sat_openSegment`, `sat_appendEncoded`, `sat_syncSegment`,
    `sat_closeSegment`, `sat_deleteSegment`. A method that fails leaves the invariant; one that
    dies leaves `DiskSeg`.
-/
import PulseLog.Storage.Scan

namespace PulseLog

open List IndexFormat

variable {rs : List Bytes} {p : Path} {base : Nat} {tail : Bytes}
  {E : Status → Segment × World → Prop} {H : Segment × World → Prop}
  {Q : Unit → Segment × World → Prop}

/-! ## 1. The invariant -/

/-- What is promised about the records, the tails and the sync positions of a run. -/
structure Mode where
  record : Nat → Bytes → Prop
  framed : ∀ o r, record o r → Framed r
  tail : Bytes → Prop
  tail_nil : tail []
  tail_drop : ∀ t k, tail t → tail (t.drop k)
  strict : Prop
  durable : Prop

/-- Each entry of an offset index gives the position of its record, or of the end (`strict`
    excludes the end). -/
structure EntriesOk (strict : Prop) (recs : List Bytes) (es : List OffsetIndexEntry) : Prop where
  sorted : es.Pairwise (fun a b => a.relativeOffset < b.relativeOffset)
  valid : ∀ e ∈ es, e.relativeOffset ≤ uint32Max ∧ e.filePosition ≤ uint32Max
  bound : ∀ e ∈ es, e.relativeOffset ≤ recs.length
  place : ∀ e ∈ es, e.filePosition = (recs.take e.relativeOffset).flatten.length
  inside : strict → ∀ e ∈ es, e.relativeOffset < recs.length

/-- The files of a segment: the records, a tail, and an index whose kept entries are right. -/
structure DiskSeg (P : Nat → Bytes → Prop) (strict : Prop) (base : Nat) (recs : List Bytes)
    (tail : Bytes) (w : World) : Prop where
  log : ∃ f, w.file ⟨base, .log⟩ = some f ∧ f.data = recs.flatten ++ tail
  run : RunOf P base recs
  entries : EntriesOk strict recs (offsetFormat.kept (w.bytes ⟨base, .index⟩))

/-- No unsynced range of the log file starts below the synced position. -/
def Durable (s : Segment) (w : World) : Prop :=
  ∀ f, w.file s.logPath = some f → ∀ e ∈ f.unsynced, s.syncedPosition ≤ e.1

/-- An open segment with the records `recs`, behind whose bytes `written` stands, not yet
    published. -/
structure SegHolds (M : Mode) (strict : Prop) (recs : List Bytes) (written : Bytes) (s : Segment)
    (w : World) : Prop where
  log : ∃ f tail, w.file s.logPath = some f ∧ f.data = recs.flatten ++ (written ++ tail) ∧
    M.tail tail
  run : RunOf M.record s.baseOffset recs
  ends : s.endPosition = recs.flatten.length
  next : s.nextOffset = s.baseOffset + recs.length
  synced : s.syncedPosition ≤ s.endPosition
  entries : EntriesOk strict recs s.index.entries
  indexBase : s.index.baseOffset = s.baseOffset
  indexFile : HoldsEntries offsetFormat s.index.entries ⟨s.baseOffset, .index⟩ w
  timeBase : s.timeIndex.baseOffset = s.baseOffset
  isOpen : s.isOpen = true
  durable : M.durable → Durable s w

/-- **The invariant of an open segment** between two calls. -/
abbrev SegInv (M : Mode) (recs : List Bytes) (s : Segment) (w : World) : Prop :=
  SegHolds M M.strict recs [] s w

variable {M : Mode} {strict : Prop} {recs : List Bytes} {written : Bytes} {s s' : Segment}
  {w w' : World}

section Entries

variable {es : List OffsetIndexEntry}

theorem entriesOk_nil : EntriesOk strict recs [] :=
  ⟨List.Pairwise.nil, by simp, by simp, by simp, by simp⟩

theorem EntriesOk.weaken (h : EntriesOk strict recs es) : EntriesOk False recs es :=
  ⟨h.sorted, h.valid, h.bound, h.place, False.elim⟩

/-- Entries stay right when records are added. -/
theorem EntriesOk.append (h : EntriesOk False recs es) (hrs : rs ≠ []) :
    EntriesOk strict (recs ++ rs) es := by
  have hpos := length_pos_iff.mpr hrs
  refine ⟨h.sorted, h.valid, fun e he => ?_, fun e he => ?_, fun _ e he => ?_⟩
  · have := h.bound e he
    rw [length_append]
    omega
  · rw [take_append_of_le_length (h.bound e he)]
    exact h.place e he
  · have := h.bound e he
    rw [length_append]
    omega

/-- The entry `FinishAppend` adds before the new records are published. -/
theorem EntriesOk.push (h : EntriesOk False recs es) {rel pos : Nat} (hrel : rel = recs.length)
    (hpos : pos = recs.flatten.length) (hv : rel ≤ uint32Max ∧ pos ≤ uint32Max)
    (hlast : ∀ e ∈ es, e.relativeOffset < rel) : EntriesOk False recs (es ++ [⟨rel, pos⟩]) := by
  refine ⟨pairwise_concat.mpr ⟨h.sorted, hlast⟩, forall_mem_concat.mpr ⟨h.valid, hv⟩,
    forall_mem_concat.mpr ⟨h.bound, le_of_eq hrel⟩, forall_mem_concat.mpr ⟨h.place, ?_⟩, False.elim⟩
  rw [hrel, take_length, hpos]

theorem growing_of_sorted : ∀ {es : List OffsetIndexEntry} {p : Int},
    es.Pairwise (fun a b => a.relativeOffset < b.relativeOffset) →
    (∀ e ∈ es, p < e.relativeOffset) → offsetFormat.growing p es = es
  | [], _, _, _ => rfl
  | e :: es, p, h, hp => by
    have h1 : offsetFormat.grows p (offsetFormat.key e) = true :=
      decide_eq_true (hp e mem_cons_self)
    rw [growing, if_pos h1]
    have h2 := pairwise_cons.mp h
    rw [growing_of_sorted h2.2 (fun f hf => by
      have := h2.1 f hf
      simp only [offsetFormat]
      omega)]

theorem EntriesOk.growing (h : EntriesOk strict recs es) : offsetFormat.growing (-1) es = es :=
  growing_of_sorted h.sorted (fun e _ => by omega)

theorem EntriesOk.kept (h : EntriesOk strict recs es)
    (hh : HoldsEntries offsetFormat es p w) : offsetFormat.kept (w.bytes p) = es :=
  hh.kept offsetFormat_lawful h.valid h.growing

end Entries

/-- An open segment's files are in order, in case the process dies now. -/
theorem SegHolds.disk (h : SegHolds M strict recs written s w) :
    ∃ tail, M.tail tail ∧ DiskSeg M.record strict s.baseOffset recs (written ++ tail) w := by
  obtain ⟨f, tail, hf, hd, ht⟩ := h.log
  exact ⟨tail, ht, ⟨f, hf, hd⟩, h.run, by rw [h.entries.kept h.indexFile]; exact h.entries⟩

/-- A segment whose files did not change. -/
theorem SegHolds.frame {S : Path → Prop} (h : SegHolds M strict recs written s w)
    (hf : Frame S w w') (hS : ∀ p, p.base = s.baseOffset → ¬ S p) :
    SegHolds M strict recs written s w' := by
  have hlog : w'.file s.logPath = w.file s.logPath := hf.others _ (hS _ rfl)
  refine ⟨?_, h.run, h.ends, h.next, h.synced, h.entries, h.indexBase, ?_, h.timeBase,
    h.isOpen, fun hd => ?_⟩
  · rw [hlog]
    exact h.log
  · exact h.indexFile.congr (hf.others _ (hS _ rfl))
  · intro f hfile
    rw [hlog] at hfile
    exact h.durable hd f hfile

theorem DiskSeg.frame {P : Nat → Bytes → Prop} {S : Path → Prop}
    (h : DiskSeg P strict base recs tail w) (hf : Frame S w w') (hS : ∀ p, p.base = base → ¬ S p) :
    DiskSeg P strict base recs tail w' := by
  refine ⟨?_, h.run, ?_⟩
  · rw [hf.others _ (hS _ rfl)]
    exact h.log
  · rw [bytes_congr (hf.others _ (hS _ rfl))]
    exact h.entries

theorem DiskSeg.weaken {P : Nat → Bytes → Prop} (h : DiskSeg P strict base recs tail w) :
    DiskSeg P False base recs tail w :=
  ⟨h.log, h.run, h.entries.weaken⟩

/-- The fields of a segment object no append and no sync changes. -/
structure SameObject (s s' : Segment) : Prop where
  id : s'.id = s.id
  base : s'.baseOffset = s.baseOffset
  options : s'.options = s.options

theorem SameObject.refl (s : Segment) : SameObject s s := ⟨rfl, rfl, rfl⟩

/-! ## 2. Opening -/

/-- The log file of a base is as it was, or it is new and empty or preallocated. -/
def LogOpened (base : Nat) (preallocate : Bool) (w w' : World) : Prop :=
  w'.file ⟨base, .log⟩ = w.file ⟨base, .log⟩ ∨
    w.file ⟨base, .log⟩ = none ∧ ∃ n, w'.file ⟨base, .log⟩ = some ⟨zeros n, []⟩ ∧
      (preallocate = false → n = 0)

/-- An open on existing files finds them as they are. -/
theorem LogOpened.same {base : Nat} {pre : Bool} {f : File} (h : LogOpened base pre w w')
    (hf : w.file ⟨base, .log⟩ = some f) : w'.file ⟨base, .log⟩ = some f := by
  rcases h with h | ⟨h, -⟩
  · rw [h, hf]
  · rw [hf] at h
    cases h

/-- What `Segment::Open` returns. -/
structure Opened (id base : Nat) (options : SegmentOptions) (w : World) (s : Segment)
    (w' : World) : Prop where
  frame : Frame (·.base = base) w w'
  id_eq : s.id = id
  base_eq : s.baseOffset = base
  options_eq : s.options = options
  isOpen : s.isOpen = true
  ends : s.endPosition = 0
  next : s.nextOffset = base
  synced : s.syncedPosition = 0
  count : s.recordCount = 0
  index : s.index = ⟨base, offsetFormat.kept (w.bytes ⟨base, .index⟩)⟩
  indexFile : ∃ u, w'.file ⟨base, .index⟩ = some ⟨offsetFormat.encodeAll s.index.entries, u⟩
  timeIndex : s.timeIndex = ⟨base, timeFormat.kept (w.bytes ⟨base, .tindex⟩)⟩
  timeFile : ∃ u, w'.file ⟨base, .tindex⟩ = some ⟨timeFormat.encodeAll s.timeIndex.entries, u⟩
  log : LogOpened base options.preallocate w w'
  made : (w'.file ⟨base, .log⟩).isSome
  reach : (w.file ⟨base, .log⟩).isSome ∨ options.preallocate = false →
    s.preallocatedTo = w.size ⟨base, .log⟩

/-- What an open that did not finish leaves. -/
structure OpenedPart (base : Nat) (preallocate : Bool) (w w' : World) : Prop where
  frame : Frame (·.base = base) w w'
  log : LogOpened base preallocate w w'
  index : SameEntries offsetFormat ⟨base, .index⟩ w w'
  time : SameEntries timeFormat ⟨base, .tindex⟩ w w'

theorem extend_empty (n : Nat) : File.extend n ⟨[], []⟩ = ⟨zeros n, []⟩ := by simp [File.extend]

theorem sat_clockMillis {σ : World} {Q : Int → World → Prop} {E : Status → World → Prop}
    {H : World → Prop} (h : ∀ t w', w'.dir = σ.dir → Spent σ w' → (t = 0 ∨ t ∈ σ.clock) → Q t w') :
    Sat Q E H (clockMillis σ) := by
  unfold clockMillis
  split
  · exact h 0 σ rfl (Spent.refl σ) (.inl rfl)
  · rename_i t ts hc
    refine h t _ rfl ⟨fun _ h => h, fun x hx => ?_⟩ (.inr ?_)
    · rw [hc]
      exact mem_cons_of_mem _ hx
    · rw [hc]
      exact mem_cons_self

/-- The preallocation: the log file keeps what it had; a new empty file may grow by zeros. -/
theorem sat_preallocateNew {fileSize : Nat} {options : SegmentOptions} {existed : Bool}
    {Q : Nat → World → Prop} {E : Status → World → Prop} {H : World → Prop}
    (hnew : existed = false → w.file ⟨base, .log⟩ = some ⟨[], []⟩)
    (hok : ∀ n w', Frame (· = ⟨base, .log⟩) w w' →
      (w'.file ⟨base, .log⟩ = w.file ⟨base, .log⟩ ∨ existed = false ∧ options.preallocate = true ∧
        ∃ k, w'.file ⟨base, .log⟩ = some ⟨zeros k, []⟩) →
      (existed = true ∨ options.preallocate = false → n = fileSize) → Q n w')
    (hhalt : ∀ w' k, Frame (· = ⟨base, .log⟩) w w' → existed = false → options.preallocate = true →
      w'.file ⟨base, .log⟩ = some ⟨zeros k, []⟩ → H w') :
    Sat Q E H (Segment.preallocateNew base options existed fileSize w) := by
  unfold Segment.preallocateNew
  split
  · rename_i hc
    have hgrow : ∀ n w', Updated ⟨base, .log⟩ (File.extend n) w w' →
        w'.file ⟨base, .log⟩ = some ⟨zeros n, []⟩ := by
      intro n w' hu
      rw [hu.file, hnew hc.1, Option.map_some, extend_empty]
    have hne : ¬ (existed = true ∨ options.preallocate = false) := by rw [hc.1, hc.2.1]; simp
    have hgrown : ∀ n k w', Updated ⟨base, .log⟩ (File.extend k) w w' → Q n w' := fun n k w' hu =>
      hok n w' hu.frame (.inr ⟨hc.1, hc.2.1, k, hgrow k w' hu⟩) (fun h => absurd h hne)
    exact sat_then (sat_attempt (sat_preallocateFile (fun w1 hu => hgrown _ _ w1 hu) (fun n w1 hu =>
      ⟨fun _ _ => hgrown _ n w1 hu, hhalt w1 n hu.frame hc.1 hc.2.1 (hgrow n w1 hu)⟩)))
  · exact hok fileSize w (Frame.refl _ _) (.inl rfl) (fun _ => rfl)

theorem sat_openSegment {id : Nat} {options : SegmentOptions} {Q : Segment → World → Prop}
    {E : Status → World → Prop} {H : World → Prop}
    (hok : ∀ s w', Opened id base options w s w' → Q s w')
    (hstop : ∀ w', OpenedPart base options.preallocate w w' → Stops E H w w') :
    Sat Q E H (Segment.openSegment id base options w) := by
  unfold Segment.openSegment
  rw [bind_get]
  -- 1. the log file
  refine sat_then (sat_openFile ?_ (fun w1 hf => hstop w1 ⟨hf.widen, .inl (hf.same _),
    .congr (hf.same _), .congr (hf.same _)⟩))
  intro w1 hf1 h1
  have hl1 : LogOpened base options.preallocate w w1 := by
    cases hw : w.file ⟨base, .log⟩ with
    | none => exact .inr ⟨hw, 0, by rw [h1, hw]; rfl, fun _ => rfl⟩
    | some f => exact .inl (by rw [h1, hw]; rfl)
  have hi1 : w1.file ⟨base, .index⟩ = w.file ⟨base, .index⟩ := hf1.others _ (by simp)
  have ht1 : w1.file ⟨base, .tindex⟩ = w.file ⟨base, .tindex⟩ := hf1.others _ (by simp)
  -- 2. the offset index
  refine sat_then (sat_openIndex offsetFormat_lawful ?_ (fun w2 hf hk => (hstop w2
    ⟨(hf1.at_base rfl).trans (hf.at_base rfl), ?_, (SameEntries.congr hi1).trans hk,
      .congr ((hf.others _ (by simp [path, offsetFormat])).trans ht1)⟩).later hf1))
  rotate_left
  · rw [LogOpened, hf.others ⟨base, .log⟩ (by simp [path, offsetFormat])]
    exact hl1
  intro w2 u2 hf h2
  rw [show offsetFormat.path base = ⟨base, .index⟩ from rfl] at hf h2 ⊢
  rw [bytes_congr hi1] at h2 ⊢
  have hf2 : Frame (·.base = base) w w2 := (hf1.at_base rfl).trans (hf.at_base rfl)
  have hlog2 : w2.file ⟨base, .log⟩ = w1.file ⟨base, .log⟩ := hf.others _ (by simp)
  have ht2 : w2.file ⟨base, .tindex⟩ = w.file ⟨base, .tindex⟩ := by
    rw [hf.others _ (by simp), ht1]
  have hkept : ∀ w' : World, w'.file ⟨base, .index⟩ = w2.file ⟨base, .index⟩ →
      SameEntries offsetFormat ⟨base, .index⟩ w w' := fun w' hw' =>
    sameEntries_of_cut offsetFormat_lawful (hw'.trans h2)
  -- 3. the time index
  refine sat_then (sat_openIndex timeFormat_lawful ?_ (fun w3 hf hk => (hstop w3
    ⟨hf2.trans (hf.at_base rfl), ?_, hkept w3 (hf.others _ (by simp [path, timeFormat])),
      (SameEntries.congr ht2).trans hk⟩).later hf2))
  rotate_left
  · rw [LogOpened, hf.others ⟨base, .log⟩ (by simp [path, timeFormat]), hlog2]
    exact hl1
  intro w3 u3 hf3 h3
  rw [show timeFormat.path base = ⟨base, .tindex⟩ from rfl] at hf3 h3 ⊢
  rw [bytes_congr ht2] at h3 ⊢
  have hlog3 : w3.file ⟨base, .log⟩ = w1.file ⟨base, .log⟩ := by
    rw [hf3.others _ (by simp), hlog2]
  have hi3 : w3.file ⟨base, .index⟩ = w2.file ⟨base, .index⟩ := hf3.others _ (by simp)
  rw [bind_get]
  -- 4. preallocation
  have hnew : w.fileExists ⟨base, .log⟩ = false → w3.file ⟨base, .log⟩ = some ⟨[], []⟩ := by
    intro he
    have hw : w.file ⟨base, .log⟩ = none := by simpa [World.fileExists] using he
    rw [hlog3, h1, hw]
    rfl
  have hgrown : ∀ w' k, w.fileExists ⟨base, .log⟩ = false → options.preallocate = true →
      w'.file ⟨base, .log⟩ = some ⟨zeros k, []⟩ → LogOpened base options.preallocate w w' := by
    intro w' k he hp hk
    have hw : w.file ⟨base, .log⟩ = none := by simpa [World.fileExists] using he
    exact .inr ⟨hw, k, hk, fun h => by rw [hp] at h; cases h⟩
  refine sat_then (sat_preallocateNew hnew ?_
    (fun w4 k hf he hp hk => (hstop w4 ⟨?_, ?_, ?_, ?_⟩).2))
  rotate_left
  · exact hf2.trans ((hf3.at_base rfl).trans (hf.at_base rfl))
  · exact hgrown w4 k he hp hk
  · exact hkept w4 (by rw [hf.others _ (by simp), hi3])
  · exact sameEntries_of_cut timeFormat_lawful (by rw [hf.others _ (by simp), h3])
  intro n w4 hf4 hlog hn
  refine sat_then (sat_clockMillis (fun t w5 hd hfl _ => ?_))
  refine hok _ w5 ⟨(hf2.trans ((hf3.at_base rfl).trans (hf4.at_base rfl))).trans (.of_dir hd hfl),
    rfl, rfl, rfl, rfl, rfl, rfl, rfl, rfl, rfl, ⟨u2, ?_⟩, rfl, ⟨u3, ?_⟩, ?_, ?_, fun hw => ?_⟩
  · rw [file_congr hd, hf4.others _ (by simp), hi3, h2]
  · rw [file_congr hd, hf4.others _ (by simp), h3]
  · rcases hlog with hlog | ⟨he, hp, k, hk⟩
    · rw [LogOpened, file_congr hd, hlog, hlog3]
      exact hl1
    · exact hgrown w5 k he hp (by rw [file_congr hd, hk])
  · rcases hlog with hlog | ⟨he, hp, k, hk⟩
    · rw [file_congr hd, hlog, hlog3, h1]
      rfl
    · rw [file_congr hd, hk]
      rfl
  · refine (hn hw).trans ?_
    rw [World.size, World.size, World.bytes, World.bytes, hlog3, h1]
    cases w.file ⟨base, .log⟩ <;> rfl

/-! ## 3. Appending -/

/-- **An entry of the offset index**: it is added, or the call is refused or fails and nothing
    changes, or the process dies and the file holds the old entries. -/
theorem sat_offsetAppend {ix : OffsetIndex} {offset position : Nat}
    {Q : Unit → OffsetIndex × World → Prop} {E : Status → OffsetIndex × World → Prop}
    {H : OffsetIndex × World → Prop}
    (h : HoldsEntries offsetFormat ix.entries ⟨ix.baseOffset, .index⟩ w)
    (hle : ix.baseOffset ≤ offset) (hok : ∀ w', Frame (· = ⟨ix.baseOffset, .index⟩) w w' →
      offset - ix.baseOffset ≤ uint32Max → position ≤ uint32Max →
      (∀ e, ix.entries.getLast? = some e → e.relativeOffset < offset - ix.baseOffset) →
      HoldsEntries offsetFormat (ix.entries ++ [⟨offset - ix.baseOffset, position⟩])
        ⟨ix.baseOffset, .index⟩ w' →
      Q () (⟨ix.baseOffset, ix.entries ++ [⟨offset - ix.baseOffset, position⟩]⟩, w'))
    (hkeep : ∀ w', Frame (· = ⟨ix.baseOffset, .index⟩) w w' →
      HoldsEntries offsetFormat ix.entries ⟨ix.baseOffset, .index⟩ w' →
      (∀ e', E e' (ix, w')) ∧ H (ix, w')) :
    Sat Q E H (OffsetIndex.append offset position (ix, w)) := by
  unfold OffsetIndex.append
  rw [bind_get]
  have hrel : ((offset : Int) - ix.baseOffset).toNat = offset - ix.baseOffset := by omega
  simp only [hrel]
  split
  · exact (hkeep w (Frame.refl _ _) h).1 _
  split
  · exact (hkeep w (Frame.refl _ _) h).1 _
  split
  · exact (hkeep w (Frame.refl _ _) h).1 _
  rename_i h1 h2 h3
  refine sat_pushEntry offsetFormat_lawful h (fun w' hf hh => ?_)
    (fun w' hf hh => ⟨fun _ => (hkeep w' hf hh).1, (hkeep w' hf hh).2⟩)
  refine hok w' hf (by omega) (by omega) (fun e he => ?_) hh
  rw [he] at h3
  simp only [Option.any_some, decide_eq_true_eq] at h3
  omega

/-- What an append at offset `o` does to a time index: nothing, or an entry with the timestamp `m`
    follows, which is not below the last. -/
def TimeNoted (m : Int) (o : Nat) (ix ix' : TimeIndex) : Prop :=
  ix' = ix ∨ ix.baseOffset ≤ o ∧ (∀ e, ix.entries.getLast? = some e → e.timestamp ≤ m) ∧
    ix' = ⟨ix.baseOffset, ix.entries ++ [⟨m, o - ix.baseOffset⟩]⟩

theorem TimeNoted.base_eq {m : Int} {o : Nat} {ix ix' : TimeIndex} (h : TimeNoted m o ix ix') :
    ix'.baseOffset = ix.baseOffset := by
  rcases h with h | ⟨-, -, h⟩
  · rw [h]
  · rw [h]

/-- An entry of the time index; an error is dropped. -/
theorem sat_timeAppend {ix : TimeIndex} {m : Int} {o : Nat}
    {Q : Except Status Unit → TimeIndex × World → Prop} {E : Status → TimeIndex × World → Prop}
    {H : TimeIndex × World → Prop}
    (hok : ∀ r ix' w', TimeNoted m o ix ix' → Frame (· = ⟨ix.baseOffset, .tindex⟩) w w' →
      Q r (ix', w'))
    (hhalt : ∀ w', Frame (· = ⟨ix.baseOffset, .tindex⟩) w w' → H (ix, w')) :
    Sat Q E H ((TimeIndex.append m o).attempt (ix, w)) := by
  refine sat_attempt ?_
  unfold TimeIndex.append
  rw [bind_get]
  dsimp only
  split
  · exact hok _ ix w (.inl rfl) (Frame.refl _ _)
  rename_i hlast
  split
  · exact hok _ ix w (.inl rfl) (Frame.refl _ _)
  refine sat_pushEntry_write timeFormat_lawful (fun w' hu => ?_)
    (fun _ w' _ hu => ⟨fun _ _ => hok _ ix w' (.inl rfl) hu.frame, hhalt w' hu.frame⟩)
  have htoNat : ((o : Int) - ix.baseOffset).toNat = o - ix.baseOffset := by omega
  rw [htoNat]
  refine hok _ _ w' (.inr ⟨by omega, fun e he => ?_, rfl⟩) hu.frame
  rw [he, Option.any_some, decide_eq_true_eq, not_lt] at hlast
  exact hlast

/-- The fields an index append leaves alone. -/
structure SameEnds (s s' : Segment) : Prop extends SameObject s s' where
  ends : s'.endPosition = s.endPosition
  next : s'.nextOffset = s.nextOffset
  synced : s'.syncedPosition = s.syncedPosition

theorem SameEnds.refl (s : Segment) : SameEnds s s := ⟨SameObject.refl s, rfl, rfl, rfl⟩

/-- The log file and the unpublished bytes are not touched when only an index file changes. -/
theorem SegHolds.index_step {strict' : Prop} (h : SegHolds M strict recs written s w)
    (hs : SameEnds s s') (hopen : s'.isOpen = s.isOpen)
    (hlog : w'.file s.logPath = w.file s.logPath) (he : EntriesOk strict' recs s'.index.entries)
    (hib : s'.index.baseOffset = s.baseOffset)
    (hi : HoldsEntries offsetFormat s'.index.entries ⟨s.baseOffset, .index⟩ w')
    (htb : s'.timeIndex.baseOffset = s.baseOffset) : SegHolds M strict' recs written s' w' := by
  have hp : s'.logPath = s.logPath := by rw [Segment.logPath, Segment.logPath, hs.base]
  refine ⟨?_, ?_, ?_, ?_, ?_, he, ?_, ?_, ?_, ?_, fun hd f hf e hm => ?_⟩
  · rw [hp, hlog]
    exact h.log
  · rw [hs.base]
    exact h.run
  · rw [hs.ends, h.ends]
  · rw [hs.next, hs.base, h.next]
  · rw [hs.synced, hs.ends]
    exact h.synced
  · rw [hib, hs.base]
  · rw [hs.base]
    exact hi
  · rw [htb, hs.base]
  · rw [hopen, h.isOpen]
  · rw [hp, hlog] at hf
    rw [hs.synced]
    exact h.durable hd f hf e hm

/-- What is on disk when the process dies with `written` behind the records. -/
def Torn (M : Mode) (base : Nat) (recs : List Bytes) (written : Bytes) (w : World) : Prop :=
  ∃ tail, M.tail tail ∧ DiskSeg M.record False base recs (written ++ tail) w

theorem SegHolds.torn {strict : Prop} (h : SegHolds M strict recs written s w) :
    Torn M s.baseOffset recs written w := by
  obtain ⟨tail, ht, hd⟩ := h.disk
  exact ⟨tail, ht, hd.weaken⟩

/-- **The index part of an append** never fails; it adds at most the entry of the first new
    record, at the end of the published ones. -/
theorem sat_indexAppend {maxTimestamp : Int} (h : SegHolds M False recs written s w)
    (hok : ∀ s' w', Frame (·.base = s.baseOffset) w w' → SameEnds s s' →
      SegHolds M False recs written s' w' → Q () (s', w'))
    (hhalt : ∀ s' w', Frame (·.base = s.baseOffset) w w' → s'.baseOffset = s.baseOffset →
      Torn M s.baseOffset recs written w' → H (s', w')) :
    Sat Q E H (Segment.indexAppend s.nextOffset maxTimestamp (s, w)) := by
  have hbase := h.indexBase
  have hfile := h.indexFile
  have hp : (⟨s.index.baseOffset, .index⟩ : Path) = ⟨s.baseOffset, .index⟩ := by rw [hbase]
  rw [← hp] at hfile
  -- the object with its old entries, after a call on the offset index
  have hold : ∀ {w'}, Frame (· = ⟨s.index.baseOffset, .index⟩) w w' →
      HoldsEntries offsetFormat s.index.entries ⟨s.index.baseOffset, .index⟩ w' →
      Frame (·.base = s.baseOffset) w w' ∧ SegHolds M False recs written s w' := by
    intro w' hf hh
    rw [hp] at hf hh
    exact ⟨hf.at_base rfl, h.index_step (SameEnds.refl s) rfl
      (hf.others _ (by simp [Segment.logPath])) h.entries hbase hh h.timeBase⟩
  unfold Segment.indexAppend
  rw [bind_get]
  split
  · refine sat_then (sat_attempt (sat_zoom (sat_offsetAppend hfile (by rw [hbase, h.next]; omega) ?_
      (fun w1 hf hh => ⟨fun _ => hok s w1 (hold hf hh).1 (SameEnds.refl s) (hold hf hh).2,
        hhalt _ w1 (hold hf hh).1 rfl (hold hf hh).2.torn⟩))))
    intro w1 hf hr1 hr2 hlast hh
    rw [hp] at hf hh
    set s1 : Segment := { s with index :=
      ⟨s.index.baseOffset, s.index.entries ++
        [⟨s.nextOffset - s.index.baseOffset, s.endPosition⟩]⟩ }
    have h1 : SegHolds M False recs written s1 w1 := by
      refine h.index_step ⟨⟨rfl, rfl, rfl⟩, rfl, rfl, rfl⟩ rfl
        (hf.others _ (by simp [Segment.logPath])) ?_ hbase hh h.timeBase
      -- the new entry stands at the end of the published records
      have hrel : s.nextOffset - s.index.baseOffset = recs.length := by
        rw [h.next]
        omega
      refine h.entries.push hrel h.ends ⟨hr1, hr2⟩ (fun e he => ?_)
      rcases eq_nil_or_concat' s.index.entries with h0 | ⟨init, l, h0⟩
      · rw [h0] at he
        simp at he
      · have hl := hlast l (by rw [h0]; simp)
        have hsort := h.entries.sorted
        rw [h0] at hsort he
        rcases mem_append.mp he with he | he
        · exact lt_trans ((pairwise_append.mp hsort).2.2 e he l (by simp)) hl
        · rw [mem_singleton.mp he]
          exact hl
    dsimp only
    rw [Segment.update, bind_modify]
    have hp1 : (⟨s1.timeIndex.baseOffset, .tindex⟩ : Path) = ⟨s.baseOffset, .tindex⟩ := by
      rw [h1.timeBase]
    refine sat_then (sat_zoom_attempt (sat_timeAppend (fun r ix' w2 hn hf' => ?_)
      (fun w2 hf' => ?_)))
    · rw [hp1] at hf'
      refine hok _ w2 ((hf.at_base rfl).trans (hf'.at_base rfl)) ⟨⟨rfl, rfl, rfl⟩, rfl, rfl, rfl⟩ ?_
      exact h1.index_step ⟨⟨rfl, rfl, rfl⟩, rfl, rfl, rfl⟩ rfl
        (hf'.others _ (by simp [Segment.logPath])) h1.entries h1.indexBase
        (h1.indexFile.congr (hf'.others _ (by simp))) (hn.base_eq.trans h1.timeBase)
    · rw [hp1] at hf'
      refine hhalt _ w2 ((hf.at_base rfl).trans (hf'.at_base rfl)) rfl ?_
      obtain ⟨tail, ht, hd⟩ := h1.torn
      refine ⟨tail, ht, ⟨?_, hd.run, ?_⟩⟩
      · rw [hf'.others _ (by simp)]
        exact hd.log
      · rw [bytes_congr (hf'.others _ (by simp))]
        exact hd.entries
  · exact hok s w (Frame.refl _ _) (SameEnds.refl s) h

theorem flatten_ne_nil (hrs : rs ≠ []) (hf : ∀ r ∈ rs, Framed r) : rs.flatten ≠ [] := by
  cases rs with
  | nil => exact absurd rfl hrs
  | cons r rs =>
    intro h
    have hr := (hf r (by simp)).pos
    rw [flatten_cons, append_eq_nil_iff] at h
    rw [h.1] at hr
    simp at hr

/-- The bytes of a log file after a write of `data` at the end of the records. -/
theorem write_at_end {f : File} {x data : Bytes} (hd : f.data = x ++ tail) (hne : data ≠ []) :
    (File.write x.length data f).data = x ++ (data ++ tail.drop data.length) ∧
      (File.write x.length data f).unsynced = (x.length, data.length) :: f.unsynced := by
  rw [File.write, if_neg hne]
  refine ⟨?_, rfl⟩
  simp only [hd, splice_append, append_assoc]

/-- What a segment is after `data` was written at its end. -/
theorem SegHolds.wrote {data : Bytes} (h : SegInv M recs s w) (hne : data ≠ [])
    (hu : Updated s.logPath (File.write s.endPosition data) w w') :
    SegHolds M False recs data s w' := by
  obtain ⟨f, tail, hf, hd, ht⟩ := h.log
  obtain ⟨e1, e2⟩ := write_at_end hd hne
  rw [← h.ends] at e1 e2
  have hfile : w'.file s.logPath = some (File.write s.endPosition data f) := by
    rw [hu.file, hf, Option.map_some]
  refine ⟨⟨_, _, hfile, e1, M.tail_drop _ _ ht⟩, h.run, h.ends, h.next, h.synced,
    h.entries.weaken, h.indexBase, h.indexFile.congr
      (hu.frame.others _ (by simp [Segment.logPath])),
    h.timeBase, h.isOpen, ?_⟩
  intro hdur g hg e he
  rw [hfile, Option.some.injEq] at hg
  rw [← hg, e2] at he
  rcases mem_cons.mp he with rfl | he
  · exact h.synced
  · exact h.durable hdur f hf e he

/-- The new records are published: the counters take them in. -/
theorem SegHolds.publish (h : SegHolds M False recs rs.flatten s w) (hrs : rs ≠ [])
    (hrun : RunOf M.record s.nextOffset rs) {count last : Nat} {m : Int}
    (hlast : last + 1 = s.nextOffset + rs.length) : SegInv M (recs ++ rs) { s with
      endPosition := s.endPosition + rs.flatten.length
      nextOffset := last + 1
      recordCount := s.recordCount + count
      maxTimestamp := m } w := by
  obtain ⟨f, tail, hf, hd, ht⟩ := h.log
  refine ⟨⟨f, tail, hf, ?_, ht⟩, ?_, ?_, ?_, ?_, h.entries.append hrs, h.indexBase, h.indexFile,
    h.timeBase, h.isOpen, h.durable⟩
  · rw [hd, flatten_append, append_assoc, nil_append]
  · have h1 := h.next
    rw [h1] at hrun
    exact runOf_append.mpr ⟨h.run, hrun⟩
  · rw [h.ends, flatten_append, length_append]
  · rw [hlast, h.next, length_append, Nat.add_assoc]
  · exact le_trans h.synced (Nat.le_add_right _ _)

/-- **Appending to a segment.** On success the records are the old ones and the new ones; a failure
    and a crash leave the old ones and a prefix of the new bytes. -/
theorem sat_appendEncoded {last count : Nat} {maxTimestamp : Int} (h : SegInv M recs s w)
    (hrs : rs ≠ []) (hrun : RunOf M.record s.nextOffset rs)
    (hlast : last + 1 = s.nextOffset + rs.length)
    (hok : ∀ s' w', Frame (·.base = s.baseOffset) w w' → SameObject s s' →
      s'.syncedPosition = s.syncedPosition → SegInv M (recs ++ rs) s' w' → Q () (s', w'))
    (herr : ∀ e s' w' k, Frame (·.base = s.baseOffset) w w' → SameEnds s s' → MayFail w →
      k < rs.flatten.length → Torn M s.baseOffset recs (rs.flatten.take k) w' →
      ((∀ t, M.tail t) → SegInv M recs s' w') → E e (s', w'))
    (hhalt : ∀ s' w' k, Frame (·.base = s.baseOffset) w w' → k ≤ rs.flatten.length →
      Torn M s.baseOffset recs (rs.flatten.take k) w' → H (s', w')) :
    Sat Q E H (Segment.appendEncoded rs.flatten s.nextOffset last count maxTimestamp (s, w)) := by
  have hne := flatten_ne_nil hrs (hrun.framed M.framed)
  set s1 : Segment :=
    { s with preallocatedTo := max s.preallocatedTo (s.endPosition + rs.flatten.length) } with hs1
  have hsame : SameEnds s s1 := ⟨⟨rfl, rfl, rfl⟩, rfl, rfl, rfl⟩
  have h1 : SegInv M recs s1 w := h.index_step hsame rfl rfl h.entries h.indexBase h.indexFile
    h.timeBase
  -- a write of a proper prefix
  have hpart : ∀ k w', Updated s.logPath (File.write s.endPosition (rs.flatten.take k)) w w' →
      Torn M s.baseOffset recs (rs.flatten.take k) w' ∧
        ((∀ t, M.tail t) → SegInv M recs s1 w') := by
    intro k w' hu
    by_cases h0 : rs.flatten.take k = []
    · have hfile : ∀ p, w'.file p = w.file p := by
        intro p
        by_cases hp : p = s.logPath
        · rw [hp, hu.file, h0]
          cases w.file s.logPath <;> simp [File.write]
        · exact hu.frame.others p hp
      have hfr : Steady w w' := ⟨fun p _ => hfile p, hu.frame.spent⟩
      rw [h0]
      exact ⟨(h1.frame hfr (fun _ _ h => h)).torn, fun _ => h1.frame hfr (fun _ _ h => h)⟩
    · have hw : SegHolds M False recs (rs.flatten.take k) s1 w' := SegHolds.wrote h1 h0 hu
      refine ⟨hw.torn, fun hall => ?_⟩
      obtain ⟨f, tail, hf, hd, -⟩ := hw.log
      exact ⟨⟨f, _, hf, by rw [hd, nil_append], hall _⟩, hw.run, hw.ends, hw.next, hw.synced,
        h1.entries, hw.indexBase, hw.indexFile, hw.timeBase, hw.isOpen, hw.durable⟩
  unfold Segment.appendEncoded
  rw [if_neg hne, bind_get, Segment.update, bind_modify]
  refine sat_then (sat_onSnd (sat_writeAllAt hne ?_ (fun k w2 hk hu =>
    ⟨fun hm e => herr e s1 w2 k (hu.frame.at_base rfl) hsame hm hk (hpart k w2 hu).1
      (hpart k w2 hu).2, hhalt s1 w2 k (hu.frame.at_base rfl) (by omega) (hpart k w2 hu).1⟩)))
  intro w2 hu
  have hf2 : Frame (·.base = s.baseOffset) w w2 := hu.frame.at_base rfl
  refine sat_then (sat_indexAppend (SegHolds.wrote h1 hne hu) (fun s3 w3 hf hs3 h3 => ?_)
    (fun s3 w3 hf hb ht => ?_))
  · refine hok _ w3 (hf2.trans hf) ⟨hs3.id, hs3.base, hs3.options⟩ hs3.synced ?_
    exact h3.publish hrs (by rw [hs3.next]; exact hrun) (by rw [hs3.next]; exact hlast)
  · refine hhalt s3 w3 rs.flatten.length (hf2.trans hf) le_rfl ?_
    rw [take_length]
    exact ht

theorem appendEncodedVectored_eq (chunks : List Bytes) (appendBase last count : Nat)
    (maxTimestamp : Int) : Segment.appendEncodedVectored chunks appendBase last count maxTimestamp =
      Segment.appendEncoded chunks.flatten appendBase last count maxTimestamp := rfl

/-! ## 4. Syncing, closing, deleting -/

/-- A completed fsync of one of the files changes no content. -/
theorem SegHolds.synced_file {strict : Prop} (h : SegHolds M strict recs written s w)
    (hu : Updated p File.sync w w') : SegHolds M strict recs written s w' := by
  have hlog : ∀ f, w.file s.logPath = some f → ∃ g, w'.file s.logPath = some g ∧ g.data = f.data ∧
      ∀ e ∈ g.unsynced, e ∈ f.unsynced := by
    intro f hf
    by_cases hp : s.logPath = p
    · subst hp
      exact ⟨File.sync f, by rw [hu.file, hf, Option.map_some], rfl, by simp [File.sync]⟩
    · exact ⟨f, by rw [hu.frame.others _ hp, hf], rfl, fun e he => he⟩
  obtain ⟨f, tail, hf, hd, ht⟩ := h.log
  obtain ⟨g, hg, hgd, hgu⟩ := hlog f hf
  refine ⟨⟨g, tail, hg, by rw [hgd, hd], ht⟩, h.run, h.ends, h.next, h.synced, h.entries,
    h.indexBase, h.indexFile.sync hu, h.timeBase, h.isOpen, fun hdur f' hf' e he => ?_⟩
  rw [hg, Option.some.injEq] at hf'
  rw [← hf'] at he
  exact h.durable hdur f hf e (hgu e he)

/-- **Syncing a segment**: it changes no content; when it returns OK, the log file was fsynced as
    far as it had been written, and the synced position is the end. -/
theorem sat_syncSegment (h : SegInv M recs s w)
    (hok : ∀ s' w', Frame (·.base = s.baseOffset) w w' → SameObject s s' →
      s'.syncedPosition = s'.endPosition → SegInv M recs s' w' → Q () (s', w'))
    (hstop : ∀ w', Frame (·.base = s.baseOffset) w w' → SegInv M recs s w' → Stops E H w (s, w')) :
    Sat Q E H (Segment.sync (s, w)) := by
  have hkeep : ∀ {w₁ w₂}, SegInv M recs s w₁ → Steady w₁ w₂ → SegInv M recs s w₂ :=
    fun hi hf => hi.frame hf (fun _ _ h => h)
  unfold Segment.sync
  rw [bind_get]
  split
  · rename_i he
    exact hok s w (Frame.refl _ _) (SameObject.refl s) he.symm h
  -- the three fsyncs: the log file, the offset index, the time index
  refine sat_then (sat_onSnd (sat_syncFile ?_ (fun w1 hf => hstop w1 hf.widen (hkeep h hf))))
  intro w1 hu1
  have hf1 : Frame (·.base = s.baseOffset) w w1 := hu1.frame.at_base rfl
  have h1 := h.synced_file hu1
  refine sat_then (sat_zoom (sat_syncIndex ?_
    (fun w2 hf => (hstop w2 (hf1.trans hf.widen) (hkeep h1 hf)).later hf1)))
  intro w2 hu2
  have hf2 : Frame (·.base = s.baseOffset) w w2 := hf1.trans (hu2.frame.at_base h.indexBase)
  have h2 := h1.synced_file hu2
  refine sat_then (sat_zoom (sat_syncIndex ?_
    (fun w3 hf => (hstop w3 (hf2.trans hf.widen) (hkeep h2 hf)).later hf2)))
  intro w3 hu3
  have h3 := h2.synced_file hu3
  refine hok { s with syncedPosition := s.endPosition } w3
    (hf2.trans (hu3.frame.at_base h.timeBase)) ⟨rfl, rfl, rfl⟩ rfl ?_
  refine ⟨h3.log, h3.run, h3.ends, h3.next, le_rfl, h3.entries, h3.indexBase, h3.indexFile,
    h3.timeBase, h3.isOpen, fun _ f hf e he => ?_⟩
  -- the two fsyncs of the indexes have left the log file alone
  obtain ⟨g, _, hg, _⟩ := h.log
  have hlog : w3.file s.logPath = w1.file s.logPath := by
    rw [hu3.frame.others _ (by simp [Segment.logPath, timeFormat, path]),
      hu2.frame.others _ (by simp [Segment.logPath, offsetFormat, path])]
  have hf' : w3.file s.logPath = some f := hf
  rw [hlog, hu1.file, hg, Option.map_some, Option.some.injEq] at hf'
  rw [← hf'] at he
  simp [File.sync] at he

/-- **Closing a segment** leaves its records on disk, whether it reports an error or not. -/
theorem sat_closeSegment (h : SegInv M recs s w)
    (hdone : ∀ s' w' tail, Frame (·.base = s.baseOffset) w w' → s'.baseOffset = s.baseOffset →
      M.tail tail → DiskSeg M.record M.strict s.baseOffset recs tail w' →
      Q () (s', w') ∧ (MayFail w → ∀ e, E e (s', w')))
    (hhalt : ∀ s' w', Frame (·.base = s.baseOffset) w w' → Torn M s.baseOffset recs [] w' →
      H (s', w')) : Sat Q E H (Segment.close (s, w)) := by
  unfold Segment.close
  rw [bind_get, if_neg (by rw [h.isOpen]; simp)]
  refine sat_bind (R := fun st t => Frame (·.base = s.baseOffset) w t.2 ∧
    t.1.baseOffset = s.baseOffset ∧ SegInv M recs t.1 t.2 ∧ (∀ e, st = .error e → MayFail w))
    (sat_attempt ?_) ?_
  · refine sat_syncSegment h (fun s1 w1 hf hs _ h1 => ⟨hf, hs.base, h1, by simp⟩)
      (fun w1 hf h1 => ⟨fun hm _ => ⟨hf, rfl, h1, fun _ _ => hm⟩, hhalt s w1 hf h1.torn⟩)
  rintro st ⟨s1, w1⟩ ⟨hf1, hb1, h1, hst⟩
  rw [bind_get]
  -- the handles are closed, and the first error is reported
  have hrest : ∀ tr w2 tail, Frame (·.base = s.baseOffset) w w2 →
      M.tail tail → DiskSeg M.record M.strict s.baseOffset recs tail w2 →
      (∀ e, tr = .error e → MayFail w) → Sat Q E H ((do
        Segment.update Segment.closeHandles
        Prog.ofExcept st
        Prog.ofExcept tr) (s1, w2)) := by
    intro tr w2 tail hf2 ht hd htr
    rw [Segment.update, bind_modify]
    have hend := hdone s1.closeHandles w2 tail hf2 hb1 ht hd
    refine sat_then (sat_ofExcept (fun _ _ => ?_) (fun e he => hend.2 (hst e he) e))
    exact sat_ofExcept (fun _ _ => hend.1) (fun e he => hend.2 (htr e he) e)
  obtain ⟨tail, ht, hd⟩ := h1.disk
  rw [hb1] at hd
  refine sat_then (sat_attempt (sat_when (fun _ => sat_onSnd ?_)
    (fun _ => hrest _ w1 tail hf1 ht hd (by simp))))
  refine sat_truncateFile (fun w2 hu => ?_) (fun w2 hf => ⟨fun hm _ => ?_, ?_⟩)
  · refine hrest _ w2 [] (hf1.trans (hu.frame.at_base hb1)) M.tail_nil ⟨?_, hd.run, ?_⟩ (by simp)
    · obtain ⟨f, tail', hfile, hdata, -⟩ := h1.log
      have hpath : ⟨s.baseOffset, .log⟩ = s1.logPath := by rw [Segment.logPath, hb1]
      refine ⟨File.truncate s1.endPosition f, ?_, ?_⟩
      · rw [hpath, hu.file, hfile, Option.map_some]
      · rw [truncate_data (by rw [hdata, h1.ends]; simp), hdata, h1.ends, take_left, append_nil]
    · rw [bytes_congr (hu.frame.others _ (by simp [Segment.logPath]))]
      exact hd.entries
  · exact hrest _ w2 tail (hf1.trans hf.widen) ht (hd.frame hf (fun _ _ h => h))
      (fun _ _ => hf1.mayFail hm)
  · exact hhalt s1 w2 (hf1.trans hf.widen) ⟨tail, ht, (hd.frame hf (fun _ _ h => h)).weaken⟩

/-- One `remove` whose error is dropped: if nothing fails the file is gone. -/
theorem sat_removeDropped {Q : Except Status Unit → Segment × World → Prop}
    (hok : ∀ r w', Frame (· = p) w w' → (w'.file p = none ∨ MayFail w) →
      (∀ e, r = .error e → MayFail w) → Q r (s, w')) (hhalt : ∀ w', Steady w w' → H (s, w')) :
    Sat Q E H ((Prog.onSnd (removeFile p)).attempt (s, w)) :=
  sat_attempt (sat_onSnd (sat_removeFile (fun w' hf hn => hok _ w' hf (.inl hn) (by simp))
    (fun w' hf => ⟨fun hm _ => hok _ w' hf.widen (.inr hm) (fun _ _ => hm), hhalt w' hf⟩)))

/-- **Deleting a segment**: if nothing fails all its files are gone; a crash or an error has
    removed the log file or nothing but index files. -/
theorem sat_deleteSegment (hok : ∀ w', Frame (·.base = s.baseOffset) w w' →
      (¬ MayFail w → ∀ p, p.base = s.baseOffset → w'.file p = none) → Q () (s, w'))
    (herr : ∀ e w', Frame (·.base = s.baseOffset) w w' → MayFail w → E e (s, w'))
    (hhalt : ∀ w', Frame (·.base = s.baseOffset) w w' →
      (w'.file s.logPath = none ∨ MayFail w ∨ ∀ p, w'.file p = w.file p) → H (s, w')) :
    Sat Q E H (Segment.delete (s, w)) := by
  unfold Segment.delete
  rw [bind_get]
  refine sat_then (sat_removeDropped ?_
    (fun w1 hf => hhalt w1 hf.widen (.inr (.inr (fun p => hf.same p)))))
  intro _ w1 hf hn1 _
  have hf1 : Frame (·.base = s.baseOffset) w w1 := hf.at_base rfl
  have hgone : ∀ {w₂ : World}, w₂.file ⟨s.baseOffset, .log⟩ = w1.file ⟨s.baseOffset, .log⟩ →
      w₂.file s.logPath = none ∨ MayFail w ∨ ∀ p, w₂.file p = w.file p := by
    intro w₂ hsame
    by_cases hm : MayFail w
    · exact .inr (.inl hm)
    · exact .inl (hsame.trans (hn1.resolve_right hm))
  refine sat_then (sat_removeDropped ?_
    (fun w2 hf => hhalt w2 (hf1.trans hf.widen) (hgone (hf.same _))))
  intro _ w2 hf hn2 _
  have hf2 : Frame (·.base = s.baseOffset) w w2 := hf1.trans (hf.at_base rfl)
  have hlog2 : w2.file ⟨s.baseOffset, .log⟩ = w1.file ⟨s.baseOffset, .log⟩ := hf.others _ (by simp)
  refine sat_then (sat_removeDropped ?_ (fun w3 hf => hhalt w3 (hf2.trans hf.widen)
    (hgone ((hf.same _).trans hlog2))))
  intro r w3 hf hn3 he3
  have hf3 : Frame (·.base = s.baseOffset) w w3 := hf2.trans (hf.at_base rfl)
  cases r with
  | error e => exact herr _ w3 hf3 (hf2.mayFail (he3 e rfl))
  | ok a =>
    refine hok w3 hf3 (fun hm => ?_)
    rintro ⟨b, kind⟩ hb
    subst hb
    cases kind with
    | log =>
      rw [hf.others _ (by simp), hlog2]
      exact hn1.resolve_right hm
    | index =>
      rw [hf.others _ (by simp)]
      exact hn2.resolve_right (fun h => hm (hf1.mayFail h))
    | tindex => exact hn3.resolve_right (fun h => hm (hf2.mayFail h))

end PulseLog

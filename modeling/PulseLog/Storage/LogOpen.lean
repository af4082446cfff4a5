/-
  Subject:   Opening a log: `PartitionLog::Open` and `LoadSegments`.

  The segments of the directory are opened and recovered in the order of their bases. A segment
  whose files hold the records `g.2` and a tail comes back with the records recovery finds there
  (`Found`). An open that fails or dies leaves some segments recovered and the others as they were.

  * **`sat_openLog`** -- an open that returns gives the invariant of an open log; one that does not
    leaves a directory of the segments as found or as they were (`Interrupted`).
-/
import PulseLog.Storage.LogTrim

namespace PulseLog

open List IndexFormat PartitionLog

/-! ## 1. Directories that can be opened -/

/-- What recovery makes of a segment; `T` says what can lie behind its records. -/
def Found (T : SegView → Bytes → Prop) (g g' : SegView) : Prop :=
  g'.1 = g.1 ∧ ∃ tail rest, T g tail ∧ Rescanned g.1 g.2 tail g'.2 rest

/-- Recovery cuts nothing off the segment. -/
def Whole (T : SegView → Bytes → Prop) (g : SegView) : Prop :=
  ∀ tail recs' rest, T g tail → Rescanned g.1 g.2 tail recs' rest → rest = []

/-- The log files hold the same bytes, and the index files the same entries. -/
structure SameRecords (w w' : World) : Prop where
  logs : ∀ b, (w'.file ⟨b, .log⟩).map File.data = (w.file ⟨b, .log⟩).map File.data
  index : ∀ b, SameEntries offsetFormat ⟨b, .index⟩ w w'

/-- A directory whose recovery keeps the promises of the run. -/
structure Openable (M : LogMode) (T : SegView → Bytes → Prop) (segs : List SegView) (w : World) :
    Prop where
  disk : DiskLog M M.strict T segs w
  recovers : ∀ g ∈ segs, ∀ tail, T g tail → Recovers M.toMode g.1 g.2 tail
  chain : ∀ views, Forall₂ (fun g g' => g' = g ∨ Found T g g') segs views →
    views.IsChain (fun g g' => M.link g g'.1)
  durable : M.durable → ∀ g ∈ segs, ∀ f, w.file ⟨g.1, .log⟩ = some f → f.unsynced = []
  calm : MayFail w → M.faulty

/-- A segment when the open ended early: as it was, or as it was found. -/
inductive SegLeft (M : LogMode) (T : SegView → Bytes → Prop) (w : World) (g : SegView) :
    SegView → Prop
  | kept {tail : Bytes} (ht : T g tail) (h : DiskSeg M.record False g.1 g.2 tail w) :
      SegLeft M T w g g
  | found {g' : SegView} (hf : Found T g g') (h : Torn M.toMode g'.1 g'.2 [] w) :
      SegLeft M T w g g'

/-- **What an open that did not return leaves.** In an empty directory it may have made the first
    file. -/
def Interrupted (M : LogMode) (T : SegView → Bytes → Prop) (segs : List SegView) (w : World) :
    Prop :=
  ∃ views, (Forall₂ (SegLeft M T w) segs views ∨
      segs = [] ∧ views = [(0, [])] ∧ Torn M.toMode 0 [] [] w) ∧
    Listing M (fun _ => False) views w

/-- **What an open that returned gives.** -/
structure OpenLog (M : LogMode) (T : SegView → Bytes → Prop) (segs views : List SegView)
    (g : SegView) (l : PartitionLog) (w : World) : Prop where
  found : segs = [] ∧ views = [] ∧ g = (0, []) ∨ Forall₂ (Found T) segs (views ++ [g])
  inv : ∀ e, LogInv M e views g l w
  flushed : l.flushedOffset = l.logEndOffset
  unflushed : l.unflushedBytes = 0
  synced : ∀ s ∈ l.segments, s.syncedPosition = s.endPosition
  reach : segs ≠ [] ∨ l.options.preallocate = false →
    ∀ s ∈ l.segments, s.preallocatedTo = s.endPosition

/-- What a new file may hold before the first record is promised to be a tail. -/
abbrev LogMode.Spares (M : LogMode) (options : LogOptions) : Prop :=
  ∀ n, (options.preallocate = false → n = 0) → M.tail (zeros n)

variable {M : LogMode} {S : Nat → Prop} {T : SegView → Bytes → Prop} {w w' w1 w2 : World}
  {segs done views todo : List SegView} {g g' : SegView} {l : PartitionLog} {s : Segment}
  {options : LogOptions} {now : Int}

theorem SameRecords.of_none (h : Steady w w') : SameRecords w w' :=
  ⟨fun b => by rw [h.same], fun b => .congr (h.same _)⟩

theorem SameRecords.trans {w'' : World} (h : SameRecords w w') (h' : SameRecords w' w'') :
    SameRecords w w'' :=
  ⟨fun b => (h'.logs b).trans (h.logs b), fun b => (h.index b).trans (h'.index b)⟩

/-- Work on one segment that left its log file and its entries alone. -/
theorem SameRecords.of_base {base : Nat} (h : Frame (·.base = base) w w')
    (hlog : w'.file ⟨base, .log⟩ = w.file ⟨base, .log⟩)
    (hi : SameEntries offsetFormat ⟨base, .index⟩ w w') : SameRecords w w' := by
  refine ⟨fun b => ?_, fun b => ?_⟩ <;> by_cases hb : b = base
  · rw [hb, hlog]
  · rw [h.others _ hb]
  · rw [hb]
    exact hi
  · exact .congr (h.others _ hb)

theorem Found.base (h : Found T g g') : g'.1 = g.1 := h.1

theorem found_bases (h : Forall₂ (Found T) segs views) : views.map Prod.fst = segs.map Prod.fst :=
  (forall₂_map_eq h (fun _ _ hx => hx.base.symm)).symm

/-- In front of bytes that are no record recovery finds the records there were. -/
theorem Found.eq (h : Found T g g') (hg : RunOf Good g.1 g.2)
    (hT : ∀ tail, T g tail → NoRecord (g.1 + g.2.length) tail) : g' = g := by
  obtain ⟨hb, tail, rest, ht, hr⟩ := h
  exact Prod.ext hb (hr.exact hg (hT tail ht)).1

theorem SegLeft.base (h : SegLeft M T w g g') : g'.1 = g.1 := by
  cases h with
  | kept => rfl
  | found hf => exact hf.base

theorem SegLeft.view (h : SegLeft M T w g g') : g' = g ∨ Found T g g' := by
  cases h with
  | kept => exact .inl rfl
  | found hf => exact .inr hf

theorem SegLeft.frame {P : Path → Prop} (h : SegLeft M T w g g') (hf : Frame P w w')
    (hP : ∀ p, p.base = g.1 → ¬ P p) : SegLeft M T w' g g' := by
  cases h with
  | kept ht hd => exact .kept ht (hd.frame hf hP)
  | found hF ht =>
    obtain ⟨tail, htl, hd⟩ := ht
    exact .found hF ⟨tail, htl, hd.frame hf (fun p hp => hP p (hp.trans hF.base))⟩

theorem viewStart_congr (h : views.map Prod.fst = segs.map Prod.fst) :
    viewStart views = viewStart segs := by
  rw [viewStart, viewStart, ← head?_map, ← head?_map, h]

theorem Listing.review (h : Listing M S segs w) (hb : views.map Prod.fst = segs.map Prod.fst)
    (hc : views.IsChain (fun g g' => M.link g g'.1)) : Listing M S views w := by
  refine ⟨pairwise_map.mp ?_, hc, ?_, ?_⟩
  · rw [hb]
    exact pairwise_map.mpr h.sorted
  · rw [hb]
    exact h.logs
  · rw [hb, viewStart_congr hb]
    exact h.fresh

theorem DiskLog.logBases_eq {strict : Prop} (h : DiskLog M strict T segs w) :
    w.logBases = segs.map Prod.fst := by
  refine (logBases_sorted w).eq_of_mem_iff (pairwise_map.mpr h.listing.sorted) (fun b => ?_)
  rw [mem_logBases]
  constructor
  · intro hb
    exact (h.listing.logs b hb).resolve_right (fun hf => hf)
  · intro hb
    obtain ⟨g, hg, rfl⟩ := mem_map.mp hb
    obtain ⟨tail, -, hd⟩ := h.files g hg
    obtain ⟨f, hf, -⟩ := hd.log
    rw [hf]
    rfl

theorem Openable.frame (h : Openable M T segs w) (hf : Steady w w') : Openable M T segs w' := by
  refine ⟨⟨fun g hg => ?_, h.disk.listing.frame hf (fun _ h => h.elim) (fun _ _ h => h)⟩,
    h.recovers, h.chain, fun hd g hg f hfile => ?_, fun hm => h.calm (hf.mayFail hm)⟩
  · obtain ⟨tail, ht, hd⟩ := h.disk.files g hg
    exact ⟨tail, ht, hd.frame hf (fun _ _ h => h)⟩
  · rw [hf.same] at hfile
    exact h.durable hd g hg f hfile

theorem Interrupted.frame (h : Interrupted M T segs w) (hf : Steady w w') :
    Interrupted M T segs w' := by
  obtain ⟨views, hv, hl⟩ := h
  refine ⟨views, ?_, hl.frame hf (fun _ h => h.elim) (fun _ _ h => h)⟩
  rcases hv with hv | ⟨h1, h2, tail, ht, hd⟩
  · exact .inl (hv.imp (fun _ _ hs => hs.frame hf (fun _ _ h => h)))
  · exact .inr ⟨h1, h2, tail, ht, hd.frame hf (fun _ _ h => h)⟩

/-! ## 2. One segment -/

variable {N : Mode} {P : Nat → Bytes → Prop} {strict : Prop} {base id : Nat} {pre : Bool}
  {recs : List Bytes} {tail written : Bytes} {so : SegmentOptions}

/-- A segment opened on its files is ready to be recovered. -/
theorem Opened.ready (h : Opened id base so w s w')
    (hd : DiskSeg N.record N.strict base recs tail w)
    (hdur : N.durable → ∀ f, w.file ⟨base, .log⟩ = some f → f.unsynced = []) :
    ReadyToRecover N recs tail s w' := by
  obtain ⟨f, hf, hdata⟩ := hd.log
  obtain ⟨u, hu⟩ := h.indexFile
  have hb := h.base_eq
  have hp : s.logPath = ⟨base, .log⟩ := by rw [Segment.logPath, hb]
  have hf' := h.log.same hf
  refine ⟨⟨f, by rw [hp, hf'], hdata⟩, by rw [hb]; exact hd.run, ?_, by rw [h.index, hb], ?_,
    by rw [h.timeIndex, hb], h.isOpen, fun hdu g hg => ?_, ?_⟩
  · rw [h.index]
    exact hd.entries
  · exact ⟨_, [], by rw [hb]; exact hu, by simp, by decide⟩
  · rw [hp, hf', Option.some.injEq] at hg
    exact hg ▸ hdur hdu f hf
  · rw [h.reach (.inl (by rw [hf]; rfl)), hp, World.size, World.size, bytes_of_file hf,
      bytes_of_file hf']

/-- An open that ended early has not touched the records. -/
theorem OpenedPart.diskSeg (h : OpenedPart base pre w w') (hd : DiskSeg P strict base recs tail w) :
    DiskSeg P strict base recs tail w' := by
  obtain ⟨f, hf, hdata⟩ := hd.log
  exact ⟨⟨f, h.log.same hf, hdata⟩, hd.run, by rw [h.index.kept]; exact hd.entries⟩

theorem OpenedPart.sameRecords (h : OpenedPart base pre w w')
    (hd : DiskSeg P strict base recs tail w) : SameRecords w w' := by
  obtain ⟨f, hf, -⟩ := hd.log
  exact .of_base h.frame (by rw [h.log.same hf, hf]) h.index

theorem Opened.sameRecords (h : Opened id base so w s w') (hd : DiskSeg P strict base recs tail w) :
    SameRecords w w' := by
  obtain ⟨f, hf, -⟩ := hd.log
  obtain ⟨u, hu⟩ := h.indexFile
  rw [h.index] at hu
  exact .of_base h.frame (by rw [h.log.same hf, hf]) (sameEntries_of_cut offsetFormat_lawful hu)

/-! ## 3. The loop over the segments -/

/-- An object that shows the segment `g` and has nothing left to sync or to trim. -/
structure Settled (M : LogMode) (w : World) (g : SegView) (s : Segment) : Prop where
  base_eq : s.baseOffset = g.1
  holds : SegInv M.toMode g.2 s w
  synced : s.syncedPosition = s.endPosition
  reach : s.preallocatedTo = s.endPosition

/-- Half way through `LoadSegments`: the segments `done` came back as `views`. -/
structure Loading (M : LogMode) (T : SegView → Bytes → Prop) (w : World) (done views : List SegView)
    (l : PartitionLog) (w' : World) : Prop where
  frame : Frame (fun p => p.base ∈ done.map Prod.fst) w w'
  found : Forall₂ (Found T) done views
  objects : Forall₂ (Settled M w') views l.segments
  ids : l.segments.Pairwise (fun s s' => s.id ≠ s'.id)
  nextId : ∀ s ∈ l.segments, s.id < l.nextId
  same : (∀ g ∈ done, Whole T g) → SameRecords w w'

/-- The loop ended early: the segments `done` came back, the others are as they were, but that the
    first of them may have been recovered. -/
structure LoadStopped (M : LogMode) (T : SegView → Bytes → Prop) (w : World) (segs : List SegView)
    (l : PartitionLog) (w' : World) : Prop where
  frame : Frame (fun p => p.base ∈ segs.map Prod.fst) w w'
  split : ∃ done views rest left, segs = done ++ rest ∧ Forall₂ (Found T) done views ∧
    Forall₂ (Shows M w') views l.segments ∧ Forall₂ (SegLeft M T w') rest left
  isOpen : l.closed = false
  same : (∀ g ∈ segs, Whole T g) → SameRecords w w'

theorem Settled.frame {P : Path → Prop} (h : Settled M w1 g s) (hf : Frame P w1 w2)
    (hP : ∀ p, p.base = g.1 → ¬ P p) : Settled M w2 g s :=
  ⟨h.base_eq, h.holds.frame hf (by rw [h.base_eq]; exact hP), h.synced, h.reach⟩

theorem Settled.shows (h : Settled M w1 g s) : Shows M w1 g s := ⟨h.base_eq, h.holds⟩

/-- The bases of the segments are different. -/
theorem Openable.apart (h : Openable M T segs w) (hs : segs = done ++ g :: todo) :
    g.1 ∉ done.map Prod.fst ∧ ∀ x ∈ todo, x.1 ≠ g.1 := by
  have hp := h.disk.listing.sorted
  rw [hs, pairwise_append, pairwise_cons] at hp
  refine ⟨fun hm => ?_, fun x hx => ?_⟩
  · obtain ⟨x, hx, hxg⟩ := mem_map.mp hm
    have := hp.2.2 x hx g (by simp)
    omega
  · have := hp.2.1.1 x hx
    omega

/-- The objects loaded so far are not touched by work on another segment. -/
theorem Loading.objects_frame (h : Loading M T w done views l w1) (hg : g.1 ∉ done.map Prod.fst)
    (hf : Frame (·.base = g.1) w1 w2) : Forall₂ (Settled M w2) views l.segments := by
  refine forall₂_imp_left h.objects (fun x y hx hxy => hxy.frame hf (fun p hp hp' => hg ?_))
  rw [← found_bases h.found, ← hp', hp]
  exact mem_map_of_mem hx

theorem Loading.step (h : Loading M T w done views l w1) (hg : g.1 ∉ done.map Prod.fst)
    (hf : Frame (·.base = g.1) w1 w2) (hsame : Whole T g → SameRecords w1 w2) (hF : Found T g g')
    (hs : Settled M w2 g' s) (hid : s.id = l.nextId) :
    Loading M T w (done ++ [g]) (views ++ [g'])
      { l with segments := l.segments ++ [s], nextId := l.nextId + 1 } w2 := by
  have hids := Ids.push ⟨h.ids, h.nextId⟩ hid
  refine ⟨(h.frame.mono (fun p hp => ?_)).trans (hf.mono (fun p hp => ?_)),
    rel_append h.found (.cons hF .nil),
    rel_append (h.objects_frame hg hf) (.cons hs .nil), hids.1, hids.2, fun hw => ?_⟩
  · rw [map_append]
    exact mem_append_left _ hp
  · simp [hp]
  · exact (h.same (fun x hx => hw x (mem_append_left _ hx))).trans (hsame (hw g (by simp)))

variable (hopen : Openable M T segs w)

include hopen

/-- The segments still to be loaded are as they were. -/
theorem Loading.ahead (h : Loading M T w done views l w1) (hs : segs = done ++ todo) :
    ∀ x ∈ todo, ∃ tail, T x tail ∧
      DiskSeg M.record M.strict x.1 x.2 tail w1 := by
  intro x hx
  obtain ⟨tail, ht, hd⟩ := hopen.disk.files x (by rw [hs]; exact mem_append_right _ hx)
  refine ⟨tail, ht, hd.frame h.frame (fun p hp hp' => ?_)⟩
  obtain ⟨pre, post, rfl⟩ := append_of_mem hx
  have hap := (hopen.apart (hs.trans (append_assoc done pre (x :: post)).symm)).1
  rw [hp] at hp'
  exact hap (by rw [map_append]; exact mem_append_left _ hp')

theorem Loading.stopped (h : Loading M T w done views l w1) (hs : segs = done ++ g :: todo)
    (hl : l.closed = false) (hf : Frame (·.base = g.1) w1 w2)
    (hsame : Whole T g → SameRecords w1 w2) (hleft : SegLeft M T w2 g g') :
    LoadStopped M T w segs l w2 := by
  have hrest : Forall₂ (SegLeft M T w2) todo todo := by
    refine forall₂_same.mpr (fun x hx => ?_)
    obtain ⟨tail, ht, hd⟩ := h.ahead hopen hs x (mem_cons_of_mem _ hx)
    refine .kept ht (hd.frame hf (fun p hp hp' => ?_)).weaken
    exact (hopen.apart hs).2 x hx (hp.symm.trans hp')
  refine ⟨(h.frame.mono (fun p hp => ?_)).trans (hf.mono (fun p hp => ?_)),
    ⟨done, views, g :: todo, g' :: todo, hs, h.found, ?_, .cons hleft hrest⟩, hl, fun hw => ?_⟩
  · rw [hs, map_append]
    exact mem_append_left _ hp
  · simp [hs, hp]
  · exact (h.objects_frame (hopen.apart hs).1 hf).imp (fun _ _ hx => hx.shows)
  · exact (h.same (fun x hx => hw x (by rw [hs]; exact mem_append_left _ hx))).trans
      (hsame (hw g (by rw [hs]; simp)))

theorem sat_loadEach : ∀ (todo done views : List SegView)
    (rep : RecoveryReport) (l : PartitionLog) (w1 : World), segs = done ++ todo →
    l.closed = false → Loading M T w done views l w1 →
    Sat (fun _ t => ∃ views' ss n, t.1 = { l with segments := ss, nextId := n } ∧
        Loading M T w segs views' t.1 t.2)
      (fun _ t => LoadStopped M T w segs t.1 t.2 ∧ MayFail w)
      (fun t => LoadStopped M T w segs t.1 t.2)
      (loadEach (todo.map Prod.fst) rep (l, w1))
  | [], done, views, rep, l, w1, hs, _, h => by
    rw [append_nil] at hs
    subst hs
    exact ⟨views, l.segments, l.nextId, rfl, h⟩
  | g :: todo, done, views, rep, l, w1, hs, hl, h => by
    obtain ⟨hgdone, hgtodo⟩ := hopen.apart hs
    obtain ⟨tail, ht, hd⟩ := h.ahead hopen hs g mem_cons_self
    have hgmem : g ∈ segs := by rw [hs]; simp
    have hfail : MayFail w1 → MayFail w := h.frame.mayFail
    have hlog : w1.file ⟨g.1, .log⟩ = w.file ⟨g.1, .log⟩ := h.frame.others _ hgdone
    simp only [map_cons, loadEach]
    rw [bind_get]
    -- 1. the files are opened
    have hopened : ∀ {w2}, OpenedPart g.1 l.options.preallocate w1 w2 →
        LoadStopped M T w segs l w2 := fun ho =>
      h.stopped hopen hs hl ho.frame (fun _ => ho.sameRecords hd) (.kept ht (ho.diskSeg hd).weaken)
    refine sat_then (sat_onSnd (sat_openSegment ?_ (fun w2 ho =>
      ⟨fun hm _ => ⟨hopened ho, hfail hm⟩, hopened ho⟩)))
    intro s w2 ho
    have hb := ho.base_eq
    have hready : ReadyToRecover M.toMode g.2 tail s w2 := ho.ready hd (fun hdu f hf => by
      rw [hlog] at hf
      exact hopen.durable hdu g hgmem f hf)
    have hpart : ∀ {w3}, Frame (·.base = s.baseOffset) w2 w3 →
        RecoverPart M.toMode g.2 tail s.baseOffset w2 w3 → LoadStopped M T w segs l w3 := by
      intro w3 hf hr
      rw [hb] at hf hr
      have hf' := ho.frame.trans hf
      cases hr with
      | untouched hnone hd' =>
        exact h.stopped hopen hs hl hf' (fun _ => (ho.sameRecords hd).trans (.of_none hnone))
          (.kept ht hd')
      | cut recs' rest hne hres hd' =>
        have hleft : SegLeft M T w3 g (g.1, recs') :=
          .found ⟨rfl, tail, rest, ht, hres⟩ ⟨[], M.tail_nil, hd'⟩
        exact h.stopped hopen hs hl hf' (fun hw => absurd (hw _ _ _ ht hres) hne) hleft
    -- 2. the segment is recovered
    refine sat_then (sat_onSnd (sat_runOn (sat_recover hready
      (by rw [hb]; exact hopen.recovers g hgmem tail ht) ?_ (fun s' w3 hf hr =>
        ⟨fun hm _ => ⟨hpart hf hr, hfail (ho.frame.mayFail hm)⟩, hpart hf hr⟩))))
    intro _ s' w3 recs' rest hf hobj hsy hre hfree hres hinv
    rw [hb] at hf hres
    have hF : Found T g (g.1, recs') := ⟨rfl, tail, rest, ht, hres⟩
    have hsame : Whole T g → SameRecords w1 w3 := fun hw =>
      (ho.sameRecords hd).trans (.of_none (hfree (hw _ _ _ ht hres)))
    have hnext := h.step hgdone (ho.frame.trans hf) hsame hF
      ⟨hobj.base.trans hb, hinv, hsy, hre⟩ (hobj.id.trans ho.id_eq)
    exact sat_loadEach todo (done ++ [g]) (views ++ [(g.1, recs')]) _ _ w3 (by rw [hs]; simp)
      hl hnext

/-! ## 4. The whole open -/

/-- The segments as found or as they were make a directory. -/
theorem Openable.interrupted {rest left : List SegView} (hs : segs = done ++ rest)
    (hf : Frame (fun p => p.base ∈ segs.map Prod.fst) w w1) (hF : Forall₂ (Found T) done views)
    (ht : ∀ x ∈ views, Torn M.toMode x.1 x.2 [] w1) (hleft : Forall₂ (SegLeft M T w1) rest left) :
    Interrupted M T segs w1 := by
  have hdone : Forall₂ (SegLeft M T w1) done views := by
    have hF' : Forall₂ (fun x y => Found T y x) views done := hF.flip
    exact (forall₂_imp_left hF' (fun x y hx hxy => SegLeft.found hxy (ht x hx))).flip
  have hall : Forall₂ (SegLeft M T w1) segs (views ++ left) := by
    rw [hs]
    exact rel_append hdone hleft
  refine ⟨views ++ left, .inl hall, ?_⟩
  refine (hopen.disk.listing.frame hf (fun _ h => h) (fun _ _ h => h)).review ?_ ?_
  · exact (forall₂_map_eq hall (fun _ _ hx => hx.base.symm)).symm
  · exact hopen.chain _ (hall.imp (fun _ _ hx => hx.view))

/-- `LoadSegments` ended early: in its loop, or in front of the first file of an empty directory. -/
def Unloaded (M : LogMode) (T : SegView → Bytes → Prop) (w : World) (segs : List SegView)
    (l : PartitionLog) (w' : World) : Prop :=
  LoadStopped M T w segs l w' ∨
    segs = [] ∧ l.segments = [] ∧ l.closed = false ∧ Interrupted M T segs w'

theorem Unloaded.interrupted (h : Unloaded M T w segs l w1) : Interrupted M T segs w1 := by
  rcases h with h | ⟨-, -, -, h⟩
  · obtain ⟨done, views, rest, left, hs, hF, hsh, hleft⟩ := h.split
    refine hopen.interrupted hs h.frame hF (fun x hx => ?_) hleft
    obtain ⟨s, -, hx⟩ := forall₂_exists_right hsh hx
    have ht := hx.2.torn
    rwa [hx.1] at ht
  · exact h

omit hopen in
theorem Unloaded.same (h : Unloaded M T w segs l w1) (hne : segs ≠ [])
    (hw : ∀ g ∈ segs, Whole T g) : SameRecords w w1 := by
  rcases h with h | ⟨h, -⟩
  · exact h.same hw
  · exact absurd h hne

/-- The destructor of a log that did not load. -/
theorem sat_closeUnloaded (h : Unloaded M T w segs l w1) :
    Sat (fun _ t => Interrupted M T segs t.2) (fun _ t => Interrupted M T segs t.2)
      (fun t => Interrupted M T segs t.2) (close (l, w1)) := by
  have hall : ∃ views, Forall₂ (Shows M w1) views l.segments ∧
      views.Pairwise (fun x y => x.1 < y.1) ∧ l.closed = false ∧
      ∀ w2, Frame (fun p => p.base ∈ views.map Prod.fst) w1 w2 →
        (∀ x ∈ views, Torn M.toMode x.1 x.2 [] w2) → Interrupted M T segs w2 := by
    rcases h with h | ⟨-, h2, h3, h4⟩
    · obtain ⟨done, views, rest, left, hs, hF, hsh, hleft⟩ := h.split
      have hb := found_bases hF
      have hsort := hopen.disk.listing.sorted
      rw [hs, pairwise_append] at hsort
      refine ⟨views, hsh, ?_, h.isOpen, fun w2 hf ht => ?_⟩
      · refine pairwise_map.mp ?_
        rw [hb]
        exact pairwise_map.mpr hsort.1
      · rw [hb] at hf
        have hleft' : Forall₂ (SegLeft M T w2) rest left := by
          refine forall₂_imp_left hleft (fun x y hx hxy => hxy.frame hf (fun p hp hp' => ?_))
          obtain ⟨z, hz, hzx⟩ := mem_map.mp hp'
          have := hsort.2.2 z hz x hx
          omega
        refine hopen.interrupted hs (h.frame.trans (hf.mono (fun p hp => ?_))) hF ht hleft'
        rw [hs, map_append]
        exact mem_append_left _ hp
    · rw [h2]
      exact ⟨[], .nil, .nil, h3, fun w2 hf _ => h4.frame (hf.mono (fun p hp => by simp at hp))⟩
  obtain ⟨views, hsh, hsort, hl, hdone⟩ := hall
  exact sat_closeWith hl hsh hsort (fun w2 hf hs => hdone w2 hf (fun x hx => (hs x hx).torn)) hdone

/-- The log object over the segments that were loaded. -/
theorem Loading.openLog {ss : List Segment} {n : Nat}
    (h : Loading M T w segs views { make options now with segments := ss, nextId := n } w1)
    (hne : segs ≠ []) (hspare : M.Spares options) :
    ∃ views' g, OpenLog M T segs views' g { make options now with
      segments := ss
      nextId := n
      active := ss.getLast?.map Segment.id
      logStartOffset := (ss.head?.map Segment.baseOffset).getD 0
      logEndOffset := (ss.getLast?.map Segment.nextOffset).getD 0
      flushedOffset := (ss.getLast?.map Segment.nextOffset).getD 0 } w1 := by
  rcases eq_nil_or_concat' views with rfl | ⟨views', g, rfl⟩
  · exact absurd (forall₂_nil_right_iff.mp h.found) hne
  obtain ⟨olds, a, hss, holds, ha⟩ := forall₂_concat_left h.objects
  subst hss
  have hbase : (views' ++ [g]).map Prod.fst = (olds ++ [a]).map Segment.baseOffset :=
    forall₂_map_eq h.objects (fun _ _ hx => hx.base_eq.symm)
  have hlist : Listing M (fun _ => False) (views' ++ [g]) w1 := by
    refine (hopen.disk.listing.frame h.frame (fun _ h => h) (fun _ _ h => h)).review ?_ ?_
    · exact found_bases h.found
    · exact hopen.chain _ (h.found.imp (fun _ _ hx => .inr hx))
  have hstart : ((olds ++ [a]).head?.map Segment.baseOffset).getD 0 =
      viewStart (views' ++ [g]) := by
    rw [viewStart, ← head?_map, ← head?_map, hbase]
  have hend : ((olds ++ [a]).getLast?.map Segment.nextOffset).getD 0 = g.1 + g.2.length := by
    rw [getLast?_concat, Option.map_some, Option.getD_some, ha.holds.next, ha.base_eq]
  refine ⟨views', g, .inr h.found, fun e => ?_, rfl, rfl, fun s hs => ?_, fun _ s hs => ?_⟩
  · refine ⟨⟨olds, a, rfl, by simp, ?_, .synced ha.base_eq ha.holds ha.synced⟩, h.ids, h.nextId,
      hstart, hend, le_rfl, rfl, hspare, fun hm => hopen.calm (h.frame.mayFail hm),
      hlist.mono (fun _ h => h.elim)⟩
    exact holds_of_forall₂ (holds.imp (fun _ _ hx => .synced hx.base_eq hx.holds hx.synced))
  · obtain ⟨x, -, hx⟩ := forall₂_exists_left h.objects hs
    exact hx.synced
  · obtain ⟨x, -, hx⟩ := forall₂_exists_left h.objects hs
    exact hx.reach

omit hopen

theorem Listing.first (h : Listing M (fun _ => False) [] w) (hf : Frame (·.base = 0) w w1) :
    Listing M S [(0, [])] w1 := by
  refine ⟨pairwise_singleton _ _, isChain_singleton _, fun b hb => ?_, fun b _ hn => ?_⟩
  · by_cases h0 : b = 0
    · exact .inl (by simp [h0])
    · rw [hf.others _ h0] at hb
      exact absurd (h.logs b hb) (by simp)
  · have h0 : b ≠ 0 := fun h0 => hn (by simp [h0])
    rw [bytes_congr (hf.others _ h0)]
    exact h.fresh b (Nat.zero_le _) (by simp)

theorem Opened.openLog (h : Opened 0 0 options.segmentOptions w s w1) (hopen : Openable M T [] w)
    (hspare : M.Spares options) :
    OpenLog M T [] [] (0, []) { make options now with
      segments := [s], active := some s.id, nextId := 1 } w1 := by
  have hlist := hopen.disk.listing
  have hnone : w.file ⟨0, .log⟩ = none := by
    by_contra hs
    rcases hlist.logs 0 (Option.isSome_iff_ne_none.mpr hs) with h0 | h0
    · simp at h0
    · exact h0
  have hinv : SegInv M.toMode [] s w1 := by
    refine h.segInv ?_ ?_
    · rw [hlist.fresh 0 (Nat.zero_le _) (by simp)]
      exact entriesOk_nil
    · rcases h.log with hl | ⟨-, n, hn, hz⟩
      · have hm := h.made
        rw [hl, hnone] at hm
        cases hm
      · exact ⟨_, hn, hspare n hz⟩
  have hsync : s.syncedPosition = s.endPosition := by rw [h.synced, h.ends]
  refine ⟨.inl ⟨rfl, rfl, rfl⟩, fun e => ?_, rfl, rfl, fun x hx => ?_, fun hp x hx => ?_⟩
  · refine ⟨⟨[], s, rfl, rfl, .nil, .synced h.base_eq hinv hsync⟩, pairwise_singleton _ _,
      fun x hx => ?_, rfl, rfl, le_rfl, rfl, hspare, fun hm => hopen.calm (h.frame.mayFail hm),
      hlist.first h.frame⟩
    rw [mem_singleton.mp hx, h.id_eq]
    exact Nat.zero_lt_one
  · rw [mem_singleton.mp hx]
    exact hsync
  · rw [mem_singleton.mp hx, h.ends, h.reach (.inr (hp.resolve_left (fun h0 => h0 rfl))),
      World.size, World.bytes, hnone]
    rfl

theorem OpenedPart.interrupted (h : OpenedPart 0 options.preallocate w w1)
    (hopen : Openable M T [] w) (hspare : M.Spares options) : Interrupted M T [] w1 := by
  have hlist := hopen.disk.listing
  have hfresh : offsetFormat.kept (w1.bytes ⟨0, .index⟩) = [] := by
    rw [h.index.kept]
    exact hlist.fresh 0 (Nat.zero_le _) (by simp)
  rcases h.log with hl | ⟨-, n, hn, hz⟩
  · refine ⟨[], .inl .nil, .nil, isChain_nil, fun b hb => ?_, fun b _ _ => ?_⟩ <;>
      by_cases h0 : b = 0
    · subst h0
      rw [hl] at hb
      exact hlist.logs 0 hb
    · rw [h.frame.others _ h0] at hb
      exact hlist.logs b hb
    · rw [h0]
      exact hfresh
    · rw [bytes_congr (h.frame.others _ h0)]
      exact hlist.fresh b (Nat.zero_le _) (by simp)
  · refine ⟨[(0, [])], .inr ⟨rfl, rfl, zeros n, hspare n hz, ⟨_, hn, by simp⟩, trivial, ?_⟩,
      hlist.first h.frame⟩
    rw [hfresh]
    exact entriesOk_nil

theorem sat_loadSegments (hopen : Openable M T segs w) (hspare : M.Spares options) :
    Sat (fun _ t => t.1.options = options ∧ (∃ views g, OpenLog M T segs views g t.1 t.2) ∧
        (segs ≠ [] → (∀ g ∈ segs, Whole T g) → SameRecords w t.2))
      (fun _ t => Unloaded M T w segs t.1 t.2 ∧ MayFail w)
      (fun t => Unloaded M T w segs t.1 t.2)
      (loadSegments (make options now, w)) := by
  unfold loadSegments
  rw [bind_get]
  rw [hopen.disk.logBases_eq]
  cases segs with
  | nil =>
    refine sat_then (sat_onSnd (sat_openSegment ?_ (fun w1 ho => ?_)))
    rotate_left
    · have hun : Unloaded M T w [] (make options now) w1 :=
        .inr ⟨rfl, rfl, rfl, ho.interrupted hopen hspare⟩
      exact ⟨fun hm _ => ⟨hun, hm⟩, hun⟩
    intro s w1 ho
    exact ⟨rfl, ⟨[], (0, []), ho.openLog hopen hspare⟩, fun h0 => absurd rfl h0⟩
  | cons g0 segs0 =>
    have hstart : Loading M T w [] [] (make options now) w :=
      ⟨Frame.refl _ _, .nil, .nil, .nil, fun s hs => absurd hs not_mem_nil,
        fun _ => .of_none (Frame.refl _ _)⟩
    refine sat_then (sat_mono (sat_loadEach hopen (g0 :: segs0) [] [] _ _ w rfl rfl hstart) ?_
      (fun _ _ h => ⟨.inl h.1, h.2⟩) (fun _ h => .inl h))
    rintro rep ⟨_, w1⟩ ⟨views, ss, n, rfl, hload⟩
    exact ⟨rfl, hload.openLog hopen (by simp) hspare, fun _ hw => hload.same hw⟩

theorem sat_openLog (hopen : Openable M T segs w) (hspare : M.Spares options) :
    Sat (fun r w' => r.1.options = options ∧ (∃ views g, OpenLog M T segs views g r.1 w') ∧
        (segs ≠ [] → (∀ g ∈ segs, Whole T g) → SameRecords w w'))
      (fun _ w' => Interrupted M T segs w' ∧ MayFail w)
      (fun w' => Interrupted M T segs w' ∧
        (segs ≠ [] → (∀ g ∈ segs, Whole T g) → SameRecords w w' ∨ MayFail w))
      (openLog options w) := by
  have hnone : ∀ {w1}, Steady w w1 → Interrupted M T segs w1 := by
    intro w1 hf
    refine hopen.interrupted rfl hf.widen .nil (by simp) (forall₂_same.mpr (fun x hx => ?_))
    obtain ⟨tail, ht, hd⟩ := hopen.disk.files x hx
    exact .kept ht (hd.frame hf (fun _ _ h => h)).weaken
  refine sat_then (sat_ensureDirectory ?_ (fun w1 hf =>
    ⟨fun hm _ => ⟨hnone hf, hm⟩, hnone hf, fun _ _ => .inl (.of_none hf)⟩))
  intro w1 hf1
  refine sat_then (sat_clockMillis (fun now w2 hd hfl _ => ?_))
  have hf2 : Steady w w2 := hf1.trans (.of_dir hd hfl)
  have hopen2 := hopen.frame hf2
  refine sat_then (sat_runOn (sat_attempt (sat_mono (sat_loadSegments hopen2 hspare)
    (fun _ t ht => ?_) (fun e t ht => ?_)
      (fun t ht => ⟨ht.interrupted hopen2, fun hne hw => .inl ?_⟩))))
  · exact ⟨ht.1, ht.2.1, fun hne hw => (SameRecords.of_none hf2).trans (ht.2.2 hne hw)⟩
  · have hm' := hf2.mayFail ht.2
    exact sat_then (sat_runOn (sat_attempt (sat_mono (sat_closeUnloaded hopen2 ht.1)
      (fun _ _ h => ⟨h, hm'⟩) (fun _ _ h => ⟨h, hm'⟩) (fun _ h => ⟨h, fun _ _ => .inr hm'⟩))))
  · exact (SameRecords.of_none hf2).trans (ht.same hne hw)

/-! ## 5. Between two calls

The invariants speak of the files. They do not depend on what the system has in store for the
next call, and they survive another reader of the same files. -/

variable {fl e : Nat} {ss : List Segment}

theorem SegHolds.of_dir (h : SegHolds N strict recs written s w) (hd : w'.dir = w.dir) :
    SegHolds N strict recs written s w' := by
  obtain ⟨d, _, _, _⟩ := w
  cases hd
  exact { h with }

theorem Holds.of_dir (h : Holds M fl w segs ss) (hd : w'.dir = w.dir) : Holds M fl w' segs ss := by
  induction h with
  | nil => exact .nil
  | seg h _ ih => exact .seg ⟨h.base_eq, h.holds.of_dir hd, h.flushed⟩ ih
  | idle hm he hs hn _ ih => exact .idle hm he hs hn ih

theorem Listing.of_dir {S' : Nat → Prop} (h : Listing M S segs w) (hd : w'.dir = w.dir)
    (hS : ∀ b, S b → S' b) : Listing M S' segs w' := by
  obtain ⟨d, _, _, _⟩ := w
  cases hd
  exact { h.mono hS with }

theorem LogInv.of_dir (h : LogInv M e segs g l w) (hd : w'.dir = w.dir)
    (hc : MayFail w' → M.faulty) : LogInv M e segs g l w' := by
  obtain ⟨olds, a, hl, ha, ho, hg⟩ := h.objects
  exact { h with
    objects := ⟨olds, a, hl, ha, ho.of_dir hd, hg.base_eq, hg.holds.of_dir hd, hg.flushed⟩
    calm := hc
    listing := h.listing.of_dir hd (fun _ hb => ⟨hb.1, hb.2.1, hb.2.2.congr (file_congr hd _)⟩) }

theorem not_mayFail {w : World} (h : w.faults = []) : ¬ MayFail w := by
  rintro ⟨n, e, hm⟩
  rw [h] at hm
  cases hm

/-- A call during which nothing fails. -/
theorem LogInv.under {env : Env} (h : LogInv M e segs g l w) (hf : ¬ MayFail (w.under env)) :
    LogInv M e segs g l (w.under env) :=
  h.of_dir rfl (fun hm => absurd hm hf)

theorem DiskLog.of_dir (h : DiskLog M strict T segs w) (hd : w'.dir = w.dir) :
    DiskLog M strict T segs w' := by
  refine ⟨fun x hx => ?_, h.listing.of_dir hd (fun _ h => h)⟩
  obtain ⟨tail, ht, hs⟩ := h.files x hx
  refine ⟨tail, ht, by rw [file_congr hd]; exact hs.log, hs.run, ?_⟩
  rw [bytes_congr (file_congr hd _)]
  exact hs.entries

theorem SameRecords.of_dir (hd : w'.dir = w.dir) : SameRecords w w' :=
  ⟨fun b => by rw [file_congr hd], fun b => .congr (file_congr hd _)⟩

theorem SegHolds.sameRecords (h : SegHolds N strict recs written s w) (hs : SameRecords w w')
    (hd : ¬ N.durable) : SegHolds N strict recs written s w' := by
  obtain ⟨f, tail, hf, hdata, ht⟩ := h.log
  have hlog := hs.logs s.baseOffset
  rw [show ⟨s.baseOffset, .log⟩ = s.logPath from rfl, hf, Option.map_some,
    Option.map_eq_some_iff] at hlog
  obtain ⟨f', hf', hdata'⟩ := hlog
  have hk := h.entries.kept h.indexFile
  have hi := (hs.index s.baseOffset).holds
  rw [hk] at hi
  exact { h with
    log := ⟨f', tail, hf', by rw [hdata', hdata], ht⟩
    indexFile := hi h.indexFile
    durable := fun hdu => absurd hdu hd }

theorem ObjInv.sameRecords (h : ObjInv M fl g s w) (hs : SameRecords w w') (hd : ¬ M.durable) :
    ObjInv M fl g s w' :=
  ⟨h.base_eq, h.holds.sameRecords hs hd, h.flushed⟩

theorem Holds.sameRecords (h : Holds M fl w segs ss) (hs : SameRecords w w') (hd : ¬ M.durable) :
    Holds M fl w' segs ss := by
  induction h with
  | nil => exact .nil
  | seg h _ ih => exact .seg (h.sameRecords hs hd) ih
  | idle hm he hy hn _ ih => exact .idle hm he hy hn ih

/-- **An open log survives another reader of its files.** -/
theorem LogInv.sameRecords (h : LogInv M e segs g l w) (hs : SameRecords w w') (hd : ¬ M.durable)
    (hf : ¬ M.faulty) (hc : MayFail w' → M.faulty) : LogInv M e segs g l w' := by
  obtain ⟨olds, a, hl, ha, ho, hg⟩ := h.objects
  refine { h with
    objects := ⟨olds, a, hl, ha, ho.sameRecords hs hd, hg.sameRecords hs hd⟩
    calm := hc
    listing := { h.listing with logs := fun b hb => ?_, fresh := fun b hle hn => ?_ } }
  · have hsome : (w.file ⟨b, .log⟩).isSome := by
      rw [← Option.isSome_map, ← hs.logs b, Option.isSome_map]
      exact hb
    exact (h.listing.logs b hsome).imp id (fun hx => absurd hx.1 hf)
  · rw [(hs.index b).kept]
    exact h.listing.fresh b hle hn

end PulseLog

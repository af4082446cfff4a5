/-
  Subject:   What a partition log has to do with the files of its directory.

  The ghost state of a log is the list of its segments with their records: the sealed ones
  `segs`, and the active one `g`.

  * **`LogInv.fall`** -- a crash leaves the directory of the same records (`Residue`): the bytes of
    an append in flight stand behind those of the active segment, and the file of a roll in
    flight may stand behind it.
-/
import Mathlib.Data.List.Chain
import PulseLog.Storage.LogRead
import PulseLog.Storage.Recover

namespace PulseLog

open List

/-! ## 1. The invariant -/

/-- What is promised about the segments of a run and about the log as a whole. -/
structure LogMode extends Mode where
  link : SegView → Nat → Prop
  link_roll : ∀ g : SegView, g.2 ≠ [] → link g (g.1 + g.2.length)
  shared : Prop
  faulty : Prop

/-- An object that shows the segment `g`; its records below the offset `fl` are synced. -/
structure ObjInv (M : LogMode) (fl : Nat) (g : SegView) (s : Segment) (w : World) : Prop where
  base_eq : s.baseOffset = g.1
  holds : SegInv M.toMode g.2 s w
  flushed : M.durable → (g.2.take (fl - g.1)).flatten.length ≤ s.syncedPosition

/-- The objects of the segments `segs`. Where files may be shared, an object that was rolled away
    from while it was empty stands beside the one that took its file. -/
inductive Holds (M : LogMode) (fl : Nat) (w : World) : List SegView → List Segment → Prop
  | nil : Holds M fl w [] []
  | seg {g : SegView} {s : Segment} {gs : List SegView} {ss : List Segment}
      (h : ObjInv M fl g s w) (t : Holds M fl w gs ss) : Holds M fl w (g :: gs) (s :: ss)
  | idle {s : Segment} {gs : List SegView} {ss : List Segment} (hm : M.shared)
      (hends : s.endPosition = 0) (hsync : s.syncedPosition = 0)
      (hnext : s.nextOffset = s.baseOffset) (t : Holds M fl w gs ss) : Holds M fl w gs (s :: ss)

/-- The directory names the segments `segs`, and log files at the bases in `S`. -/
structure Listing (M : LogMode) (S : Nat → Prop) (segs : List SegView) (w : World) : Prop where
  sorted : segs.Pairwise (fun g g' => g.1 < g'.1)
  chain : segs.IsChain (fun g g' => M.link g g'.1)
  logs : ∀ b, (w.file ⟨b, .log⟩).isSome → b ∈ segs.map Prod.fst ∨ S b
  fresh : ∀ b, viewStart segs ≤ b → b ∉ segs.map Prod.fst →
    offsetFormat.kept (w.bytes ⟨b, .index⟩) = []

/-- A log file without records: empty, or preallocated. -/
def Blank (M : LogMode) (w : World) (b : Nat) : Prop :=
  ∃ n, M.tail (zeros n) ∧ w.file ⟨b, .log⟩ = some ⟨zeros n, []⟩

/-- **The invariant of an open log** between two calls. -/
structure LogInv (M : LogMode) (stray : Nat) (segs : List SegView) (g : SegView)
    (l : PartitionLog) (w : World) : Prop where
  objects : ∃ olds a, l.segments = olds ++ [a] ∧ l.active = some a.id ∧
    Holds M l.flushedOffset w segs olds ∧ ObjInv M l.flushedOffset g a w
  ids : l.segments.Pairwise (fun s s' => s.id ≠ s'.id)
  nextId : ∀ s ∈ l.segments, s.id < l.nextId
  start : l.logStartOffset = viewStart (segs ++ [g])
  ends : l.logEndOffset = g.1 + g.2.length
  flushed_le : l.flushedOffset ≤ l.logEndOffset
  isOpen : l.closed = false
  spare : ∀ n, (l.options.preallocate = false → n = 0) → M.tail (zeros n)
  calm : MayFail w → M.faulty
  listing : Listing M (fun b => M.faulty ∧ b = stray ∧ Blank M w b) (segs ++ [g]) w

/-- The directory of a log that no process has open; `T` says what lies behind the records. -/
structure DiskLog (M : LogMode) (strict : Prop) (T : SegView → Bytes → Prop)
    (segs : List SegView) (w : World) : Prop where
  files : ∀ g ∈ segs, ∃ tail, T g tail ∧ DiskSeg M.record strict g.1 g.2 tail w
  listing : Listing M (fun _ => False) segs w

/-- Behind the records of `g` the bytes `written` may stand. -/
def TornTail (M : LogMode) (g : SegView) (written : Bytes) (g' : SegView) (tail : Bytes) : Prop :=
  M.tail tail ∨ g' = g ∧ ∃ t, M.tail t ∧ tail = written ++ t

/-- The files when a process dies: `written` stands behind the active segment. A blank file at
    `stray` is that of a roll in flight at the end of the log, or left from a roll that failed. -/
structure Fallen (M : LogMode) (stray : Nat) (segs : List SegView) (g : SegView) (written : Bytes)
    (w : World) : Prop where
  files : ∀ g' ∈ segs ++ [g], ∃ tail, TornTail M g written g' tail ∧
    DiskSeg M.record False g'.1 g'.2 tail w
  listing : Listing M (fun b => b = stray ∧ (M.faulty ∨ b = g.1 + g.2.length ∧ written = []) ∧
    Blank M w b) (segs ++ [g]) w

/-- **What a process that dies leaves** for the next one: the segments, `written` behind the
    active one, and possibly an empty one at `stray`. -/
def Residue (M : LogMode) (stray : Nat) (segs : List SegView) (g : SegView) (written : Bytes)
    (w : World) : Prop :=
  ∃ extra, (extra = [] ∨ extra = [(stray, [])] ∧ g.1 < stray ∧
      (M.faulty ∨ stray = g.1 + g.2.length ∧ written = [])) ∧
    DiskLog M False (TornTail M g written) (segs ++ g :: extra) w

/-! ## 2. Objects -/

section Objects

variable {M : LogMode} {fl : Nat} {w w' : World} {gs gs' : List SegView} {ss ss' : List Segment}
  {g : SegView} {s s' : Segment}

theorem ObjInv.frame {S : Path → Prop} (h : ObjInv M fl g s w) (hf : Frame S w w')
    (hS : ∀ p, p.base = g.1 → ¬ S p) : ObjInv M fl g s w' :=
  ⟨h.base_eq, h.holds.frame hf (by rw [h.base_eq]; exact hS), h.flushed⟩

theorem Holds.frame {S : Path → Prop} (h : Holds M fl w gs ss) (hf : Frame S w w')
    (hS : ∀ g ∈ gs, ∀ p, p.base = g.1 → ¬ S p) : Holds M fl w' gs ss := by
  induction h with
  | nil => exact .nil
  | seg h _ ih =>
    exact .seg (h.frame hf (hS _ mem_cons_self)) (ih (fun g hg => hS g (mem_cons_of_mem _ hg)))
  | idle hm he hs hn _ ih => exact .idle hm he hs hn (ih hS)

theorem Holds.append (h : Holds M fl w gs ss) (h' : Holds M fl w gs' ss') :
    Holds M fl w (gs ++ gs') (ss ++ ss') := by
  induction h with
  | nil => exact h'
  | seg h _ ih => exact .seg h ih
  | idle hm he hs hn _ ih => exact .idle hm he hs hn ih

theorem Holds.disk (h : Holds M fl w gs ss) : ∀ g ∈ gs, ∃ tail, M.tail tail ∧
    DiskSeg M.record M.strict g.1 g.2 tail w := by
  induction h with
  | nil => simp
  | seg h _ ih =>
    obtain ⟨tail, ht, hd⟩ := h.holds.disk
    rw [h.base_eq] at hd
    exact forall_mem_cons.mpr ⟨⟨tail, ht, hd⟩, ih⟩
  | idle _ _ _ _ _ ih => exact ih

theorem ObjInv.torn (h : ObjInv M fl g s w) : Torn M.toMode g.1 g.2 [] w := by
  have ht := h.holds.torn
  rwa [h.base_eq] at ht

theorem Holds.torn (h : Holds M fl w gs ss) : ∀ g ∈ gs, Torn M.toMode g.1 g.2 [] w := by
  intro g hg
  obtain ⟨tail, ht, hd⟩ := h.disk g hg
  exact ⟨tail, ht, hd.weaken⟩

/-- Without sharing every object shows a segment. -/
theorem Holds.forall₂ (h : Holds M fl w gs ss) (hm : ¬ M.shared) :
    Forall₂ (fun g s => ObjInv M fl g s w) gs ss := by
  induction h with
  | nil => exact .nil
  | seg h _ ih => exact .cons h ih
  | idle hm' => exact absurd hm' hm

theorem holds_of_forall₂ (h : Forall₂ (fun g s => ObjInv M fl g s w) gs ss) :
    Holds M fl w gs ss := by
  induction h with
  | nil => exact .nil
  | cons h _ ih => exact .seg h ih

/-- Records that were synced stay so when records are added or more is synced. -/
theorem ObjInv.step {rs : List Bytes} (h : ObjInv M fl g s w) (hobj : SameObject s s')
    (hfl : fl ≤ g.1 + g.2.length) (hsync : s.syncedPosition ≤ s'.syncedPosition)
    (h' : SegInv M.toMode (g.2 ++ rs) s' w') : ObjInv M fl (g.1, g.2 ++ rs) s' w' := by
  refine ⟨hobj.base.trans h.base_eq, h', fun hd => ?_⟩
  have := h.flushed hd
  rw [take_append_of_le_length (by omega)]
  exact le_trans this hsync

/-- An object that is synced to its end is flushed as far as one likes. -/
theorem ObjInv.synced {fl' : Nat} (hb : s.baseOffset = g.1) (h : SegInv M.toMode g.2 s w)
    (hs : s.syncedPosition = s.endPosition) : ObjInv M fl' g s w := by
  refine ⟨hb, h, fun _ => ?_⟩
  rw [hs, h.ends]
  exact startOf_le_length g.2 _

/-- The objects have ids of their own, all given out before `n`. -/
def Ids (n : Nat) (ss : List Segment) : Prop :=
  ss.Pairwise (fun s s' => s.id ≠ s'.id) ∧ ∀ s ∈ ss, s.id < n

/-- A new object takes the next id. -/
theorem Ids.push {n : Nat} (h : Ids n ss) (hs : s.id = n) : Ids (n + 1) (ss ++ [s]) :=
  ⟨pairwise_concat.mpr ⟨h.1, fun x hx => by rw [hs]; exact (h.2 x hx).ne⟩,
    forall_mem_concat.mpr ⟨fun x hx => Nat.lt_succ_of_lt
      (h.2 x hx), by rw [hs]; exact n.lt_succ_self⟩⟩

theorem Ids.of_map {n : Nat} (h : Ids n ss) (he : ss'.map Segment.id = ss.map Segment.id) :
    Ids n ss' := by
  obtain ⟨hp, hlt⟩ := h
  rw [← pairwise_map, ← he, pairwise_map] at hp
  refine ⟨hp, fun s hs => ?_⟩
  obtain ⟨s₀, hs₀, hid⟩ := mem_map.mp (he ▸ mem_map_of_mem hs)
  rw [← hid]
  exact hlt s₀ hs₀

end Objects

/-! ## 3. Directories -/

section Directories

variable {M : LogMode} {S T : Nat → Prop} {segs : List SegView} {g : SegView} {w w' : World}

/-- The listing after files of the segments changed. -/
theorem Listing.frame {P : Path → Prop} (h : Listing M S segs w) (hf : Frame P w w')
    (hb : ∀ p, P p → p.base ∈ segs.map Prod.fst)
    (hS : ∀ b, w'.file ⟨b, .log⟩ = w.file ⟨b, .log⟩ → S b → T b) : Listing M T segs w' := by
  have hsame : ∀ b kind, b ∉ segs.map Prod.fst → w'.file ⟨b, kind⟩ = w.file ⟨b, kind⟩ :=
    fun b kind hn => hf.others _ (fun hp => hn (hb _ hp))
  refine ⟨h.sorted, h.chain, fun b hsome => ?_, fun b hle hn => ?_⟩
  · by_cases hm : b ∈ segs.map Prod.fst
    · exact .inl hm
    · rw [hsame b .log hm] at hsome
      exact (h.logs b hsome).imp id (hS b (hsame b .log hm))
  · rw [IndexFormat.bytes_congr (hsame b .index hn)]
    exact h.fresh b hle hn

theorem Listing.mono (h : Listing M S segs w) (hS : ∀ b, S b → T b) : Listing M T segs w :=
  ⟨h.sorted, h.chain, fun b hb => (h.logs b hb).imp id (hS b), h.fresh⟩

/-- The listing looks at the base of the last segment only. -/
theorem Listing.regrow {g' : SegView} (h : Listing M S (segs ++ [g]) w) (hg : g'.1 = g.1) :
    Listing M S (segs ++ [g']) w := by
  have hmap : (segs ++ [g']).map Prod.fst = (segs ++ [g]).map Prod.fst := by simp [hg]
  have hstart : viewStart (segs ++ [g']) = viewStart (segs ++ [g]) := by
    cases segs with
    | nil => exact hg
    | cons => rfl
  have hp := pairwise_concat.mp h.sorted
  have hc := isChain_concat.mp h.chain
  rw [← hg] at hp hc
  refine ⟨pairwise_concat.mpr hp, isChain_concat.mpr hc, ?_, ?_⟩
  · rw [hmap]
    exact h.logs
  · rw [hmap, hstart]
    exact h.fresh

/-- The base of the active segment is above the others. -/
theorem Listing.lt_last (h : Listing M S (segs ++ [g]) w) : ∀ g' ∈ segs, g'.1 < g.1 :=
  (pairwise_concat.mp h.sorted).2

theorem viewStart_le (h : (segs ++ [g]).Pairwise (fun x y => x.1 < y.1)) :
    viewStart (segs ++ [g]) ≤ g.1 := by
  cases segs with
  | nil => exact le_rfl
  | cons g0 segs => exact le_of_lt ((pairwise_cons.mp h).1 g (by simp))

theorem Blank.congr {b : Nat} (h : Blank M w b) (hf : w'.file ⟨b, .log⟩ = w.file ⟨b, .log⟩) :
    Blank M w' b := by
  obtain ⟨n, ht, hfile⟩ := h
  exact ⟨n, ht, by rw [hf]; exact hfile⟩

theorem Blank.diskSeg {P : Nat → Bytes → Prop} {q : Prop} {b : Nat} (h : Blank M w b)
    (hk : offsetFormat.kept (w.bytes ⟨b, .index⟩) = []) :
    ∃ tail, M.tail tail ∧ DiskSeg P q b [] tail w := by
  obtain ⟨n, ht, hf⟩ := h
  refine ⟨zeros n, ht, ⟨_, hf, by simp⟩, trivial, ?_⟩
  rw [hk]
  exact entriesOk_nil

section

variable (h : Listing M S (segs ++ [g]) w)
include h

/-- Behind the last segment no segment starts. -/
theorem Listing.notMem {b : Nat} (hb : g.1 < b) :
    b ∉ (segs ++ [g]).map Prod.fst := by
  have hlt : ∀ x ∈ segs ++ [g], x.1 < b :=
    forall_mem_concat.mpr ⟨fun x hx => (h.lt_last x hx).trans hb, hb⟩
  intro hm
  obtain ⟨x, hx, rfl⟩ := mem_map.mp hm
  exact (hlt x hx).false

/-- The end of a log with records in its last segment is not the base of a segment. -/
theorem Listing.end_notMem (hne : g.2 ≠ []) :
    g.1 + g.2.length ∉ (segs ++ [g]).map Prod.fst :=
  h.notMem (Nat.lt_add_of_pos_right (length_pos_iff.mpr hne))

/-- A directory with one more file behind the last segment. -/
theorem Listing.push {e : Nat} (hlt : g.1 < e)
    (hlink : M.link g e) (hS : ∀ b, S b → b = e ∨ T b) :
    Listing M T (segs ++ [g] ++ [(e, [])]) w := by
  refine ⟨pairwise_concat.mpr ⟨h.sorted, forall_mem_concat.mpr
      ⟨fun x hx => (h.lt_last x hx).trans hlt, hlt⟩⟩,
    isChain_concat.mpr ⟨h.chain, by simpa using hlink⟩, fun b hb => ?_, fun b hb hn => ?_⟩
  · rw [map_append]
    rcases h.logs b hb with h1 | h1
    · exact .inl (mem_append_left _ h1)
    · refine (hS b h1).imp (fun he => ?_) id
      rw [he]
      simp
  · rw [viewStart_concat] at hb
    refine h.fresh b hb (fun hm => hn ?_)
    rw [map_append]
    exact mem_append_left _ hm

end

/-- What a process that dies leaves: its segments with `written` behind the active one. -/
theorem fallen_of {stray : Nat} {written : Bytes} (hsealed : ∀ x ∈ segs, Torn M.toMode x.1 x.2 [] w)
    (ht : Torn M.toMode g.1 g.2 written w)
    (hlist : Listing M (fun b => b = stray ∧ (M.faulty ∨ b = g.1 + g.2.length ∧ written = []) ∧
      Blank M w b) (segs ++ [g]) w) : Fallen M stray segs g written w := by
  obtain ⟨tail, htl, hd⟩ := ht
  refine ⟨forall_mem_concat.mpr ⟨fun x hx => ?_, _, .inr ⟨rfl, tail, htl, rfl⟩, hd⟩, hlist⟩
  obtain ⟨tail, htl, hd⟩ := hsealed x hx
  exact ⟨_, .inl htl, hd⟩

/-- **What the next process finds**, if a file of a roll that failed is behind the last segment. -/
theorem Fallen.residue {stray : Nat} {written : Bytes} (h : Fallen M stray segs g written w)
    (hs : M.faulty → g.1 ≤ stray ∧ (g.1 < stray → M.link g stray)) :
    Residue M stray segs g written w := by
  by_cases hstray : (M.faulty ∨ stray = g.1 + g.2.length ∧ written = []) ∧ Blank M w stray ∧
      stray ≠ g.1
  · obtain ⟨hwhy, hblank, hne⟩ := hstray
    have hplace : g.1 < stray ∧ M.link g stray := by
      rcases hwhy with hf | ⟨rfl, -⟩
      · have hlt : g.1 < stray := lt_of_le_of_ne (hs hf).1 (Ne.symm hne)
        exact ⟨hlt, (hs hf).2 hlt⟩
      · have hpos : g.2 ≠ [] := fun h0 => hne (by rw [h0]; rfl)
        exact ⟨by omega, M.link_roll g hpos⟩
    have hpush := h.listing.push (T := fun _ => False) hplace.1 hplace.2 (fun b hb => .inl hb.1)
    have hk : offsetFormat.kept (w.bytes ⟨stray, .index⟩) = [] :=
      h.listing.fresh _ (le_trans (viewStart_le h.listing.sorted) (le_of_lt hplace.1))
        (h.listing.notMem hplace.1)
    obtain ⟨tail, ht, hd⟩ := hblank.diskSeg hk
    refine ⟨[(stray, [])], .inr ⟨rfl, hplace.1, hwhy⟩, ?_⟩
    rw [append_cons]
    exact ⟨forall_mem_concat.mpr ⟨h.files, tail, .inl ht, hd⟩, hpush⟩
  · refine ⟨[], .inl rfl, h.files, { h.listing with logs := fun b hb => .inl ?_ }⟩
    rcases h.listing.logs b hb with h1 | ⟨rfl, h2, h3⟩
    · exact h1
    · by_cases hb' : b = g.1
      · simp [hb']
      · exact absurd ⟨h2, h3, hb'⟩ hstray

end Directories

/-! ## 4. What the invariant depends on -/

/-- The fields of a log the invariant looks at. -/
structure SameLog (l l' : PartitionLog) : Prop where
  options : l'.options = l.options
  segments : l'.segments = l.segments
  active : l'.active = l.active
  nextId : l'.nextId = l.nextId
  start : l'.logStartOffset = l.logStartOffset
  ends : l'.logEndOffset = l.logEndOffset
  flushed : l'.flushedOffset = l.flushedOffset
  closed : l'.closed = l.closed

theorem SameLog.refl (l : PartitionLog) : SameLog l l := ⟨rfl, rfl, rfl, rfl, rfl, rfl, rfl, rfl⟩

theorem SameLog.trans {l₁ l₂ l₃ : PartitionLog} (h : SameLog l₁ l₂) (h' : SameLog l₂ l₃) :
    SameLog l₁ l₃ :=
  ⟨h'.options.trans h.options, h'.segments.trans h.segments, h'.active.trans h.active,
    h'.nextId.trans h.nextId, h'.start.trans h.start, h'.ends.trans h.ends,
    h'.flushed.trans h.flushed, h'.closed.trans h.closed⟩

section Invariant

variable {M : LogMode} {e : Nat} {segs : List SegView} {g : SegView} {l l' : PartitionLog}
  {w w' : World}

variable (h : LogInv M e segs g l w)
include h

theorem LogInv.congr (hs : SameLog l l') : LogInv M e segs g l' w := by
  refine ⟨?_, ?_, ?_, ?_, ?_, ?_, ?_, ?_, h.calm, h.listing⟩
  all_goals simp only [hs.options, hs.segments, hs.active, hs.nextId, hs.start, hs.ends,
    hs.flushed, hs.closed]
  exacts [h.objects, h.ids, h.nextId, h.start, h.ends, h.flushed_le, h.isOpen, h.spare]

/-- The directory after files of the segments changed. -/
theorem LogInv.relisted {P : Path → Prop} (hf : Frame P w w')
    (hP : ∀ p, P p → p.base ∈ (segs ++ [g]).map Prod.fst) :
    Listing M (fun b => M.faulty ∧ b = e ∧ Blank M w' b) (segs ++ [g]) w' :=
  h.listing.frame hf hP (fun _ hfile hS => ⟨hS.1, hS.2.1, hS.2.2.congr hfile⟩)

theorem LogInv.frame (hf : Steady w w') : LogInv M e segs g l w' := by
  obtain ⟨olds, a, hl, hact, hold, ha⟩ := h.objects
  exact { h with
    objects := ⟨olds, a, hl, hact, hold.frame hf (fun _ _ _ _ h => h), ha.frame hf (fun _ _ h => h)⟩
    calm := fun hm => h.calm (hf.mayFail hm)
    listing := h.relisted hf (fun _ h => h.elim) }

/-- In a run without failures there is no stray file, wherever one looks for it. -/
theorem LogInv.retarget {e' : Nat}
    (hs : M.faulty → ∀ b, (w.file ⟨b, .log⟩).isSome → b ∈ (segs ++ [g]).map Prod.fst) :
    LogInv M e' segs g l w := by
  exact { h with listing := { h.listing with
    logs := fun b hb => .inl ((h.listing.logs b hb).elim id (fun h1 => hs h1.1 b hb)) } }

theorem LogInv.lt_active :
    ∀ g' ∈ segs, ∀ p : Path, p.base = g'.1 → ¬ p.base = g.1 := by
  intro g' hg' p hp hp'
  have := h.listing.lt_last g' hg'
  omega

/-- Without sharing every object of the log shows a segment. -/
theorem LogInv.all_objects (hm : ¬ M.shared) :
    Forall₂ (fun x s => ObjInv M l.flushedOffset x s w) (segs ++ [g]) l.segments := by
  obtain ⟨olds, a, hl, -, hold, ha⟩ := h.objects
  rw [hl]
  exact (hold.append (.seg ha .nil)).forall₂ hm

theorem LogInv.run (hm : ¬ M.shared) :
    ∀ x ∈ segs ++ [g], RunOf M.record x.1 x.2 := by
  intro x hx
  obtain ⟨s, -, hs⟩ := forall₂_exists_right (h.all_objects hm) hx
  rw [← hs.base_eq]
  exact hs.holds.run

/-- A log whose neighbours leave no gap can be read. -/
theorem LogInv.readable (hm : ¬ M.shared)
    (hlink : ∀ x b, M.link x b → b ≤ x.1 + x.2.length) :
    LogReadable M.record (segs ++ [g]) l w := by
  have hall := h.all_objects hm
  refine ⟨⟨hall.imp (fun x s hs => ⟨hs.base_eq, hs.holds.toReadable⟩), h.listing.sorted, by simp,
    h.start, ?_⟩, h.run hm, h.listing.chain.imp (fun x y hxy => hlink x y.1 hxy)⟩
  rw [h.ends, viewEnd_concat]

/-! ## 5. Crashes -/

/-- **A crash while files of the segments are written.** -/
theorem LogInv.fallen {P : Path → Prop} {written : Bytes}
    (hf : Frame P w w') (hP : ∀ p, P p → p.base ∈ (segs ++ [g]).map Prod.fst)
    (hsealed : ∀ x ∈ segs, Torn M.toMode x.1 x.2 [] w') (ht : Torn M.toMode g.1 g.2 written w') :
    Fallen M e segs g written w' :=
  fallen_of hsealed ht ((h.relisted hf hP).mono (fun _ hS => ⟨hS.2.1, .inl hS.1, hS.2.2⟩))

/-- A crash while the files of the active segment are written. -/
theorem LogInv.fall {written : Bytes} (hf : Frame (·.base = g.1) w w')
    (ht : Torn M.toMode g.1 g.2 written w') : Fallen M e segs g written w' := by
  obtain ⟨olds, a, -, -, hold, -⟩ := h.objects
  exact h.fallen hf (fun p hp => by simp [hp]) (hold.frame hf h.lt_active).torn ht

/-- The process is killed between two calls. -/
theorem LogInv.killed : Fallen M e segs g [] w := by
  obtain ⟨olds, a, -, -, -, ha⟩ := h.objects
  exact h.fall (Frame.refl _ _) ha.torn

end Invariant

end PulseLog

/-
  Subject:   The shape of a partition log over every run without I/O errors.

  A run starts in an empty directory and goes on with appends on the three paths, truncation,
  retention, flushes, and closes each followed by a reopen. A call that does not return ends it.

  * `shaped_run` -- the shape in every state of a run whose records parse on their own, carry valid
    checksums and are not too large for a lookup;
  * `unchecked_record_breaks_shape` -- the vectored path stores a record with a wrong checksum, and
    the reopen cuts it out of a sealed segment.
-/
import PulseLog.Storage.LogRun

namespace PulseLog

open List

/-! ## 1. Runs -/

namespace LogShape

inductive Event where
  | call (c : LogCall) (env : Env)
  | closeAndReopen (closing opening : Env)

/-- `PartitionLog::Open`, if it returns a log. -/
def reopen (options : LogOptions) (w : World) : Option (PartitionLog × World) :=
  match PartitionLog.openLog options w with
  | (.ok r, w') => some (r.1, w')
  | _ => none

/-- One event. An error leaves the log as the call left it. -/
def step (options : LogOptions) : Option (PartitionLog × World) → Event →
    Option (PartitionLog × World)
  | none, _ => none
  | some (l, w), .call c env =>
    match c.prog (l, w.under env) with
    | (.halted, _) => none
    | (_, t) => some t
  | some (l, w), .closeAndReopen closing opening =>
    match PartitionLog.close (l, w.under closing) with
    | (.halted, _) => none
    | (_, t) => reopen options (t.2.under opening)

def run (options : LogOptions) (env : Env) (es : List Event) : Option (PartitionLog × World) :=
  es.foldl (step options) (reopen options ((⟨∅, [], [], [], []⟩ : World).under env))

/-! ## 2. The shape -/

/-- A segment whose file holds the records `rs` and, where it was preallocated, zeros behind
    them. -/
structure SegShape (pre : Bool) (w : World) (rs : List Bytes) (s : Segment) : Prop where
  next : s.nextOffset = s.baseOffset + rs.length
  offsets : RunOf (fun o r => Framed r ∧ recordOffset r = o) s.baseOffset rs
  ends : s.endPosition = rs.flatten.length
  file : ∃ n, (pre = false → n = 0) ∧ w.bytes s.logPath = rs.flatten ++ zeros n
  sorted : s.index.entries.Pairwise (fun a b => a.relativeOffset < b.relativeOffset)
  entries : ∀ e ∈ s.index.entries, e.relativeOffset < rs.length ∧
    e.filePosition = (rs.take e.relativeOffset).flatten.length
  indexFile : offsetFormat.kept (w.bytes ⟨s.baseOffset, .index⟩) = s.index.entries

/-- **The representation invariant** of a log with preallocation `pre`. -/
structure Shaped (pre : Bool) (l : PartitionLog) (w : World) : Prop where
  bases : l.segments.Pairwise (fun s s' => s.baseOffset < s'.baseOffset)
  chain : l.segments.IsChain (fun s s' => s.nextOffset = s'.baseOffset)
  active : ∃ a, l.segments.getLast? = some a ∧ l.active = some a.id
  start : l.segments.head?.map Segment.baseOffset = some l.logStartOffset
  ends : l.segments.getLast?.map Segment.nextOffset = some l.logEndOffset
  segments : ∃ records, Forall₂ (SegShape pre w) records l.segments

/-- The promises of such a run. -/
def mode (pre : Bool) : LogMode := exactMode Sound (fun _ _ h => h.1) pre True

section Shape

variable {pre : Bool} {e : Nat} {segs : List SegView} {g : SegView}
  {l : PartitionLog} {s : Segment} {w : World} {fl : Nat}

/-- The promises give the shape of a segment. -/
theorem segShape_of_objInv (h : ObjInv (mode pre) fl g s w) : SegShape pre w g.2 s := by
  obtain ⟨f, tail, hf, hd, n, rfl, hn⟩ := h.holds.log
  refine ⟨h.holds.next, h.holds.run.mono (fun o r hr => ⟨hr.1.alone.framed, hr.1.offset⟩),
    h.holds.ends, ⟨n, hn, ?_⟩, h.holds.entries.sorted,
    fun x hx => ⟨h.holds.entries.inside trivial x hx, h.holds.entries.place x hx⟩,
    h.holds.entries.kept h.holds.indexFile⟩
  rw [IndexFormat.bytes_of_file hf, hd, nil_append]

/-- **The promises give the shape of the log.** -/
theorem shaped_of_logInv (h : LogInv (mode pre) e segs g l w) : Shaped pre l w := by
  obtain ⟨olds, a, hl, hact, -, ha⟩ := h.objects
  have hall := h.all_objects id
  have hbase : (segs ++ [g]).map Prod.fst = l.segments.map Segment.baseOffset :=
    forall₂_map_eq hall (fun _ _ hx => hx.base_eq.symm)
  refine ⟨?_, ?_, ⟨a, by rw [hl, getLast?_concat], hact⟩, ?_, ?_, (segs ++ [g]).map Prod.snd, ?_⟩
  · have hs := h.listing.sorted
    rw [← pairwise_map, hbase, pairwise_map] at hs
    exact hs
  · refine forall₂_isChain hall (fun x s y s' hx hy hxy => ?_) h.listing.chain
    rw [hx.holds.next, hx.base_eq, hy.base_eq]
    exact hxy.symm
  · have hhead := congrArg List.head? hbase
    rw [head?_map, head?_map] at hhead
    rw [← hhead, h.start]
    cases segs <;> rfl
  · rw [hl, getLast?_concat, Option.map_some, h.ends, ha.holds.next, ha.base_eq]
  · rw [forall₂_map_left_iff]
    exact hall.imp (fun _ _ hx => segShape_of_objInv hx)

end Shape

/-! ## 3. Every run keeps it -/

section Runs

variable {pre : Bool} {e : Nat} {segs : List SegView} {g : SegView} {env : Env}
  {options : LogOptions} {es : List Event}
  {l : PartitionLog} {w : World} {T : SegView → Bytes → Prop}

/-- A call that is asked to do nothing the promises forbid. -/
def CallOk (env : Env) : LogCall → Prop
  | .append b => env.faults = [] ∧ b.bytes.length < 2 ^ 32 ∧
      ∀ o t rs, b.Stores o t rs → RunOf Sound o rs
  | _ => env.faults = []

/-- A log that keeps the promises. -/
def Promised (pre : Bool) (t : PartitionLog × World) : Prop :=
  ∃ e segs g, LogInv (mode pre) e segs g t.1 t.2

/-- A state of a run: no log any more, or one that keeps the promises. -/
def Steady (pre : Bool) (s : Option (PartitionLog × World)) : Prop :=
  ∀ t, s = some t → Promised pre t

theorem steady_none (pre : Bool) : Steady pre none := fun _ h => nomatch h

theorem steady_some {pre : Bool} {t : PartitionLog × World} (h : Promised pre t) :
    Steady pre (some t) := by
  intro t' ht
  cases ht
  exact h

theorem sat_call {c : LogCall} (h : LogInv (mode pre) e segs g l w) (hc : CallOk env c) :
    Sat (fun _ t => Promised pre t) (fun _ t => Promised pre t) (fun _ => True)
      (c.prog (l, w.under env)) := by
  have hfaults : env.faults = [] := by
    cases c with
    | append b => exact hc.1
    | truncateTo | enforceRetention | flush => exact hc
  have h0 : LogInv (mode pre) (g.1 + g.2.length) segs g l (w.under env) :=
    (h.under (not_mayFail hfaults)).retarget (fun hf => hf.elim)
  cases c with
  | append b =>
    have hsize : b.bytes.length ≤ uint32Max := by
      have := hc.2.1
      unfold uint32Max
      omega
    refine sat_mono (sat_map (sat_append h0 False.elim hc.2.2 (.inl hsize))) (fun _ t ht => ?_)
      (fun _ t ht => ?_) (fun _ _ => trivial)
    · obtain ⟨r, -, rs, -, segs', g', -, hl⟩ := ht
      exact ⟨_, _, _, hl⟩
    · rcases ht with ⟨segs', g', -, hl⟩ | ⟨hf, -⟩
      · exact ⟨_, _, _, hl⟩
      · exact hf.elim
  | truncateTo o =>
    have hsize : ∀ o r, (mode pre).record o r → r.length ≤ maxRecordBytes := fun _ _ hr => hr.2
    refine sat_mono (sat_map (sat_truncateTo id id id hsize (fun x b hb => le_of_eq hb) h0))
      (fun _ t ht => ?_) (fun _ t ht => ⟨_, _, _, ht⟩) (fun _ _ => trivial)
    obtain ⟨-, -, segs', g', -, hl⟩ := ht
    exact ⟨_, _, _, hl⟩
  | enforceRetention =>
    refine sat_mono (sat_map (sat_enforceRetention id id h0)) (fun _ t ht => ?_)
      (fun _ _ ht => ht.elim) (fun _ _ => trivial)
    obtain ⟨-, -, segs', -, hl⟩ := ht
    exact ⟨_, _, _, hl⟩
  | flush =>
    refine sat_mono (sat_map (sat_flush h0)) (fun _ t ht => ?_) (fun _ t ht => ⟨_, _, _, ht.1⟩)
      (fun _ _ => trivial)
    obtain ⟨-, -, hl⟩ := ht
    exact ⟨_, _, _, hl⟩

theorem steady_reopen (h : DiskLog (mode options.preallocate) True T segs w)
    (hT : ∀ g tail, T g tail → NoRecord (g.1 + g.2.length) tail) (hc : ¬ MayFail w) :
    Steady options.preallocate (reopen options w) := by
  have hsat := sat_openLog (openable_exact h hT hc) (exactMode_spare options)
  unfold reopen
  rcases hr : PartitionLog.openLog options w with ⟨r | e | _, w'⟩ <;> rw [hr] at hsat
  · obtain ⟨-, ⟨views, g, hO⟩, -⟩ := hsat
    exact steady_some ⟨0, views, g, hO.inv 0⟩
  · exact steady_none _
  · exact steady_none _

/-- Events without I/O errors, with sound records in batches below 4 GiB. -/
def EventOk : Event → Prop
  | .call c env => CallOk env c
  | .closeAndReopen closing opening => closing.faults = [] ∧ opening.faults = []

theorem steady_step (options : LogOptions) (s : Option (PartitionLog × World)) (ev : Event)
    (h : Steady options.preallocate s) (hev : EventOk ev) :
    Steady options.preallocate (step options s ev) := by
  rcases s with _ | ⟨l, w⟩
  · exact steady_none _
  obtain ⟨e, segs, g, h⟩ := h _ rfl
  cases ev with
  | call c env =>
    have hsat := sat_call h hev
    simp only [step]
    rcases hr : c.prog (l, w.under env) with ⟨r | e | _, t⟩ <;> rw [hr] at hsat
    · exact steady_some hsat
    · exact steady_some hsat
    · exact steady_none _
  | closeAndReopen closing opening =>
    have hsat := sat_close (h.under (not_mayFail hev.1)) id
    have hopen : ∀ w', Shut (mode options.preallocate) e segs g w' →
        Steady options.preallocate (reopen options (w'.under opening)) := by
      intro w' hs
      refine steady_reopen ((hs.disk id).of_dir rfl) ?_ (not_mayFail hev.2)
      rintro x _ ⟨n, rfl, -⟩
      exact noRecord_zeros _ n
    simp only [step]
    rcases hr : PartitionLog.close (l, w.under closing) with ⟨r | e' | _, t⟩ <;> rw [hr] at hsat
    · exact hopen t.2 hsat
    · exact hopen t.2 hsat
    · exact steady_none _

/-- **The promises hold in every state of a run.** -/
theorem promised_run {t : PartitionLog × World}
    (henv : env.faults = []) (hes : ∀ ev ∈ es, EventOk ev) (h : run options env es = some t) :
    Promised options.preallocate t := by
  have hempty : DiskLog (mode options.preallocate) True (fun _ t => t = []) []
      ((⟨∅, [], [], [], []⟩ : World).under env) := diskLog_empty env
  have hstart := steady_reopen hempty (fun g t ht => by rw [ht]; exact noRecord_nil _)
    (not_mayFail henv)
  exact Along.foldl (steady_step options) (along_of_forall hes) hstart t h

/-- **The shape holds in every state of a run.** -/
theorem shaped_run {l : PartitionLog} {w : World}
    (henv : env.faults = []) (hes : ∀ ev ∈ es, EventOk ev)
    (h : run options env es = some (l, w)) : Shaped options.preallocate l w := by
  obtain ⟨e, segs, g, hinv⟩ := promised_run henv hes h
  exact shaped_of_logInv hinv

end Runs

/-- Two appends with a roll between them, a truncation, and a reopen. -/
def rolling : List Event :=
  [.call (.append (.assign [bareRecord].flatten 1)) ⟨[], [], []⟩,
    .call (.append (.assign [bareRecord].flatten 1)) ⟨[], [], []⟩,
    .call (.truncateTo 1) ⟨[], [], []⟩, .closeAndReopen ⟨[], [], []⟩ ⟨[], [], []⟩]

theorem rolling_shaped : ∃ l w, run (smallSegments true) ⟨[], [], []⟩ rolling = some (l, w) ∧
    l.logEndOffset = 1 ∧ Shaped true l w := by
  have hbare : ∀ r ∈ [bareRecord], ParsesAlone r ∧ r.length ≤ maxRecordBytes := by
    simpa using ⟨bareRecord_alone, bareRecord_length_le⟩
  have hes : ∀ ev ∈ rolling, EventOk ev := by
    intro ev hev
    simp only [rolling, mem_cons, not_mem_nil, or_false] at hev
    rcases hev with rfl | rfl | rfl | rfl
    · exact ⟨rfl, by decide +kernel, fun _ _ _ h => sound_assign hbare h⟩
    · exact ⟨rfl, by decide +kernel, fun _ _ _ h => sound_assign hbare h⟩
    · exact rfl
    · exact ⟨rfl, rfl⟩
  have hend : (run (smallSegments true) ⟨[], [], []⟩ rolling).map (fun t => t.1.logEndOffset) =
      some 1 := by decide +kernel
  obtain ⟨⟨l, w⟩, hr, hl⟩ := Option.map_eq_some_iff.mp hend
  exact ⟨l, w, hr, hl, shaped_run rfl hes hr⟩

/-- **The reopen leaves a hole.** The vectored path stores a record whose checksum is wrong, the
    next append rolls, and the recovery at the reopen cuts the record out of the sealed segment. -/
theorem unchecked_record_breaks_shape : ∃ l w, run (smallSegments false) ⟨[], [], []⟩
    [.call (.append (.vectored [bareRecord] 1)) ⟨[], [], []⟩,
      .call (.append (.assign bareRecord 1)) ⟨[], [], []⟩,
      .closeAndReopen ⟨[], [], []⟩ ⟨[], [], []⟩] = some (l, w) ∧ ¬ Shaped false l w := by
  have h : (run (smallSegments false) ⟨[], [], []⟩
      [.call (.append (.vectored [bareRecord] 1)) ⟨[], [], []⟩,
        .call (.append (.assign bareRecord 1)) ⟨[], [], []⟩,
        .closeAndReopen ⟨[], [], []⟩ ⟨[], [], []⟩]).map
      (fun t => t.1.segments.map (fun s => (s.baseOffset, s.nextOffset))) =
        some [(0, 0), (1, 2)] := by
    decide +kernel
  obtain ⟨⟨l, w⟩, hr, hs⟩ := Option.map_eq_some_iff.mp h
  refine ⟨l, w, hr, fun hsh => ?_⟩
  have hc : (l.segments.map (fun s => (s.baseOffset, s.nextOffset))).IsChain
      (fun a b => a.2 = b.1) :=
    (isChain_map _).mpr hsh.chain
  rw [hs] at hc
  simp at hc

end LogShape

end PulseLog

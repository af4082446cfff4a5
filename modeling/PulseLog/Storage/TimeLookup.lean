/-
  Subject:   Whether a consumer that starts at `OffsetForTimestamp` misses a record.

  The time index gets an entry with an entry of the offset index only, and only if the timestamp
  does not fall. Records between two entries are found through the entry before them or not at all.

  * `offsetForTimestamp_reaches_iff` -- in a log built by appends, no lookup skips a record if and
    only if the records are `TimeCovered`;
  * `newer_record_skipped` -- two batches, of which the second has no entry.
-/
import PulseLog.Storage.Addressing
import PulseLog.Storage.AnyDirectory
import PulseLog.Storage.ObjectSteps
import PulseLog.Storage.Unflushed

namespace PulseLog

open List

/-! ## 1. The order of the entries -/

/-- Timestamps do not fall, offsets grow, and all of them lie inside the segment. -/
structure TimesOk (s : Segment) : Prop where
  sorted : s.timeIndex.entries.Pairwise
    (fun e e' => e.timestamp ≤ e'.timestamp ∧ e.relativeOffset < e'.relativeOffset)
  inside : ∀ e ∈ s.timeIndex.entries, s.baseOffset + e.relativeOffset < s.nextOffset

/-- **The time indexes of a log are in order**; no file behind the log end holds an entry. -/
structure Orderly (t : PartitionLog × World) : Prop where
  led : Led t.1
  spans : Spans t.1.logStartOffset t.1.segments t.1.logEndOffset
  times : ∀ s ∈ t.1.segments, TimesOk s
  fresh : ∀ b, t.1.logEndOffset ≤ b → timesAt t.2 b = []

section Steps

variable {t t' : PartitionLog × World} {s s' : Segment}

theorem spans_syncOnly {b e : Nat} {ss ss' : List Segment} (h : Forall₂ SyncOnly ss ss')
    (hs : Spans b ss e) : Spans b ss' e := by
  induction h generalizing b with
  | nil => exact hs
  | cons hx _ ih => exact ⟨by rw [hx.base, hs.1], by rw [hx.next]; exact hs.2.1, by
      rw [hx.next]
      exact ih hs.2.2⟩

theorem SyncStep.orderly (h : SyncStep t t') (ho : Orderly t) : Orderly t' := by
  refine ⟨h.led ho.led, ?_, fun s' hs' => ?_, fun b hb => ?_⟩
  · rw [h.start, h.ends]
    exact spans_syncOnly h.segments ho.spans
  · obtain ⟨s, hs, hss⟩ := forall₂_exists_left h.segments hs'
    obtain ⟨hsorted, hinside⟩ := ho.times s hs
    exact ⟨by rw [hss.time]; exact hsorted, by rw [hss.time, hss.base, hss.next]; exact hinside⟩
  · rw [h.times.times]
    exact ho.fresh b (h.ends ▸ hb)

theorem RollStep.orderly {a f : Segment} (h : RollStep a f t t') (ho : Orderly t) : Orderly t' := by
  obtain ⟨olds, hsegs⟩ := getLast?_eq_some_iff.mp h.last
  have hspans := ho.spans
  rw [hsegs] at hspans
  have hend : a.nextOffset = t.1.logEndOffset := (spans_concat.mp hspans).2.2
  refine ⟨h.led ho.led, ?_, fun s hs => ?_, fun b hb => ?_⟩
  · rw [h.segments, h.start, h.ends]
    refine spans_concat.mpr ⟨?_, by rw [h.base, h.next], by rw [h.next, hend]⟩
    rw [h.base, hend]
    exact ho.spans
  · rw [h.segments] at hs
    rcases mem_append.mp hs with hs | hs
    · exact ho.times s hs
    · -- the files at the log end hold no entries
      have hnil : f.timeIndex.entries = [] := by
        rw [h.time]
        exact ho.fresh _ (le_of_eq hend.symm)
      rw [mem_singleton.mp hs]
      exact ⟨by rw [hnil]; exact .nil, by rw [hnil]; simp⟩
  · rw [h.times.times]
    exact ho.fresh b (h.ends ▸ hb)

/-- The entry of a batch follows the entries of the segment. -/
theorem TimesOk.grown {m : Int} {a a' : Segment} (h : TimesOk a) (hg : Grown m a a')
    (hbase : a.timeIndex.baseOffset = a.baseOffset) : TimesOk a' := by
  obtain ⟨hsorted, hinside⟩ := h
  have hnext := hg.next
  rcases hg.time with hsame | ⟨hle, hlast, hpush⟩
  · refine ⟨by rw [hsame]; exact hsorted, fun e he => ?_⟩
    rw [hsame] at he
    rw [hg.base]
    exact lt_trans (hinside e he) hnext
  · have hentries : a'.timeIndex.entries =
        a.timeIndex.entries ++ [⟨m, a.nextOffset - a.baseOffset⟩] := by rw [hpush, hbase]
    -- no entry is newer than the last
    have hnewest : ∀ e ∈ a.timeIndex.entries, e.timestamp ≤ m := by
      intro e he
      rcases eq_nil_or_concat' a.timeIndex.entries with h0 | ⟨init, l, h0⟩
      · rw [h0] at he
        exact nomatch he
      · have hl := hlast l (by rw [h0, getLast?_concat])
        rw [h0] at hsorted he
        rcases mem_append.mp he with he | he
        · exact le_trans ((pairwise_append.mp hsorted).2.2 e he l (by simp)).1 hl
        · rw [mem_singleton.mp he]
          exact hl
    refine ⟨?_, fun e he => ?_⟩
    · rw [hentries]
      refine pairwise_append.mpr ⟨hsorted, pairwise_singleton _ _, fun e he e' he' => ?_⟩
      have hin := hinside e he
      rw [mem_singleton.mp he']
      exact ⟨hnewest e he, by dsimp only; omega⟩
    · rw [hentries] at he
      rw [hg.base]
      rcases mem_append.mp he with he | he
      · exact lt_trans (hinside e he) hnext
      · rw [mem_singleton.mp he]
        dsimp only
        omega

theorem GrowStep.orderly {m : Int} {a a' : Segment} (h : GrowStep m a a' t t') (ho : Orderly t) :
    Orderly t' := by
  obtain ⟨olds, hsegs, hsegs'⟩ := h.segments
  have hspans := ho.spans
  have htimes := ho.times
  rw [hsegs] at hspans htimes
  obtain ⟨hold, hle, hend⟩ := spans_concat.mp hspans
  have hnext := h.grown.next
  have hbase := (ho.led.based a (by simp [hsegs])).2
  refine ⟨h.led ho.led, ?_, fun s hs => ?_, fun b hb => ?_⟩
  · rw [hsegs', h.start, h.ends]
    exact spans_concat.mpr ⟨by rw [h.grown.base]; exact hold, by rw [h.grown.base]; omega, rfl⟩
  · rw [hsegs'] at hs
    rcases mem_append.mp hs with hs | hs
    · exact htimes s (mem_append_left _ hs)
    · rw [mem_singleton.mp hs]
      exact (htimes a (by simp)).grown h.grown hbase
  · rw [h.ends] at hb
    rw [h.times.times b (by omega)]
    exact ho.fresh b (by omega)

/-- **Every step of an append keeps the order.** -/
theorem LogStep.orderly (h : LogStep t t') (ho : Orderly t) : Orderly t' := by
  cases h with
  | sync h => exact h.orderly ho
  | roll h => exact h.orderly ho
  | grow h => exact h.orderly ho

theorem Reach.orderly (h : Reach t t') (ho : Orderly t) : Orderly t' := by
  obtain ⟨-, hsteps⟩ := h
  induction hsteps with
  | refl => exact ho
  | tail _ hstep ih => exact hstep.orderly ih

end Steps

/-! ## 2. The lookup -/

/-- A segment that the lookup does not pass over, with an entry for `time` at or before `o`. -/
def HitBy (time : Int) (o : Nat) (s : Segment) : Prop :=
  ¬ (0 ≤ s.maxTimestamp ∧ s.maxTimestamp < time) ∧
    ∃ e ∈ s.timeIndex.entries, time ≤ e.timestamp ∧ s.baseOffset + e.relativeOffset ≤ o

section Lookup

variable {s : Segment} {time : Int} {o : Nat}

/-- The ceiling is an entry that is not older, and no later one than any such entry. -/
theorem TimesOk.lookupCeiling (h : TimesOk s) (hbase : s.timeIndex.baseOffset = s.baseOffset) :
    (∀ x, TimeIndex.lookupCeiling s.timeIndex time = some x →
      ∃ e ∈ s.timeIndex.entries, time ≤ e.timestamp ∧ x = s.baseOffset + e.relativeOffset) ∧
    ∀ e ∈ s.timeIndex.entries, time ≤ e.timestamp →
      ∃ x, TimeIndex.lookupCeiling s.timeIndex time = some x ∧ x ≤ s.baseOffset +
        e.relativeOffset := by
  set es := s.timeIndex.entries with hes
  set before : TimeIndexEntry → Bool := fun e => decide (e.timestamp < time) with hbefore
  set k := lowerBound before es with hk
  have hmono : es.Pairwise (fun e e' => before e' = true → before e = true) :=
    h.sorted.imp fun hle hlt => by
      rw [decide_eq_true_eq] at hlt ⊢
      exact lt_of_le_of_lt hle.1 hlt
  have hceiling : TimeIndex.lookupCeiling s.timeIndex time =
      (es.drop k).head?.map (fun e => s.baseOffset + e.relativeOffset) := by
    rw [head?_drop, ← hbase]
    rfl
  have hlate := drop_lowerBound before es hmono
  rw [hceiling]
  constructor
  · intro x hx
    obtain ⟨e, he, rfl⟩ := Option.map_eq_some_iff.mp hx
    have hmem := mem_of_head? he
    have hnot := hlate e hmem
    rw [decide_eq_false_iff_not, not_lt] at hnot
    exact ⟨e, mem_of_mem_drop hmem, hnot, rfl⟩
  · intro e he hle
    have hmem : e ∈ es.drop k := by
      rw [← take_append_drop k es] at he
      refine (mem_append.mp he).resolve_left fun htake => ?_
      rw [take_lowerBound before es hmono, mem_filter, decide_eq_true_eq] at htake
      omega
    have hsub : (es.drop k).Pairwise (fun e e' => e.timestamp ≤ e'.timestamp ∧
        e.relativeOffset < e'.relativeOffset) := h.sorted.sublist (drop_sublist k es)
    cases hd : es.drop k with
    | nil =>
      rw [hd] at hmem
      exact nomatch hmem
    | cons f rest =>
      refine ⟨_, rfl, ?_⟩
      rw [hd] at hmem hsub
      rcases mem_cons.mp hmem with rfl | hmem
      · exact le_rfl
      · have hlt := (rel_of_pairwise_cons hsub hmem).2
        exact Nat.add_le_add_left hlt.le _

/-- The segments in front of one end where it begins, or before. -/
theorem Spans.next_le {b e : Nat} {front rest : List Segment} (h : Spans b (front ++ s :: rest) e) :
    ∀ x ∈ front, x.nextOffset ≤ s.baseOffset := by
  induction front generalizing b with
  | nil => exact fun x hx => nomatch hx
  | cons y front ih =>
    intro x hx
    rcases mem_cons.mp hx with rfl | hx
    · cases front with
      | nil => exact le_of_eq h.2.2.1.symm
      | cons z front =>
        have hz := ih h.2.2 z mem_cons_self
        have hle : x.nextOffset ≤ z.nextOffset := h.2.2.2.1
        omega
    · exact ih h.2.2 x hx

/-- **What the lookup answers**: an offset at or below `o`, which lies in the log, if and only if
    some segment is hit by it. -/
theorem offsetForTimestamp_le_iff {t : PartitionLog × World} (h : Orderly t)
    (ho : o < t.1.logEndOffset) :
    t.1.offsetForTimestamp time ≤ o ↔ ∃ s ∈ t.1.segments, HitBy time o s := by
  set hit : Segment → Option Nat := fun s =>
    if s.maxTimestamp ≥ 0 ∧ s.maxTimestamp < time then none
    else TimeIndex.lookupCeiling s.timeIndex time with hhit
  have hanswer : t.1.offsetForTimestamp time = (t.1.segments.findSome? hit).getD t.1.logEndOffset :=
    rfl
  rw [hanswer]
  constructor
  · intro hle
    cases hfind : t.1.segments.findSome? hit with
    | none =>
      rw [hfind, Option.getD_none] at hle
      omega
    | some x =>
      rw [hfind] at hle
      obtain ⟨s, hs, hx⟩ := exists_of_findSome?_eq_some hfind
      simp only [hhit] at hx
      split at hx
      · exact nomatch hx
      rename_i hpass
      obtain ⟨e, he, hts, rfl⟩ := ((h.times s hs).lookupCeiling (h.led.based s hs).2).1 x hx
      exact ⟨s, hs, hpass, e, he, hts, hle⟩
  · rintro ⟨s, hs, hpass, e, he, hts, hle⟩
    obtain ⟨x, hx, hxle⟩ := ((h.times s hs).lookupCeiling (h.led.based s hs).2).2 e he hts
    have hhits : hit s = some x := by
      simp only [hhit]
      rw [if_neg hpass]
      exact hx
    obtain ⟨y, hy⟩ : ∃ y, t.1.segments.findSome? hit = some y := by
      rw [← Option.isSome_iff_exists, findSome?_isSome_iff]
      exact ⟨s, hs, by rw [hhits]; rfl⟩
    rw [hy, Option.getD_some]
    -- the answer is of this segment or of one in front of it
    obtain ⟨front, s₁, rest, hsplit, hy₁, hfront⟩ := findSome?_eq_some_iff.mp hy
    have hmem : s = s₁ ∨ s ∈ rest := by
      rw [hsplit] at hs
      rcases mem_append.mp hs with hs | hs
      · rw [hfront s hs] at hhits
        exact nomatch hhits
      · exact mem_cons.mp hs
    rcases hmem with rfl | hrest
    · rw [hhits, Option.some.injEq] at hy₁
      omega
    · have hs₁ : s₁ ∈ t.1.segments := by simp [hsplit]
      simp only [hhit] at hy₁
      split at hy₁
      · exact nomatch hy₁
      obtain ⟨e₁, he₁, -, rfl⟩ := ((h.times s₁ hs₁).lookupCeiling (h.led.based s₁ hs₁).2).1 y hy₁
      have hin := (h.times s₁ hs₁).inside e₁ he₁
      obtain ⟨mid, rest', rfl⟩ := append_of_mem hrest
      have hspans := h.spans
      rw [hsplit, show front ++ s₁ :: (mid ++ s :: rest') = (front ++ s₁ :: mid) ++ s :: rest' by
        simp] at hspans
      have := hspans.next_le s₁ (by simp)
      omega

end Lookup

/-! ## 3. Logs built by appends -/

/-- The largest timestamp up to `time` that a caller can ask for; -1 and -2 ask for the end and the
    start of the log. -/
def askable (time : Int) : Int := if time = -1 ∨ time = -2 then -3 else time

/-- **Every record has an entry** at or before it that is not older, in a segment that a lookup for
    the record's timestamp does not pass over. -/
def TimeCovered (l : PartitionLog) (w : World) : Prop :=
  ∀ i r, (l.records w)[i]? = some r →
    ∃ s ∈ l.segments, HitBy (askable (recordTimestamp r)) (l.logStartOffset + i) s

theorem HitBy.earlier {time time' : Int} {o : Nat} {s : Segment} (h : HitBy time o s)
    (hle : time' ≤ time) : HitBy time' o s := by
  obtain ⟨hpass, e, he, hts, ho⟩ := h
  exact ⟨fun hno => hpass ⟨hno.1, lt_of_lt_of_le hno.2 hle⟩, e, he, le_trans hle hts, ho⟩

/-- No lookup skips a record. -/
def LookupsReach (l : PartitionLog) (w : World) : Prop :=
  ∀ time, time ≠ -1 → time ≠ -2 → ∀ i r, (l.records w)[i]? = some r → time ≤ recordTimestamp r →
    l.offsetForTimestamp time ≤ l.logStartOffset + i

theorem Orderly.lookupsReach_iff {l : PartitionLog} {w : World} (h : Orderly (l, w)) :
    LookupsReach l w ↔ TimeCovered l w := by
  have hinside : ∀ {i} {r}, (l.records w)[i]? = some r →
      l.logStartOffset + i < l.logEndOffset := by
    intro i r hr
    obtain ⟨hi, -⟩ := List.getElem?_eq_some_iff.mp hr
    rw [PartitionLog.records, length_flatMap_splitRecords h.spans] at hi
    dsimp only at hi
    omega
  constructor
  · intro hreach i r hr
    refine (offsetForTimestamp_le_iff h (hinside hr)).mp (hreach _ ?_ ?_ i r hr ?_) <;>
      · unfold askable
        split <;> omega
  · intro hcov time h1 h2 i r hr hle
    obtain ⟨s, hs, hhit⟩ := hcov i r hr
    refine (offsetForTimestamp_le_iff h (hinside hr)).mpr ⟨s, hs, hhit.earlier ?_⟩
    unfold askable
    split <;> omega

namespace TimeLookup

open LogRun

variable {options : LogOptions} {env : Env} {bs : List (Batch × Env)} {l : PartitionLog} {w : World}

/-- The log of a process, if it has one, is in order. -/
def Inv (p : Process) : Prop := ∀ l, p.log = some l → Orderly (l, p.world)

theorem inv_dead (w : World) : Inv ⟨none, w⟩ := fun _ hl => nomatch hl

theorem inv_open : Inv (Flushed.next options init (.reopen env)) := by
  refine step_reopen (P := fun r => Inv r.1)
    (sat_mono (sat_openLog_any options) (fun r w' hload => ?_)
    (fun _ w' _ => inv_dead w') (fun w' _ => inv_dead w'))
  have hempty : ∀ b, timesAt ((⟨∅, [], [], [], []⟩ : World).under env) b = [] := fun _ =>
    IndexFormat.kept_nil
  rintro l hl
  obtain rfl : r.1 = l := Option.some.inj hl
  cases hload with
  | @fresh s _ ho hsegs hstart hend hactive hnext =>
    have hnil : s.timeIndex.entries = [] := by
      rw [ho.timeIndex]
      exact hempty 0
    have honly : ∀ x ∈ r.1.segments, x = s := by
      rw [hsegs]
      exact fun x hx => mem_singleton.mp hx
    refine ⟨⟨⟨[], s, hsegs, hactive⟩, ?_, fun x hx => ?_, fun x hx => ?_⟩, ?_, fun x hx => ?_,
      fun b _ => ?_⟩
    · rw [hsegs]
      exact pairwise_singleton _ _
    · rw [honly x hx, ho.id_eq, hnext]
      exact Nat.one_pos
    · rw [honly x hx, ho.index, ho.timeIndex, ho.base_eq]
      exact ⟨rfl, rfl⟩
    · rw [hsegs, hstart, hend]
      exact ⟨ho.base_eq, Nat.zero_le _, ho.next⟩
    · rw [honly x hx]
      exact ⟨by rw [hnil]; exact .nil, by rw [hnil]; simp⟩
    · rw [ho.sameTimes.times]
      exact hempty b
  | recovered hne => exact absurd rfl hne

/-- One append, whatever fails in it. -/
theorem inv_append {p : Process} (b : Batch) (h : Inv p) :
    Inv (Flushed.next options p (.call (.append b) env)) := by
  obtain ⟨log, w⟩ := p
  cases log with
  | none => exact inv_dead w
  | some l =>
    have ho : Orderly (l, w.under env) := by
      obtain ⟨hled, hspans, htimes, hfresh⟩ := h l rfl
      exact ⟨hled, hspans, htimes, hfresh⟩
    have halive : ∀ t, Reach (l, w.under env) t → Inv ⟨some t.1, t.2⟩ := by
      intro t ht l' hl'
      obtain rfl : t.1 = l' := Option.some.inj hl'
      exact ht.orderly ho
    refine step_call (P := fun r => Inv r.1) (sat_mono (sat_map (sat_append_added b ho.led))
      (fun _ t ht => ?_) (fun _ t ht => halive t ht) (fun t _ => inv_dead t.2))
    obtain ⟨r, -, m, hm, -⟩ := ht
    exact halive t hm.reach

theorem inv_run : Inv (Flushed.run options (Addressing.appends env bs)) := by
  have hrest : ∀ (bs : List (Batch × Env)) p, Inv p →
      Inv ((bs.map fun b => Event.call (.append b.1) b.2).foldl (Flushed.next options) p) := by
    intro bs
    induction bs with
    | nil => exact fun _ h => h
    | cons b bs ih => exact fun p h => ih _ (inv_append b.1 h)
  exact hrest bs _ inv_open

/-- **A consumer that starts at `OffsetForTimestamp` misses no record**, in a log built by appends
    and for every timestamp but the sentinels, if and only if the time indexes cover the records. -/
theorem offsetForTimestamp_reaches_iff
    (hl : (Flushed.run options (Addressing.appends env bs)).log = some l) :
    LookupsReach l (Flushed.run options (Addressing.appends env bs)).world ↔
      TimeCovered l (Flushed.run options (Addressing.appends env bs)).world :=
  (inv_run l hl).lookupsReach_iff

/-- Two batches of one record, at the times 10 and 100. -/
def twoTimes : List Event :=
  Addressing.appends ⟨[], [], []⟩ [(.assign bareRecord 1, ⟨[], [10, 10, 10], []⟩),
    (.assign bareRecord 1, ⟨[], [100, 100, 100], []⟩)]

/-- In segments of one record each, both are found. -/
theorem twoTimes_reached : ∃ l, (Flushed.run (smallSegments false) twoTimes).log = some l ∧
    (l.records (Flushed.run (smallSegments false) twoTimes).world).map recordTimestamp = [10, 100] ∧
    LookupsReach l (Flushed.run (smallSegments false) twoTimes).world := by
  have hlog : (Flushed.run (smallSegments false) twoTimes).log.map (fun l => (l.logStartOffset,
      (l.records (Flushed.run (smallSegments false) twoTimes).world).map recordTimestamp)) =
        some (0, [10, 100]) := by decide +kernel
  have htimes : (Flushed.run (smallSegments false) twoTimes).log.map (fun l =>
      l.segments.map (fun s => (s.baseOffset, s.maxTimestamp, s.timeIndex.entries))) =
        some [(0, 10, [⟨10, 0⟩]), (1, 100, [⟨100, 0⟩])] := by decide +kernel
  obtain ⟨l, hl, hfacts⟩ := Option.map_eq_some_iff.mp hlog
  obtain ⟨hstart, hrecords⟩ := Prod.mk.inj hfacts
  rw [hl, Option.map_some, Option.some.injEq] at htimes
  -- each record has the entry of the segment that begins with it
  have hentry : ∀ o time, (o, time, [⟨time, 0⟩]) ∈
      l.segments.map (fun s => (s.baseOffset, s.maxTimestamp, s.timeIndex.entries)) →
      ∃ s ∈ l.segments, HitBy time (0 + o) s := by
    intro o time hmem
    obtain ⟨s, hs, heq⟩ := mem_map.mp hmem
    rw [Prod.mk.injEq, Prod.mk.injEq] at heq
    refine ⟨s, hs, by omega, ⟨time, 0⟩, by rw [heq.2.2]; simp, le_rfl, ?_⟩
    rw [heq.1]
    exact le_of_eq (Nat.add_comm o 0)
  have hcovered : TimeCovered l (Flushed.run (smallSegments false) twoTimes).world := by
    intro i r hr
    have htime : [10, 100][i]? = some (recordTimestamp r) := by
      rw [← hrecords, getElem?_map, hr]
      rfl
    rw [hstart]
    rcases i with _ | _ | i
    · rw [← Option.some.inj htime]
      exact hentry 0 10 (by rw [htimes]; simp)
    · rw [← Option.some.inj htime]
      exact hentry 1 100 (by rw [htimes]; simp)
    · exact nomatch htime
  exact ⟨l, hl, hrecords, (offsetForTimestamp_reaches_iff hl).mpr hcovered⟩

/-- **A newer record is skipped.** In one segment the second batch gets no entry: a lookup of 50
    answers the log end, and the record of time 100 lies before it. -/
theorem newer_record_skipped : ∃ l, (Flushed.run { smallSegments false with segmentBytes := 1024 }
      twoTimes).log = some l ∧
    (l.records (Flushed.run { smallSegments false with segmentBytes := 1024 } twoTimes).world).map
      recordTimestamp = [10, 100] ∧ l.logStartOffset = 0 ∧ l.offsetForTimestamp 50 = 2 := by
  have hlog : (Flushed.run { smallSegments false with segmentBytes := 1024 } twoTimes).log.map
      (fun l => ((l.records (Flushed.run { smallSegments false with segmentBytes := 1024 }
        twoTimes).world).map recordTimestamp, l.logStartOffset, l.offsetForTimestamp 50)) =
      some ([10, 100], 0, 2) := by decide +kernel
  obtain ⟨l, hl, hfacts⟩ := Option.map_eq_some_iff.mp hlog
  exact ⟨l, hl, by simpa using hfacts⟩

end TimeLookup

end PulseLog

/-
  Subject:   What the unflushed counters say after a truncation.

  `TruncateTo` sets both counters to zero, whatever it keeps. Records that were not flushed and lie
  below the truncation point stay in the log, and `NeedsFlush` does not see them.

  * `truncateTo_counters_iff` -- when the counters are exact after it;
  * `truncated_uncounted` -- one of two records is kept, and none is counted.
-/
import PulseLog.Storage.ReadBudget

namespace PulseLog

open List

/-! ## 1. The records that are not flushed -/

/-- The segments hold the offsets from `b` to `e`, each from where the one before it ends. -/
def Spans : Nat → List Segment → Nat → Prop
  | b, [], e => b = e
  | b, s :: ss, e => s.baseOffset = b ∧ b ≤ s.nextOffset ∧ Spans s.nextOffset ss e

/-- **A log without gaps**: its segments are distinct objects and span the log. -/
structure Contiguous (l : PartitionLog) : Prop where
  nonempty : l.segments ≠ []
  spans : Spans l.logStartOffset l.segments l.logEndOffset
  ids : l.segments.Pairwise (fun s s' => s.id ≠ s'.id)

namespace PartitionLog

/-- The records of a log, cut out of its files. -/
def records (l : PartitionLog) (w : World) : List Bytes :=
  l.segments.flatMap (fun s => splitRecords (s.nextOffset - s.baseOffset) (w.bytes s.logPath))

/-- Its records in `[flushed_offset, log_end_offset)`. -/
def unflushed (l : PartitionLog) (w : World) : List Bytes :=
  (l.records w).drop (l.flushedOffset - l.logStartOffset)

/-- **The counters are exact.** -/
def CountersExact (l : PartitionLog) (w : World) : Prop :=
  l.unflushedBytes = (l.unflushed w).flatten.length ∧ l.unflushedRecords = (l.unflushed w).length

end PartitionLog

section Spans

variable {b e : Nat} {ss : List Segment} {s : Segment}

theorem Spans.le (h : Spans b ss e) : b ≤ e := by
  induction ss generalizing b with
  | nil => exact le_of_eq h
  | cons s ss ih => exact le_trans h.2.1 (ih h.2.2)

theorem spans_concat : Spans b (ss ++ [s]) e ↔
    Spans b ss s.baseOffset ∧ s.baseOffset ≤ s.nextOffset ∧ s.nextOffset = e := by
  induction ss generalizing b with
  | nil =>
    constructor
    · rintro ⟨rfl, h⟩
      exact ⟨rfl, h⟩
    · rintro ⟨rfl, h⟩
      exact ⟨rfl, h⟩
  | cons x ss ih => simp only [cons_append, Spans, ih, and_assoc]

theorem length_splitRecords : ∀ (n : Nat) (bs : Bytes), (splitRecords n bs).length = n
  | 0, _ => rfl
  | n + 1, bs => by rw [splitRecords, length_cons, length_splitRecords n]

theorem length_flatMap_splitRecords (h : Spans b ss e) (w : World) :
    (ss.flatMap (fun s => splitRecords (s.nextOffset - s.baseOffset) (w.bytes s.logPath))).length =
      e - b := by
  induction ss generalizing b with
  | nil => rw [h, Nat.sub_self, flatMap_nil, length_nil]
  | cons s ss ih =>
    have hle := h.2.2.le
    have hmid := h.2.1
    rw [flatMap_cons, length_append, length_splitRecords, ih h.2.2, h.1]
    omega

theorem spans_of_chain (hle : ∀ s ∈ ss, s.baseOffset ≤ s.nextOffset)
    (hchain : ss.IsChain (fun s s' => s.nextOffset = s'.baseOffset))
    (hb : ss.head?.map Segment.baseOffset = some b)
    (he : ss.getLast?.map Segment.nextOffset = some e) : Spans b ss e := by
  induction ss generalizing b with
  | nil => exact nomatch hb
  | cons s ss ih =>
    rw [head?_cons, Option.map_some, Option.some.injEq] at hb
    have hs := hle s mem_cons_self
    refine ⟨hb, hb ▸ hs, ?_⟩
    cases ss with
    | nil =>
      rw [getLast?_singleton, Option.map_some, Option.some.injEq] at he
      exact he
    | cons s' ss =>
      rw [isChain_cons_cons] at hchain
      refine ih (fun x hx => hle x (mem_cons_of_mem _ hx)) hchain.2 ?_ he
      rw [head?_cons, Option.map_some, hchain.1]

/-- The logs of calm runs have no gaps. -/
theorem LogShape.contiguous {pre : Bool} {stray : Nat} {segs : List SegView} {g : SegView}
    {l : PartitionLog} {w : World} (h : LogInv (LogShape.mode pre) stray segs g l w) :
    Contiguous l := by
  have hshape := LogShape.shaped_of_logInv h
  obtain ⟨records, hsegs⟩ := hshape.segments
  refine ⟨?_, spans_of_chain (fun s hs => ?_) hshape.chain hshape.start hshape.ends, h.ids⟩
  · obtain ⟨olds, a, hl, -⟩ := h.objects
    simp [hl]
  · obtain ⟨rs, -, hrs⟩ := forall₂_exists_left hsegs hs
    rw [hrs.next]
    exact Nat.le_add_right _ _

end Spans

/-! ## 2. The truncation -/

section Truncate

variable {l : PartitionLog} {w : World} {o b e : Nat}

/-- Closing and deleting a segment leaves the log object as it is. -/
theorem onReturn_discard (s : Segment) :
    OnReturn (fun _ t => t.1 = l) (PartitionLog.discard s (l, w)) := by
  exact sat_then (sat_onSnd (sat_mono (sat_trivial _) (fun _ _ _ => rfl) (fun _ _ _ => trivial)
    (fun _ _ => trivial)))

/-- The loop over the back: the segments that are left reach to `o`, and the last begins at or
    before it. -/
theorem onReturn_dropBack (hb : b ≤ o) : ∀ (n : Nat) (l : PartitionLog) (w : World) (e : Nat),
    l.segments.length ≤ n → l.segments ≠ [] → Spans b l.segments e → o ≤ e →
    OnReturn (fun _ t => ∃ front a e', t.1 = { l with segments := front ++ [a] } ∧
        front ++ [a] <+: l.segments ∧ Spans b (front ++ [a]) e' ∧ a.baseOffset ≤ o ∧ o ≤ e')
      (PartitionLog.dropBack o n (l, w))
  | 0, l, _, _, hlen, hne, _, _ => absurd (eq_nil_of_length_eq_zero (by omega)) hne
  | n + 1, l, w, e, hlen, hne, hspans, ho => by
    obtain ⟨front, a, hl⟩ : ∃ front a, l.segments = front ++ [a] :=
      ⟨_, _, (dropLast_append_getLast hne).symm⟩
    unfold PartitionLog.dropBack
    rw [bind_get]
    rw [hl] at hspans hlen ⊢
    rw [getLast?_concat]
    dsimp only
    obtain ⟨hfront, -, -⟩ := spans_concat.mp hspans
    split
    · rename_i hdrop
      rw [PartitionLog.update, bind_modify]
      refine sat_bind (onReturn_discard a) ?_
      rintro _ ⟨l1, w1⟩ ht
      dsimp only at ht
      have hsegs : l1.segments = front := by
        rw [ht]
        exact (congrArg List.dropLast hl).trans dropLast_concat
      rw [length_append, length_singleton] at hdrop hlen
      refine sat_mono (onReturn_dropBack hb n l1 w1 a.baseOffset (by rw [hsegs]; omega)
        (fun hnil => ?_) (by rw [hsegs]; exact hfront) hdrop.2) ?_ (fun _ _ _ => trivial)
        (fun _ _ => trivial)
      · rw [← hsegs, hnil, length_nil] at hdrop
        omega
      · rintro _ t ⟨front', a', e', h1, h2, h3⟩
        rw [hsegs] at h2
        refine ⟨front', a', e', ?_, h2.trans (prefix_append _ _), h3⟩
        rw [h1]
        subst ht
        rfl
    · rename_i hkeep
      refine ⟨front, a, e, by rw [← hl], prefix_rfl, hspans, ?_, ho⟩
      -- the last segment begins before `o`, or is the only one
      by_cases hone : front = []
      · rw [hone] at hfront
        exact le_trans (le_of_eq (Eq.symm hfront)) hb
      · have := length_pos_iff.mpr hone
        rw [length_append, length_singleton] at hkeep
        omega

/-- The calls on the three files, and the update of the object behind them. -/
theorem onReturn_cutFiles {s : Segment} (p : Prog Status World Unit)
    (q : Prog Status (OffsetIndex × World) Unit) (r : Prog Status (TimeIndex × World) Unit)
    (f : Segment → Segment) :
    OnReturn (fun _ t => ∃ s' : Segment, t.1 = f s' ∧ s'.id = s.id ∧ s'.baseOffset = s.baseOffset)
      ((do Prog.onSnd p; Segment.onIndex q; Segment.onTimeIndex r; Segment.update f :
        Prog Status (Segment × World) Unit) (s, w)) := by
  let Same : Unit → Segment × World → Prop := fun _ t =>
    t.1.id = s.id ∧ t.1.baseOffset = s.baseOffset
  refine sat_bind (R := Same) (sat_onSnd (sat_mono (sat_trivial _) (fun _ _ _ => ⟨rfl, rfl⟩)
    (fun _ _ _ => trivial) (fun _ _ => trivial))) (fun _ t ht => ?_)
  refine sat_bind (R := Same) (sat_zoom (sat_mono (sat_trivial _) (fun _ _ _ => ht)
    (fun _ _ _ => trivial) (fun _ _ => trivial))) (fun _ t ht => ?_)
  refine sat_bind (R := Same) (sat_zoom (sat_mono (sat_trivial _) (fun _ _ _ => ht)
    (fun _ _ _ => trivial) (fun _ _ => trivial))) (fun _ t ht => ?_)
  exact ⟨t.1, rfl, ht⟩

/-- Cutting a segment in front of `o`. -/
theorem onReturn_truncateFrom {s : Segment} (hb : s.baseOffset ≤ o) :
    OnReturn (fun _ t => t.1.id = s.id ∧ t.1.baseOffset = s.baseOffset ∧
      t.1.nextOffset = min s.nextOffset o) (Segment.truncateFrom o (s, w)) := by
  unfold Segment.truncateFrom
  rw [bind_get]
  dsimp only
  split
  · exact ⟨rfl, rfl, (Nat.min_eq_left (by assumption)).symm⟩
  have hmin : min s.nextOffset o = o := by omega
  rw [hmin]
  split
  · rename_i hle
    refine sat_mono (onReturn_cutFiles _ _ _ _) ?_ (fun _ _ _ => trivial) (fun _ _ => trivial)
    rintro _ t ⟨s', h1, h2, h3⟩
    rw [h1]
    exact ⟨h2, h3, h3.trans (le_antisymm hb hle)⟩
  · refine sat_then (sat_ofOutcome (fun position _ => ?_) (fun _ _ => trivial) (fun _ => trivial))
    refine sat_mono (onReturn_cutFiles _ _ _ _) ?_ (fun _ _ _ => trivial) (fun _ _ => trivial)
    rintro _ t ⟨s', h1, h2, h3⟩
    rw [h1]
    exact ⟨h2, h3, rfl⟩

/-- **What a truncation leaves.** -/
theorem onReturn_truncateTo (h : Contiguous l) : OnReturn (fun _ t =>
      l.logEndOffset ≤ o ∧ t = (l, w) ∨
      o < l.logEndOffset ∧ l.logStartOffset ≤ o ∧ Contiguous t.1 ∧
        t.1.logStartOffset = l.logStartOffset ∧ t.1.logEndOffset = o ∧
        t.1.flushedOffset = min l.flushedOffset o ∧ t.1.unflushedBytes = 0 ∧
          t.1.unflushedRecords = 0)
    (PartitionLog.truncateTo o (l, w)) := by
  unfold PartitionLog.truncateTo
  rw [bind_get]
  split
  · rename_i hge
    exact .inl ⟨hge, rfl⟩
  split
  · trivial
  rename_i hlt hge
  rw [not_le] at hlt
  rw [not_lt] at hge
  refine sat_bind (onReturn_dropBack hge _ l w l.logEndOffset le_rfl h.nonempty h.spans hlt.le) ?_
  rintro _ ⟨l1, w1⟩ ⟨front, a, e', ht, hpre, hspans, ha, he⟩
  subst ht
  have hids := h.ids.sublist hpre.sublist
  rw [PartitionLog.update, bind_modify]
  rw [getLast?_concat]
  rw [bind_ok (activeSegment_eq rfl hids rfl)]
  obtain ⟨hfront, hle, rfl⟩ := spans_concat.mp hspans
  refine sat_then (sat_onActive rfl hids
    (sat_mono (onReturn_truncateFrom ha) ?_ (fun _ _ _ => trivial) (fun _ _ => trivial)))
  rintro _ t ⟨hid, hbase, hnext⟩
  refine .inr ⟨hlt, hge, ⟨by simp, ?_, ?_⟩, rfl, rfl, rfl, rfl, rfl⟩
  · rw [Nat.min_eq_right he] at hnext
    exact spans_concat.mpr ⟨by rw [hbase]; exact hfront, by omega, hnext⟩
  · have hmap : (front ++ [t.1]).map Segment.id = (front ++ [a]).map Segment.id := by simp [hid]
    rw [← pairwise_map, hmap, pairwise_map]
    exact hids

theorem length_unflushed (h : Contiguous l) :
    (l.unflushed w).length =
      l.logEndOffset - l.logStartOffset - (l.flushedOffset - l.logStartOffset) := by
  rw [PartitionLog.unflushed, length_drop, PartitionLog.records,
    length_flatMap_splitRecords h.spans]

/-- Counters at zero are exact if nothing is unflushed. -/
theorem countersExact_zero (h : Contiguous l) (hbytes : l.unflushedBytes = 0)
    (hrecords : l.unflushedRecords = 0) : l.CountersExact w ↔
      l.logEndOffset ≤ l.flushedOffset ∨ l.logEndOffset = l.logStartOffset := by
  have hlen := length_unflushed (w := w) h
  have hle := h.spans.le
  unfold PartitionLog.CountersExact
  rw [hbytes, hrecords]
  constructor
  · omega
  · intro hwhen
    have hnil : l.unflushed w = [] := eq_nil_of_length_eq_zero (by omega)
    rw [hnil]
    exact ⟨rfl, rfl⟩

end Truncate

/-- **The counters after a truncation.** They are exact if and only if the call had nothing to do
    and they were exact before, or no unflushed record was left: the truncation point was not behind
    the flushed offset, or was the start of the log. -/
theorem truncateTo_counters_iff {l l' : PartitionLog} {w w' : World} {o : Nat} (h : Contiguous l)
    (hrun : PartitionLog.truncateTo o (l, w) = (.ok (), (l', w'))) : l'.CountersExact w' ↔
      l.logEndOffset ≤ o ∧ l.CountersExact w ∨
      o < l.logEndOffset ∧ (o ≤ l.flushedOffset ∨ o = l.logStartOffset) := by
  have hsat := onReturn_truncateTo (w := w) (o := o) h
  rw [hrun] at hsat
  rcases hsat with ⟨hge, hsame⟩ | ⟨hlt, -, hc, hstart, hend, hflushed, hbytes, hrecords⟩
  · rw [Prod.mk.injEq] at hsame
    rw [hsame.1, hsame.2]
    constructor
    · intro hexact
      exact .inl ⟨hge, hexact⟩
    · rintro (⟨-, hexact⟩ | ⟨hlt, -⟩)
      · exact hexact
      · omega
  · rw [countersExact_zero hc hbytes hrecords]
    constructor
    · intro hwhen
      exact .inr ⟨hlt, by omega⟩
    · rintro (⟨hge, -⟩ | ⟨-, hwhen⟩)
      · omega
      · omega

/-! ## 3. Two records -/

/-- A truncation to the start of the log: both records go, and none is counted. -/
theorem emptied_counters : ∃ l w l' w', LogShape.run (smallSegments false) ⟨[], [], []⟩ twoAppends =
      some (l, w) ∧ PartitionLog.truncateTo 0 (l, w) = (.ok (), (l', w')) ∧
        l'.CountersExact w' := by
  have hrun : (LogShape.run (smallSegments false) ⟨[], [], []⟩ twoAppends).map (fun t =>
      (t.1.logStartOffset, t.1.logEndOffset, (PartitionLog.truncateTo 0 t).1.value?)) =
        some (0, 2, some ()) := by decide +kernel
  obtain ⟨⟨l, w⟩, hl, hfacts⟩ := Option.map_eq_some_iff.mp hrun
  obtain ⟨hstart, hend, hok⟩ : l.logStartOffset = 0 ∧ l.logEndOffset = 2 ∧
      (PartitionLog.truncateTo 0 (l, w)).1.value? = some () := by
    simpa using hfacts
  obtain ⟨e, segs, g, hinv⟩ : ∃ e segs g, LogInv (LogShape.mode false) e segs g l w :=
    LogShape.promised_run rfl twoAppends_ok hl
  have htrunc := eq_of_value? hok
  refine ⟨l, w, _, _, hl, htrunc,
    (truncateTo_counters_iff (LogShape.contiguous hinv) htrunc).mpr ?_⟩
  exact .inr ⟨by omega, .inl (Nat.zero_le _)⟩

/-- **A record that is kept and not counted.** Two records are appended and not flushed; the
    truncation to offset 1 keeps the first, and both counters are zero. -/
theorem truncated_uncounted : ∃ l w l' w',
    LogShape.run (smallSegments false) ⟨[], [], []⟩ twoAppends = some (l, w) ∧
      PartitionLog.truncateTo 1 (l, w) = (.ok (), (l', w')) ∧ l'.unflushedBytes = 0 ∧
      l'.unflushedRecords = 0 ∧ (l'.unflushed w').length = 1 ∧
      (l'.unflushed w').flatten.length = 27 := by
  have hrun : (LogShape.run (smallSegments false) ⟨[], [], []⟩ twoAppends).map (fun t =>
      let t' := PartitionLog.truncateTo 1 t
      (t'.1.value?, t'.2.1.unflushedBytes, t'.2.1.unflushedRecords,
        (t'.2.1.unflushed t'.2.2).map List.length)) = some
          (some (), 0, 0, [27]) := by decide +kernel
  obtain ⟨⟨l, w⟩, hl, hfacts⟩ := Option.map_eq_some_iff.mp hrun
  simp only [Prod.mk.injEq] at hfacts
  obtain ⟨hok, hbytes, hrecords, hlengths⟩ := hfacts
  refine ⟨l, w, _, _, hl, eq_of_value? hok, hbytes, hrecords, ?_, ?_⟩
  · rw [← length_map, hlengths]
    rfl
  · rw [length_flatten, hlengths]
    rfl

end PulseLog

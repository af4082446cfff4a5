/-
  Subject:   Reading across the segments of a partition log.

  The contents of a log are a ghost list of segments, each a base offset and its records. Two
  neighbours may overlap -- a segment may hold records at or past the base of the next one -- but
  there is no gap between them. An offset belongs to the last segment based at or below it.

  * `read_log` -- every offset of the log can be read; a read returns a run of records from the
    offset asked for, and the first one is the record of that offset;
  * `read_run` -- without overlap all of them are the records of their offsets.
-/
import Mathlib.Data.List.Chain
import PulseLog.Storage.Lookup
import PulseLog.Storage.PartitionLog

namespace PulseLog

open List

/-- A segment of the contents: its base offset and its records. -/
abbrev SegView := Nat × List Bytes

/-- The record at an offset, in the last segment based at or below it. -/
def contents (segs : List SegView) (o : Nat) : Option Bytes :=
  (segs.filter (fun g => decide (g.1 ≤ o))).getLast?.bind (fun g => g.2[o - g.1]?)

/-- The end of the last segment. -/
def viewEnd (segs : List SegView) : Nat := (segs.getLast?.map (fun g => g.1 + g.2.length)).getD 0

/-- The base of the first segment. -/
def viewStart (segs : List SegView) : Nat := (segs.head?.map Prod.fst).getD 0

variable {o i maxBytes : Nat} {g : SegView}

theorem viewEnd_concat (segs : List SegView) (g : SegView) :
    viewEnd (segs ++ [g]) = g.1 + g.2.length := by
  rw [viewEnd, getLast?_concat]
  rfl

theorem viewStart_concat (segs : List SegView) (g g' : SegView) :
    viewStart (segs ++ [g] ++ [g']) = viewStart (segs ++ [g]) := by
  cases segs <;> rfl

/-- No gap between neighbours. -/
def Meets (g g' : SegView) : Prop := g'.1 ≤ g.1 + g.2.length

/-- The segment that shows an offset: the last one based at or below it, and it reaches beyond
    it. -/
theorem exists_covering {segs : List SegView} (hsort : segs.Pairwise (fun g g' => g.1 < g'.1))
    (hmeet : segs.IsChain Meets) (hs : viewStart segs ≤ o) (he : o < viewEnd segs) :
    ∃ front g back, segs = front ++ g :: back ∧ g.1 ≤ o ∧ o < g.1 + g.2.length ∧
      ∀ g' ∈ back, o < g'.1 := by
  induction segs with
  | nil => exact absurd he (Nat.not_lt_zero o)
  | cons x xs ih =>
    cases xs with
    | nil => exact ⟨[], x, [], rfl, hs, he, by simp⟩
    | cons y ys =>
      by_cases hy : y.1 ≤ o
      · have he' : o < viewEnd (y :: ys) := by
          rwa [viewEnd] at he
        obtain ⟨front, g, back, heq, h1, h2, h3⟩ :=
          ih (pairwise_cons.mp hsort).2 (isChain_cons_cons.mp hmeet).2 hy he'
        exact ⟨x :: front, g, back, by rw [heq]; rfl, h1, h2, h3⟩
      · have hxy : y.1 ≤ x.1 + x.2.length := (isChain_cons_cons.mp hmeet).1
        refine ⟨[], x, y :: ys, rfl, hs, by omega, fun g' hg' => ?_⟩
        rcases mem_cons.mp hg' with rfl | hg'
        · omega
        · have := (pairwise_cons.mp (pairwise_cons.mp hsort).2).1 g' hg'
          omega

theorem contents_split {front back : List SegView} (hg : g.1 ≤ o) (hb : ∀ g' ∈ back, o < g'.1) :
    contents (front ++ g :: back) o = g.2[o - g.1]? := by
  have hback : back.filter (fun g => decide (g.1 ≤ o)) = [] := by
    rw [filter_eq_nil_iff]
    intro g' hg'
    have := hb g' hg'
    simp only [decide_eq_true_eq]
    omega
  rw [contents, filter_append, filter_cons_of_pos (by simpa using hg), hback, getLast?_concat]
  rfl

/-- Neighbours meet: a segment begins where the one before it ends. -/
def Adjacent (g g' : SegView) : Prop := g'.1 = g.1 + g.2.length

/-- Every record of a segment is the content of its offset. -/
theorem contents_of_adjacent {segs : List SegView} (hsort : segs.Pairwise (fun g g' => g.1 < g'.1))
    (hmeet : segs.IsChain Adjacent) (hg : g ∈ segs) {r : Bytes} (hr : g.2[i]? = some r) :
    contents segs (g.1 + i) = some r := by
  obtain ⟨front, back, rfl⟩ := append_of_mem hg
  have hi : i < g.2.length := (List.getElem?_eq_some_iff.mp hr).1
  rw [contents_split (Nat.le_add_right _ _), Nat.add_sub_cancel_left, hr]
  intro g' hg'
  -- the segments behind begin at the end of this one or later
  cases back with
  | nil => simp at hg'
  | cons b bs =>
    have hnext : Adjacent g b :=
      (isChain_cons_cons.mp (isChain_append.mp hmeet).2.1).1
    unfold Adjacent at hnext
    rcases mem_cons.mp hg' with rfl | hg'
    · omega
    · have hsorted := (pairwise_append.mp hsort).2.1
      have hlater := (pairwise_cons.mp (pairwise_cons.mp hsorted).2).1 g' hg'
      omega

/-- A log whose objects show the segments `segs`, with or without gaps. -/
structure LogShows (segs : List SegView) (l : PartitionLog) (w : World) : Prop where
  objects : Forall₂ (fun (g : SegView) s => s.baseOffset = g.1 ∧ Readable g.2 s w) segs l.segments
  sorted : segs.Pairwise (fun g g' => g.1 < g'.1)
  nonempty : segs ≠ []
  start : l.logStartOffset = viewStart segs
  ends : l.logEndOffset = viewEnd segs

/-- There is no gap, and the records of each segment are a run. -/
structure LogReadable (P : Nat → Bytes → Prop) (segs : List SegView) (l : PartitionLog)
    (w : World) : Prop extends LogShows segs l w where
  run : ∀ g ∈ segs, RunOf P g.1 g.2
  meets : segs.IsChain Meets

section Read

variable {P : Nat → Bytes → Prop} {segs : List SegView} {l : PartitionLog} {w : World}

/-- The records of such a log are the contents of their offsets. -/
theorem LogReadable.stored (h : LogReadable P segs l w) (hmeet : segs.IsChain Adjacent) :
    LogReadable (fun o r => P o r ∧ contents segs o = some r) segs l w :=
  { h with run := fun g hg => runOf_of_get fun _ _ hr =>
      ⟨(h.run g hg).get hr, contents_of_adjacent h.sorted hmeet hg hr⟩ }

section

variable (h : LogShows segs l w)
include h

theorem LogShows.length_eq : l.segments.length = segs.length :=
  h.objects.length_eq.symm

theorem LogShows.object (hg : segs[i]? = some g) :
    ∃ s, l.segments[i]? = some s ∧ s.baseOffset = g.1 ∧ Readable g.2 s w := by
  obtain ⟨hi, rfl⟩ := List.getElem?_eq_some_iff.mp hg
  have hi' : i < l.segments.length := by rw [h.length_eq]; exact hi
  exact ⟨_, getElem?_eq_getElem hi', Forall₂.get h.objects hi hi'⟩

theorem LogShows.bases :
    segs.map Prod.fst = l.segments.map Segment.baseOffset :=
  forall₂_map_eq h.objects fun _ _ hs => hs.1.symm

/-- The last segment ends where the log does. -/
theorem LogShows.last (hg : segs[i]? = some g)
    (hn : segs[i + 1]? = none) : l.logEndOffset = g.1 + g.2.length := by
  have hi := (List.getElem?_eq_some_iff.mp hg).1
  rw [List.getElem?_eq_none_iff] at hn
  have hgl : segs.getLast? = some g := by
    rw [getLast?_eq_getElem?, ← hg]
    congr 1
    omega
  rw [h.ends, viewEnd, hgl]
  rfl

/-- The place of the last segment based at or below an offset. -/
theorem segmentForOffset_eq (hs : viewStart segs ≤ o) :
    ∃ i g, l.segmentForOffset o = some i ∧ segs[i]? = some g ∧ g.1 ≤ o ∧
      (segs.filter (fun g => decide (g.1 ≤ o))).getLast? = some g ∧
      ∀ g', segs[i + 1]? = some g' → o < g'.1 := by
  have hbound : lowerBound (fun s : Segment => decide (¬ o < s.baseOffset)) l.segments =
      lowerBound (fun g : SegView => decide (¬ o < g.1)) segs := by
    rw [← lowerBound_map Segment.baseOffset (fun b => decide (¬ o < b)), ← h.bases,
      lowerBound_map Prod.fst (fun b => decide (¬ o < b))]
  set c : SegView → Bool := fun g => decide (¬ o < g.1) with hc
  have hmono : segs.Pairwise (fun x y => c y = true → c x = true) := h.sorted.imp (fun hlt hy => by
    simp only [hc, decide_eq_true_eq] at hy ⊢
    omega)
  have htake := take_lowerBound c segs hmono
  have hdrop := drop_lowerBound c segs hmono
  have hle := lowerBound_le c segs
  set k := lowerBound c segs with hk
  have hfilter : segs.filter (fun g => decide (g.1 ≤ o)) = segs.take k := by
    rw [htake]
    simp only [hc, not_lt]
  -- the first segment is based at or below the offset
  have hpos : 0 < k := by
    obtain ⟨g, gs, hsegs⟩ := exists_cons_of_ne_nil h.nonempty
    rcases Nat.eq_zero_or_pos k with h0 | h0
    · have hg : g ∈ segs.drop k := by rw [h0, hsegs]; simp
      have := hdrop g hg
      simp only [hc, decide_eq_false_iff_not] at this
      rw [hsegs] at hs
      simp only [viewStart, head?_cons, Option.map_some, Option.getD_some] at hs
      omega
    · exact h0
  have hlast : segs[k - 1]? = some (segs[k - 1]) := getElem?_eq_getElem (by omega)
  refine ⟨k - 1, segs[k - 1], ?_, hlast, ?_, ?_, fun g' hg' => ?_⟩
  · unfold PartitionLog.segmentForOffset
    rw [hbound, if_neg (by omega)]
  · have hmem : segs[k - 1] ∈ segs.take k := by
      refine mem_iff_getElem?.mpr ⟨k - 1, ?_⟩
      rw [getElem?_take, if_pos (by omega)]
      exact hlast
    rw [htake] at hmem
    have := (mem_filter.mp hmem).2
    simp only [hc, decide_eq_true_eq] at this
    omega
  · rw [hfilter, getLast?_eq_getElem?, length_take, Nat.min_eq_left hle,
      getElem?_take, if_pos (by omega)]
    exact hlast
  · have hmem : g' ∈ segs.drop k := by
      refine mem_iff_getElem?.mpr ⟨0, ?_⟩
      rw [getElem?_drop, ← hg']
      congr 1
      omega
    have := hdrop g' hmem
    simp only [hc, decide_eq_false_iff_not, not_not] at this
    exact this

end

section

variable (h : LogReadable P segs l w)
include h

/-- The loop of `Read` from the segment in place `i`. -/
theorem readSegments_gives {E : Prop}
    (hsize : ¬ E → ∀ g ∈ segs, ∀ r ∈ g.2, r.length ≤ maxRecordBytes) {fuel cursor : Nat}
    {acc : Segment.Gathered} (hlt : cursor < l.logEndOffset)
    (hbase : ∀ g, segs[i]? = some g → g.1 ≤ cursor)
    (hfuel : l.logEndOffset - cursor + (segs.length - i) < fuel) :
    (PartitionLog.readSegments l w maxBytes fuel i cursor acc).Gives E fun got =>
      ∃ rs, RunOf P cursor rs ∧
        (∀ g, segs[i]? = some g → cursor < g.1 + g.2.length → acc.out.length < maxBytes →
          rs.head? = g.2[cursor - g.1]?) ∧
        got = ⟨acc.count + rs.length, acc.out ++ rs.flatten⟩ := by
  induction fuel generalizing i cursor acc with
  | zero => omega
  | succ fuel ih =>
    have hstop : acc = ⟨acc.count + ([] : List Bytes).length, acc.out ++ ([]).flatten⟩ := by
      simp
    unfold PartitionLog.readSegments
    cases hg : segs[i]? with
    | none =>
      have hi : l.segments[i]? = none := by
        rw [List.getElem?_eq_none_iff] at hg ⊢
        rw [h.length_eq]
        exact hg
      rw [hi]
      exact ⟨[], trivial, by simp, hstop⟩
    | some g =>
      obtain ⟨s, hs, hsb, hread⟩ := h.object hg
      have hi : i < segs.length := (List.getElem?_eq_some_iff.mp hg).1
      have hrun := h.run g (mem_of_getElem? hg)
      have hb := hbase g hg
      rw [hs]
      dsimp only
      by_cases hroom : acc.out.length < maxBytes
      swap
      · rw [if_neg hroom]
        exact ⟨[], trivial, fun _ _ _ h => absurd h hroom, hstop⟩
      rw [if_pos hroom]
      -- what the next segment needs
      have hnext : ∀ c, g.1 + g.2.length ≤ c → ∀ g', segs[i + 1]? = some g' → g'.1 ≤ c := by
        intro c hc g' hg'
        have hm := isChain_iff_getElem.mp h.meets i
          (by have := (List.getElem?_eq_some_iff.mp hg').1; omega)
        obtain ⟨_, e1⟩ := List.getElem?_eq_some_iff.mp hg
        obtain ⟨_, e2⟩ := List.getElem?_eq_some_iff.mp hg'
        rw [e1, e2, Meets] at hm
        omega
      by_cases hin : cursor < g.1 + g.2.length
      swap
      · rw [read_past hread (by omega)]
        dsimp only
        have hsame : ⟨acc.count + 0, acc.out ++ []⟩ = acc := by simp
        rw [hsame]
        refine (ih hlt (hnext cursor (by omega)) (by omega)).mono ?_
        rintro got ⟨rs, r1, -, r3⟩
        refine ⟨rs, r1, fun g' hg' hc => ?_, r3⟩
        rw [Option.some.injEq] at hg'
        rw [← hg'] at hc
        omega
      rcases (read_gives hread (fun hE => hsize hE g (mem_of_getElem? hg))
        (i := cursor - g.1) (by omega) (show 0 < maxBytes - acc.out.length by omega)).cases with
        ⟨chunk, h3, k, h1, h2, rfl⟩ | ⟨e, he, hE⟩
      swap
      · rw [hsb, show g.1 + (cursor - g.1) = cursor by omega] at he
        rw [he]
        exact hE
      rw [hsb, show g.1 + (cursor - g.1) = cursor by omega] at h3
      have hlen : ((g.2.take k).drop (cursor - g.1)).length = k - (cursor - g.1) := by
        rw [length_drop, length_take]
        omega
      have hrun' : RunOf P cursor ((g.2.take k).drop (cursor - g.1)) := by
        have := (hrun.take k).drop (cursor - g.1) (by rw [length_take]; omega)
        rwa [show g.1 + (cursor - g.1) = cursor by omega] at this
      have hhead : ((g.2.take k).drop (cursor - g.1)).head? = g.2[cursor - g.1]? := by
        rw [head?_drop, getElem?_take, if_pos h1]
      rw [h3]
      dsimp only
      rw [if_neg (by omega)]
      by_cases hend : cursor + (k - (cursor - g.1)) ≥ l.logEndOffset
      · rw [if_pos hend]
        refine ⟨_, hrun', fun g' hg' _ _ => ?_, by rw [hlen]⟩
        rw [Option.some.injEq] at hg'
        rw [← hg']
        exact hhead
      rw [if_neg hend, hread.next, hsb]
      -- the loop goes on behind the chunk, in this segment or the next one
      have hgo : ∀ i', segs.length - i' ≤ segs.length - i →
          (∀ g', segs[i']? = some g' → g'.1 ≤ cursor + (k - (cursor - g.1))) →
          (PartitionLog.readSegments l w maxBytes fuel i' (cursor + (k - (cursor - g.1)))
            ⟨acc.count + (k - (cursor - g.1)),
              acc.out ++ ((g.2.take k).drop (cursor - g.1)).flatten⟩).Gives E fun got =>
            ∃ rs, RunOf P cursor rs ∧
              (∀ g', some g = some g' → cursor < g'.1 + g'.2.length →
                acc.out.length < maxBytes → rs.head? = g'.2[cursor - g'.1]?) ∧
              got = ⟨acc.count + rs.length, acc.out ++ rs.flatten⟩ := by
        intro i' hi' hb'
        refine (ih (by omega) hb' (by omega)).mono ?_
        rintro got ⟨rs, r1, -, r3⟩
        refine ⟨(g.2.take k).drop (cursor - g.1) ++ rs, ?_, fun g' hg' _ _ => ?_, ?_⟩
        · rw [runOf_append, hlen]
          exact ⟨hrun', r1⟩
        · rw [Option.some.injEq] at hg'
          rw [← hg', head?_append_of_ne_nil, hhead]
          intro hnil
          rw [hnil] at hlen
          simp at hlen
          omega
        · rw [r3, length_append, hlen, flatten_append, append_assoc, Nat.add_assoc]
      by_cases hpast : cursor + (k - (cursor - g.1)) ≥ g.1 + g.2.length
      · rw [if_pos hpast]
        exact hgo (i + 1) (by omega) (hnext _ hpast)
      · rw [if_neg hpast]
        refine hgo i le_rfl (fun g' hg' => ?_)
        rw [hg, Option.some.injEq] at hg'
        rw [← hg']
        omega

/-- **Reading a log**: a read between the log start and the log end returns a run of records from
    its offset on, and the first is the record of the offset. Only a record that is too large for a
    lookup makes it fail. -/
theorem read_log_gives {E : Prop}
    (hsize : ¬ E → ∀ g ∈ segs, ∀ r ∈ g.2, r.length ≤ maxRecordBytes) (hs : l.logStartOffset ≤ o)
    (he : o < l.logEndOffset) (hm : 0 < maxBytes) :
    (l.read w o maxBytes).Gives E fun got => ∃ r rs, contents segs o = some r ∧
      RunOf P o (r :: rs) ∧ got = ⟨o, (r :: rs).length, (r :: rs).flatten, l.logStartOffset,
        l.logEndOffset⟩ := by
  rw [h.start] at hs
  obtain ⟨i, g, hseg, hg, hle, hlast, hnext⟩ := segmentForOffset_eq h.toLogShows hs
  -- the segment found reaches beyond the offset
  have hin : o < g.1 + g.2.length := by
    cases hn : segs[i + 1]? with
    | some g' =>
      have hlt := hnext g' hn
      have hi1 := (List.getElem?_eq_some_iff.mp hn).1
      have hmeet := isChain_iff_getElem.mp h.meets i hi1
      obtain ⟨_, e1⟩ := List.getElem?_eq_some_iff.mp hg
      obtain ⟨_, e2⟩ := List.getElem?_eq_some_iff.mp hn
      rw [e1, e2, Meets] at hmeet
      omega
    | none =>
      rwa [h.last hg hn] at he
  have hfirst : ∀ g', segs[i]? = some g' → g'.1 ≤ o := by
    intro g' hg'
    rw [hg, Option.some.injEq] at hg'
    rw [← hg']
    exact hle
  have hc : contents segs o = g.2[o - g.1]? := by
    rw [contents, hlast]
    rfl
  have hsome : g.2[o - g.1]? = some g.2[o - g.1] := getElem?_eq_getElem (by omega)
  have hfuel : l.logEndOffset - o + (segs.length - i) < l.logEndOffset - o +
      l.segments.length + 1 := by
    rw [h.length_eq]
    omega
  unfold PartitionLog.read
  rw [if_neg (by rw [h.start]; omega), if_neg (by omega), if_neg (by omega), hseg]
  dsimp only
  rcases (readSegments_gives h hsize he hfirst hfuel).cases with ⟨got, hgot, rs, hrun, hhead, rfl⟩ |
    ⟨e, hgot, hE⟩
  swap
  · rw [hgot]
    exact hE
  have hhead' := hhead g hg hin (by simpa using hm)
  rw [hsome] at hhead'
  rw [hgot]
  cases rs with
  | nil => simp at hhead'
  | cons r rs =>
    rw [head?_cons] at hhead'
    exact ⟨r, rs, by rw [hc, hsome, hhead'], hrun, by simp⟩

/-- Without such a record every offset of the log can be read. -/
theorem read_log
    (hsize : ∀ g ∈ segs, ∀ r ∈ g.2, r.length ≤ maxRecordBytes) (hs : l.logStartOffset ≤ o)
    (he : o < l.logEndOffset) (hm : 0 < maxBytes) :
    ∃ r rs, contents segs o = some r ∧ RunOf P o (r :: rs) ∧
      l.read w o maxBytes = .ok ⟨o, (r :: rs).length, (r :: rs).flatten, l.logStartOffset,
        l.logEndOffset⟩ := by
  obtain ⟨_, hread, r, rs, hc, hrun, rfl⟩ := (read_log_gives h (fun _ => hsize) hs he hm).ok
  exact ⟨r, rs, hc, hrun, hread⟩

/-- A read that asks for no bytes returns none. -/
theorem read_zero (hs : l.logStartOffset ≤ o) (he : o < l.logEndOffset) :
    l.read w o 0 = .ok ⟨o, 0, [], l.logStartOffset, l.logEndOffset⟩ := by
  obtain ⟨i, -, hseg, -⟩ := segmentForOffset_eq h.toLogShows (h.start ▸ hs)
  unfold PartitionLog.read
  rw [if_neg (by omega), if_neg (by omega), hseg]
  dsimp only
  unfold PartitionLog.readSegments
  cases l.segments[i]? <;> simp

end

/-- **What a read returned**: where neighbours meet without overlap, the stored records from its
    offset on. -/
theorem read_run (h : LogReadable P segs l w) (hmeet : segs.IsChain Adjacent)
    {got : PartitionLog.LogReadResult} (hs : l.logStartOffset ≤ o) (he : o ≤ l.logEndOffset)
    (hread : l.read w o maxBytes = .ok got) :
    ∃ rs, RunOf (fun o r => P o r ∧ contents segs o = some r) o rs ∧
      got = ⟨o, rs.length, rs.flatten, l.logStartOffset, l.logEndOffset⟩ ∧
      (o < l.logEndOffset → 0 < maxBytes → rs ≠ []) := by
  rcases Nat.lt_or_ge o l.logEndOffset with hlt | hge
  · rcases Nat.eq_zero_or_pos maxBytes with rfl | hpos
    · rw [read_zero h hs hlt] at hread
      exact ⟨[], trivial, (Outcome.ok.inj hread).symm, fun _ h0 => absurd h0 (lt_irrefl 0)⟩
    · have hgives := read_log_gives (h.stored hmeet) (fun hE => absurd trivial hE) hs hlt
        hpos
      rw [hread] at hgives
      obtain ⟨r, rs, -, hrun, rfl⟩ := hgives
      exact ⟨r :: rs, hrun, rfl, fun _ _ => cons_ne_nil r rs⟩
  · -- the reader has caught up
    unfold PartitionLog.read at hread
    rw [if_neg (by omega), if_neg (by omega), if_pos (by omega)] at hread
    exact ⟨[], trivial, (Outcome.ok.inj hread).symm, fun h0 => absurd h0 (by omega)⟩

end Read

end PulseLog

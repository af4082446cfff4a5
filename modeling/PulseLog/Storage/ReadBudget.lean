/-
  Subject:   What `PartitionLog::Read` returns, and how much of it.

  `Segment::Read` keeps to its budget, except for a single record that is larger.
  `PartitionLog::Read` calls it again as long as the budget is not used up, each time with what is
  left of it, so that the last call may return one record more than fits.

  * **`read_overshoots_by_one`** -- a read of a log, in any state: without its last record it is
    below the budget; `two_records_for_one` -- and with it beyond;
  * **`read_exact`** -- in a log without overlap it is exactly the stored records from the offset
    on.
-/
import PulseLog.Storage.LogShape

namespace PulseLog

open List

/-! ## 1. Records by their length fields -/

/-- Bytes whose length field gives their length. -/
def Sized (r : Bytes) : Prop := loadLe 4 r 0 + 4 = r.length

theorem Sized.pos {r : Bytes} (h : Sized r) : 0 < r.length := by
  unfold Sized at h
  omega

theorem Sized.lt {r : Bytes} (h : Sized r) : r.length < 2 ^ 32 + 4 := by
  have := loadLe_lt 4 r 0
  unfold Sized at h
  omega

/-- What was gathered, record by record. -/
structure Cut (rs : List Bytes) (got : Segment.Gathered) : Prop where
  count : got.count = rs.length
  out : got.out = rs.flatten
  sized : ∀ r ∈ rs, Sized r

theorem cut_nil : Cut [] ⟨0, []⟩ := ⟨rfl, rfl, by simp⟩

theorem Cut.append {rs ss : List Bytes} {got more : Segment.Gathered} (h : Cut rs got)
    (h' : Cut ss more) : Cut (rs ++ ss) ⟨got.count + more.count, got.out ++ more.out⟩ := by
  refine ⟨?_, ?_, fun r hr => ?_⟩
  · rw [h.count, h'.count, length_append]
  · rw [h.out, h'.out, flatten_append]
  · exact (mem_append.mp hr).elim (h.sized r) (h'.sized r)

/-- Without its last record a list of records is shorter. -/
theorem dropLast_flatten_lt {rs : List Bytes} (hs : ∀ r ∈ rs, Sized r) (hne : rs ≠ []) :
    rs.dropLast.flatten.length < rs.flatten.length := by
  have hlast := (hs _ (getLast_mem hne)).pos
  conv_rhs => rw [← dropLast_append_getLast hne]
  rw [flatten_append, length_append, flatten_singleton]
  omega

/-! ## 2. One segment -/

section Segment

variable {maxBytes : Nat}

/-- One chunk: records by their length fields, and only the very first one beyond the budget. -/
theorem acceptLoop_sized (chunk : Bytes) (endOffset offset maxBytes bytes count : Nat) :
    ∀ (fuel accepted n : Nat), accepted ≤ chunk.length →
    ∃ rs, (∀ r ∈ rs, Sized r) ∧
      chunk.take (accepted + rs.flatten.length) = chunk.take accepted ++ rs.flatten ∧
      (rs ≠ [] → 1 < count + n + rs.length → bytes + accepted + rs.flatten.length ≤ maxBytes) ∧
      Segment.acceptLoop chunk endOffset offset maxBytes bytes count fuel accepted n =
        (accepted + rs.flatten.length, n + rs.length)
  | 0, accepted, n, _ => ⟨[], by simp, by simp, fun h => absurd rfl h, rfl⟩
  | fuel + 1, accepted, n, hle => by
    have hstop : ∃ rs, (∀ r ∈ rs, Sized r) ∧
        chunk.take (accepted + rs.flatten.length) = chunk.take accepted ++ rs.flatten ∧
        (rs ≠ [] → 1 < count + n + rs.length → bytes + accepted + rs.flatten.length ≤ maxBytes) ∧
        (accepted, n) = (accepted + rs.flatten.length, n + rs.length) :=
      ⟨[], by simp, by simp, fun h => absurd rfl h, rfl⟩
    unfold Segment.acceptLoop
    split
    swap
    · exact hstop
    dsimp only
    split
    · exact hstop
    split
    · exact hstop
    split
    · exact hstop
    -- the record the length field cuts out
    set size := loadLe 4 chunk accepted + 4 with hsize
    have hlen : (slice chunk accepted size).length = size := by
      rw [length_slice]
      omega
    have hsized : Sized (slice chunk accepted size) := by
      rw [Sized, hlen, loadLe_slice _ (by omega)]
      exact hsize.symm
    obtain ⟨rs, h1, h2, h3, h4⟩ := acceptLoop_sized chunk endOffset offset maxBytes bytes count fuel
      (accepted + size) (n + 1) (by omega)
    refine ⟨slice chunk accepted size :: rs, ?_, ?_, fun _ hmany => ?_, ?_⟩
    · intro r hr
      rcases mem_cons.mp hr with rfl | hr
      · exact hsized
      · exact h1 r hr
    · rw [flatten_cons, length_append, hlen, ← Nat.add_assoc, h2, ← append_assoc,
        take_add]
      rfl
    · rw [flatten_cons, length_append]
      rw [length_cons] at hmany
      by_cases hrs : rs = []
      · -- the record is the last one taken, and not the first of all
        rw [hrs] at hmany ⊢
        simp only [length_nil] at hmany
        simp only [flatten_nil, length_nil]
        omega
      · have := h3 hrs (by omega)
        omega
    · rw [h4, flatten_cons, length_append, length_cons]
      congr 1 <;> omega

/-- The loop of `Segment::Read` keeps to the budget, unless it returns a single record. -/
theorem readLoop_budgeted {data : Bytes} {limit endOffset fuel cursor offset next : Nat}
    {acc got : Segment.Gathered} {rs : List Bytes} (hcut : Cut rs acc)
    (hb : 1 < rs.length → rs.flatten.length ≤ maxBytes)
    (h : Segment.readLoop data limit endOffset maxBytes fuel cursor offset acc = .ok (next, got)) :
    ∃ rs', Cut rs' got ∧ (1 < rs'.length → rs'.flatten.length ≤ maxBytes) := by
  induction fuel generalizing cursor offset acc rs with
  | zero => simp [Segment.readLoop] at h
  | succ fuel ih =>
    have hstop : ∀ {o}, (Outcome.ok (o, acc) : Outcome Status (Nat × Segment.Gathered)) =
        .ok (next, got) → ∃ rs', Cut rs' got ∧
          (1 < rs'.length → rs'.flatten.length ≤ maxBytes) := by
      intro o ho
      rw [Outcome.ok.injEq, Prod.mk.injEq] at ho
      rw [← ho.2]
      exact ⟨rs, hcut, hb⟩
    unfold Segment.readLoop at h
    split at h
    swap
    · exact hstop h
    dsimp only at h
    split at h
    · exact hstop h
    split at h
    · simp at h
    split at h
    · simp at h
    split at h
    · exact hstop h
    split at h
    · exact hstop h
    split at h
    · exact hstop h
    rename_i hsome
    generalize slice data cursor _ = chunk at h hsome
    obtain ⟨ss, h1, h2, h3, h4⟩ := acceptLoop_sized chunk endOffset offset maxBytes acc.out.length
      acc.count chunk.length 0 0 (Nat.zero_le _)
    rw [Nat.zero_add] at h2
    rw [h4, Nat.zero_add, Nat.zero_add, h2] at h
    rw [h4] at hsome
    have hne : ss ≠ [] := fun h0 => hsome (by rw [h0]; rfl)
    have hmore : Cut ss ⟨ss.length, ss.flatten⟩ := ⟨rfl, rfl, h1⟩
    refine ih (hcut.append hmore) (fun hmany => ?_) h
    have hfit := h3 hne
    rw [hcut.count, hcut.out] at hfit
    rw [length_append] at hmany
    rw [flatten_append, length_append]
    exact hfit hmany

/-- **`Segment::Read` keeps to its budget**, unless it returns a single record. -/
theorem read_budgeted {s : Segment} {w : World} {o : Nat} {chunk : Segment.ReadResult}
    (h : s.read w o maxBytes = .ok chunk) : ∃ rs, Cut rs ⟨chunk.recordCount, chunk.out⟩ ∧
      (1 < rs.length → rs.flatten.length ≤ maxBytes) := by
  unfold Segment.read at h
  split at h
  · rw [← Outcome.ok.inj h]
    exact ⟨[], cut_nil, fun h1 => absurd h1 (by simp)⟩
  split at h
  · simp at h
  · simp at h
  split at h
  · simp at h
  · simp at h
  rename_i hloop
  rw [← Outcome.ok.inj h]
  exact readLoop_budgeted cut_nil (fun h1 => absurd h1 (by simp)) hloop

end Segment

/-! ## 3. The log -/

section Log

variable {l : PartitionLog} {w : World} {maxBytes : Nat} {got : PartitionLog.LogReadResult}

/-- Below the budget, the last record apart. -/
def ButLast (maxBytes : Nat) (rs : List Bytes) : Prop :=
  rs = [] ∨ rs.dropLast.flatten.length < maxBytes

/-- A call with what is left of the budget. -/
theorem ButLast.append {rs ss : List Bytes} (h : ButLast maxBytes rs)
    (hroom : rs.flatten.length < maxBytes) (hs : ∀ r ∈ ss, Sized r)
    (hb : 1 < ss.length → ss.flatten.length ≤ maxBytes - rs.flatten.length) :
    ButLast maxBytes (rs ++ ss) := by
  by_cases hne : ss = []
  · rw [hne, append_nil]
    exact h
  refine .inr ?_
  rw [dropLast_append_of_ne_nil hne, flatten_append, length_append]
  by_cases hone : 1 < ss.length
  · have := dropLast_flatten_lt hs hne
    omega
  · have hnil : ss.dropLast = [] := by
      rw [← length_eq_zero_iff, length_dropLast]
      omega
    rw [hnil, flatten_nil]
    omega

theorem readSegments_butLast {fuel i cursor : Nat} {acc got : Segment.Gathered} {rs : List Bytes}
    (hcut : Cut rs acc) (hb : ButLast maxBytes rs)
    (h : PartitionLog.readSegments l w maxBytes fuel i cursor acc = .ok got) :
    ∃ rs', Cut rs' got ∧ ButLast maxBytes rs' := by
  induction fuel generalizing i cursor acc rs with
  | zero => simp [PartitionLog.readSegments] at h
  | succ fuel ih =>
    unfold PartitionLog.readSegments at h
    split at h
    · rw [← Outcome.ok.inj h]
      exact ⟨rs, hcut, hb⟩
    split at h
    swap
    · rw [← Outcome.ok.inj h]
      exact ⟨rs, hcut, hb⟩
    rename_i hroom
    split at h
    · simp at h
    · simp at h
    rename_i chunk hchunk
    obtain ⟨ss, hs, hbudget⟩ := read_budgeted hchunk
    rw [hcut.out] at hroom hbudget
    have hcut' := hcut.append hs
    have hb' := hb.append hroom hs.sized hbudget
    dsimp only at h
    split at h
    · split at h
      · rw [← Outcome.ok.inj h]
        exact ⟨_, hcut', hb'⟩
      · exact ih hcut' hb' h
    split at h
    · rw [← Outcome.ok.inj h]
      exact ⟨_, hcut', hb'⟩
    split at h
    · exact ih hcut' hb' h
    · exact ih hcut' hb' h

/-- What a read returned, record by record. -/
theorem read_butLast {o : Nat} (h : l.read w o maxBytes = .ok got) :
    ∃ rs, Cut rs ⟨got.recordCount, got.out⟩ ∧ ButLast maxBytes rs := by
  unfold PartitionLog.read at h
  split at h
  · simp at h
  split at h
  · simp at h
  split at h
  · rw [← Outcome.ok.inj h]
    exact ⟨[], cut_nil, .inl rfl⟩
  split at h
  · simp at h
  split at h
  · simp at h
  · simp at h
  rename_i hloop
  rw [← Outcome.ok.inj h]
  exact readSegments_butLast cut_nil (.inl rfl) hloop

/-- **A read overshoots by at most one record**: in any state of the log and its files, what it
    returns without its last record is below the budget. -/
theorem read_overshoots_by_one {o : Nat} (h : l.read w o maxBytes = .ok got) (hm : 0 < maxBytes) :
    ∃ rs : List Bytes, got.recordCount = rs.length ∧ got.out = rs.flatten ∧ (∀ r ∈ rs, Sized r) ∧
      rs.dropLast.flatten.length < maxBytes := by
  obtain ⟨rs, hcut, hb⟩ := read_butLast h
  refine ⟨rs, hcut.count, hcut.out, hcut.sized, ?_⟩
  rcases hb with rfl | hb
  · exact hm
  · exact hb

/-- The most a read can return. -/
def readBound (maxBytes : Nat) : Nat := maxBytes + 2 ^ 32 + 4

/-- **A read returns little more than it is asked for.** -/
theorem length_log_read {o : Nat}
    (h : l.read w o maxBytes = .ok got) : got.out.length ≤ readBound maxBytes := by
  obtain ⟨rs, hcut, hb⟩ := read_butLast h
  have hout : got.out = rs.flatten := hcut.out
  rw [hout]
  by_cases hne : rs = []
  · rw [hne]
    exact Nat.zero_le _
  have hlast := (hcut.sized _ (getLast_mem hne)).lt
  have hfront := hb.resolve_left hne
  conv_lhs => rw [← dropLast_append_getLast hne]
  rw [flatten_append, length_append, flatten_singleton]
  unfold readBound
  omega

/-- **A read returns exactly the stored records**: in a log whose segments meet, an answer holds the
    bytes of the records from the offset on, across any number of segments, and at least one if
    there is one and the budget is not zero. -/
theorem read_exact {P : Nat → Bytes → Prop} {segs : List SegView} (h : LogReadable P segs l w)
    (hmeet : segs.IsChain Adjacent) {o : Nat}
    (hs : l.logStartOffset ≤ o) (he : o ≤ l.logEndOffset) (hread : l.read w o maxBytes = .ok got) :
    got.baseOffset = o ∧ (∃ rs : List Bytes, got.recordCount = rs.length ∧ got.out = rs.flatten ∧
        got.out.length = (rs.map List.length).sum ∧
        ∀ i r, rs[i]? = some r → contents segs (o + i) = some r) ∧
      (o < l.logEndOffset → 0 < maxBytes → 1 ≤ got.recordCount) := by
  obtain ⟨rs, hrun, rfl, hsome⟩ := read_run h hmeet hs he hread
  refine ⟨rfl, ⟨rs, rfl, rfl, length_flatten, fun i r hr => (hrun.get hr).2⟩, fun hlt hm => ?_⟩
  exact length_pos_iff.mpr (hsome hlt hm)

end Log

/-! ## 4. Two records -/

/-- Two appends of a record of 27 bytes; each gets a segment of its own. -/
def twoAppends : List LogShape.Event :=
  List.replicate 2 (.call (.append (.assign bareRecord 1)) ⟨[], [], []⟩)

theorem twoAppends_ok : ∀ ev ∈ twoAppends, LogShape.EventOk ev := by
  have hbare : ∀ r ∈ [bareRecord], ParsesAlone r ∧ r.length ≤ maxRecordBytes := by
    simpa using ⟨bareRecord_alone, bareRecord_length_le⟩
  intro ev hev
  rw [eq_of_mem_replicate hev]
  exact ⟨rfl, by decide +kernel, fun _ _ _ h => sound_assign hbare h⟩

/-- Both records are read at once, across the boundary between their segments. -/
theorem twoAppends_read : ∃ l w segs got,
    LogShape.run (smallSegments false) ⟨[], [], []⟩ twoAppends = some (l, w) ∧
      l.read w 0 1000 = .ok got ∧ got.recordCount = 2 ∧
      ∃ rs : List Bytes, rs.length = 2 ∧ got.out = rs.flatten ∧
        ∀ i r, rs[i]? = some r → contents segs i = some r := by
  have hrun : (LogShape.run (smallSegments false) ⟨[], [], []⟩ twoAppends).map (fun t =>
      (t.1.logStartOffset, t.1.logEndOffset, (t.1.read t.2 0 1000).value?.map
        PartitionLog.LogReadResult.recordCount)) = some (0, 2, some 2) := by decide +kernel
  obtain ⟨⟨l, w⟩, hl, hfacts⟩ := Option.map_eq_some_iff.mp hrun
  obtain ⟨hstart, hend, hread⟩ : l.logStartOffset = 0 ∧ l.logEndOffset = 2 ∧
      (l.read w 0 1000).value?.map PartitionLog.LogReadResult.recordCount = some 2 := by
    simpa using hfacts
  obtain ⟨got, hgot, hcount⟩ := Option.map_eq_some_iff.mp hread
  obtain ⟨e, segs, g, hinv⟩ : ∃ e segs g, LogInv (LogShape.mode false) e segs g l w :=
    LogShape.promised_run rfl twoAppends_ok hl
  obtain ⟨-, ⟨rs, hlen, hout, -, hget⟩, -⟩ := read_exact
    (hinv.readable id (fun _ _ hx => le_of_eq hx)) hinv.listing.chain (by omega) (by omega)
    (Outcome.value?_eq_some hgot)
  refine ⟨l, w, segs ++ [g], got, hl, Outcome.value?_eq_some hgot, hcount, rs, by omega, hout,
    fun i r hr => ?_⟩
  have := hget i r hr
  rwa [Nat.zero_add] at this

/-- A read with a budget of 30 bytes: without its second record it is below. -/
theorem twoAppends_overshoots : ∃ l w got rs,
    LogShape.run (smallSegments false) ⟨[], [], []⟩ twoAppends = some (l, w) ∧
      l.read w 0 30 = .ok got ∧ got.out = List.flatten rs ∧ rs.dropLast.flatten.length < 30 := by
  have hrun : (LogShape.run (smallSegments false) ⟨[], [], []⟩ twoAppends).map (fun t =>
      ((t.1.read t.2 0 30).value?.map PartitionLog.LogReadResult.recordCount)) = some (some 2) := by
    decide +kernel
  obtain ⟨⟨l, w⟩, hl, hread⟩ := Option.map_eq_some_iff.mp hrun
  obtain ⟨got, hgot, -⟩ := Option.map_eq_some_iff.mp hread
  obtain ⟨rs, -, hout, -, hlt⟩ := read_overshoots_by_one (Outcome.value?_eq_some hgot) (by decide)
  exact ⟨l, w, got, rs, hl, Outcome.value?_eq_some hgot, hout, hlt⟩

/-- **Two records where one fits.** With 3 of 30 bytes left the loop goes on to the next segment,
    whose read returns its first record in any case: 54 bytes. -/
theorem two_records_for_one : ∃ l w got,
    LogShape.run (smallSegments false) ⟨[], [], []⟩ twoAppends = some (l, w) ∧
      l.read w 0 30 = .ok got ∧ got.recordCount = 2 ∧ got.out.length = 54 := by
  have hrun : (LogShape.run (smallSegments false) ⟨[], [], []⟩ twoAppends).map (fun t =>
      ((t.1.read t.2 0 30).value?.map (fun got => (got.recordCount, got.out.length)))) =
        some (some (2, 54)) := by decide +kernel
  obtain ⟨⟨l, w⟩, hl, hread⟩ := Option.map_eq_some_iff.mp hrun
  obtain ⟨got, hgot, hpair⟩ := Option.map_eq_some_iff.mp hread
  obtain ⟨hcount, hlen⟩ := Prod.mk.inj hpair
  exact ⟨l, w, got, hl, Outcome.value?_eq_some hgot, hcount, hlen⟩

end PulseLog

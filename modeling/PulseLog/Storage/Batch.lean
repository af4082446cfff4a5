/-
  Subject:   The validation loops of the append paths (src/storage/partition_log.cc,
             `AppendAssigningOffsets`, `AppendWithOffsets`, `AppendVectoredWithOffsets`).

  * `assignLoop` -- the leader's single pass: it parses each record, stamps offset, timestamp and
    checksum into the buffer, and goes on behind it;
  * `RunOf P o rs` -- the records `rs` meet `P` at the offsets `o, o + 1, …`. A batch that passes
    IS such a run (`assignLoop_ok`, `checkBuffer_ok`, `checkChunks_ok`);
  * `ParsedRun`, `checkBuffer_iff` -- and the follower's pass accepts exactly the records that parse
    at their places, with the offsets it expects.
-/
import PulseLog.Protocol.Record
import PulseLog.General.Effect
import PulseLog.General.Lists
import Mathlib.Algebra.BigOperators.Group.List.Basic

namespace PulseLog

open List

variable {r : Bytes} {rs : List Bytes} {gap : Int → Nat → Status} {context : String}

/-! ## 1. The loops -/

/-- What the leader's pass leaves: the stamped buffer and its counters. -/
structure Assigned where
  data : Bytes
  offset : Nat
  maxTimestamp : Int
  seen : Nat
  deriving Repr, DecidableEq

/-- The leader's pass from `pos` on. `fuel` bounds the bytes left. Offsets are `int64_t`; the
    increment of the largest one is undefined, the pass does not return there. -/
def assignLoop (appendTime : Int) : Nat → Bytes → Nat → Nat → Int → Nat → Outcome Status Assigned
  | 0, data, _, offset, maxTimestamp, seen => .ok ⟨data, offset, maxTimestamp, seen⟩
  | fuel + 1, data, pos, offset, maxTimestamp, seen =>
    if pos < data.length then
      match parseRecord data pos false with
      | .error e => .error (e.withContext s!"record {seen} in produce batch")
      | .ok (view, next) =>
        let timestamp := if view.timestamp > 0 then view.timestamp else appendTime
        let record := rewriteRecordHeader (slice data pos (next - pos)) offset timestamp
        if offset + 1 < 2 ^ 63 then
          assignLoop appendTime fuel (splice data pos record) next (offset + 1)
            (max maxTimestamp timestamp) (seen + 1)
        else .halted
    else .ok ⟨data, offset, maxTimestamp, seen⟩

/-- What a follower's pass counts. -/
structure Checked where
  offset : Nat
  maxTimestamp : Int
  seen : Nat
  deriving Repr, DecidableEq

/-- The pass over an iterator; `gap` is the error for a record that does not continue the log. -/
def checkRun (gap : Int → Nat → Status) :
    Nat → RecordIterator → Checked → Except Status (RecordIterator × Checked)
  | 0, it, c => .ok (it, c)
  | fuel + 1, it, c =>
    match it.next with
    | (none, it') => .ok (it', c)
    | (some view, it') =>
      if view.offset ≠ c.offset then .error (gap view.offset c.offset)
      else checkRun gap fuel it' ⟨c.offset + 1, max c.maxTimestamp view.timestamp, c.seen + 1⟩

/-- One buffer: the pass, then the iterator's own status. -/
def checkBuffer (gap : Int → Nat → Status) (context : String) (verifyCrc : Bool) (data : Bytes)
    (c : Checked) : Except Status Checked :=
  match checkRun gap (data.length + 1) (RecordIterator.make data verifyCrc) c with
  | .error e => .error e
  | .ok (it, c') =>
    match it.status with
    | some e => .error (e.withContext context)
    | none => .ok c'

/-- The validation of `AppendWithOffsets`. -/
def checkReplicated (data : Bytes) (expected : Nat) : Except Status Checked :=
  checkBuffer (fun found offset => .outOfRange
      s!"replicated record offset {found} does not continue the log at {offset}")
    "validating replicated batch" true data ⟨expected, -1, 0⟩

/-- The validation of `AppendVectoredWithOffsets`: chunk after chunk, without checksums. -/
def checkChunks : List Bytes → Checked → Except Status Checked
  | [], c => .ok c
  | chunk :: rest, c =>
    match checkBuffer (fun _ offset => .outOfRange
        s!"vectored append is not contiguous at offset {offset}")
        "validating vectored append" false chunk c with
    | .error e => .error e
    | .ok c' => checkChunks rest c'

/-! ## 2. Runs of records -/

/-- The records meet `P` at consecutive offsets from `o`. -/
def RunOf (P : Nat → Bytes → Prop) : Nat → List Bytes → Prop
  | _, [] => True
  | o, r :: rs => P o r ∧ RunOf P (o + 1) rs

section RunOf

variable {P P' : Nat → Bytes → Prop}

variable {o : Nat} {c' : Checked} {chunks : List Bytes}

theorem RunOf.mono (h : ∀ o r, P o r → P' o r) : ∀ {rs : List Bytes} {o : Nat},
    RunOf P o rs → RunOf P' o rs
  | [], _, _ => trivial
  | _ :: _, _, hr => ⟨h _ _ hr.1, RunOf.mono h hr.2⟩

theorem runOf_append : ∀ {rs ss : List Bytes} {o : Nat},
    RunOf P o (rs ++ ss) ↔ RunOf P o rs ∧ RunOf P (o + rs.length) ss
  | [], ss, o => by simp [RunOf]
  | r :: rs, ss, o => by
    simp only [cons_append, RunOf, runOf_append, length_cons, and_assoc]
    rw [show o + 1 + rs.length = o + (rs.length + 1) by omega]

theorem runOf_of_forall {S : Bytes → Prop} : ∀ {rs : List Bytes} {o : Nat}, (∀ r ∈ rs, S r) →
    RunOf (fun _ r => S r) o rs
  | [], _, _ => trivial
  | _ :: _, _, h =>
    ⟨h _ mem_cons_self, runOf_of_forall fun r hr => h r (mem_cons_of_mem _ hr)⟩

theorem RunOf.mem : ∀ {rs : List Bytes} {o : Nat}, RunOf P o rs → ∀ r ∈ rs, ∃ i, P i r
  | _ :: _, o, h, r, hr => by
    rcases mem_cons.mp hr with rfl | hr
    · exact ⟨o, h.1⟩
    · exact RunOf.mem h.2 r hr

theorem RunOf.get : ∀ {rs : List Bytes} {o : Nat}, RunOf P o rs → ∀ {i : Nat} {r : Bytes},
    rs[i]? = some r → P (o + i) r
  | _ :: _, o, h, 0, r, hr => by
    simp only [getElem?_cons_zero, Option.some.injEq] at hr
    rw [← hr]
    exact h.1
  | _ :: _, o, h, i + 1, r, hr => by
    have h1 := RunOf.get h.2 (by simpa using hr)
    rwa [show o + 1 + i = o + (i + 1) by omega] at h1

theorem runOf_of_get (h : ∀ i r, rs[i]? = some r → P (o + i) r) : RunOf P o rs := by
  induction rs generalizing o with
  | nil => trivial
  | cons r rs ih =>
    refine ⟨h 0 r rfl, ih fun i s hs => ?_⟩
    rw [Nat.add_assoc, Nat.add_comm 1 i]
    exact h (i + 1) s hs

theorem RunOf.take (h : RunOf P o rs) (k : Nat) : RunOf P o (rs.take k) := by
  rw [← take_append_drop k rs, runOf_append] at h
  exact h.1

theorem RunOf.drop (h : RunOf P o rs) (k : Nat) (hk : k ≤ rs.length) :
    RunOf P (o + k) (rs.drop k) := by
  rw [← take_append_drop k rs, runOf_append, length_take, Nat.min_eq_left hk] at h
  exact h.2

end RunOf

/-- A maximum of timestamps, taken over `rs` from `m` on. -/
structure MaxOver (m : Int) (rs : List Bytes) (m' : Int) : Prop where
  start : m ≤ m'
  each : ∀ r ∈ rs, recordTimestamp r ≤ m'

section MaxOver

variable {m m' m'' : Int} {r : Bytes} {rs ss : List Bytes}

theorem MaxOver.nil (m : Int) : MaxOver m [] m := ⟨le_rfl, fun _ h => nomatch h⟩

theorem MaxOver.cons (h : MaxOver (max m (recordTimestamp r)) rs m') : MaxOver m (r :: rs) m' := by
  refine ⟨le_trans (le_max_left _ _) h.start, fun x hx => ?_⟩
  rcases mem_cons.mp hx with rfl | hx
  · exact le_trans (le_max_right _ _) h.start
  · exact h.each x hx

theorem MaxOver.append (h : MaxOver m rs m') (h' : MaxOver m' ss m'') :
    MaxOver m (rs ++ ss) m'' := by
  refine ⟨le_trans h.start h'.start, fun x hx => ?_⟩
  rcases mem_append.mp hx with hx | hx
  · exact le_trans (h.each x hx) h'.start
  · exact h'.each x hx

end MaxOver

/-! ## 3. A batch that passes is a run -/

/-- The leader's stamp on one record. -/
def stamp (appendTime : Int) (offset : Nat) (r : Bytes) : Bytes :=
  rewriteRecordHeader r offset (if recordTimestamp r > 0 then recordTimestamp r else appendTime)

/-- The leader's stamps on the records of a batch. -/
def stampAll (appendTime : Int) : Nat → List Bytes → List Bytes
  | _, [] => []
  | o, r :: rs => stamp appendTime o r :: stampAll appendTime (o + 1) rs

@[simp] theorem length_stampAll (t : Int) : ∀ (o : Nat) (rs : List Bytes),
    (stampAll t o rs).length = rs.length
  | _, [] => rfl
  | o, _ :: rs => by simp [stampAll, length_stampAll t (o + 1) rs]

theorem recordOk_stamp {t : Int} (hf : Framed r) (ho : o < 2 ^ 63) : RecordOk o (stamp t o r) := by
  refine ⟨hf.rewriteRecordHeader _ _, checksumOk_rewriteRecordHeader _ _ hf.header, ?_⟩
  rw [stamp, recordOffset_rewriteRecordHeader _ _ hf.header, toI64_ofI64_nat ho]

theorem good_stamp {t : Int} (ha : ParsesAlone r) (ho : o < 2 ^ 63) : Good o (stamp t o r) := by
  have h := recordOk_stamp (t := t) ha.framed ho
  exact ⟨ha.rewriteRecordHeader _ _, h.checksum, h.offset⟩

/-- The stamped records carry the offsets and checksums the log wants. -/
theorem runOf_stampAll {P P' : Nat → Bytes → Prop} (t : Int)
    (h : ∀ o r, o < 2 ^ 63 → P o r → P' o (stamp t o r)) : ∀ {rs : List Bytes} {o : Nat},
    o + rs.length ≤ 2 ^ 63 → RunOf P o rs → RunOf P' o (stampAll t o rs)
  | [], _, _, _ => trivial
  | r :: rs, o, ho, hr => by
    simp only [length_cons] at ho
    exact ⟨h o r (by omega) hr.1, runOf_stampAll t h (by omega) hr.2⟩

/-- Framed records that fill their places, back to back from position `p` on. -/
def FillsRun : Nat → List Bytes → Prop
  | _, [] => True
  | p, r :: rs => (Framed r ∧ FillsAt p r) ∧ FillsRun (p + r.length) rs

theorem fillsRun_of_alone : ∀ {rs : List Bytes} {p : Nat}, (∀ r ∈ rs, ParsesAlone r) →
    p + rs.flatten.length < 2 ^ 64 → FillsRun p rs
  | [], _, _, _ => trivial
  | r :: rs, p, ha, hp => by
    rw [flatten_cons, length_append] at hp
    have hr := ha r mem_cons_self
    exact ⟨⟨hr.framed, hr.fillsAt (by omega)⟩,
      fillsRun_of_alone (fun q hq => ha q (mem_cons_of_mem _ hq)) (by omega)⟩

theorem fillsRun_of_good {o : Nat} (h : RunOf Good o rs)
    (hlen : rs.flatten.length < 2 ^ 64) : FillsRun 0 rs :=
  fillsRun_of_alone (fun r hr => (h.mem r hr).elim fun _ hg => hg.alone) (by omega)

theorem FillsRun.framed : ∀ {rs : List Bytes} {p : Nat}, FillsRun p rs → ∀ r ∈ rs, Framed r
  | _ :: _, _, h, r, hr => by
    rcases mem_cons.mp hr with rfl | hr
    · exact h.1.1
    · exact FillsRun.framed h.2 r hr

theorem FillsRun.stampAll (t : Int) : ∀ {rs : List Bytes} {p : Nat} (o : Nat), FillsRun p rs →
    FillsRun p (stampAll t o rs)
  | [], _, _, _ => trivial
  | r :: rs, p, o, h => by
    obtain ⟨hf, hfills⟩ := h.1
    refine ⟨⟨hf.rewriteRecordHeader _ _, hfills.rewriteRecordHeader _ _ hf.header⟩, ?_⟩
    rw [stamp, length_rewriteRecordHeader _ _ hf.header]
    exact FillsRun.stampAll t (o + 1) h.2

/-- **The leader's pass accepts records that fill their places.** -/
theorem assignLoop_of_fills (t : Int) : ∀ (rs : List Bytes) (fuel : Nat) (x : Bytes) (o : Nat)
    (m : Int) (n : Nat), FillsRun x.length rs → rs.flatten.length ≤ fuel → o + rs.length < 2 ^ 63 →
    ∃ a, assignLoop t fuel (x ++ rs.flatten) x.length o m n = .ok a ∧ a.seen = n + rs.length
  | [], fuel, x, o, m, n, _, _, _ => by
    refine ⟨⟨x ++ [], o, m, n⟩, ?_, rfl⟩
    cases fuel with
    | zero => rfl
    | succ fuel => rw [assignLoop, if_neg (by simp), flatten_nil]
  | r :: rs, fuel, x, o, m, n, h, hfuel, ho => by
    obtain ⟨hf, hfills⟩ := h.1
    have hpos := hf.pos
    rw [flatten_cons, length_append] at hfuel
    rw [length_cons] at ho
    obtain ⟨fuel, rfl⟩ : ∃ k, fuel = k + 1 := Nat.exists_eq_add_one_of_ne_zero (by omega)
    obtain ⟨view, hparse, -, hts⟩ := parseRecord_of_bodyOk (v := false) (y := rs.flatten) hf
      (by simp) (hfills.bodyOk hf.header)
    have hl : (stamp t o r).length = r.length := length_rewriteRecordHeader _ _ hf.header
    obtain ⟨a, ha, hseen⟩ := assignLoop_of_fills t rs fuel (x ++ stamp t o r) (o + 1)
      (max m (if recordTimestamp r > 0 then recordTimestamp r else t)) (n + 1)
      (by rw [length_append, hl]; exact h.2) (by omega) (by omega)
    refine ⟨a, ?_, by rw [hseen, length_cons]; omega⟩
    have hr : slice (x ++ r ++ rs.flatten) x.length (x.length + r.length - x.length) = r := by
      rw [append_assoc, slice_append_right, Nat.add_sub_cancel_left, take_left]
    have hsp : splice (x ++ r ++ rs.flatten) x.length (stamp t o r) =
        x ++ stamp t o r ++ rs.flatten := by
      rw [append_assoc, splice_append, hl, drop_left]
    rw [flatten_cons, ← append_assoc, assignLoop, if_pos (by simp only [length_append]; omega),
      hparse]
    dsimp only
    rw [if_pos (by omega), hr, hts, ← stamp, hsp, ← hl, ← length_append]
    exact ha

theorem assignLoop_ok (t : Int) : ∀ (fuel : Nat) (x y : Bytes) (o : Nat) (m : Int) (n : Nat)
    (a : Assigned), y.length ≤ fuel →
    assignLoop t fuel (x ++ y) x.length o m n = .ok a →
    ∃ rs, y = rs.flatten ∧ (∀ r ∈ rs, Framed r) ∧ a.data = x ++ (stampAll t o rs).flatten ∧
      a.offset = o + rs.length ∧ a.seen = n + rs.length ∧ (rs ≠ [] → a.offset < 2 ^ 63) ∧
      m ≤ a.maxTimestamp ∧
      ∀ r ∈ rs, (if recordTimestamp r > 0 then recordTimestamp r else t) ≤ a.maxTimestamp
  | 0, x, y, o, m, n, a, hy, h => by
    have hy' : y = [] := eq_nil_of_length_eq_zero (by omega)
    subst hy'
    simp only [assignLoop, Outcome.ok.injEq] at h
    subst h
    exact ⟨[], by simp, by simp, by simp [stampAll], rfl, rfl, by simp, le_rfl, by simp⟩
  | fuel + 1, x, y, o, m, n, a, hy, h => by
    unfold assignLoop at h
    split at h
    · split at h
      · simp at h
      rename_i view next hparse
      simp only at h
      split at h
      · rename_i ho'
        obtain ⟨r, hcut, hnext, -, hf, -, -, -, hts⟩ := parseRecord_ok hparse
        rw [take_left] at hcut
        -- the record stands at the head of what is left
        have hy2 : y = r ++ (x ++ y).drop next := by
          rw [append_assoc] at hcut
          exact append_cancel_left hcut
        generalize (x ++ y).drop next = y' at hy2
        subst hy2
        have hr : slice (x ++ (r ++ y')) x.length (next - x.length) = r := by
          rw [slice_append_right, ← hnext]
          simp
        have hl : (stamp t o r).length = r.length := length_rewriteRecordHeader _ _ hf.header
        have hsp : splice (x ++ (r ++ y')) x.length (stamp t o r) = x ++ stamp t o r ++ y' := by
          rw [splice_append, hl, drop_left]
        have hst : rewriteRecordHeader r o (if view.timestamp > 0 then view.timestamp else t) =
            stamp t o r := by
          rw [stamp, hts]
        have hn' : next = (x ++ stamp t o r).length := by
          rw [length_append, hl, hnext]
        have hpos := hf.pos
        rw [hr, hst, hsp, hn'] at h
        obtain ⟨rs, e1, e2, e3, e4, e5, e6, e7, e8⟩ := assignLoop_ok t fuel (x ++ stamp t o r) y'
          (o + 1) _ _ a (by simp only [length_append] at hy; omega) h
        rw [hts] at e7
        refine ⟨r :: rs, by rw [e1]; rfl, ?_, ?_, ?_, ?_, fun _ => ?_,
          le_trans (le_max_left _ _) e7,
          fun q hq => ?_⟩
        · intro q hq
          rcases mem_cons.mp hq with rfl | hq
          · exact hf
          · exact e2 q hq
        · rw [e3]
          simp only [stampAll, flatten_cons, append_assoc]
        · rw [length_cons]
          omega
        · rw [length_cons]
          omega
        · by_cases hrs : rs = []
          · rw [e4, hrs]
            exact ho'
          · exact e6 hrs
        · rcases mem_cons.mp hq with rfl | hq
          · exact le_trans (le_max_right _ _) e7
          · exact e8 q hq
      · simp at h
    · rename_i hlt
      have hy' : y = [] := eq_nil_of_length_eq_zero (by
        rw [length_append] at hlt
        omega)
      subst hy'
      simp only [Outcome.ok.injEq] at h
      subst h
      exact ⟨[], by simp, by simp, by simp [stampAll], rfl, rfl, by simp, le_rfl, by simp⟩

/-- What the follower's pass asks of one record; the checksum only when it verifies. -/
structure Checks (verifyCrc : Bool) (o : Nat) (r : Bytes) : Prop where
  framed : Framed r
  checksum : verifyCrc = true → ChecksumOk r
  offset : recordOffset r = o

theorem Checks.recordOk (h : Checks true o r) : RecordOk o r :=
  ⟨h.framed, h.checksum rfl, h.offset⟩

/-- What the pass has counted behind the records `rs`. -/
def Checked.over (c : Checked) (rs : List Bytes) : Checked :=
  rs.foldl (fun c r => ⟨c.offset + 1, max c.maxTimestamp (recordTimestamp r), c.seen + 1⟩) c

section Over

variable (c : Checked) (rs : List Bytes)

theorem Checked.over_cons (r : Bytes) : c.over (r :: rs) =
    Checked.over ⟨c.offset + 1, max c.maxTimestamp (recordTimestamp r), c.seen + 1⟩ rs := rfl

theorem Checked.over_append (ss : List Bytes) : c.over (rs ++ ss) = (c.over rs).over ss :=
  foldl_append

theorem Checked.over_offset : (c.over rs).offset = c.offset + rs.length := by
  induction rs generalizing c with
  | nil => rfl
  | cons r rs ih =>
    rw [over_cons, ih, length_cons, Nat.add_comm rs.length, ← Nat.add_assoc]

theorem Checked.over_seen : (c.over rs).seen = c.seen + rs.length := by
  induction rs generalizing c with
  | nil => rfl
  | cons r rs ih =>
    rw [over_cons, ih, length_cons, Nat.add_comm rs.length, ← Nat.add_assoc]

theorem Checked.over_max : MaxOver c.maxTimestamp rs (c.over rs).maxTimestamp := by
  induction rs generalizing c with
  | nil => exact .nil _
  | cons r rs ih => exact .cons (ih ⟨_, _, _⟩)

end Over

/-- **The records stand back to back from `pos` to the end of the buffer**, and `ParseRecord`
    accepts each one at its place. -/
def ParsedRun (verifyCrc : Bool) (data : Bytes) : Nat → List Bytes → Prop
  | pos, [] => pos = data.length
  | pos, r :: rs => slice data pos r.length = r ∧
      (∃ view, parseRecord data pos verifyCrc = .ok (view, pos + r.length)) ∧
      ParsedRun verifyCrc data (pos + r.length) rs

/-- Offsets that go on from `o`. -/
def Dense (o : Nat) (rs : List Bytes) : Prop := RunOf (fun o r => recordOffset r = o) o rs

section Parsed

variable {v : Bool} {data : Bytes} {pos : Nat} {rs : List Bytes}

/-- A buffer cut around `r` has `r` at the cut. -/
theorem slice_of_cut {next : Nat} (hcut : data = data.take pos ++ r ++ data.drop next)
    (hpos : pos ≤ data.length) : slice data pos r.length = r := by
  have hx : (data.take pos).length = pos := by
    rw [length_take]
    omega
  rw [append_assoc] at hcut
  have hs := slice_append_right (data.take pos) (r ++ data.drop next) r.length
  rw [hx, ← hcut, take_left] at hs
  exact hs

/-- What is accepted at a place is the record that stands there. -/
theorem parseRecord_slice {view : RecordView} (hr : slice data pos r.length = r)
    (h : parseRecord data pos v = .ok (view, pos + r.length)) :
    Framed r ∧ (v = true → ChecksumOk r) ∧
      view.offset = recordOffset r ∧ view.timestamp = recordTimestamp r := by
  obtain ⟨r', hcut, hnext, hle, hf, hc, -, ho, hts⟩ := parseRecord_ok h
  have hlen : r'.length = r.length := by omega
  have hr' : slice data pos r'.length = r' := slice_of_cut hcut (by omega)
  rw [hlen, hr] at hr'
  rw [hr']
  exact ⟨hf, hc, ho, hts⟩

theorem ParsedRun.drop (h : ParsedRun v data pos rs) : data.drop pos = rs.flatten := by
  induction rs generalizing pos with
  | nil =>
    rw [h]
    exact drop_length
  | cons r rs ih =>
    have hs : (data.drop pos).take r.length = r := h.1
    have hsplit := (take_append_drop r.length (data.drop pos)).symm
    rw [hs, drop_drop, ih h.2.2] at hsplit
    exact hsplit

theorem ParsedRun.flatten (h : ParsedRun v data 0 rs) : data = rs.flatten := h.drop

theorem ParsedRun.framed (h : ParsedRun v data pos rs) :
    ∀ r ∈ rs, Framed r ∧ (v = true → ChecksumOk r) := by
  induction rs generalizing pos with
  | nil => simp
  | cons r rs ih =>
    intro x hx
    rcases mem_cons.mp hx with rfl | hx
    · obtain ⟨view, hv⟩ := h.2.1
      obtain ⟨hf, hc, -⟩ := parseRecord_slice h.1 hv
      exact ⟨hf, hc⟩
    · exact ih h.2.2 x hx

theorem Dense.checks (ho : Dense o rs) (h : ∀ r ∈ rs, Framed r ∧ (v = true → ChecksumOk r)) :
    RunOf (Checks v) o rs :=
  runOf_of_get fun i r hr => by
    obtain ⟨hf, hc⟩ := h r (mem_of_getElem? hr)
    exact ⟨hf, hc, RunOf.get ho hr⟩

theorem ParsedRun.length_le (h : ParsedRun v data pos rs) : rs.length ≤ (data.drop pos).length := by
  have hone : ∀ n ∈ rs.map List.length, 1 ≤ n := by
    intro n hn
    obtain ⟨r, hr, rfl⟩ := mem_map.mp hn
    exact (h.framed r hr).1.pos
  have hsum := length_le_sum_of_one_le _ hone
  rw [length_map, ← length_flatten, ← h.drop] at hsum
  exact hsum

/-- **Records that fill their places are accepted there.** -/
theorem parsedRun_of_fills : ∀ (rs : List Bytes) (x : Bytes), FillsRun x.length rs →
    (v = true → ∀ r ∈ rs, ChecksumOk r) → ParsedRun v (x ++ rs.flatten) x.length rs
  | [], x, _, _ => by simp [ParsedRun]
  | r :: rs, x, h, hc => by
    rw [flatten_cons, ← append_assoc]
    obtain ⟨hf, hfills⟩ := h.1
    obtain ⟨view, hparse, -⟩ := parseRecord_of_bodyOk (y := rs.flatten) hf
      (fun hv => hc hv r mem_cons_self) (hfills.bodyOk hf.header)
    refine ⟨?_, ⟨view, hparse⟩, ?_⟩
    · rw [append_assoc, slice_append_right, take_left]
    · rw [← length_append]
      refine parsedRun_of_fills rs (x ++ r) ?_ (fun hv q hq => hc hv q (mem_cons_of_mem _ hq))
      rw [length_append]
      exact h.2

end Parsed

/-- **What the pass accepts**: a run of records that parse, with the offsets it expects. -/
theorem checkRun_ok (gap : Int → Nat → Status) : ∀ (fuel : Nat) (it it' : RecordIterator)
    (c c' : Checked), it.status = none → it.pos ≤ it.data.length → it.data.length - it.pos < fuel →
    checkRun gap fuel it c = .ok (it', c') → it'.status = none →
    ∃ rs, ParsedRun it.verifyCrc it.data it.pos rs ∧ Dense c.offset rs ∧ c' = c.over rs
  | 0, _, _, _, _, _, _, hf, _, _ => by omega
  | fuel + 1, it, it', c, c', hs, hp, hf, h, hs' => by
    unfold checkRun RecordIterator.next at h
    simp only [hs] at h
    split at h
    · rename_i it1 hnext
      obtain ⟨rfl, rfl⟩ := h
      split at hnext
      · -- the end of the buffer: nothing is left
        exact ⟨[], show it.pos = it.data.length by omega, trivial, rfl⟩
      · split at hnext
        · simp only [Prod.mk.injEq, true_and] at hnext
          subst hnext
          simp at hs'
        · simp at hnext
    · rename_i view it1 hnext
      split at hnext
      · simp at hnext
      split at hnext
      · simp at hnext
      rename_i view' next hparse
      simp only [Prod.mk.injEq, Option.some.injEq] at hnext
      obtain ⟨rfl, rfl⟩ := hnext
      split at h
      · simp at h
      rename_i hoff
      rw [not_not] at hoff
      obtain ⟨r, hcut, hnext, -, hfr, -, -, ho, hts⟩ := parseRecord_ok hparse
      have hpos := hfr.pos
      have hlen := congrArg List.length hcut
      simp only [length_append, length_take] at hlen
      subst hnext
      have hslice : slice it.data it.pos r.length = r := slice_of_cut hcut hp
      obtain ⟨rs, e1, e2, e3⟩ := checkRun_ok gap fuel _ it' _ c' rfl
        (show it.pos + r.length ≤ it.data.length by omega)
        (show it.data.length - (it.pos + r.length) < fuel by omega) h hs'
      refine ⟨r :: rs, ⟨hslice, ⟨view', hparse⟩, e1⟩, ⟨ho.symm.trans hoff, e2⟩, ?_⟩
      rw [e3, Checked.over_cons, hts]

/-- **And it accepts every such run.** -/
theorem checkRun_of_parsed (gap : Int → Nat → Status) : ∀ (fuel : Nat) (rs : List Bytes)
    (it : RecordIterator) (c : Checked), it.status = none → rs.length < fuel →
    ParsedRun it.verifyCrc it.data it.pos rs → Dense c.offset rs →
    ∃ it', checkRun gap fuel it c = .ok (it', c.over rs) ∧ it'.status = none
  | 0, _, _, _, _, hf, _, _ => by omega
  | fuel + 1, [], it, c, hs, _, hp, _ => by
    have hend : it.pos ≥ it.data.length := Nat.le_of_eq (Eq.symm hp)
    refine ⟨it, ?_, hs⟩
    simp only [checkRun, RecordIterator.next, hs, if_pos hend]
    rfl
  | fuel + 1, r :: rs, it, c, hs, hf, hp, ho => by
    obtain ⟨view, hparse⟩ := hp.2.1
    obtain ⟨hfr, -, hoff, hts⟩ := parseRecord_slice hp.1 hparse
    have hpos : ¬ it.pos ≥ it.data.length := by
      have hl := congrArg List.length hp.1
      have hr := hfr.pos
      rw [length_slice] at hl
      omega
    obtain ⟨it', h1, h2⟩ := checkRun_of_parsed gap fuel rs
      { it with pos := it.pos + r.length, recordsRead := it.recordsRead + 1 }
      ⟨c.offset + 1, max c.maxTimestamp (recordTimestamp r), c.seen + 1⟩ hs
      (by simp only [length_cons] at hf; omega) hp.2.2 ho.2
    refine ⟨it', ?_, h2⟩
    have hd : recordOffset r = c.offset := ho.1
    simp only [hs] at h1
    unfold checkRun RecordIterator.next
    simp only [hs, if_neg hpos, hparse, hoff, hts, hd, ne_eq]
    exact h1

/-- **A buffer passes exactly if it is such a run.** -/
theorem checkBuffer_iff {v : Bool} {data : Bytes}
    {c : Checked} : checkBuffer gap context v data c = .ok c' ↔
      ∃ rs, ParsedRun v data 0 rs ∧ Dense c.offset rs ∧ c' = c.over rs := by
  constructor
  · intro h
    unfold checkBuffer at h
    split at h
    · cases h
    rename_i it c1 hrun
    split at h
    · cases h
    rename_i hst
    cases h
    exact checkRun_ok gap (data.length + 1) _ it c _ rfl (Nat.zero_le _)
      (show data.length - 0 < data.length + 1 by omega) hrun hst
  · intro h
    obtain ⟨rs, hp, ho, rfl⟩ := h
    obtain ⟨it', h1, h2⟩ := checkRun_of_parsed gap (data.length + 1) rs
      (RecordIterator.make data v) c rfl
      (by have hle := hp.length_le; rw [drop_zero] at hle; omega) hp ho
    simp only [checkBuffer, h1, h2]

/-- **A buffer that passes is a run of records from the expected offset on.** -/
theorem checkBuffer_ok {v : Bool} {data : Bytes}
    {c : Checked} (h : checkBuffer gap context v data c = .ok c') :
    ∃ rs, data = rs.flatten ∧ RunOf (Checks v) c.offset rs ∧ c'.offset = c.offset + rs.length ∧
      c'.seen = c.seen + rs.length ∧ MaxOver c.maxTimestamp rs c'.maxTimestamp := by
  obtain ⟨rs, hp, ho, rfl⟩ := checkBuffer_iff.mp h
  exact ⟨rs, hp.flatten, ho.checks hp.framed, c.over_offset rs, c.over_seen rs, c.over_max rs⟩

/-- **A follower takes what fills its places**, with checksums and the offsets the log expects. -/
theorem checkReplicated_of_fills (h : FillsRun 0 rs) (hok : RunOf RecordOk o rs) :
    ∃ c, checkReplicated rs.flatten o = .ok c ∧ c.seen = rs.length := by
  refine ⟨Checked.over ⟨o, -1, 0⟩ rs, checkBuffer_iff.mpr
    ⟨rs, ?_, hok.mono fun _ _ hr => hr.offset, rfl⟩, ?_⟩
  · refine parsedRun_of_fills rs [] h (fun _ r hr => ?_)
    obtain ⟨i, hi⟩ := hok.mem r hr
    exact hi.checksum
  · rw [Checked.over_seen, Nat.zero_add]

/-- Each chunk is a run of its own. -/
def ParsedChunks (verifyCrc : Bool) (chunks : List Bytes) (rss : List (List Bytes)) : Prop :=
  Forall₂ (fun chunk rs => ParsedRun verifyCrc chunk 0 rs) chunks rss

/-- **Chunks pass exactly if they are such runs**, one behind the other. -/
theorem checkChunks_iff : ∀ {chunks : List Bytes} {c c' : Checked}, checkChunks chunks c = .ok c' ↔
    ∃ rss, ParsedChunks false chunks rss ∧ Dense c.offset rss.flatten ∧ c' = c.over rss.flatten
  | [], c, c' => by
    constructor
    · intro h
      cases h
      exact ⟨[], .nil, trivial, rfl⟩
    · intro h
      obtain ⟨rss, hp, -, rfl⟩ := h
      cases hp
      rfl
  | chunk :: rest, c, c' => by
    unfold checkChunks
    constructor
    · intro h
      split at h
      · cases h
      rename_i c1 hb
      obtain ⟨rs, hp, ho, rfl⟩ := checkBuffer_iff.mp hb
      obtain ⟨rss, hps, hos, rfl⟩ := checkChunks_iff.mp h
      rw [Checked.over_offset] at hos
      exact ⟨rs :: rss, .cons hp hps, runOf_append.mpr ⟨ho, hos⟩, (Checked.over_append ..).symm⟩
    · intro h
      obtain ⟨_, hp, ho, rfl⟩ := h
      cases hp with
      | @cons _ rs _ rss hp hps =>
        obtain ⟨ho, hos⟩ := runOf_append.mp ho
        rw [checkBuffer_iff.mpr ⟨rs, hp, ho, rfl⟩, flatten_cons, Checked.over_append]
        rw [← Checked.over_offset] at hos
        exact checkChunks_iff.mpr ⟨rss, hps, hos, rfl⟩

section Chunks

variable {v : Bool} {x y c : Bytes} {pos : Nat} {rs ss : List Bytes}

theorem ParsedChunks.bytes {rss : List (List Bytes)} (h : ParsedChunks v chunks rss) :
    chunks.flatten = rss.flatten.flatten := by
  induction h with
  | nil => rfl
  | cons hp _ ih =>
    rw [flatten_cons, flatten_cons, flatten_append, ← ih, ← hp.flatten]

theorem ParsedChunks.framed {rss : List (List Bytes)} (h : ParsedChunks v chunks rss) :
    ∀ r ∈ rss.flatten, Framed r ∧ (v = true → ChecksumOk r) := by
  intro r hr
  obtain ⟨rs, hrs, hr⟩ := mem_flatten.mp hr
  obtain ⟨chunk, -, hp⟩ := forall₂_exists_left h hrs
  exact hp.framed r hr

end Chunks

/-- **Chunks that pass are one run together.** -/
theorem checkChunks_ok {c : Checked} (h : checkChunks chunks c = .ok c') :
    ∃ rs, chunks.flatten = rs.flatten ∧ RunOf (Checks false) c.offset rs ∧
      c'.offset = c.offset + rs.length ∧ c'.seen = c.seen + rs.length ∧
      MaxOver c.maxTimestamp rs c'.maxTimestamp := by
  obtain ⟨rss, hp, ho, rfl⟩ := checkChunks_iff.mp h
  exact ⟨rss.flatten, hp.bytes, ho.checks hp.framed, c.over_offset _, c.over_seen _, c.over_max _⟩

/-- Records with offsets and checksums that parse alone are good. -/
theorem runOf_good : ∀ {rs : List Bytes} {o : Nat}, RunOf RecordOk o rs →
    (∀ r ∈ rs, ParsesAlone r) → RunOf Good o rs
  | [], _, _, _ => trivial
  | r :: _, _, h, ha => ⟨⟨ha r mem_cons_self, h.1.checksum, h.1.offset⟩,
      runOf_good h.2 (fun r hr => ha r (mem_cons_of_mem _ hr))⟩

/-! ## 4. Splitting a batch -/

/-- The first `n` records of a byte string, cut at their length fields. -/
def splitRecords : Nat → Bytes → List Bytes
  | 0, _ => []
  | n + 1, bs =>
    bs.take (loadLe 4 bs 0 + 4) :: splitRecords n (bs.drop (loadLe 4 bs 0 + 4))

/-- Cutting undoes laying records back to back, whatever lies behind them. -/
theorem splitRecords_append (h : ∀ r ∈ rs, Framed r) (t : Bytes) :
    splitRecords rs.length (rs.flatten ++ t) = rs := by
  induction rs with
  | nil => rfl
  | cons r rs ih =>
    have hr := h r mem_cons_self
    have hl : loadLe 4 (r ++ (rs.flatten ++ t)) 0 + 4 = r.length := by
      have h4 : 0 + 4 ≤ r.length := by
        have := hr.header
        unfold recordFixedPrefix at this
        omega
      have := loadLe_mid [] r (rs.flatten ++ t) 0 4 h4
      simp only [nil_append, length_nil] at this
      rw [this, hr.length]
    simp only [length_cons, flatten_cons, append_assoc, splitRecords, hl, take_left, drop_left]
    rw [ih (fun q hq => h q (mem_cons_of_mem _ hq))]

theorem splitRecords_flatten (h : ∀ r ∈ rs, Framed r) : splitRecords rs.length rs.flatten = rs := by
  have := splitRecords_append h []
  rwa [append_nil] at this

end PulseLog

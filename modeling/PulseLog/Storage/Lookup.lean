/-
  Subject:   `PositionFor` and `Read` find the records of a segment.

  * `Readable` -- what the two methods need: whole records from the start of the file up to the
    end position, none larger than `kMaxRecordBytes`, and index entries that point at them;
  * `positionFor_gives_from` -- the scan ends at the record asked for, unless a record that it
    passes is larger than `kMaxRecordBytes` and than a block;
  * `read_gives` -- a read returns whole records from there on, and at least one.
-/
import PulseLog.Storage.SegmentInv

namespace PulseLog

open List

/-! ## 1. Positions -/

/-- The position of the record in place `i`. -/
def startOf (recs : List Bytes) (i : Nat) : Nat := (recs.take i).flatten.length

section Positions

variable {recs : List Bytes} {i j : Nat} {r : Bytes}

theorem startOf_zero (recs : List Bytes) : startOf recs 0 = 0 := by simp [startOf]

theorem startOf_length (recs : List Bytes) : startOf recs recs.length = recs.flatten.length := by
  rw [startOf, take_length]

theorem startOf_succ (h : recs[i]? = some r) :
    startOf recs (i + 1) = startOf recs i + r.length := by
  rw [startOf, startOf, take_add_one, h]
  simp

theorem startOf_mono (recs : List Bytes) {i j : Nat} (h : i ≤ j) :
    startOf recs i ≤ startOf recs j := by
  have hp : recs.take i <+: recs.take j := take_prefix_take_left h
  obtain ⟨t, ht⟩ := hp
  rw [startOf, startOf, ← ht, flatten_append, length_append]
  omega

theorem startOf_le_length (recs : List Bytes) (i : Nat) : startOf recs i ≤ recs.flatten.length := by
  by_cases h : i ≤ recs.length
  · rw [← startOf_length]
    exact startOf_mono recs h
  · rw [startOf, take_of_length_le (by omega)]

/-- The bytes of a segment, cut at one record. -/
theorem flatten_at (h : recs[i]? = some r) (tail : Bytes) :
    recs.flatten ++ tail = (recs.take i).flatten ++ r ++ ((recs.drop (i + 1)).flatten ++ tail) := by
  obtain ⟨hi, hr⟩ := List.getElem?_eq_some_iff.mp h
  have hcut : recs = recs.take i ++ r :: recs.drop (i + 1) := by
    rw [← hr, getElem_cons_drop, take_append_drop]
  conv_lhs => rw [hcut]
  simp only [flatten_append, flatten_cons, append_assoc]

/-- The length field at the start of a record. -/
theorem lengthField_at (h : recs[i]? = some r) (hf : Framed r) (tail : Bytes) :
    loadLe 4 (recs.flatten ++ tail) (startOf recs i) + 4 = r.length := by
  have h4 : 0 + 4 ≤ r.length := by
    have := hf.header
    unfold recordFixedPrefix at this
    omega
  have hl := loadLe_mid (recs.take i).flatten r ((recs.drop (i + 1)).flatten ++ tail) 0 4 h4
  simp only [Nat.add_zero] at hl
  rw [flatten_at h tail, startOf, hl, hf.length]

/-- The record in a place, and where the next one starts. -/
theorem record_at (hf : ∀ r ∈ recs, Framed r) (hi : i < recs.length) : ∃ r, recs[i]? = some r ∧
    Framed r ∧ recordFixedPrefix ≤ r.length ∧ startOf recs (i + 1) = startOf recs i + r.length := by
  have hr := getElem?_eq_getElem hi
  have hfr := hf _ (mem_of_getElem? hr)
  exact ⟨_, hr, hfr, hfr.header, startOf_succ hr⟩

/-- A block of the file, read at the start of a record. -/
theorem length_block {want : Nat} (tail : Bytes) (h : startOf recs i + want ≤ recs.flatten.length) :
    (slice (recs.flatten ++ tail) (startOf recs i) want).length = want := by
  rw [length_slice, length_append]
  omega

/-- The length field of a record in a block. -/
theorem lengthField_block {j n : Nat} (hr : recs[j]? = some r) (hf : Framed r) (hij : i ≤ j)
    (h4 : startOf recs j - startOf recs i + 4 ≤ n) (tail : Bytes) :
    loadLe 4 (slice (recs.flatten ++ tail) (startOf recs i) n)
      (startOf recs j - startOf recs i) + 4 = r.length := by
  rw [loadLe_slice _ h4, Nat.add_sub_cancel' (startOf_mono recs hij)]
  exact lengthField_at hr hf tail

end Positions

/-- What looking up and reading need of a segment and its log file. -/
structure Readable (recs : List Bytes) (s : Segment) (w : World) : Prop where
  data : ∃ tail, w.bytes s.logPath = recs.flatten ++ tail
  framed : ∀ r ∈ recs, Framed r
  ends : s.endPosition = recs.flatten.length
  next : s.nextOffset = s.baseOffset + recs.length
  entries : EntriesOk False recs s.index.entries
  indexBase : s.index.baseOffset = s.baseOffset

theorem SegHolds.toReadable {M : Mode} {strict : Prop} {recs : List Bytes} {written : Bytes}
    {s : Segment} {w : World} (h : SegHolds M strict recs written s w) : Readable recs s w := by
  obtain ⟨f, tail, hf, hd, -⟩ := h.log
  exact ⟨⟨written ++ tail, by rw [IndexFormat.bytes_of_file hf, hd]⟩, h.run.framed M.framed,
    h.ends, h.next, h.entries.weaken, h.indexBase⟩

/-! ## 2. The position of an offset -/

section Seek

variable {recs : List Bytes} (tail : Bytes)

/-- One block: the walk stops at the target, or at the first record the block does not hold. -/
theorem walkBlock_eq (base want : Nat) (hf : ∀ r ∈ recs, Framed r)
    {i t : Nat} (ht : t ≤ recs.length) (hwant : startOf recs i + want ≤ recs.flatten.length) :
    ∀ (fuel j : Nat), i ≤ j → j ≤ t → t - j ≤ fuel → startOf recs j ≤ startOf recs i + want →
    ∃ k, j ≤ k ∧ k ≤ t ∧ startOf recs k ≤ startOf recs i + want ∧
      (k = t ∨ startOf recs i + want < startOf recs (k + 1)) ∧
      Segment.walkBlock (slice (recs.flatten ++ tail) (startOf recs i) want) recs.flatten.length
        (startOf recs i) (base + t) fuel (startOf recs j - startOf recs i) (base + j) =
        .ok (startOf recs k - startOf recs i, base + k)
  | 0, j, hij, hjt, hfuel, hin => by
    have : j = t := by omega
    exact ⟨j, le_rfl, hjt, hin, .inl this, rfl⟩
  | fuel + 1, j, hij, hjt, hfuel, hin => by
    have hmono := startOf_mono recs hij
    unfold Segment.walkBlock
    rw [length_block tail hwant]
    by_cases hj : j = t
    · exact ⟨j, le_rfl, hjt, hin, .inl hj, by rw [if_neg (by omega)]⟩
    obtain ⟨r, hr, hfr, hmin, hsucc⟩ := record_at hf (show j < recs.length by omega)
    unfold recordFixedPrefix at hmin
    by_cases hroom : startOf recs j - startOf recs i + 4 ≤ want
    · rw [if_pos ⟨by omega, hroom⟩]
      have hend := startOf_le_length recs (j + 1)
      rw [lengthField_block hr hfr hij hroom, if_neg (by unfold recordFixedPrefix; omega)]
      by_cases hfit : startOf recs j - startOf recs i + r.length > want
      · rw [if_pos hfit]
        exact ⟨j, le_rfl, hjt, hin, .inr (by omega), rfl⟩
      · rw [if_neg hfit]
        obtain ⟨k, h1, h2, h3, h4, h5⟩ := walkBlock_eq base want hf ht hwant fuel (j + 1)
          (by omega) (by omega) (by omega) (by omega)
        refine ⟨k, by omega, h2, h3, h4, ?_⟩
        rw [← h5]
        congr 1
        omega
    · rw [if_neg (fun h => hroom h.2)]
      exact ⟨j, le_rfl, hjt, hin, .inr (by omega), rfl⟩

/-- **One round of the scan** goes on behind the records that the block holds; reads the record
    again with a block of its size, if the block is too small for it; or refuses the record, if it
    exceeds `kMaxRecordBytes` too. -/
theorem seekLoop_round (hf : ∀ r ∈ recs, Framed r) (base fuel : Nat)
    {t blockSize i : Nat} {r : Bytes}
    (ht : t ≤ recs.length) (hit : i < t) (hb : 4 ≤ blockSize) (hr : recs[i]? = some r) :
    (∃ k, i < k ∧ k ≤ t ∧ startOf recs k ≤ startOf recs i + blockSize ∧
      Segment.seekLoop (recs.flatten ++ tail) recs.flatten.length (base + t) (fuel + 1) blockSize
        (startOf recs i) (base + i) =
      Segment.seekLoop (recs.flatten ++ tail) recs.flatten.length (base + t) fuel blockSize
        (startOf recs k) (base + k)) ∨
    blockSize < r.length ∧ (r.length ≤ maxRecordBytes ∧
        Segment.seekLoop (recs.flatten ++ tail) recs.flatten.length (base + t) (fuel + 1) blockSize
          (startOf recs i) (base + i) =
        Segment.seekLoop (recs.flatten ++ tail) recs.flatten.length (base + t) fuel r.length
          (startOf recs i) (base + i) ∨
      maxRecordBytes < r.length ∧ ∃ er,
        Segment.seekLoop (recs.flatten ++ tail) recs.flatten.length (base + t) (fuel + 1) blockSize
          (startOf recs i) (base + i) = .error er) := by
  have hfr := hf r (mem_of_getElem? hr)
  have hsucc := startOf_succ hr
  have hend := startOf_le_length recs (i + 1)
  have hmin := hfr.header
  unfold recordFixedPrefix at hmin
  have hsub : uint64Sub recs.flatten.length (startOf recs i) =
      recs.flatten.length - startOf recs i := by
    rw [uint64Sub, if_pos (startOf_le_length recs i)]
  rw [Segment.seekLoop, if_pos (by omega), hsub]
  set want := min blockSize (recs.flatten.length - startOf recs i) with hwant
  dsimp only
  rw [length_block tail (by omega), if_neg (by omega), if_neg (by omega)]
  obtain ⟨k, h1, h2, h3, h4, h5⟩ := walkBlock_eq tail base want hf ht (by omega)
    (base + t - (base + i)) i le_rfl hit.le (by omega) (by omega)
  rw [Nat.sub_self] at h5
  rw [h5]
  dsimp only
  by_cases hk : k = i
  · -- the record at this position does not fit into the block
    subst hk
    have hbig : blockSize < r.length := by
      rcases h4 with h4 | h4 <;> omega
    have hload := lengthField_block (i := k) (n := want) hr hfr le_rfl (by omega) tail
    rw [Nat.sub_self] at hload
    rw [if_pos (Nat.sub_self _), hload]
    refine .inr ⟨hbig, ?_⟩
    by_cases hmax : r.length ≤ maxRecordBytes
    · rw [if_neg (by unfold recordFixedPrefix; omega), if_neg (by omega)]
      exact .inl ⟨hmax, rfl⟩
    · rw [if_pos (.inr (.inl (by omega)))]
      exact .inr ⟨by omega, _, rfl⟩
  · have hadv := startOf_mono recs (show i + 1 ≤ k by omega)
    have hge := startOf_mono recs h1
    rw [if_neg (by omega), Nat.add_sub_cancel' hge]
    exact .inl ⟨k, by omega, h2, by omega, rfl⟩

/-- The scan over blocks. A record that exceeds the block costs one more round; only one that
    exceeds `kMaxRecordBytes` too is an error. -/
theorem seekLoop_gives {E : Prop} (hf : ∀ r ∈ recs, Framed r) {base t : Nat} (ht : t ≤ recs.length)
    {fuel blockSize i : Nat} (hit : i ≤ t) (hb : 4 ≤ blockSize)
    (hsize : ¬ E → ∀ k r, i ≤ k → k < t → recs[k]? = some r →
      r.length ≤ max maxRecordBytes blockSize)
    (hfuel : 2 * (t - i) + 1 ≤ fuel ∨ 2 * (t - i) ≤ fuel ∧ ∃ r, recs[i]? = some r ∧ i < t ∧
      r.length ≤ blockSize) :
    (Segment.seekLoop (recs.flatten ++ tail) recs.flatten.length (base + t) fuel blockSize
      (startOf recs i) (base + i)).Gives E (· = startOf recs t) := by
  induction fuel generalizing blockSize i with
  | zero => rcases hfuel with h | ⟨h, _, _, hlt, _⟩ <;> omega
  | succ fuel ih =>
    by_cases hi : i = t
    · rw [Segment.seekLoop, if_neg (by omega), hi]
      rfl
    obtain ⟨r, hr⟩ : ∃ r, recs[i]? = some r := ⟨_, getElem?_eq_getElem (by omega)⟩
    rcases seekLoop_round tail hf base fuel ht (by omega) hb hr with
      ⟨k, h1, h2, -, h⟩ | ⟨hbig, ⟨hmax, h⟩ | ⟨hmax, er, h⟩⟩ <;> rw [h]
    · refine ih h2 hb (fun hE j x hj => hsize hE j x (by omega)) (.inl ?_)
      rcases hfuel with h | ⟨h, -⟩ <;> omega
    · refine ih hit (by omega) (fun hE j x hj hjt hx => ?_) (.inr ⟨?_, r, hr, by omega, le_rfl⟩)
      · have := hsize hE j x hj hjt hx
        omega
      · rcases hfuel with h | ⟨h, r', hr', -, hle⟩
        · omega
        · rw [hr, Option.some.injEq] at hr'
          subst hr'
          omega
    · refine by_contra fun hE => ?_
      have := hsize hE i r le_rfl (by omega) hr
      omega

end Seek

section PositionFor

variable {recs : List Bytes} {s : Segment} {w : World}

/-- **The floor of an offset** in a sorted index: the last entry at or below it. -/
theorem lookupFloor_eq (ix : OffsetIndex) (target : Nat)
    (hsort : ix.entries.Pairwise (fun a b => a.relativeOffset < b.relativeOffset))
    (hv : ∀ e ∈ ix.entries, e.relativeOffset ≤ uint32Max) (hb : ix.baseOffset ≤ target) :
    ∃ below above, ix.entries = below ++ above ∧
      (∀ e ∈ below, e.relativeOffset ≤ target - ix.baseOffset) ∧
      (∀ e ∈ above, target - ix.baseOffset < e.relativeOffset) ∧
      OffsetIndex.lookupFloor ix target = below.getLast? := by
  unfold OffsetIndex.lookupFloor
  split
  · rename_i h
    have hnil : ix.entries = [] := h.resolve_right (by omega)
    exact ⟨[], [], hnil, by simp, by simp, rfl⟩
  split
  · refine ⟨ix.entries, [], by simp, fun e he => ?_, by simp, rfl⟩
    have := hv e he
    omega
  · dsimp only
    set c : OffsetIndexEntry → Bool := fun e => ¬ target - ix.baseOffset < e.relativeOffset with hc
    have hmono : ix.entries.Pairwise (fun a b => c b = true → c a = true) :=
      hsort.imp (fun hlt hb => by
      simp only [hc, decide_eq_true_eq] at hb ⊢
      omega)
    refine ⟨ix.entries.take (lowerBound c ix.entries), ix.entries.drop (lowerBound c ix.entries),
      (take_append_drop _ _).symm, fun e he => ?_, fun e he => ?_, ?_⟩
    · rw [take_lowerBound c ix.entries hmono] at he
      have := (mem_filter.mp he).2
      simp only [hc, decide_eq_true_eq] at this
      omega
    · have := drop_lowerBound c ix.entries hmono e he
      simp only [hc, decide_eq_false_iff_not, not_not] at this
      exact this
    · have hle := lowerBound_le c ix.entries
      rw [getLast?_eq_getElem?, length_take, Nat.min_eq_left hle]
      split
      · rename_i h0
        rw [h0]
        rfl
      · rw [getElem?_take, if_pos (by omega)]

/-- **Where the scan for an offset starts**: at a record at or below it, behind no index entry that
    is. -/
theorem seekStart_eq (h : Readable recs s w) (i : Nat) : ∃ j, j ≤ i ∧
    s.seekStart (s.baseOffset + i) = (startOf recs j, s.baseOffset + j) ∧
    (j = 0 ∨ ∃ e ∈ s.index.entries, e.relativeOffset = j) ∧
    ∀ e ∈ s.index.entries, e.relativeOffset ≤ i → e.relativeOffset ≤ j := by
  obtain ⟨below, above, hsplit, hbelow, habove, hfloor⟩ := lookupFloor_eq s.index
    (s.baseOffset + i) h.entries.sorted (fun e he => (h.entries.valid e he).1)
    (by rw [h.indexBase]; omega)
  rw [h.indexBase, Nat.add_sub_cancel_left] at hbelow habove
  unfold Segment.seekStart
  rw [hfloor]
  cases hlast : below.getLast? with
  | none =>
    rw [getLast?_eq_none_iff] at hlast
    refine ⟨0, Nat.zero_le _, by rw [startOf_zero, Nat.add_zero], .inl rfl, fun e he hle => ?_⟩
    rw [hsplit, hlast] at he
    have := habove e he
    omega
  | some e =>
    obtain ⟨front, rfl⟩ := getLast?_eq_some_iff.mp hlast
    have hmem : e ∈ s.index.entries := by rw [hsplit]; simp
    refine ⟨e.relativeOffset, hbelow e (by simp), ?_, .inr ⟨e, hmem, rfl⟩, fun f hf hle => ?_⟩
    · dsimp only
      rw [h.entries.place e hmem, startOf]
    · have hs := h.entries.sorted
      rw [hsplit] at hf hs
      rcases mem_append.mp hf with hf | hf
      · rcases mem_append.mp hf with hf | hf
        · exact le_of_lt ((pairwise_append.mp (pairwise_append.mp hs).1).2.2 f hf e (by simp))
        · rw [mem_singleton.mp hf]
      · have := habove f hf
        omega

/-- The size of the blocks a lookup reads at first. -/
def Segment.blockSize (s : Segment) : Nat := (max s.options.indexIntervalBytes 8192).toNat

/-- **`PositionFor`** finds the position of every record of the segment, unless one that it passes
    is too large. -/
theorem positionFor_gives_from {E : Prop} (h : Readable recs s w) {i : Nat} (hi : i < recs.length)
    (hsize : ¬ E → ∀ k r, (s.seekStart (s.baseOffset + i)).2 ≤ s.baseOffset + k → k < i →
      recs[k]? = some r → r.length ≤ max maxRecordBytes s.blockSize) :
    (s.positionFor w (s.baseOffset + i)).Gives E (· = startOf recs i) := by
  unfold Segment.positionFor
  rw [if_neg (by omega), if_neg (by rw [h.next]; omega)]
  obtain ⟨j, hj, hstart, -, -⟩ := seekStart_eq h i
  obtain ⟨tail, htail⟩ := h.data
  rw [hstart] at hsize ⊢
  by_cases hij : i ≤ j
  · rw [if_pos (by omega), show j = i by omega]
    rfl
  · rw [if_neg (by omega), htail, h.ends]
    exact seekLoop_gives tail h.framed (by omega) hj (by omega)
      (fun hE k r hk => hsize hE k r (by omega)) (.inl (by omega))

theorem positionFor_gives {E : Prop} (h : Readable recs s w)
    (hsize : ¬ E → ∀ r ∈ recs, r.length ≤ maxRecordBytes) {i : Nat} (hi : i < recs.length) :
    (s.positionFor w (s.baseOffset + i)).Gives E (· = startOf recs i) :=
  positionFor_gives_from h hi fun hE _ r _ _ hr =>
    le_trans (hsize hE r (mem_of_getElem? hr)) (Nat.le_max_left _ _)

end PositionFor

/-! ## 3. Reading -/

section Read

variable {recs : List Bytes} (tail : Bytes)

/-- One chunk: whole records, and the first one if it is there and within the budget. -/
theorem acceptLoop_eq (base want maxBytes bytes count : Nat) (hf : ∀ r ∈ recs, Framed r) {i : Nat}
    (hwant : startOf recs i + want ≤ recs.flatten.length) :
    ∀ (fuel j : Nat), i ≤ j → j ≤ recs.length → startOf recs j ≤ startOf recs i + want →
    ∃ k, j ≤ k ∧ k ≤ recs.length ∧ startOf recs k ≤ startOf recs i + want ∧
      (0 < fuel → j < recs.length → startOf recs (j + 1) ≤ startOf recs i + want →
        (count + (j - i) = 0 ∨ bytes + (startOf recs (j + 1) - startOf recs i) ≤ maxBytes) →
          j < k) ∧
      Segment.acceptLoop (slice (recs.flatten ++ tail) (startOf recs i) want) (base + recs.length)
        (base + i) maxBytes bytes count fuel (startOf recs j - startOf recs i) (j - i) =
        (startOf recs k - startOf recs i, k - i)
  | 0, j, hij, hj, hin => ⟨j, le_rfl, hj, hin, by omega, rfl⟩
  | fuel + 1, j, hij, hj, hin => by
    have hmono := startOf_mono recs hij
    unfold Segment.acceptLoop
    rw [length_block tail hwant]
    by_cases hlt : startOf recs j - startOf recs i < want ∧ base + i + (j - i) < base + recs.length
    · rw [if_pos hlt]
      obtain ⟨r, hr, hfr, hmin, hsucc⟩ := record_at hf (show j < recs.length by omega)
      unfold recordFixedPrefix at hmin
      by_cases h4 : startOf recs j - startOf recs i + 4 > want
      · rw [if_pos h4]
        exact ⟨j, le_rfl, hj, hin, by omega, rfl⟩
      rw [if_neg h4, lengthField_block hr hfr hij (by omega)]
      by_cases hfit : startOf recs j - startOf recs i + r.length > want
      · rw [if_pos hfit]
        exact ⟨j, le_rfl, hj, hin, by omega, rfl⟩
      rw [if_neg hfit]
      by_cases hbudget : count + (j - i) > 0 ∧
          bytes + (startOf recs j - startOf recs i) + r.length > maxBytes
      · rw [if_pos hbudget]
        exact ⟨j, le_rfl, hj, hin, by omega, rfl⟩
      · rw [if_neg hbudget]
        obtain ⟨k, h1, h2, h3, -, h5⟩ := acceptLoop_eq base want maxBytes bytes count hf hwant
          fuel (j + 1) (by omega) (by omega) (by omega)
        refine ⟨k, by omega, h2, h3, fun _ _ _ _ => by omega, ?_⟩
        rw [← h5]
        congr 1 <;> omega
    · rw [if_neg hlt]
      refine ⟨j, le_rfl, hj, hin, fun _ hjl hroom _ => ?_, rfl⟩
      obtain ⟨r, hr, hfr, hmin, hsucc⟩ := record_at hf hjl
      unfold recordFixedPrefix at hmin
      omega

/-- The bytes between two record positions. -/
theorem slice_between {i k : Nat} (hik : i ≤ k) :
    slice (recs.flatten ++ tail) (startOf recs i) (startOf recs k - startOf recs i) =
      ((recs.take k).drop i).flatten := by
  have h1 : recs.take k = recs.take i ++ (recs.take k).drop i := by
    conv_lhs => rw [← take_append_drop i (recs.take k)]
    rw [take_take, Nat.min_eq_left hik]
  have h2 : startOf recs k = startOf recs i + ((recs.take k).drop i).flatten.length := by
    rw [startOf, startOf, ← length_append, ← flatten_append, ← h1]
  have h3 : recs.flatten ++ tail = (recs.take i).flatten ++ ((recs.take k).drop i).flatten ++
      ((recs.drop k).flatten ++ tail) := by
    rw [← flatten_append, ← h1, ← append_assoc, ← flatten_append, take_append_drop]
  have h4 := slice_mid (recs.take i).flatten ((recs.take k).drop i).flatten
    ((recs.drop k).flatten ++ tail) 0 ((recs.take k).drop i).flatten.length (by omega)
  simp only [Nat.add_zero] at h4
  rw [h3, h2, Nat.add_sub_cancel_left, startOf, h4, slice_zero, take_length]

theorem take_drop_append {i k m : Nat} (hik : i ≤ k) (hkm : k ≤ m) :
    (recs.take k).drop i ++ (recs.take m).drop k = (recs.take m).drop i := by
  have h1 : recs.take m = recs.take k ++ (recs.take m).drop k := by
    conv_lhs => rw [← take_append_drop k (recs.take m)]
    rw [take_take, Nat.min_eq_left hkm]
  by_cases hk : k ≤ recs.length
  · conv_rhs => rw [h1]
    rw [drop_append_of_le_length (by rw [length_take]; omega)]
  · have hnil : (recs.take m).drop k = [] := by
      rw [drop_eq_nil_iff, length_take]
      omega
    rw [hnil, append_nil, take_of_length_le (by omega), take_of_length_le (by omega)]

/-- The loop of `Read` returns whole records, and at least one if it has none yet. -/
theorem readLoop_eq (base maxBytes : Nat) (hf : ∀ r ∈ recs, Framed r) :
    ∀ (fuel i : Nat) (acc : Segment.Gathered), i ≤ recs.length → recs.length - i < fuel →
    ∃ k, i ≤ k ∧ k ≤ recs.length ∧
      (i < recs.length → acc.count = 0 → acc.out.length < maxBytes → i < k) ∧
      Segment.readLoop (recs.flatten ++ tail) recs.flatten.length (base + recs.length) maxBytes fuel
        (startOf recs i) (base + i) acc =
        .ok (base + k, ⟨acc.count + (k - i), acc.out ++ ((recs.take k).drop i).flatten⟩)
  | 0, _, _, _, hfuel => by omega
  | fuel + 1, i, acc, hi, hfuel => by
    have hstop : (Outcome.ok (base + i, acc) : Outcome Status (Nat × Segment.Gathered)) =
        .ok (base + i, ⟨acc.count + (i - i), acc.out ++ ((recs.take i).drop i).flatten⟩) := by
      simp
    unfold Segment.readLoop
    by_cases hil : i < recs.length
    · obtain ⟨r, hr, hfr, hmin, hsucc⟩ := record_at hf hil
      have hend := startOf_le_length recs (i + 1)
      unfold recordFixedPrefix at hmin
      rw [if_pos ⟨by omega, by omega⟩]
      dsimp only
      have hload := lengthField_block (i := i) (n := 4) hr hfr le_rfl (by omega) tail
      rw [Nat.sub_self] at hload
      rw [length_block tail (by omega), hload]
      by_cases hbudget : maxBytes - acc.out.length = 0
      · rw [if_pos hbudget]
        exact ⟨i, le_rfl, hi, by omega, hstop⟩
      rw [if_neg hbudget, if_neg (by simp), if_neg (by unfold recordFixedPrefix; omega)]
      set room := min (min recoveryChunkBytes (recs.flatten.length - startOf recs i))
        (maxBytes - acc.out.length) with hroom
      by_cases hfull : room < r.length ∧ acc.count > 0
      · rw [if_pos hfull]
        exact ⟨i, le_rfl, hi, by omega, hstop⟩
      rw [if_neg hfull]
      have hwant : startOf recs i + max room r.length ≤ recs.flatten.length := by omega
      obtain ⟨k, h1, h2, h3, h4, h5⟩ := acceptLoop_eq tail base (max room r.length) maxBytes
        acc.out.length acc.count hf hwant (max room r.length) i le_rfl hi (by omega)
      rw [Nat.sub_self, Nat.sub_self] at h5
      have hadv := startOf_mono recs (show i + 1 ≤ k by omega)
      rw [length_block tail hwant, if_neg (by omega), h5]
      rw [if_neg (by omega)]
      have htake : (slice (recs.flatten ++ tail) (startOf recs i) (max room r.length)).take
          (startOf recs k - startOf recs i) = ((recs.take k).drop i).flatten := by
        rw [← slice_between tail h1]
        unfold slice
        rw [take_take, Nat.min_eq_left (by omega)]
      obtain ⟨m, m1, m2, -, m4⟩ := readLoop_eq base maxBytes hf fuel k
        ⟨acc.count + (k - i), acc.out ++ ((recs.take k).drop i).flatten⟩ h2 (by omega)
      refine ⟨m, by omega, m2, fun _ _ _ => by omega, ?_⟩
      rw [htake, show startOf recs i + (startOf recs k - startOf recs i) = startOf recs k by omega,
        show base + i + (k - i) = base + k by omega, m4]
      congr 2
      rw [← take_drop_append h1 m1, flatten_append, append_assoc]
      congr 1
      show acc.count + (k - i) + (m - k) = acc.count + (m - i)
      omega
    · rw [if_neg (by omega)]
      exact ⟨i, le_rfl, hi, by omega, hstop⟩

end Read

section ReadSegment

variable {recs : List Bytes} {s : Segment} {w : World}

/-- **`Segment::Read`** from an offset of the segment. -/
theorem read_gives {E : Prop} (h : Readable recs s w)
    (hsize : ¬ E → ∀ r ∈ recs, r.length ≤ maxRecordBytes) {i maxBytes : Nat} (hi : i < recs.length)
    (hm : 0 < maxBytes) : (s.read w (s.baseOffset + i) maxBytes).Gives E fun chunk =>
      ∃ k, i < k ∧ k ≤ recs.length ∧ chunk = ⟨s.baseOffset + i, k - i,
        ((recs.take k).drop i).flatten, decide (k = recs.length)⟩ := by
  obtain ⟨tail, htail⟩ := h.data
  obtain ⟨k, h1, h2, h3, h4⟩ := readLoop_eq tail s.baseOffset maxBytes h.framed
    (s.nextOffset - (s.baseOffset + i) + 1) i ⟨0, []⟩ (by omega) (by rw [h.next]; omega)
  unfold Segment.read
  rw [if_neg (by rw [h.next]; omega)]
  rcases (positionFor_gives h hsize hi).cases with ⟨p, hp, rfl⟩ | ⟨e, hp, hE⟩
  swap
  · rw [hp]
    exact hE
  rw [hp]
  dsimp only
  rw [htail, h.ends]
  rw [← h.next] at h4
  rw [h4]
  refine ⟨k, h3 hi rfl (by simpa using hm), h2, ?_⟩
  simp only [Nat.zero_add]
  congr 1
  refine decide_eq_decide.mpr ?_
  rw [h.next]
  omega

theorem read_past (h : Readable recs s w) {o maxBytes : Nat}
    (ho : s.baseOffset + recs.length ≤ o) : s.read w o maxBytes = .ok ⟨o, 0, [], true⟩ := by
  unfold Segment.read
  rw [if_pos (by rw [h.next]; omega)]

end ReadSegment

end PulseLog

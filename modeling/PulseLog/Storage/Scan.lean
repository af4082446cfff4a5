/-
  Subject:   What the recovery scan accepts, and where it stops.

  * `scanLoop_tally` -- a scan counts what it accepts;
  * **`scanLoop_covers`** -- one that returns has passed every run of good records it was started in
    front of;
  * `RoundAt` -- the positions at which rounds of a scan start; **`scanLoop_ends`** -- the scan
    ends if and only if none starts at an `Oversized` length field.
-/
import PulseLog.Storage.Batch
import PulseLog.Storage.Segment

namespace PulseLog

open List

variable {fuel : Nat} {s : Scanned} {rs : List Bytes} {data : Bytes} {p o n : Nat} {m : Int}

/-- A record the scan can accept: it fits into a chunk. -/
structure Scannable (o : Nat) (r : Bytes) : Prop where
  ok : RecordOk o r
  fits : r.length ≤ recoveryChunkBytes

/-! ## 1. One chunk -/

theorem scanChunk_sound {chunk : Bytes} (hc : chunk.length ≤ recoveryChunkBytes) (more : Bool)
    (position : Nat) : ∀ (fuel cp o n : Nat) (m : Int), cp ≤ chunk.length →
    ∃ rs, chunk.drop cp = rs.flatten ++
      chunk.drop (scanChunk chunk more position fuel cp o n m).chunkPos ∧
      (scanChunk chunk more position fuel cp o n m).chunkPos = cp + rs.flatten.length ∧
      (scanChunk chunk more position fuel cp o n m).chunkPos ≤ chunk.length ∧
      (scanChunk chunk more position fuel cp o n m).offset = o + rs.length ∧
      RunOf Scannable o rs ∧ MaxOver m rs (scanChunk chunk more position fuel cp o n m).maxTimestamp
  | 0, cp, o, n, m, h => ⟨[], rfl, rfl, h, rfl, trivial, .nil _⟩
  | fuel + 1, cp, o, n, m, h => by
    unfold scanChunk
    split
    · split
      · split <;> exact ⟨[], rfl, rfl, h, rfl, trivial, .nil _⟩
      · rename_i view next hparse
        split
        · exact ⟨[], rfl, rfl, h, rfl, trivial, .nil _⟩
        · rename_i hoff
          rw [not_not] at hoff
          obtain ⟨r, hcut, hnext, -, hf, hck, -, ho, hts⟩ := parseRecord_ok hparse
          have hlen := congrArg List.length hcut
          simp only [length_append, length_take] at hlen
          have hle : next ≤ chunk.length := by omega
          obtain ⟨rs, e1, e2, e3, e4, e5, e6⟩ := scanChunk_sound hc more position fuel next (o + 1)
            (n + 1) (max m view.timestamp) hle
          refine ⟨r :: rs, ?_, ?_, e3, ?_, ⟨⟨⟨hf, hck rfl, by rw [← ho, hoff]⟩, by omega⟩, e5⟩,
            .cons (by rw [← hts]; exact e6)⟩
          · have hd : chunk.drop cp = r ++ chunk.drop next := by
              conv_lhs => rw [hcut, append_assoc, drop_append_of_le_length (by
                rw [length_take]; omega), drop_of_length_le (by
                rw [length_take]; omega), nil_append]
            rw [hd, e1, flatten_cons, append_assoc]
          · rw [flatten_cons, length_append]
            omega
          · rw [length_cons]
            omega
    · exact ⟨[], rfl, rfl, h, rfl, trivial, .nil _⟩

/-- Why the inner loop ends the whole scan: the bytes there were refused. -/
def Refused (chunk : Bytes) (more : Bool) (cp o : Nat) : Prop :=
  (∃ e, parseRecord chunk cp true = .error e ∧ ¬ (e.code = .outOfRange ∧ more = true)) ∨
    ∃ view next, parseRecord chunk cp true = .ok (view, next) ∧ view.offset ≠ o

theorem scanChunk_stop (chunk : Bytes) (more : Bool) (position fuel cp o n : Nat) (m : Int)
    (reason : String) (h : (scanChunk chunk more position fuel cp o n m).stop = some reason) :
    Refused chunk more (scanChunk chunk more position fuel cp o n m).chunkPos
      (scanChunk chunk more position fuel cp o n m).offset := by
  fun_induction scanChunk chunk more position fuel cp o n m with
  | case1 => simp at h
  | case2 => simp at h
  | case3 fuel cp o n m hlt e hparse hne => exact .inl ⟨e, hparse, hne⟩
  | case4 fuel cp o n m hlt view next hparse hoff => exact .inr ⟨view, next, hparse, hoff⟩
  | case5 fuel cp o n m hlt view next hparse hoff ih => exact ih h
  | case6 => simp at h

/-! ## 2. From chunk to chunk -/

/-- The chunk `Recover` reads at a position. -/
def chunkAt (data : Bytes) (position : Nat) : Bytes :=
  slice data position (min recoveryChunkBytes (data.length - position))

/-- Whether the file goes on behind the chunk. -/
def moreAt (data : Bytes) (position : Nat) : Bool :=
  (chunkAt data position).length == min recoveryChunkBytes (data.length - position) &&
    decide (position + (chunkAt data position).length < data.length)

/-- One round of the outer loop: what the inner loop makes of the chunk. -/
def scanStep (data : Bytes) (position o n : Nat) (m : Int) : ScanStep :=
  scanChunk (chunkAt data position) (moreAt data position) position
    (chunkAt data position).length 0 o n m

section

variable (data : Bytes)

theorem length_chunkAt (position : Nat) :
    (chunkAt data position).length = min recoveryChunkBytes (data.length - position) := by
  rw [chunkAt, length_slice]
  omega

theorem moreAt_eq (position : Nat) :
    moreAt data position = decide (position + (chunkAt data position).length < data.length) := by
  rw [moreAt, length_chunkAt]
  simp

theorem drop_eq_chunkAt_append (position : Nat) :
    ∃ z, data.drop position = chunkAt data position ++ z :=
  ⟨_, (take_append_drop _ _).symm⟩

/-- A round accepts a run of records from its position on. -/
theorem scanStep_sound (position o n : Nat) (m : Int) :
    ∃ rs, data.drop position =
        rs.flatten ++ data.drop (position + (scanStep data position o n m).chunkPos) ∧
      (scanStep data position o n m).chunkPos = rs.flatten.length ∧
      (scanStep data position o n m).chunkPos ≤ (chunkAt data position).length ∧
      (scanStep data position o n m).offset = o + rs.length ∧ RunOf Scannable o rs ∧
      MaxOver m rs (scanStep data position o n m).maxTimestamp := by
  have hle : (chunkAt data position).length ≤ recoveryChunkBytes := by
    rw [length_chunkAt]
    omega
  obtain ⟨rs, e1, e2, e3, e4, e5, e6⟩ := scanChunk_sound hle (moreAt data position) position
    (chunkAt data position).length 0 o n m (Nat.zero_le _)
  obtain ⟨z, hz⟩ := drop_eq_chunkAt_append data position
  refine ⟨rs, ?_, by rw [scanStep, e2, Nat.zero_add], e3, e4, e5, e6⟩
  rw [drop_zero] at e1
  rw [Nat.zero_add] at e2
  have hd : data.drop (position + (scanStep data position o n m).chunkPos) =
      (rs.flatten ++ ((chunkAt data position).drop rs.flatten.length ++ z)).drop
        rs.flatten.length := by
    rw [scanStep, ← drop_drop, hz, ← append_assoc, ← e2, ← e1]
  rw [hd, drop_left, ← append_assoc, ← e2, ← e1, hz]

end

/-- **Soundness of the scan**: between where it started and where it stopped there is a run of
    whole, valid, consecutive records. -/
theorem scanLoop_sound (h : scanLoop data fuel p o n m = .ok s) (hp : p ≤ data.length) :
    ∃ rs, data.drop p = rs.flatten ++ data.drop s.position ∧
      s.position = p + rs.flatten.length ∧ s.position ≤ data.length ∧
      s.offset = o + rs.length ∧ RunOf Scannable o rs ∧ MaxOver m rs s.maxTimestamp := by
  fun_induction scanLoop data fuel p o n m with
  | case1 => simp at h
  | case2 fuel p o n m hlt want chunk step reason hstop =>
    obtain ⟨rs, e1, e2, e3, e4, e5, e6⟩ := scanStep_sound data p o n m
    simp only [Outcome.ok.injEq] at h
    subst h
    have hlen := length_chunkAt data p
    exact ⟨rs, e1, by show p + (scanStep data p o n m).chunkPos = _; rw [e2],
      by show p + (scanStep data p o n m).chunkPos ≤ _; omega, e4, e5, e6⟩
  | case3 fuel p o n m hlt want chunk step hstop h0 hbig =>
    simp only [Outcome.ok.injEq] at h
    subst h
    exact ⟨[], rfl, rfl, hp, rfl, trivial, .nil _⟩
  | case4 fuel p o n m hlt want chunk step hstop h0 hbig ih => exact ih h hp
  | case5 fuel p o n m hlt want chunk step hstop h0 ih =>
    obtain ⟨rs, e1, e2, e3, e4, e5, e6⟩ := scanStep_sound data p o n m
    have hlen := length_chunkAt data p
    have hp' : p + (scanStep data p o n m).chunkPos ≤ data.length := by omega
    obtain ⟨ss, f1, f2, f3, f4, f5, f6⟩ := ih h hp'
    refine ⟨rs ++ ss, ?_, ?_, f3, ?_, ?_, e6.append f6⟩
    · rw [e1, flatten_append, append_assoc]
      exact congrArg _ f1
    · rw [f2, flatten_append, length_append]
      show p + (scanStep data p o n m).chunkPos + _ = _
      rw [e2, Nat.add_assoc]
    · rw [f4, length_append]
      show (scanStep data p o n m).offset + _ = _
      rw [e4, Nat.add_assoc]
    · refine runOf_append.mpr ⟨e5, ?_⟩
      rw [← e4]
      exact f5
  | case6 fuel p o n m hlt =>
    simp only [Outcome.ok.injEq] at h
    subst h
    exact ⟨[], rfl, rfl, hp, rfl, trivial, .nil _⟩

/-- The scan itself reports no error. -/
theorem scanLoop_ne_error (data : Bytes) (fuel p o n : Nat) (m : Int) (e : Status) :
    scanLoop data fuel p o n m ≠ .error e := by
  fun_induction scanLoop data fuel p o n m with
  | case4 fuel p o n m hlt want chunk step hstop h0 hbig ih => exact ih
  | case5 fuel p o n m hlt want chunk step hstop h0 ih => exact ih
  | _ => simp

/-- In front of a record that parses on its own no round refuses. -/
theorem not_refused_of_good {data r y : Bytes} {position cp o : Nat}
    (hcp : cp ≤ (chunkAt data position).length) (hlt : position + cp < data.length)
    (hd : data.drop (position + cp) = r ++ y) (hg : Good o r) :
    ¬ Refused (chunkAt data position) (moreAt data position) cp o := by
  have hlen := length_chunkAt data position
  obtain ⟨z, hz⟩ := drop_eq_chunkAt_append data position
  set chunk := chunkAt data position with hchunk
  have hsplit : chunk = chunk.take cp ++ chunk.drop cp := (take_append_drop _ _).symm
  have hx : (chunk.take cp).length = cp := by
    rw [length_take]
    omega
  have hrest : chunk.drop cp ++ z = r ++ y := by
    rw [← hd, ← drop_drop, hz, drop_append_of_le_length hcp]
  unfold recoveryChunkBytes at hlen
  rcases append_eq_append_iff.mp hrest with ⟨a, hr, -⟩ | ⟨c, hr, -⟩
  · by_cases ha : a = []
    · -- the record ends with the chunk
      rw [ha, append_nil] at hr
      obtain ⟨view, hparse, ho, -⟩ := parseRecord_of_parsesAlone (x := chunk.take cp)
        hg.alone (fun _ => hg.checksum) (by
          rw [hr, length_drop]
          omega)
      rw [append_nil, hx, hr, ← hsplit] at hparse
      rintro (⟨e, he, -⟩ | ⟨view', next, he, hne⟩)
      · rw [hparse] at he
        cases he
      · rw [hparse] at he
        cases he
        exact hne (by rw [ho, hg.offset])
    · -- the record goes on behind the chunk, and so does the file
      have hk : (chunk.drop cp).length < r.length := by
        rw [hr, length_append]
        have := length_pos_iff.mpr ha
        omega
      obtain ⟨msg, hparse⟩ := parseRecord_cut hg.alone.framed hk
      have ht : r.take (chunk.drop cp).length = chunk.drop cp := by rw [hr, take_left]
      rw [ht, hx, ← hsplit] at hparse
      have hmore : moreAt data position = true := by
        have hl := congrArg List.length hd
        simp only [length_drop, length_append] at hl hk
        rw [moreAt_eq, ← hchunk, decide_eq_true_eq]
        omega
      rintro (⟨e, he, hne⟩ | ⟨view', next, he, -⟩)
      · rw [hparse] at he
        cases he
        exact hne ⟨rfl, hmore⟩
      · rw [hparse] at he
        cases he
  · obtain ⟨view, hparse, ho, -⟩ := parseRecord_of_parsesAlone (x := chunk.take cp)
      hg.alone (fun _ => hg.checksum) (by
        have h1 := congrArg List.length hr
        rw [length_append, length_drop] at h1
        omega)
    rw [append_assoc, ← hr, hx, ← hsplit] at hparse
    rintro (⟨e, he, -⟩ | ⟨view', next, he, hne⟩)
    · rw [hparse] at he
      cases he
    · rw [hparse] at he
      cases he
      exact hne (by rw [ho, hg.offset])

/-- **Where a scan does not stop**: in front of a record that parses on its own, with a valid
    checksum and the next offset. -/
theorem scanLoop_stop
    (h : scanLoop data fuel p o n m = .ok s) (hs : s.position < data.length) (r y : Bytes)
    (hd : data.drop s.position = r ++ y) : ¬ Good s.offset r := by
  fun_induction scanLoop data fuel p o n m with
  | case1 => simp at h
  | case2 fuel p o n m hlt want chunk step reason hstop =>
    simp only [Outcome.ok.injEq] at h
    subst h
    obtain ⟨rs, e1, e2, e3, e4, e5, -⟩ := scanStep_sound data p o n m
    have href := scanChunk_stop _ _ p _ 0 o n m reason hstop
    intro hg
    exact not_refused_of_good e3 hs hd hg href
  | case3 fuel p o n m hlt want chunk step hstop h0 hbig =>
    have hw : want ≤ recoveryChunkBytes := Nat.min_le_left _ _
    simp only [recoveryChunkBytes, maxRecordBytes] at hw hbig
    omega
  | case4 fuel p o n m hlt want chunk step hstop h0 hbig ih => exact ih h
  | case5 fuel p o n m hlt want chunk step hstop h0 ih => exact ih h
  | case6 fuel p o n m hlt =>
    simp only [Outcome.ok.injEq] at h
    subst h
    exact absurd hs hlt

/-! ## 3. A run of good records is passed -/

theorem RunOf.framed {P : Nat → Bytes → Prop} (h : ∀ o r, P o r → Framed r) {o : Nat}
    (hr : RunOf P o rs) : ∀ r ∈ rs, Framed r := by
  intro r hm
  obtain ⟨i, hi⟩ := hr.mem r hm
  exact h i r hi

/-- **A scan that returns has passed the good run it was started in front of**, and went on into
    what follows as far as that looks like more records. -/
theorem scanLoop_covers {x t : Bytes} {o n : Nat} (hrs : RunOf Good o rs)
    (h : scanLoop (x ++ rs.flatten ++ t) fuel x.length o n m = .ok s) :
    ∃ ex t', t = ex.flatten ++ t' ∧
      s.position = x.length + rs.flatten.length + ex.flatten.length ∧
      s.offset = o + rs.length + ex.length ∧ RunOf Scannable o (rs ++ ex) := by
  obtain ⟨ss, e1, e2, e3, e4, e5, -⟩ := scanLoop_sound h (by simp)
  have hd : (x ++ rs.flatten ++ t).drop x.length = rs.flatten ++ t := by
    rw [append_assoc, drop_left]
  rw [hd] at e1
  have hfr := hrs.framed (fun _ _ hg => hg.alone.framed)
  have hfs := e5.framed (fun _ _ hg => hg.ok.framed)
  -- the accepted run cannot end inside the good one
  have hle : rs.length ≤ ss.length := by
    by_contra hlt
    obtain ⟨us, rfl⟩ := flatten_framed_prefix hfs hfr e1.symm (by omega)
    cases us with
    | nil => simp at hlt
    | cons u us =>
      have hg : Good (o + ss.length) u := (runOf_append.mp hrs).2.1
      have hrest : (x ++ (ss ++ u :: us).flatten ++ t).drop s.position =
          u ++ (us.flatten ++ t) := by
        rw [flatten_append, flatten_cons] at e1 ⊢
        simp only [append_assoc] at e1 ⊢
        exact (append_cancel_left e1).symm
      have hpos : s.position < (x ++ (ss ++ u :: us).flatten ++ t).length := by
        have := hg.alone.framed.pos
        simp only [length_append, flatten_append, flatten_cons]
        omega
      rw [← e4] at hg
      exact scanLoop_stop h hpos u _ hrest hg
  obtain ⟨ex, rfl⟩ := flatten_framed_prefix hfr hfs e1 hle
  rw [flatten_append, append_assoc] at e1
  refine ⟨ex, _, append_cancel_left e1, ?_, ?_, e5⟩
  · rw [e2, flatten_append, length_append, Nat.add_assoc]
  · rw [e4, length_append, Nat.add_assoc]

/-- Bytes at whose head no valid record with offset `o` stands. -/
def NoRecord (o : Nat) (t : Bytes) : Prop := ∀ r y, t = r ++ y → ¬ RecordOk o r

theorem noRecord_nil (o : Nat) : NoRecord o [] := by
  intro r y h hr
  have hpos := hr.framed.pos
  rw [(append_eq_nil_iff.mp h.symm).1] at hpos
  simp at hpos

/-- Zeros are no record: their length field is below the minimum. -/
theorem noRecord_zeros (o n : Nat) : NoRecord o (zeros n) := by
  intro r y h hr
  have h1 := hr.framed.header
  have h2 := hr.framed.length
  unfold recordFixedPrefix at h1
  have hz : r = zeros r.length := by
    have h3 : r = (zeros n).take r.length := by rw [h, take_left]
    rw [take_zeros] at h3
    rw [h3, length_zeros]
  have h5 : loadLe 4 r 0 = 0 := by
    rw [hz, loadLe, slice_zero, take_zeros, leNat_zeros]
  omega

/-- **In front of bytes that are no record the scan stops exactly.** -/
theorem scanLoop_exact {x t : Bytes} {o n : Nat} (hrs : RunOf Good o rs)
    (ht : NoRecord (o + rs.length) t)
    (h : scanLoop (x ++ rs.flatten ++ t) fuel x.length o n m = .ok s) :
    s.position = x.length + rs.flatten.length ∧ s.offset = o + rs.length := by
  obtain ⟨ex, t', e1, e2, e3, e4⟩ := scanLoop_covers hrs h
  cases ex with
  | nil => exact ⟨by simpa using e2, by simpa using e3⟩
  | cons r ex =>
    have hr := (runOf_append.mp e4).2.1.ok
    rw [flatten_cons, append_assoc] at e1
    exact absurd hr (ht r _ e1)

/-- **A scan of good records with nothing behind them** takes them all. -/
theorem scanLoop_whole (hd : data.drop p = rs.flatten)
    (hrs : RunOf Good o rs) (h : scanLoop data fuel p o n m = .ok s) :
    data.length ≤ s.position ∧ s.offset = o + rs.length := by
  rcases Nat.lt_or_ge p data.length with hlt | hge
  · have hsplit : data.take p ++ rs.flatten ++ [] = data := by
      rw [append_nil, ← hd, take_append_drop]
    have hlen : (data.take p).length = p := by
      rw [length_take]
      omega
    have htotal := congrArg List.length hsplit
    simp only [length_append, length_nil] at htotal
    obtain ⟨hpos, hoff⟩ := scanLoop_exact hrs (noRecord_nil _) (by rw [hsplit, hlen]; exact h)
    exact ⟨by omega, hoff⟩
  · -- the scan starts at the end of the file, or behind it
    have hnil : rs = [] := by
      rw [drop_of_length_le hge] at hd
      cases rs with
      | nil => rfl
      | cons r rs =>
        have hpos := hrs.1.alone.framed.pos
        have hlen := congrArg List.length hd
        rw [flatten_cons, length_append, length_nil] at hlen
        omega
    cases fuel with
    | zero => cases h
    | succ fuel =>
      rw [scanLoop, if_neg (by omega), Outcome.ok.injEq] at h
      rw [← h, hnil]
      exact ⟨hge, rfl⟩

/-! ## 4. Where a round stands still -/

theorem parseBody_error {pos total : Nat} {e : Status}
    (h : parseBody data pos total = .error e) : e.code = .corruption := by
  unfold parseBody at h
  split at h
  · cases h
    rfl
  split at h
  · cases h
    rfl
  dsimp only at h
  split at h
  · cases h
    rfl
  split at h
  · cases h
    rfl
  · cases h

/-- **When a record is reported as cut short**: the buffer ends in its header, or in front of the
    end its length field announces. -/
theorem parseRecord_outOfRange {pos : Nat} {v : Bool} :
    (∃ e, parseRecord data pos v = .error e ∧ e.code = .outOfRange) ↔
      data.length < pos + recordFixedPrefix ∨ recordFixedPrefix - 4 ≤ loadLe 4 data pos ∧
        loadLe 4 data pos ≤ maxRecordBytes ∧ data.length < pos + (loadLe 4 data pos + 4) := by
  unfold parseRecord
  by_cases hhead : pos + recordFixedPrefix > data.length
  · rw [if_pos hhead]
    exact ⟨fun _ => .inl hhead, fun _ => ⟨_, rfl, rfl⟩⟩
  rw [if_neg hhead]
  dsimp only
  by_cases hmin : loadLe 4 data pos < recordFixedPrefix - 4
  · rw [if_pos hmin]
    refine ⟨fun ⟨e, he, hc⟩ => ?_, fun h => by omega⟩
    cases he
    cases hc
  rw [if_neg hmin]
  by_cases hmax : loadLe 4 data pos > maxRecordBytes
  · rw [if_pos hmax]
    refine ⟨fun ⟨e, he, hc⟩ => ?_, fun h => by omega⟩
    cases he
    cases hc
  rw [if_neg hmax]
  by_cases hcut : pos + (loadLe 4 data pos + 4) > data.length
  · rw [if_pos hcut]
    exact ⟨fun _ => .inr ⟨by omega, by omega, hcut⟩, fun _ => ⟨_, rfl, rfl⟩⟩
  rw [if_neg hcut]
  refine ⟨fun ⟨e, he, hc⟩ => ?_, fun h => by omega⟩
  -- what is refused from here on is refused as corrupt
  split at he
  · cases he
    cases hc
  split at he
  · rename_i hbody
    cases he
    rw [parseBody_error hbody] at hc
    cases hc
  · cases he

/-- A record of permitted length that does not fit into a chunk, with the file going on behind the
    chunk. -/
def Oversized (data : Bytes) (q : Nat) : Prop :=
  q + recoveryChunkBytes < data.length ∧ recoveryChunkBytes < loadLe 4 data q + 4 ∧
    loadLe 4 data q ≤ maxRecordBytes

instance (data : Bytes) (q : Nat) : Decidable (Oversized data q) :=
  inferInstanceAs (Decidable (_ ∧ _ ∧ _))

section Still

/-- The chunk begins with the length field of the file at its position. -/
theorem loadLe_chunkAt (h : p + 4 ≤ data.length) :
    loadLe 4 (chunkAt data p) 0 = loadLe 4 data p := by
  unfold chunkAt
  rw [loadLe_slice _ (by unfold recoveryChunkBytes; omega), Nat.add_zero]

/-- The first record of a chunk is cut short, and the file goes on, at an oversized record only. -/
theorem oversized_iff_cut (hlt : p < data.length) : Oversized data p ↔
    moreAt data p = true ∧
      ∃ e, parseRecord (chunkAt data p) 0 true = .error e ∧ e.code = .outOfRange := by
  have hlen := length_chunkAt data p
  rw [parseRecord_outOfRange, moreAt_eq, decide_eq_true_eq]
  unfold Oversized
  have hchunk : recoveryChunkBytes = 2 ^ 20 := rfl
  have hprefix : recordFixedPrefix = 25 := rfl
  constructor
  · rintro ⟨hmore, hbig, hmax⟩
    rw [loadLe_chunkAt (by omega)]
    exact ⟨by omega, .inr ⟨by omega, hmax, by omega⟩⟩
  · rintro ⟨hmore, hcut⟩
    rw [loadLe_chunkAt (by omega)] at hcut
    omega

/-- **A round stands still** in front of an oversized record, and nowhere else. -/
theorem scanStep_still (hlt : p < data.length) :
    ((scanStep data p o n m).stop = none ∧ (scanStep data p o n m).chunkPos = 0) ↔
      Oversized data p := by
  rw [oversized_iff_cut hlt]
  have hlen := length_chunkAt data p
  have hle : (chunkAt data p).length ≤ recoveryChunkBytes := by omega
  obtain ⟨k, hk⟩ : ∃ k, (chunkAt data p).length = k + 1 :=
    Nat.exists_eq_add_one_of_ne_zero (by unfold recoveryChunkBytes at hlen; omega)
  unfold scanStep
  rw [hk, scanChunk, if_pos (by omega)]
  cases hparse : parseRecord (chunkAt data p) 0 true with
  | error e =>
    dsimp only
    by_cases hcut : e.code = .outOfRange ∧ moreAt data p = true
    · rw [if_pos hcut]
      exact ⟨fun _ => ⟨hcut.2, e, rfl, hcut.1⟩, fun _ => ⟨rfl, rfl⟩⟩
    · rw [if_neg hcut]
      constructor
      · intro h
        cases h.1
      · intro h
        obtain ⟨hmore, e', he, hc⟩ := h
        cases he
        exact absurd ⟨hc, hmore⟩ hcut
  | ok r =>
    obtain ⟨view, next⟩ := r
    dsimp only
    refine ⟨fun h => ?_, fun h => ?_⟩
    rotate_left
    · obtain ⟨-, e, he, -⟩ := h
      cases he
    obtain ⟨hstop, hpos⟩ := h
    split at hstop
    · cases hstop
    · -- a record was accepted, so the round has moved
      rename_i hoff
      rw [if_neg hoff] at hpos
      obtain ⟨r, hcut, hnext, -, hf, -⟩ := parseRecord_ok hparse
      have hl := congrArg List.length hcut
      simp only [length_append] at hl
      obtain ⟨rs, -, hcp, -⟩ := scanChunk_sound hle (moreAt data p) p k next (o + 1) (n + 1)
        (max m view.timestamp) (by omega)
      have := hf.pos
      omega

/-- **Nothing changes any more**: however often the round is repeated, the scan does not end. -/
theorem scanLoop_stuck (h : Oversized data p) (fuel : Nat) :
    scanLoop data fuel p o n m = .halted := by
  have hlt : p < data.length := by
    have := h.1
    omega
  obtain ⟨hstop, hpos⟩ := (scanStep_still (o := o) (n := n) (m := m) hlt).mpr h
  induction fuel with
  | zero => rfl
  | succ fuel ih =>
    unfold scanStep moreAt chunkAt at hstop hpos
    unfold scanLoop
    rw [if_pos hlt]
    dsimp only
    rw [hstop]
    rw [if_pos hpos, if_neg ?_, ih]
    unfold recoveryChunkBytes maxRecordBytes
    omega

end Still

/-! ## 5. When the scan ends -/

/-- A round of the scan from `p` on starts at `q`. -/
inductive RoundAt (data : Bytes) : Nat → Nat → Nat → Int → Nat → Prop
  | here {p o n : Nat} {m : Int} : RoundAt data p o n m p
  | round {p o n q : Nat} {m : Int} (hlt : p < data.length)
      (hstop : (scanStep data p o n m).stop = none)
      (hmove : (scanStep data p o n m).chunkPos ≠ 0)
      (hrest : RoundAt data (p + (scanStep data p o n m).chunkPos) (scanStep data p o n m).offset
        (scanStep data p o n m).records (scanStep data p o n m).maxTimestamp q) :
      RoundAt data p o n m q

/-- **When the scan ends**: if and only if no round starts at an oversized record. -/
theorem scanLoop_ends (hfuel : data.length - p < fuel) :
    (∃ s, scanLoop data fuel p o n m = .ok s) ↔
      ∀ q, RoundAt data p o n m q → ¬ Oversized data q := by
  fun_induction scanLoop data fuel p o n m with
  | case1 => omega
  | case2 fuel p o n m hlt want chunk step reason hstop =>
    have hstop' : (scanStep data p o n m).stop = some reason := hstop
    refine ⟨fun _ q hq hbig => ?_, fun _ => ⟨_, rfl⟩⟩
    cases hq with
    | here =>
      have hnone := ((scanStep_still (o := o) (n := n) (m := m) hlt).mpr hbig).1
      rw [hstop'] at hnone
      cases hnone
    | round _ hnone =>
      rw [hstop'] at hnone
      cases hnone
  | case3 fuel p o n m hlt want chunk step hstop h0 hbig =>
    have hw : want ≤ recoveryChunkBytes := Nat.min_le_left _ _
    simp only [recoveryChunkBytes, maxRecordBytes] at hw hbig
    omega
  | case4 fuel p o n m hlt want chunk step hstop h0 hbig ih =>
    have hover : Oversized data p := (scanStep_still hlt).mp ⟨hstop, h0⟩
    rw [scanLoop_stuck hover]
    refine ⟨fun h => ?_, fun h => absurd hover (h p .here)⟩
    obtain ⟨_, h⟩ := h
    cases h
  | case5 fuel p o n m hlt want chunk step hstop h0 ih =>
    have hstop' : (scanStep data p o n m).stop = none := hstop
    have hmove : (scanStep data p o n m).chunkPos ≠ 0 := h0
    have hrest : data.length - (p + (scanStep data p o n m).chunkPos) < fuel := by omega
    refine Iff.trans (ih hrest) ⟨fun h q hq => ?_, fun h q hq => h q (.round hlt hstop' hmove hq)⟩
    cases hq with
    | here =>
      intro hbig
      exact hmove ((scanStep_still hlt).mpr hbig).2
    | round _ _ _ hrest => exact h q hrest
  | case6 fuel p o n m hlt =>
    refine ⟨fun _ q hq hbig => ?_, fun _ => ⟨_, rfl⟩⟩
    cases hq with
    | here =>
      have := hbig.1
      omega
    | round hlt' => exact hlt hlt'

/-- **The scan over good records that each fit into a chunk returns**, if what follows them is
    shorter than a chunk. -/
theorem scanLoop_returns {data tail : Bytes} (rs : List Bytes)
    (hd : data.drop p = rs.flatten ++ tail) (hrs : RunOf Good o rs)
    (hfit : ∀ r ∈ rs, r.length ≤ recoveryChunkBytes) (htail : tail.length ≤ recoveryChunkBytes)
    (hfuel : data.length - p < fuel) : ∃ s, scanLoop data fuel p o n m = .ok s := by
  refine (scanLoop_ends hfuel).mpr (fun q hq hbig => ?_)
  clear hfuel
  -- every round starts in front of a record of the run, or behind the run
  induction hq generalizing rs tail with
  | @here p o n m =>
    have hlen := congrArg List.length hd
    rw [length_drop] at hlen
    have hbehind := hbig.1
    cases rs with
    | nil =>
      rw [flatten_nil, nil_append] at hlen
      omega
    | cons r rs =>
      have hr := hrs.1.alone.framed
      have hload : loadLe 4 data p = loadLe 4 r 0 := by
        have := hr.header
        unfold recordFixedPrefix at this
        rw [flatten_cons, append_assoc] at hd
        unfold loadLe slice
        rw [hd, take_append_of_le_length (by omega), drop_zero]
      have hlong := hbig.2.1
      have := hfit r mem_cons_self
      have := hr.length
      omega
  | @round p o n q m hlt hstop hmove hrest ih =>
    obtain ⟨ss, e1, e2, e3, e4, e5, -⟩ := scanStep_sound data p o n m
    have hfr := hrs.framed (fun _ _ hg => hg.alone.framed)
    have hfs := e5.framed (fun _ _ hg => hg.ok.framed)
    rw [hd] at e1
    rcases Nat.le_total ss.length rs.length with hle | hle
    · obtain ⟨us, rfl⟩ := flatten_framed_prefix hfs hfr e1.symm hle
      rw [flatten_append, append_assoc] at e1
      have hus := (runOf_append.mp hrs).2
      rw [← e4] at hus
      exact ih us (append_cancel_left e1).symm hus
        (fun r hr => hfit r (mem_append_right _ hr)) htail hbig
    · obtain ⟨us, rfl⟩ := flatten_framed_prefix hfr hfs e1 hle
      rw [flatten_append, append_assoc] at e1
      have hlen := congrArg List.length (append_cancel_left e1)
      rw [length_append] at hlen
      exact ih [] rfl trivial (fun _ hr => absurd hr not_mem_nil) (by omega) hbig

end PulseLog

/-
  Subject:   Appending keeps the invariant of a log.

  * **`sat_append`** -- an append that returns has added exactly the stored records; one that
    reports an error has added nothing, or all of them and then a sync failed; one that dies
    leaves a prefix of their bytes behind the old records.
-/
import PulseLog.Storage.LogRoll

namespace PulseLog

open List PartitionLog

variable {M : LogMode} {segs segs' : List SegView} {g g' : SegView} {l : PartitionLog} {w : World}
  {olds : List Segment} {a : Segment} {rs rs' : List Bytes} {e n o last count : Nat} {m time : Int}
  {records : Bytes} {r : AppendResult}

/-! ## 1. The parts of an append -/

/-- The disk-space check changes no file, whether it refuses or not. -/
theorem sat_checkDiskSpace :
    Sat (fun _ t => SameLog l t.1 ∧ Steady w t.2)
      (fun _ t => SameLog l t.1 ∧ Steady w t.2) (fun _ => False)
      (checkDiskSpace (l, w)) := by
  refine sat_clockThen (fun now w1 hf => ?_)
  rw [bind_get]
  split
  · split <;> exact ⟨SameLog.refl l, hf⟩
  rw [update, bind_modify]
  refine sat_bind (R := fun _ t => SameLog l t.1 ∧ Steady w t.2) (sat_onSnd ?_) ?_
  · have hs : SameLog l { l with diskCheckDueMs := now + diskCheckIntervalMs } :=
      ⟨rfl, rfl, rfl, rfl, rfl, rfl, rfl, rfl⟩
    unfold availableBytes
    split
    · exact ⟨hs, hf⟩
    · exact ⟨hs, hf.trans (.of_dir rfl ⟨fun _ h => h, fun _ h => h⟩)⟩
  rintro available t ⟨hs, hf⟩
  cases available with
  | none => exact ⟨hs.trans ⟨rfl, rfl, rfl, rfl, rfl, rfl, rfl, rfl⟩, hf⟩
  | some n =>
    dsimp only
    split <;> exact ⟨hs.trans ⟨rfl, rfl, rfl, rfl, rfl, rfl, rfl, rfl⟩, hf⟩

/-- The refusals all append paths start with. -/
theorem sat_refuseAppend {empty : Bool} (h : LogInv M e segs g l w) :
    Sat (fun _ t => empty = false ∧ LogInv M e segs g t.1 t.2 ∧ Steady w t.2)
      (fun _ t => LogInv M e segs g t.1 t.2) (fun _ => False)
      (refuseAppend empty (l, w)) := by
  unfold refuseAppend
  rw [bind_get]
  rw [if_neg (by rw [h.isOpen]; simp)]
  split
  · exact h
  · rename_i hne
    exact sat_mono sat_checkDiskSpace
      (fun _ t ht => ⟨by simpa using hne, (h.congr ht.1).frame ht.2, ht.2⟩)
      (fun _ t ht => (h.congr ht.1).frame ht.2) (fun _ ht => ht)

/-- **The write of an append.** The log end still has to be moved. -/
theorem sat_write (h : LogInv M e segs g l w) (hl : l.segments = olds ++ [a])
    (hact : l.active = some a.id)
    (hold : Holds M l.flushedOffset w segs olds) (ha : ObjInv M l.flushedOffset g a w)
    (hrs : rs ≠ []) (hrun : RunOf M.record (g.1 + g.2.length) rs)
    (hlast : last + 1 = g.1 + g.2.length + rs.length) :
    Sat (fun _ t => LogInv M e segs (g.1, g.2 ++ rs) { t.1 with logEndOffset := last + 1 } t.2 ∧
        Frame (·.base = g.1) w t.2)
      (fun _ t => MayFail w ∧ ((∀ t, M.tail t) → LogInv M e segs g t.1 t.2) ∧
        ∃ k < rs.flatten.length, Fallen M e segs g (rs.flatten.take k) t.2)
      (fun t => ∃ k, Fallen M e segs g (rs.flatten.take k) t.2)
      (onSegment a.id (Segment.appendEncoded rs.flatten a.nextOffset last n m) (l, w)) := by
  have hb := ha.base_eq
  have hnext : a.nextOffset = g.1 + g.2.length := by rw [ha.holds.next, hb]
  have hfl : l.flushedOffset ≤ g.1 + g.2.length := h.ends ▸ h.flushed_le
  have hbase : ∀ p : Path, p.base = g.1 → p.base ∈ (segs ++ [g]).map Prod.fst :=
    fun p hp => by simp [hp]
  refine sat_onActive hl h.ids (sat_appendEncoded ha.holds hrs (by rw [hnext]; exact hrun)
    (by rw [hnext]; exact hlast) ?_ ?_ ?_)
  · intro a' w' hf hobj hsy h'
    rw [hb] at hf
    have hold' := hold.frame hf h.lt_active
    have ha' : ObjInv M l.flushedOffset (g.1, g.2 ++ rs) a' w' :=
      ha.step hobj hfl (le_of_eq hsy.symm) h'
    refine ⟨?_, hf⟩
    have hg : ((g.1, g.2 ++ rs)).1 = g.1 := rfl
    refine (h.regrown hl hact (hf.mono hbase) rfl hobj.id hold' hg ha' ?_).congr
      ⟨rfl, rfl, rfl, rfl, rfl, ?_, rfl, rfl⟩
    · rw [length_append]
      omega
    · show last + 1 = g.1 + (g.2 ++ rs).length
      rw [length_append]
      omega
  · intro er a' w' k hf hs hm hk ht h'
    rw [hb] at hf ht
    refine ⟨hm, fun hall => h.refreshed hl hact (hf.mono hbase) rfl hs.id
      (hold.frame hf h.lt_active) ?_ h.flushed_le, k, hk, h.fall hf ht⟩
    exact ⟨hs.base.trans hb, h' hall, fun hd => by rw [hs.synced]; exact ha.flushed hd⟩
  · intro a' w' k hf hk ht
    rw [hb] at hf ht
    exact ⟨k, h.fall hf ht⟩

/-- **The end of an append**: the log end moves, and everything is flushed if the policy says so. -/
theorem sat_finalizeAppend (h : LogInv M e segs g { l with logEndOffset := r.lastOffset + 1 } w) :
    Sat (fun _ t => LogInv M e segs g t.1 t.2)
      (fun _ t => LogInv M e segs g t.1 t.2 ∧ MayFail w)
      (fun t => Fallen M e segs g [] t.2) (finalizeAppend r (l, w)) := by
  have h' : LogInv M e segs g { l with
      logEndOffset := r.lastOffset + 1
      unflushedBytes := l.unflushedBytes + r.bytes
      unflushedRecords := l.unflushedRecords + r.recordCount } w :=
    h.congr ⟨rfl, rfl, rfl, rfl, rfl, rfl, rfl, rfl⟩
  unfold finalizeAppend
  rw [bind_get]
  split
  · exact sat_flush h'
  · exact h'

/-! ## 2. The three append paths -/

/-- A batch, and the call it is handed to. -/
inductive Batch where
  | assign (records : Bytes) (count : Nat)
  | replicate (records : Bytes) (count : Nat)
  | vectored (chunks : List Bytes) (count : Nat)
  deriving Repr, DecidableEq

namespace Batch

/-- The bytes of the batch. -/
def bytes : Batch → Bytes
  | assign records _ => records
  | replicate records _ => records
  | vectored chunks _ => chunks.flatten

/-- The call. -/
def append : Batch → Prog Status (PartitionLog × World) AppendResult
  | assign records count => appendAssigningOffsets records count
  | replicate records count => appendWithOffsets records count
  | vectored chunks count => appendVectoredWithOffsets chunks count

/-- The records the call stores at the log end `o`, if it stores any. -/
def Stores : Batch → Nat → Int → List Bytes → Prop
  | assign records _, o, t, rs => ∃ rs₀ : List Bytes, records = rs₀.flatten ∧
      (∀ r ∈ rs₀, Framed r) ∧ o + rs₀.length ≤ 2 ^ 63 ∧ rs = stampAll t o rs₀
  | replicate records _, o, _, rs => records = rs.flatten ∧ RunOf (Checks true) o rs
  | vectored chunks _, o, _, rs => chunks.flatten = rs.flatten ∧ RunOf (Checks false) o rs

end Batch

/-- The stored records keep the promise of the run. -/
def LogMode.Admits (M : LogMode) (b : Batch) : Prop :=
  ∀ o t rs, b.Stores o t rs → RunOf M.record o rs

/-- An append that stored nothing; it may have rolled. -/
def Unmoved (M : LogMode) (segs : List SegView) (g : SegView) (l : PartitionLog) (w : World) :
    Prop :=
  ∃ segs' g', Rolled segs g segs' g' ∧ LogInv M (g.1 + g.2.length) segs' g' l w

/-- An append that stored the records `rs`. -/
def Moved (M : LogMode) (segs : List SegView) (g : SegView) (rs : List Bytes) (l : PartitionLog)
    (w : World) : Prop :=
  ∃ segs' g', Rolled segs g segs' g' ∧ LogInv M (g.1 + g.2.length) segs' (g'.1, g'.2 ++ rs) l w

/-- What an append that died leaves: nothing new, a part of the batch behind the old records, or
    all of it. -/
def Halfway (M : LogMode) (b : Batch) (segs : List SegView) (g : SegView) (w : World) : Prop :=
  ∃ segs' g', Rolled segs g segs' g' ∧ (Fallen M (g.1 + g.2.length) segs' g' [] w ∨
    ∃ t rs, b.Stores (g.1 + g.2.length) t rs ∧
      ((∃ k, Fallen M (g.1 + g.2.length) segs' g' (rs.flatten.take k) w) ∨
        Fallen M (g.1 + g.2.length) segs' (g'.1, g'.2 ++ rs) [] w))

/-- What the result of an append says about the stored records. -/
structure Reports (b : Batch) (o : Nat) (rs : List Bytes) (r : AppendResult) : Prop where
  stores : b.Stores o r.appendTime rs
  base : r.baseOffset = o
  count : r.recordCount = rs.length
  last : r.lastOffset + 1 = o + rs.length
  nonempty : rs ≠ []

/-- An append that returned. -/
def Appended (M : LogMode) (b : Batch) (segs : List SegView) (g : SegView) (r : AppendResult)
    (t : PartitionLog × World) : Prop :=
  ∃ rs, Reports b (g.1 + g.2.length) rs r ∧ Moved M segs g rs t.1 t.2

/-- An append that reported an error: it stored nothing, or all of the batch and then the sync
    failed. -/
def NotAppended (M : LogMode) (b : Batch) (segs : List SegView) (g : SegView)
    (t : PartitionLog × World) : Prop :=
  Unmoved M segs g t.1 t.2 ∨
    M.faulty ∧ ∃ time rs, b.Stores (g.1 + g.2.length) time rs ∧ Moved M segs g rs t.1 t.2

/-- A run of an append path, or of the rest of one. -/
abbrev SatAppend (M : LogMode) (b : Batch) (segs : List SegView) (g : SegView)
    (r : Outcome Status AppendResult × PartitionLog × World) : Prop :=
  Sat (Appended M b segs g) (fun _ => NotAppended M b segs g) (fun t => Halfway M b segs g t.2) r

section Append

variable {b : Batch}

/-- The end of an append path, behind the write. -/
theorem sat_finish (hroll : Rolled segs g segs' g')
    (h : LogInv M (g.1 + g.2.length) segs' (g'.1, g'.2 ++ rs)
      { l with logEndOffset := r.lastOffset + 1 } w) (hr : Reports b (g.1 + g.2.length) rs r) :
    SatAppend M b segs g ((do finalizeAppend r; return r :
      Prog Status (PartitionLog × World) AppendResult) (l, w)) :=
  sat_then (sat_mono (sat_finalizeAppend h) (fun _ _ ht => ⟨rs, hr, segs', g', hroll, ht⟩)
    (fun _ _ ht => .inr ⟨h.calm ht.2, _, rs, hr.stores, segs', g', hroll, ht.1⟩)
    (fun _ ht => ⟨segs', g', hroll, .inr ⟨_, rs, hr.stores, .inr ht⟩⟩))

/-- Everything from the write on; `k` is what the append path does behind it. -/
theorem sat_commit {k : Unit → Prog Status (PartitionLog × World) AppendResult}
    (hroll : Rolled segs g segs' g')
    (h : LogInv M (g.1 + g.2.length) segs' g' l w) (hl : l.segments = olds ++ [a])
    (hact : l.active = some a.id) (hold : Holds M l.flushedOffset w segs' olds)
    (ha : ObjInv M l.flushedOffset g' a w) (hrs : rs ≠ [])
    (hst : b.Stores (g.1 + g.2.length) time rs) (hadm : M.Admits b)
    (htail : M.faulty → ∀ t, M.tail t) (hlast : last + 1 = g.1 + g.2.length + rs.length)
    (hk : ∀ l1 w1, LogInv M (g.1 + g.2.length) segs' (g'.1, g'.2 ++ rs)
        { l1 with logEndOffset := last + 1 } w1 → SatAppend M b segs g (k () (l1, w1))) :
    SatAppend M b segs g ((onSegment a.id
      (Segment.appendEncoded rs.flatten a.nextOffset last n m) >>= k) (l, w)) := by
  have hends := hroll.ends
  refine sat_then (sat_mono (sat_write h hl hact hold ha hrs ?_ ?_)
    (fun _ t ht => hk t.1 t.2 ht.1)
    (fun _ _ ht => .inl ⟨segs', g', hroll, ht.2.1 (htail (h.calm ht.1))⟩)
    (fun _ ht => ⟨segs', g', hroll, .inr ⟨time, rs, hst, .inl ht⟩⟩))
  · rw [hends]
    exact hadm _ _ _ hst
  · rw [hends]
    exact hlast

/-- The refusals in front of an append, and what follows them. -/
theorem sat_refuseThen {data : Bytes} {k : Unit → Prog Status (PartitionLog × World) AppendResult}
    (h : LogInv M (g.1 + g.2.length) segs g l w)
    (hk : ∀ l1 w1, data ≠ [] → LogInv M (g.1 + g.2.length) segs g l1 w1 →
      SatAppend M b segs g (k () (l1, w1))) :
    SatAppend M b segs g ((refuseAppend (data.isEmpty || count == 0) >>= k) (l, w)) := by
  refine sat_then (sat_mono (sat_refuseAppend h) (fun _ t ht => hk t.1 t.2 ?_ ht.2.1)
    (fun _ _ ht => .inl ⟨segs, g, .same, ht⟩) (fun _ ht => ht.elim))
  intro hnil
  simp [hnil] at ht

/-- The roll in front of an append, and what follows it on the active segment. -/
theorem sat_rollActive {k : Segment → Prog Status (PartitionLog × World) AppendResult}
    (h : LogInv M (g.1 + g.2.length) segs g l w) (hr : n ≤ uint32Max ∨ M.shared ∧ ¬ M.faulty)
    (hk : ∀ segs' g' l1 w1 olds a, Rolled segs g segs' g' →
      LogInv M (g.1 + g.2.length) segs' g' l1 w1 → l1.segments = olds ++ [a] →
      l1.active = some a.id → Holds M l1.flushedOffset w1 segs' olds →
      ObjInv M l1.flushedOffset g' a w1 → SatAppend M b segs g (k a (l1, w1))) :
    SatAppend M b segs g ((maybeRoll n >>= fun _ => activeSegment >>= k) (l, w)) := by
  refine sat_then (sat_mono (sat_maybeRoll h hr) (fun _ t ht => ?_)
    (fun _ _ ht => .inl ⟨segs, g, .same, ht.1⟩) (fun _ ht => ⟨segs, g, .same, .inl ht⟩))
  obtain ⟨segs', g', hroll, h1, -⟩ := ht
  obtain ⟨olds, a, hl, hact, hold, ha⟩ := h1.objects
  rw [bind_ok (activeSegment_eq hl h1.ids hact)]
  exact hk segs' g' t.1 t.2 olds a hroll h1 hl hact hold ha

theorem length_pos_of_flatten (h : rs.flatten ≠ []) : 0 < rs.length := by
  rw [length_pos_iff]
  rintro rfl
  exact h rfl

theorem Batch.Stores.nonempty (h : b.Stores o time rs) (hne : b.bytes ≠ []) : rs ≠ [] := by
  intro hrs
  subst hrs
  cases b with
  | assign records n =>
    obtain ⟨rs₀, hb, -, -, hs⟩ := h
    have hlen := congrArg List.length hs
    rw [length_stampAll] at hlen
    rw [eq_nil_of_length_eq_zero hlen.symm] at hb
    exact hne hb
  | replicate records n => exact hne h.1
  | vectored chunks n => exact hne h.1

/-- A stamp keeps the length of a record. -/
theorem length_flatten_stampAll (t : Int) : ∀ (o : Nat) {rs : List Bytes}, (∀ r ∈ rs, Framed r) →
    (stampAll t o rs).flatten.length = rs.flatten.length
  | _, [], _ => rfl
  | o, r :: rs, h => by
    have ih := length_flatten_stampAll t (o + 1) (fun x hx => h x (mem_cons_of_mem _ hx))
    simp only [stampAll, flatten_cons, length_append, ih, stamp,
      length_rewriteRecordHeader _ _ (h r mem_cons_self).header]

theorem Batch.Stores.length (h : b.Stores o time rs) : rs.flatten.length = b.bytes.length := by
  cases b with
  | assign records n =>
    obtain ⟨rs₀, hb, hf, -, rfl⟩ := h
    rw [length_flatten_stampAll time o hf, Batch.bytes, hb]
  | replicate records n => rw [Batch.bytes, h.1]
  | vectored chunks n => rw [Batch.bytes, h.1]

/-- The leader's batch of framed records stores them with its stamps. -/
theorem Batch.stores_assign (hf : ∀ r ∈ rs, Framed r)
    (h : (Batch.assign rs.flatten n).Stores o time rs') :
    rs' = stampAll time o rs ∧ o + rs.length ≤ 2 ^ 63 := by
  obtain ⟨rs₀, hb, hf₀, ho, rfl⟩ := h
  obtain rfl : rs₀ = rs := flatten_framed_inj hf₀ hf hb.symm
  exact ⟨rfl, ho⟩

/-- What the leader stores of a batch it takes. -/
theorem Batch.stores_of_assignLoop {c : Assigned} (hne : records ≠ [])
    (hc : assignLoop time records.length records 0 o (-1) 0 = .ok c) :
    ∃ rs, c.data = rs.flatten ∧ (Batch.assign records n).Stores o time rs ∧ rs ≠ [] ∧
      c.offset - 1 + 1 = o + rs.length ∧ c.seen = rs.length := by
  obtain ⟨rs, hcut, hf, hdata, hoff, hseen, hmax, -⟩ :=
    assignLoop_ok time records.length [] records o (-1) 0 c le_rfl hc
  have hrs : rs ≠ [] := by
    intro hnil
    rw [hnil] at hcut
    exact hne hcut
  have hpos := length_pos_iff.mpr hrs
  have hlt := hmax hrs
  have hst : (Batch.assign records n).Stores o time (stampAll time o rs) :=
    ⟨rs, hcut, hf, by omega, rfl⟩
  refine ⟨_, hdata, hst, hst.nonempty hne, ?_, ?_⟩ <;> rw [length_stampAll] <;> omega

/-- If they parse alone, what is stored is good. -/
theorem Batch.good_assign (ha : ∀ r ∈ rs, ParsesAlone r)
    (h : (Batch.assign rs.flatten n).Stores o time rs') : RunOf Good o rs' := by
  obtain ⟨rfl, ho⟩ := Batch.stores_assign (fun r hr => (ha r hr).framed) h
  exact runOf_stampAll time (fun o r ho hr => good_stamp hr ho) ho (runOf_of_forall ha)

variable (h : LogInv M (g.1 + g.2.length) segs g l w) (htail : M.faulty → ∀ t, M.tail t)

include h htail

theorem sat_appendAssigningOffsets (hadm : M.Admits (.assign records count))
    (hsize : records.length ≤ uint32Max ∨ M.shared ∧ ¬ M.faulty) :
    SatAppend M (.assign records count) segs g (appendAssigningOffsets records count (l, w)) := by
  refine sat_refuseThen h (fun l0 w0 hne h0 => ?_)
  refine sat_rollActive h0 hsize (fun segs' g' l1 w1 olds p hroll h1 hl hact hold ha => ?_)
  have hnext : p.nextOffset = g.1 + g.2.length := by
    rw [ha.holds.next, ha.base_eq, hroll.ends]
  refine sat_clockThen (fun time w2 hf => ?_)
  have h2 := h1.frame hf
  refine sat_then (sat_ofOutcome (fun c hc => ?_) (fun er _ => .inl ⟨segs', g', hroll, h2⟩)
    (fun _ => ⟨segs', g', hroll, .inl h2.killed⟩))
  split
  · exact .inl ⟨segs', g', hroll, h2⟩
  obtain ⟨rs, hdata, hst, hrs, hlast, hcount⟩ := Batch.stores_of_assignLoop hne hc
  rw [hnext] at hst hlast
  rw [hdata]
  refine sat_commit hroll h2 hl hact (hold.frame hf (fun _ _ _ _ h => h))
    (ha.frame hf (fun _ _ h => h)) hrs hst hadm htail hlast (fun l3 w3 h3 => ?_)
  exact sat_finish hroll h3 ⟨hst, hnext, hcount, hlast, hrs⟩

theorem sat_appendWithOffsets (hadm : M.Admits (.replicate records count))
    (hsize : records.length ≤ uint32Max ∨ M.shared ∧ ¬ M.faulty) :
    SatAppend M (.replicate records count) segs g (appendWithOffsets records count (l, w)) := by
  refine sat_refuseThen h (fun l0 w0 hne h0 => ?_)
  rw [bind_get]
  have hexp : l0.logEndOffset = g.1 + g.2.length := h0.ends
  refine sat_then (sat_ofExcept (fun c hc => ?_) (fun er _ => .inl ⟨segs, g, .same, h0⟩))
  split
  · exact .inl ⟨segs, g, .same, h0⟩
  obtain ⟨rs, e1, e2, e3, e4, -⟩ := checkBuffer_ok hc
  dsimp only at e2 e3 e4
  subst e1
  have hst : (Batch.replicate rs.flatten count).Stores (g.1 + g.2.length) 0 rs :=
    ⟨rfl, by rw [← hexp]; exact e2⟩
  have hrs := hst.nonempty hne
  have hpos := length_pos_iff.mpr hrs
  have hlast : c.offset - 1 + 1 = g.1 + g.2.length + rs.length := by
    omega
  refine sat_rollActive h0 hsize (fun segs' g' l1 w1 olds p hroll h1 hl hact hold ha => ?_)
  split
  · exact .inl ⟨segs', g', hroll, h1⟩
  rename_i hnext
  rw [not_not] at hnext
  rw [← hnext]
  refine sat_commit hroll h1 hl hact hold ha hrs hst hadm htail hlast (fun l2 w2 h2 => ?_)
  refine sat_clockThen (fun time w3 hf => ?_)
  refine sat_finish hroll (h2.frame hf) ⟨hst, hnext.trans hexp, ?_, hlast, hrs⟩
  rw [e4]
  simp

theorem sat_appendVectoredWithOffsets {chunks : List Bytes}
    (hadm : M.Admits (.vectored chunks count))
    (hsize : chunks.flatten.length ≤ uint32Max ∨ M.shared ∧ ¬ M.faulty) :
    SatAppend M (.vectored chunks count) segs g
      (appendVectoredWithOffsets chunks count (l, w)) := by
  refine sat_refuseThen h (fun l0 w0 hne h0 => ?_)
  refine sat_rollActive h0 hsize (fun segs' g' l1 w1 olds p hroll h1 hl hact hold ha => ?_)
  have hnext : p.nextOffset = g.1 + g.2.length := by
    rw [ha.holds.next, ha.base_eq, hroll.ends]
  refine sat_then (sat_ofExcept (fun c hc => ?_) (fun er _ => .inl ⟨segs', g', hroll, h1⟩))
  split
  · exact .inl ⟨segs', g', hroll, h1⟩
  obtain ⟨rs, e1, e2, e3, e4, -⟩ := checkChunks_ok hc
  dsimp only at e2 e3 e4
  have hst : (Batch.vectored chunks count).Stores (g.1 + g.2.length) 0 rs :=
    ⟨e1, by rw [← hnext]; exact e2⟩
  have hrs := hst.nonempty hne
  have hpos := length_pos_iff.mpr hrs
  have hlast : c.offset - 1 + 1 = g.1 + g.2.length + rs.length := by
    omega
  rw [appendEncodedVectored_eq, e1]
  refine sat_commit hroll h1 hl hact hold ha hrs hst hadm htail hlast (fun l2 w2 h2 => ?_)
  refine sat_clockThen (fun time w3 hf => ?_)
  refine sat_finish hroll (h2.frame hf) ⟨hst, hnext, ?_, hlast, hrs⟩
  rw [e4]
  simp

theorem sat_append (hadm : M.Admits b)
    (hsize : b.bytes.length ≤ uint32Max ∨ M.shared ∧ ¬ M.faulty) :
    SatAppend M b segs g (b.append (l, w)) := by
  cases b with
  | assign records count => exact sat_appendAssigningOffsets h htail hadm hsize
  | replicate records count => exact sat_appendWithOffsets h htail hadm hsize
  | vectored chunks count => exact sat_appendVectoredWithOffsets h htail hadm hsize

end Append

end PulseLog

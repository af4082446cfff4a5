/-
  Subject:   What a reopened offset store holds.

  Processes open the store one after the other. They commit, flush, close the store or are killed
  between two calls; an open may be killed as well. No file operation fails. Two ghosts go along:
  the map the last process had in memory, and all commits in their order.

  * **`reopened_store_eq`** -- an open that nothing disturbs gives the map the last process had,
    which holds for each key its last commit.
-/
import PulseLog.Consumer.OffsetStore
import PulseLog.Storage.ReadBudget
import PulseLog.Storage.Reopen

namespace PulseLog

open List

namespace OffsetStore

/-! ## 1. The records of the commits -/

/-- A record that holds a commit. -/
structure Encodes (c : OffsetKey × CommittedOffset) (r : NewRecord) : Prop where
  storable : Storable c.1 c.2
  attributes : r.attributes = 0
  keyed : r.keyIsNull = false
  key : r.key = encodeKey c.1
  value : r.value = encodeValue c.2

/-- The history of the log is that of the commits. -/
def Journal (commits : Offsets) (history : List Bytes) : Prop :=
  ∃ records, Forall₂ Encodes commits records ∧ history = records.map NewRecord.bytes

/-- The entries that a list of commits sets. -/
def mapOf (commits : Offsets) : Offsets := commits.foldl (putKey Prod.fst) []

section Records

variable {c : OffsetKey × CommittedOffset} {r : NewRecord} {s : OffsetStore}

theorem varUIntSizeLoop_le (fuel v n : Nat) : varUIntSizeLoop fuel v n ≤ n + fuel := by
  induction fuel generalizing v n with
  | zero => exact Nat.le_refl _
  | succ fuel ih =>
    unfold varUIntSizeLoop
    split
    · have := ih (v >>> 7) (n + 1)
      omega
    · omega

theorem varUIntSize_le (v : Nat) : varUIntSize v ≤ 10 := varUIntSizeLoop_le 9 v 1

/-- A commit takes less than a quarter of a megabyte. -/
theorem Encodes.size_le (h : Encodes c r) : r.size ≤ 2 ^ 18 := by
  have hkey := length_encodeKey h.storable
  have hvalue := length_encodeValue h.storable
  have h1 := varUIntSize_le r.keyField
  have h2 := varUIntSize_le r.value.length
  rw [NewRecord.size_eq, NewRecord.keyBytes, h.keyed, h.key]
  rw [h.value] at h2 ⊢
  simp only [Bool.false_eq_true, if_false, recordFixedPrefix]
  omega

theorem Encodes.fits (h : Encodes c r) : r.Fits := by
  have := h.size_le
  unfold NewRecord.Fits maxRecordBytes
  omega

theorem Encodes.length_le (h : Encodes c r) : r.bytes.length ≤ recoveryChunkBytes := by
  have := h.size_le
  rw [NewRecord.length_bytes h.fits.measurable]
  unfold recoveryChunkBytes
  omega

theorem encodes_commitRecord (h : Storable c.1 c.2) : Encodes c (commitRecord c.1 c.2) :=
  ⟨h, rfl, rfl, rfl, rfl⟩

/-- The stamped record holds the commit as well. -/
theorem Encodes.stamped (h : Encodes c r) (o : Nat) (t : Int) :
    ∃ r', Encodes c r' ∧ stamp t o r.bytes = r'.bytes := by
  refine ⟨_, ?_, NewRecord.rewriteRecordHeader_bytes r _ _⟩
  exact ⟨h.storable, h.attributes, h.keyed, h.key, h.value⟩

/-- **The replay of a commit's record** sets its entry. -/
theorem replayRecord_shows {data : Bytes} {view : RecordView} (h : Encodes c r)
    (hv : view.Shows data r) : replayRecord data s view =
      { s with
        offsets := putKey Prod.fst s.offsets c, replayedRecords := s.replayedRecords + 1 } := by
  have hf := hv.fields
  simp only [RecordView.fields, NewRecord.fields, h.keyed, RecordFields.mk.injEq] at hf
  obtain ⟨-, -, hkey, hvalue⟩ := hf
  have hbytes : view.key.bytes data = encodeKey c.1 := by
    split at hkey
    · cases hkey
    · rw [Option.some.inj hkey, h.key]
  have hplain : ¬ view.attributes &&& tombstone ≠ 0 := by
    rw [hv.attributes, h.attributes]
    decide
  unfold replayRecord
  rw [hbytes, decodeKey_encodeKey h.storable, hvalue, h.value, decodeValue_encodeValue h.storable]
  dsimp only
  rw [if_neg hplain]

/-- The replay of a run of them. -/
theorem foldl_replayRecord {data : Bytes} {commits : Offsets} {records : List NewRecord}
    {views : List RecordView} (h : Forall₂ Encodes commits records)
    (hv : Forall₂ (RecordView.Shows data) views records) :
    views.foldl (replayRecord data) s = { s with
      offsets := commits.foldl (putKey Prod.fst) s.offsets
      replayedRecords := s.replayedRecords + commits.length } := by
  induction h generalizing views s with
  | nil =>
    cases hv
    rfl
  | cons hc _ ih =>
    cases hv with
    | cons hview hviews =>
      rw [foldl_cons, replayRecord_shows hc hview, ih hviews]
      simp only [foldl_cons, length_cons, Nat.add_assoc, Nat.add_comm 1]

end Records

/-! ## 2. The replay -/

section Replay

variable {commits : Offsets} {history : List Bytes} {views : List SegView} {l : PartitionLog}
  {w : World}

section

variable (hj : Journal commits history)
  (hr : LogReadable (fun o r => history[o]? = some r) views l w)
  (hsize : ∀ g ∈ views, ∀ r ∈ g.2, r.length ≤ maxRecordBytes)
include hj hr hsize

/-- A read returns the records of the next commits. -/
theorem read_commits {cursor : Nat} (hs : l.logStartOffset ≤ cursor)
    (he : cursor < l.logEndOffset) :
    ∃ got n records, l.read w cursor (2 ^ 20) = .ok got ∧ got.recordCount = n + 1 ∧
      got.out = recordRun records ∧ (recordRun records).length < 2 ^ 64 ∧
      Forall₂ Encodes ((commits.drop cursor).take (n + 1)) records := by
  obtain ⟨records, henc, rfl⟩ := hj
  obtain ⟨r, rs, -, hrun, hread⟩ := read_log hr hsize hs he (show 0 < 2 ^ 20 by decide)
  obtain ⟨more, hmore⟩ := prefix_of_runOf hrun
  have hparts : r :: rs = ((records.drop cursor).take (rs.length + 1)).map NewRecord.bytes := by
    rw [map_take, map_drop, ← hmore]
    exact (take_left' rfl).symm
  have hflat : (r :: rs).flatten = recordRun ((records.drop cursor).take (rs.length + 1)) := by
    rw [hparts, recordRun, flatMap_def]
  have hlen := length_log_read hread
  rw [hflat] at hlen
  refine ⟨_, rs.length, (records.drop cursor).take (rs.length + 1), hread, rfl, hflat, ?_,
    forall₂_take _ (forall₂_drop cursor henc)⟩
  exact Nat.lt_of_le_of_lt hlen (by decide)

/-- **The replay of a log that holds the commits** sets their entries, from the cursor on. -/
theorem replayLoop_eq (hstart : l.logStartOffset = 0) (hend : l.logEndOffset = commits.length)
    {fuel cursor : Nat} {s : OffsetStore} (hfuel : commits.length - cursor < fuel) :
    replayLoop l w fuel cursor s = .ok { s with
      offsets := (commits.drop cursor).foldl (putKey Prod.fst) s.offsets
      replayedRecords := s.replayedRecords + (commits.drop cursor).length } := by
  induction fuel generalizing cursor s with
  | zero => omega
  | succ fuel ih =>
    unfold replayLoop
    by_cases hlt : cursor < l.logEndOffset
    · obtain ⟨got, n, records, hread, hcount, hout, hlen, henc⟩ :=
        read_commits hj hr hsize (by omega) hlt
      have hfit : ∀ x ∈ records, x.Fits := by
        intro x hx
        obtain ⟨c, -, hc⟩ := forall₂_exists_left henc hx
        exact hc.fits
      obtain ⟨hshows, hstatus⟩ := iterateRecords_shows hfit hlen true
      have hsplit : commits.drop cursor =
          (commits.drop cursor).take (n + 1) ++ commits.drop (cursor + (n + 1)) := by
        rw [← drop_drop, take_append_drop]
      rw [if_pos hlt, hread]
      dsimp only
      rw [hcount, if_neg (Nat.succ_ne_zero n), hout, hstatus]
      rw [foldl_replayRecord henc hshows, ih (by omega)]
      conv_rhs => rw [hsplit]
      rw [foldl_append, length_append, Nat.add_assoc]
    · have hnil : commits.drop cursor = [] := drop_of_length_le (by omega)
      rw [if_neg hlt, hnil]
      rfl

end

end Replay

/-! ## 3. The log and its directory -/

/-- A good record that fits into a chunk of the recovery scan. -/
def Compact (o : Nat) (r : Bytes) : Prop := Good o r ∧ r.length ≤ recoveryChunkBytes

/-- The promises of the journal. -/
def mode : LogMode := exactMode Compact (fun _ _ h => h.1) false False

/-- The segments show the whole history. -/
structure Covers (views : List SegView) (history : List Bytes) : Prop where
  start : viewStart views = 0
  ends : viewEnd views = history.length
  slices : Slices views history

/-- An open log that shows the history. -/
def Up (history : List Bytes) (l : PartitionLog) (w : World) : Prop :=
  ∃ e segs g, LogInv mode e segs g l w ∧ Covers (segs ++ [g]) history

/-- A directory that shows the history. -/
def Down (history : List Bytes) (w : World) : Prop :=
  ∃ views, DiskLog mode False (fun _ => mode.tail) views w ∧ Covers views history

section Directory

variable {history rs : List Bytes} {segs segs' views : List SegView} {g g' : SegView} {e : Nat}
  {l : PartitionLog} {w : World}

theorem mode_tail {t : Bytes} (h : mode.tail t) : t = [] := by
  obtain ⟨n, rfl, hn⟩ := h
  rw [hn rfl]
  rfl

section

variable (h : Covers (segs ++ [g]) history)
include h

theorem Covers.ends_concat :
    g.1 + g.2.length = history.length := by
  rw [← viewEnd_concat segs, h.ends]

theorem Covers.next :
    Covers (segs ++ [g] ++ [(g.1 + g.2.length, [])]) history := by
  refine ⟨(viewStart_concat _ _ _).trans h.start, ?_, fun x hx => ?_⟩
  · rw [viewEnd_concat]
    exact h.ends_concat
  · rcases mem_append.mp hx with hx | hx
    · exact h.slices x hx
    · rw [mem_singleton.mp hx]
      exact nil_prefix

theorem Covers.rolled (hr : Rolled segs g segs' g') :
    Covers (segs' ++ [g']) history := by
  cases hr with
  | same => exact h
  | next _ => exact h.next

theorem Covers.push (rs : List Bytes) :
    Covers (segs ++ [(g.1, g.2 ++ rs)]) (history ++ rs) := by
  obtain ⟨hs, he⟩ := h.slices.push h.ends_concat rs
  refine ⟨?_, (viewEnd_concat _ _).trans he, hs⟩
  rw [← h.start]
  cases segs <;> rfl

end

theorem down_of_fallen (h : Fallen mode e segs g [] w) (hc : Covers (segs ++ [g]) history) :
    Down history w := by
  rcases h.diskLog id with hd | ⟨-, hd⟩
  · refine ⟨_, hd.mono (fun x _ tail ht => ?_), hc⟩
    rcases ht with ht | ⟨-, t, ht, rfl⟩
    · exact ht
    · exact ht
  · exact ⟨_, hd, hc.next⟩

theorem down_of_shut (h : Shut mode e segs g w) (hc : Covers (segs ++ [g]) history) :
    Down history w := ⟨_, h.disk id, hc⟩

theorem down_empty : Down [] ⟨∅, [], [], [], []⟩ :=
  ⟨[], diskLog_empty ⟨[], [], []⟩, rfl, rfl, fun _ hx => nomatch hx⟩

/-- Bytes that the next open cuts off: no record, and less than a chunk of them. -/
def Leftover (x : SegView) (tail : Bytes) : Prop :=
  NoRecord (x.1 + x.2.length) tail ∧ tail.length ≤ recoveryChunkBytes

theorem leftover_tail (x : SegView) (tail : Bytes) (h : mode.tail tail) : Leftover x tail := by
  rw [mode_tail h]
  exact ⟨noRecord_nil _, Nat.zero_le _⟩

section Opening

variable {sync : Bool} {env : Env} {T : SegView → Bytes → Prop}

theorem openable_of (hd : DiskLog mode False T views w) (hT : ∀ x tail, T x tail → Leftover x tail)
    (hc : env.Calm) : Openable mode T views (w.under env) :=
  openable_exact (hd.of_dir rfl) (fun x tail ht => (hT x tail ht).1) (hc.not_mayFail w)

/-- **Opening the journal**, with leftovers behind its records. -/
theorem sat_openLog_of (hd : DiskLog mode False T views w) (hcov : Covers views history)
    (hT : ∀ x tail, T x tail → Leftover x tail) (hc : env.Calm) :
    Sat (fun r w' => Up history r.1 w') (fun _ _ => False) (fun w' => Interrupted mode T views w')
      (PartitionLog.openLog (logOptions sync) (w.under env)) := by
  refine sat_mono (sat_openLog (openable_of hd hT hc) (exactMode_spare (logOptions sync)))
    (fun r w' hr => ?_) (fun _ w' hr => hc.not_mayFail w hr.2) (fun w' hr => hr.1)
  obtain ⟨-, ⟨vs, g, hO⟩, -⟩ := hr
  refine ⟨0, vs, g, hO.inv 0, ?_⟩
  rcases hO.found with ⟨rfl, rfl, rfl⟩ | hF
  · refine ⟨rfl, hcov.ends, fun x hx => ?_⟩
    rw [mem_singleton.mp hx]
    exact nil_prefix
  · rw [← found_exact hd (fun x tail ht => (hT x tail ht).1) (hF.imp (fun _ _ hx => .inr hx))]
    exact hcov

theorem sat_openLog_down (h : Down history w) (hc : env.Calm) :
    Sat (fun r w' => Up history r.1 w') (fun _ _ => False) (fun w' => Down history w')
      (PartitionLog.openLog (logOptions sync) (w.under env)) := by
  obtain ⟨views, hd, hcov⟩ := h
  refine sat_mono (sat_openLog_of hd hcov leftover_tail hc) (fun _ _ hr => hr) (fun _ _ hr => hr)
    (fun w' hi => ?_)
  obtain ⟨views', hv, hd'⟩ := hi.diskLog (fun _ _ ht => ht)
  rcases hv with hv | ⟨rfl, rfl⟩
  · rw [← found_exact hd (fun x tail ht => (leftover_tail x tail ht).1) hv] at hd'
    exact ⟨views, hd', hcov⟩
  · refine ⟨_, hd', rfl, hcov.ends, fun x hx => ?_⟩
    rw [mem_singleton.mp hx]
    exact nil_prefix

/-- The open returns if nothing disturbs it. -/
theorem returns_openLog_of (hd : DiskLog mode False T views w)
    (hT : ∀ x tail, T x tail → Leftover x tail) (hq : env.Quiet) :
    Returns id (PartitionLog.openLog (logOptions sync) (w.under env)) := by
  refine returns_openLog (openable_of hd hT hq.calm) (fun x hx => ?_) (hq.undisturbed w)
  obtain ⟨tail, -, hs⟩ := hd.files x hx
  refine ⟨fun tail ht => (hT x tail ht).2, hs.run.mono (fun _ _ hr => hr.1), fun r hr => ?_⟩
  obtain ⟨i, hi⟩ := hs.run.mem r hr
  exact hi.2

end Opening

/-- The log can be read, and shows the history. -/
theorem Up.readable (h : Up history l w) : ∃ views,
    LogReadable (fun o r => history[o]? = some r) views l w ∧
      (∀ x ∈ views, ∀ r ∈ x.2, r.length ≤ maxRecordBytes) ∧ l.logStartOffset = 0 ∧
      l.logEndOffset = history.length := by
  obtain ⟨e, segs, g, h, hc⟩ := h
  have hr := h.readable id (fun x b hb => le_of_eq hb)
  refine ⟨segs ++ [g], { hr with run := fun x hx => ?_ }, fun x hx r hrx => ?_,
    h.start.trans hc.start, h.ends.trans hc.ends_concat⟩
  · exact runOf_of_get fun _ _ hri => hc.slices.get hx hri
  · obtain ⟨i, hi⟩ := (h.run id x hx).mem r hrx
    have := hi.2
    unfold recoveryChunkBytes at this
    unfold maxRecordBytes
    omega

end Directory

/-! ## 4. The methods -/

/-- The store has the commits in memory and in its log. -/
structure Serves (commits : Offsets) (s : OffsetStore) (w : World) : Prop where
  offsets : s.offsets = mapOf commits
  log : ∃ l history, s.log = some l ∧ Journal commits history ∧ Up history l w

/-- The directory keeps the commits. -/
def Keeps (commits : Offsets) (w : World) : Prop :=
  ∃ history, Journal commits history ∧ Down history w

section Methods

variable {commits : Offsets} {key : OffsetKey} {value : CommittedOffset} {s : OffsetStore}
  {w : World} {history : List Bytes}
  {env : Env}

theorem mapOf_concat (commits : Offsets) (c : OffsetKey × CommittedOffset) :
    mapOf (commits ++ [c]) = putKey Prod.fst (mapOf commits) c := by
  unfold mapOf
  rw [foldl_append]
  rfl

theorem Journal.concat {c : OffsetKey × CommittedOffset} {r : NewRecord}
    (h : Journal commits history) (hc : Encodes c r) :
    Journal (commits ++ [c]) (history ++ [r.bytes]) := by
  obtain ⟨records, henc, rfl⟩ := h
  exact ⟨records ++ [r], rel_append henc (.cons hc .nil), by simp⟩

/-- What the log makes of the batch of a commit. -/
theorem stored_commit (hs : Storable key value) {o : Nat} {t : Int} {rs : List Bytes}
    (h : (Batch.assign (commitRecord key value).bytes 1).Stores o t rs) :
    ∃ r, Encodes (key, value) r ∧ rs = [r.bytes] ∧ RunOf Compact o rs := by
  have henc : Encodes (key, value) (commitRecord key value) := encodes_commitRecord hs
  have halone := NewRecord.parsesAlone_bytes henc.fits
  have hone : (Batch.assign [(commitRecord key value).bytes].flatten 1).Stores o t rs := by
    rw [flatten_singleton]
    exact h
  obtain ⟨rfl, ho⟩ := Batch.stores_assign (by simpa using halone.framed) hone
  obtain ⟨r, hr, hstamp⟩ := henc.stamped o t
  refine ⟨r, hr, by rw [← hstamp]; rfl, ⟨good_stamp halone ?_, ?_⟩, trivial⟩
  · rw [length_singleton] at ho
    omega
  · rw [hstamp]
    exact hr.length_le

theorem length_commitRecord (hs : Storable key value) :
    (commitRecord key value).bytes.length ≤ uint32Max := by
  have := (encodes_commitRecord (c := (key, value)) hs).length_le
  exact Nat.le_trans this (by decide)

section

variable (h : Serves commits s w)
include h

theorem sat_commit (hs : Storable key value) (hc : env.Calm) :
    Sat (fun _ t => Serves (commits ++ [(key, value)]) t.1 t.2) (fun _ t => Serves commits t.1 t.2)
      (fun _ => True) (commit key value (s, w.under env)) := by
  obtain ⟨hmap, l, history, hl, hj, e, segs, g, hinv, hcov⟩ := h
  have hinv0 : LogInv mode (g.1 + g.2.length) segs g l (w.under env) :=
    (hinv.under (hc.not_mayFail w)).retarget (fun hf => hf.elim)
  have hadm : mode.Admits (.assign (commitRecord key value).bytes 1) := by
    intro o t rs hb
    obtain ⟨r, -, -, hrun⟩ := stored_commit hs hb
    exact hrun
  refine sat_bind (R := fun r t => t.1.offsets = s.offsets ∧ ∃ l' history', t.1.log = some l' ∧
      Up history' l' t.2 ∧ Journal (match r with
        | .ok _ => commits ++ [(key, value)]
        | .error _ => commits) history')
    (sat_attempt (sat_onLog hl (sat_mono (sat_append hinv0 False.elim hadm
      (.inl (length_commitRecord hs))) (fun r t ht => ?_)
      (fun _ t ht => ?_) (fun _ _ => trivial)))) ?_
  · obtain ⟨rs, hrep, segs', g', hroll, hl'⟩ := ht
    obtain ⟨r', henc, rfl, -⟩ := stored_commit hs hrep.stores
    exact ⟨rfl, t.1, history ++ [r'.bytes], rfl, ⟨_, segs', _, hl', (hcov.rolled hroll).push _⟩,
      hj.concat henc⟩
  · rcases ht with ⟨segs', g', hroll, hl'⟩ | ⟨hf, -⟩
    · exact ⟨rfl, t.1, history, rfl, ⟨_, segs', g', hl', hcov.rolled hroll⟩, hj⟩
    · exact hf.elim
  · rintro r ⟨s', w'⟩ ⟨ho, l', history', hl', hup, hj'⟩
    cases r with
    | error e => exact ⟨ho.trans hmap, l', history', hl', hj', hup⟩
    | ok a =>
      refine ⟨?_, l', history', hl', hj', hup⟩
      show putKey Prod.fst s'.offsets (key, value) = _
      rw [ho, hmap, mapOf_concat]

theorem sat_flush (hc : env.Calm) :
    Sat (fun _ t => Serves commits t.1 t.2) (fun _ t => Serves commits t.1 t.2)
      (fun t => Keeps commits t.2) (flush (s, w.under env)) := by
  obtain ⟨hmap, l, history, hl, hj, e, segs, g, hinv, hcov⟩ := h
  have hup : ∀ {t : PartitionLog × World}, LogInv mode e segs g t.1 t.2 →
      Serves commits { s with log := some t.1 } t.2 := fun hi =>
    ⟨hmap, _, history, rfl, hj, e, segs, g, hi, hcov⟩
  unfold flush
  rw [bind_get]
  rw [hl]
  exact sat_onLog hl (sat_mono (PulseLog.sat_flush (hinv.under (hc.not_mayFail w)))
    (fun _ t ht => hup ht) (fun _ t ht => hup ht.1)
    (fun t ht => ⟨history, hj, down_of_fallen ht hcov⟩))

theorem sat_close (hc : env.Calm) :
    Sat (fun _ t => Keeps commits t.2) (fun _ t => Keeps commits t.2) (fun t => Keeps commits t.2)
      (close (s, w.under env)) := by
  obtain ⟨hmap, l, history, hl, hj, e, segs, g, hinv, hcov⟩ := h
  unfold close
  rw [bind_get]
  rw [hl]
  refine sat_bind (R := fun _ t => ∃ l', t.1.log = some l' ∧ LogInv mode e segs g l' t.2)
    (sat_attempt (sat_onLog hl (sat_mono (PulseLog.sat_flush (hinv.under (hc.not_mayFail w)))
      (fun _ t ht => ⟨t.1, rfl, ht⟩) (fun _ t ht => ⟨t.1, rfl, ht.1⟩)
      (fun t ht => ⟨history, hj, down_of_fallen ht hcov⟩)))) ?_
  rintro flushed ⟨s1, w1⟩ ⟨l1, hl1, hinv1⟩
  refine sat_bind (R := fun _ t => Keeps commits t.2) (sat_attempt (sat_onLog hl1 (sat_mono
    (PulseLog.sat_close hinv1 id) (fun _ t ht => ⟨history, hj, down_of_shut ht hcov⟩)
    (fun _ t ht => ⟨history, hj, down_of_shut ht hcov⟩)
    (fun t ht => ⟨history, hj, down_of_fallen ht hcov⟩)))) ?_
  intro closed t ht
  cases flushed with
  | ok _ => exact sat_ofExcept (fun _ _ => ht) (fun _ _ => ht)
  | error _ => exact ht

/-- A process that is killed between two calls. -/
theorem Serves.killed : Keeps commits w := by
  obtain ⟨-, l, history, -, hj, e, segs, g, hinv, hcov⟩ := h
  exact ⟨history, hj, down_of_fallen hinv.killed hcov⟩

end

/-- The replay of a log with the commits. -/
theorem replay_eq {l : PartitionLog} (hj : Journal commits history)
    (hup : Up history l w) : replay l w ⟨some l, [], 0⟩ =
      .ok ⟨some l, mapOf commits, commits.length⟩ := by
  obtain ⟨views, hr, hsize, hstart, hend⟩ := hup.readable
  have hlen : history.length = commits.length := by
    obtain ⟨records, henc, rfl⟩ := hj
    rw [length_map, henc.length_eq]
  rw [hlen] at hend
  unfold replay
  split
  · rename_i h0
    have hnil : commits = [] := eq_nil_of_length_eq_zero (hend ▸ h0)
    rw [hnil]
    rfl
  · rw [replayLoop_eq hj hr hsize hstart hend (by omega), hstart]
    simp [mapOf]

theorem sat_openStore_of {sync : Bool} {w₀ : World} {H : World → Prop}
    (hj : Journal commits history) (h : Sat (fun r w' => Up history r.1 w') (fun _ _ => False) H
      (PartitionLog.openLog (logOptions sync) w₀)) :
    Sat (fun s w' => Serves commits s w') (fun _ _ => False) H (openStore sync w₀) := by
  refine sat_bind h (fun opened w' hup => ?_)
  rw [bind_get, replay_eq hj hup]
  exact ⟨rfl, opened.1, history, rfl, hj, hup⟩

theorem sat_openStore (sync : Bool) (h : Keeps commits w) (hc : env.Calm) :
    Sat (fun s w' => Serves commits s w') (fun _ _ => False) (fun w' => Keeps commits w')
      (openStore sync (w.under env)) := by
  obtain ⟨history, hj, hd⟩ := h
  exact sat_openStore_of hj (sat_mono (sat_openLog_down hd hc) (fun _ _ hx => hx) (fun _ _ hx => hx)
    (fun _ hx => ⟨history, hj, hx⟩))

/-- **An open that nothing disturbs returns**, with leftovers in the directory too. -/
theorem returns_openStore_of (sync : Bool) {views : List SegView}
    {T : SegView → Bytes → Prop} (hj : Journal commits history) (hd : DiskLog mode False T views w)
    (hcov : Covers views history) (hT : ∀ x tail, T x tail → Leftover x tail) (hq : env.Quiet) :
    ∃ s w', openStore sync (w.under env) = (.ok s, w') ∧ Serves commits s w' :=
  sat_returns (sat_openStore_of hj (sat_mono (sat_and (sat_openLog_of hd hcov hT hq.calm)
    (returns_openLog_of hd hT hq)) (fun _ _ hx => hx.1) (fun _ _ hx => hx.1) (fun _ hx => hx.2)))

theorem returns_openStore (sync : Bool) (h : Keeps commits w) (hq : env.Quiet) :
    ∃ s w', openStore sync (w.under env) = (.ok s, w') ∧ Serves commits s w' := by
  obtain ⟨history, hj, views, hd, hcov⟩ := h
  exact returns_openStore_of sync hj hd hcov leftover_tail hq

end Methods

/-! ## 5. Every run -/

/-- The directory, the store of the process that has it open, and two ghosts. -/
structure State where
  store : Option OffsetStore
  world : World
  /-- the map that the last process had in memory -/
  memory : Offsets
  /-- the commits that returned OK, in their order -/
  commits : Offsets

inductive Event where
  | commit (key : OffsetKey) (value : CommittedOffset) (env : Env)
  | flush (env : Env)
  | close (env : Env)
  | kill
  | reopen (env : Env)

/-- A process goes on with the store as a call left it. -/
def State.goOn (s : State) (t : OffsetStore × World) : State :=
  { s with store := some t.1, world := t.2, memory := t.1.offsets }

/-- A process is gone. -/
def State.gone (s : State) (w : World) : State := { s with store := none, world := w }

def State.step (sync : Bool) (s : State) : Event → State
  | .commit key value env =>
    match s.store with
    | none => s
    | some store =>
      match OffsetStore.commit key value (store, s.world.under env) with
      | (.ok _, t) => { s.goOn t with commits := s.commits ++ [(key, value)] }
      | (.error _, t) => s.goOn t
      | (.halted, t) => s.gone t.2
  | .flush env =>
    match s.store with
    | none => s
    | some store =>
      match OffsetStore.flush (store, s.world.under env) with
      | (.halted, t) => s.gone t.2
      | (_, t) => s.goOn t
  | .close env =>
    match s.store with
    | none => s
    | some store => s.gone (OffsetStore.close (store, s.world.under env)).2.2
  | .kill => s.gone s.world
  | .reopen env =>
    match s.store with
    | some _ => s
    | none =>
      match openStore sync (s.world.under env) with
      | (.ok store, w) => s.goOn (store, w)
      | (_, w) => s.gone w

/-- An empty directory that no process has opened. -/
def State.start : State := ⟨none, ⟨∅, [], [], [], []⟩, [], []⟩

/-- The events of a run: no file operation fails, and no process dies in a commit. -/
def EventOk (s : State) : Event → Prop
  | .commit key value env => env.Calm ∧ Storable key value ∧
      ∀ store ∈ s.store, (OffsetStore.commit key value (store, s.world.under env)).1 ≠ .halted
  | .flush env => env.Calm
  | .close env => env.Calm
  | .kill => True
  | .reopen env => env.Calm

/-- The store is the map the last process had, and holds for each key its last commit. -/
structure Restores (s : State) (store : OffsetStore) : Prop where
  same : store.offsets = s.memory
  keys : (store.offsets.map Prod.fst).Nodup
  last : ∀ key, store.get key = (findKey Prod.fst s.commits.reverse key).map Prod.snd

/-- An open that nothing disturbs returns such a store. -/
def Reopens (sync : Bool) (s : State) : Event → Prop
  | .reopen env => s.store = none → env.Quiet →
      ∃ store w, openStore sync (s.world.under env) = (.ok store, w) ∧ Restores s store
  | _ => True

/-- What every run keeps. -/
structure Inv (s : State) : Prop where
  memory : s.memory = mapOf s.commits
  up : ∀ store, s.store = some store → Serves s.commits store s.world
  down : s.store = none → Keeps s.commits s.world

section Runs

variable {sync : Bool} {s : State}

theorem inv_start : Inv State.start :=
  ⟨rfl, (fun _ h => nomatch h), fun _ => ⟨[], ⟨[], .nil, rfl⟩, down_empty⟩⟩

theorem Inv.goOn {t : OffsetStore × World} (h : Serves s.commits t.1 t.2) : Inv (s.goOn t) := by
  refine ⟨h.offsets, fun store hs => ?_, fun hs => nomatch hs⟩
  cases hs
  exact h

theorem Inv.gone {w : World} (h : Inv s) (hw : Keeps s.commits w) : Inv (s.gone w) :=
  ⟨h.memory, (fun _ hs => nomatch hs), fun _ => hw⟩

theorem inv_step (sync : Bool) (s : State) (ev : Event) (h : Inv s) (hev : EventOk s ev) :
    Inv (s.step sync ev) := by
  cases ev with
  | commit key value env =>
    obtain ⟨hc, hs, hlives⟩ := hev
    unfold State.step
    cases hst : s.store with
    | none => exact h
    | some store =>
      have hsat := sat_commit (h.up store hst) hs hc
      have hne := hlives store hst
      dsimp only
      rcases hr : OffsetStore.commit key value (store, s.world.under env) with ⟨r | e | _, t⟩ <;>
        rw [hr] at hsat hne
      · exact Inv.goOn (s := { s with commits := s.commits ++ [(key, value)] }) hsat
      · exact Inv.goOn hsat
      · exact absurd rfl hne
  | flush env =>
    unfold State.step
    cases hst : s.store with
    | none => exact h
    | some store =>
      have hsat := sat_flush (h.up store hst) hev
      dsimp only
      rcases hr : OffsetStore.flush (store, s.world.under env) with ⟨r | e | _, t⟩ <;>
        rw [hr] at hsat
      · exact Inv.goOn hsat
      · exact Inv.goOn hsat
      · exact h.gone hsat
  | close env =>
    unfold State.step
    cases hst : s.store with
    | none => exact h
    | some store =>
      have hsat := sat_close (h.up store hst) hev
      dsimp only
      rcases hr : OffsetStore.close (store, s.world.under env) with ⟨r | e | _, t⟩ <;>
        (rw [hr] at hsat; exact h.gone hsat)
  | kill =>
    refine h.gone ?_
    cases hst : s.store with
    | none => exact h.down hst
    | some store => exact (h.up store hst).killed
  | reopen env =>
    unfold State.step
    cases hst : s.store with
    | some store => exact h
    | none =>
      have hsat := sat_openStore sync (h.down hst) hev
      dsimp only
      rcases hr : openStore sync (s.world.under env) with ⟨r | e | _, w⟩ <;> rw [hr] at hsat
      · exact Inv.goOn hsat
      · exact hsat.elim
      · exact h.gone hsat

/-- **Every open that nothing disturbs gives the map that the last process had.** -/
theorem reopened_store_eq {es : List Event} (h : Along (State.step sync) EventOk State.start es) :
    Along (State.step sync) (Reopens sync) State.start es := by
  refine (Along.strengthen (inv_step sync) h inv_start).mono (fun s ev hs => ?_)
  obtain ⟨hinv, -⟩ := hs
  cases ev with
  | reopen env =>
    intro hst hq
    obtain ⟨store, w, hopen, hserves⟩ := returns_openStore sync (hinv.down hst) hq
    refine ⟨store, w, hopen, hserves.offsets.trans hinv.memory.symm, ?_, fun key => ?_⟩
    · rw [hserves.offsets]
      exact nodup_foldl_putKey _ nodup_nil
    · rw [OffsetStore.get, hserves.offsets, mapOf, findKey_foldl_putKey]
      exact congrArg _ (Option.or_none)
  | commit | flush | close | kill => trivial

end Runs

/-- Two commits under one key and one under another; the process is killed, and the store opened,
    closed and opened again. -/
def threeCommits : List Event :=
  let key : OffsetKey := ⟨[0x67], [0x74], 0⟩
  let other : OffsetKey := ⟨[0x67], [0x74], 1⟩
  [.reopen ⟨[], [], []⟩, .commit key ⟨7, [0x6d], 1000⟩ ⟨[], [], []⟩,
    .commit other ⟨3, [], 1001⟩ ⟨[], [], []⟩, .commit key ⟨9, [], 1002⟩ ⟨[], [], []⟩, .kill,
    .reopen ⟨[], [], []⟩, .close ⟨[], [], []⟩, .reopen ⟨[], [], []⟩]

theorem threeCommits_reopened : (threeCommits.foldl (State.step true) State.start).commits.length =
    3 ∧ Along (State.step true) (Reopens true) State.start threeCommits := by
  refine ⟨by decide +kernel, reopened_store_eq ⟨calm_nil _ _, ⟨calm_nil _ _, ?_, by decide +kernel⟩,
    ⟨calm_nil _ _, ?_, by decide +kernel⟩, ⟨calm_nil _ _, ?_, by decide +kernel⟩, trivial,
    calm_nil _ _, calm_nil _ _, calm_nil _ _, trivial⟩⟩
  all_goals exact ⟨by decide, by decide, by decide, by decide⟩

end OffsetStore

end PulseLog

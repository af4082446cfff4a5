/-
  Subject:   The partition log as a broker's replication code sees it.

  Replication only asks a `PartitionLog` for its records, its end and its flushed offset. The log
  is therefore a list of records here, from offset 0, with its flushed offset; LogRefinement.lean
  shows that the runs of a `PartitionLog` are runs of it. Batches go through the validation loops
  of the storage model, and an open goes through its recovery scan.

  * `syncedOffset` -- below it completed fsyncs cover the bytes: all that is flushed, if the process
    found nothing unsynced when it opened the log, and nothing otherwise, since an open sets the
    flushed offset to the log end and syncs nothing;
  * `reopen` -- the log the next process finds after a process crash, `machineCrash` -- what the
    disk holds after a machine crash, `cut` -- an append that died half way;
  * `Append l rs l'` -- the only thing an append does: it adds the records `rs`.
-/
import PulseLog.Storage.Scan

namespace PulseLog

open List

/-! ## 1. The log -/

/-- A log that starts at offset 0. Its records carry their offsets and checksums, and the flushed
    offset lies inside it. `clean` says that the process found nothing unsynced at its open. -/
structure ReplicaLog where
  records : List Bytes
  clean : Bool
  flushedOffset : Nat
  run : RunOf RecordOk 0 records
  flushed_le : flushedOffset ≤ records.length

namespace ReplicaLog

def logEndOffset (l : ReplicaLog) : Nat := l.records.length

/-- What fsyncs of this life are known to cover. -/
def syncedOffset (l : ReplicaLog) : Nat := if l.clean then l.flushedOffset else 0

/-- A log without records. -/
def empty : ReplicaLog where
  records := []
  clean := true
  flushedOffset := 0
  run := trivial
  flushed_le := Nat.zero_le ([] : List Bytes).length

/-- The log with more records. -/
def extend (l : ReplicaLog) (rs : List Bytes) (h : RunOf RecordOk l.logEndOffset rs) :
    ReplicaLog where
  records := l.records ++ rs
  clean := l.clean
  flushedOffset := l.flushedOffset
  run := runOf_append.mpr ⟨l.run, by rw [Nat.zero_add]; exact h⟩
  flushed_le := by
    rw [length_append]
    exact Nat.le_add_right_of_le l.flushed_le

/-- What an append that returns does: the records `rs` stand behind the old ones. -/
structure Append (l : ReplicaLog) (rs : List Bytes) (l' : ReplicaLog) : Prop where
  records : l'.records = l.records ++ rs
  run : RunOf RecordOk l.logEndOffset rs
  clean : l'.clean = l.clean
  flushed : l'.flushedOffset = l.flushedOffset

theorem runOf_assigned {t : Int} {data : Bytes} {o : Nat} {a : Assigned}
    (h : assignLoop t data.length data 0 o (-1) 0 = .ok a) :
    ∃ rs, data = rs.flatten ∧ (∀ r ∈ rs, Framed r) ∧ a.seen = rs.length ∧
      splitRecords a.seen a.data = stampAll t o rs ∧ RunOf RecordOk o (stampAll t o rs) := by
  obtain ⟨rs, h1, h2, h3, h4, h5, h6, -⟩ :=
    assignLoop_ok t data.length [] data o (-1) 0 a le_rfl h
  have hb : o + rs.length ≤ 2 ^ 63 ∨ rs = [] := by
    by_cases hrs : rs = []
    · exact .inr hrs
    · have := h6 hrs
      exact .inl (by omega)
  have hrun : RunOf RecordOk o (stampAll t o rs) := by
    rcases hb with hb | rfl
    · refine runOf_stampAll t (fun o r ho hr => recordOk_stamp hr ho) hb ?_
      exact runOf_of_forall h2
    · trivial
  refine ⟨rs, h1, h2, by rw [h5, Nat.zero_add], ?_, hrun⟩
  have hfr : ∀ r ∈ stampAll t o rs, Framed r :=
    fun r hr => (hrun.mem r hr).elim (fun _ h => h.framed)
  rw [h5, h3, Nat.zero_add, ← length_stampAll t o rs]
  exact splitRecords_flatten hfr

/-- `PartitionLog::AppendAssigningOffsets`: the batch as the leader stamps it. -/
def appendAssigningOffsets (l : ReplicaLog) (appendTime : Int) (data : Bytes) (recordCount : Nat) :
    Except Status ReplicaLog :=
  if data.isEmpty || recordCount == 0 then .error (.invalidArgument "append with no records")
  else
    match h : assignLoop appendTime data.length data 0 l.logEndOffset (-1) 0 with
    | .error e => .error e
    | .halted => .error (.internal "offset overflow")
    | .ok a =>
      if a.seen ≠ recordCount then
        .error (.invalidArgument
          s!"produce batch declared {recordCount} records but contains {a.seen}")
      else
        .ok (l.extend (splitRecords a.seen a.data) (by
          obtain ⟨rs, -, -, -, h4, h5⟩ := runOf_assigned h
          rw [h4]
          exact h5))

theorem runOf_checked {data : Bytes} {o : Nat} {c : Checked} (h : checkReplicated data o = .ok c) :
    ∃ rs, data = rs.flatten ∧ c.seen = rs.length ∧ splitRecords c.seen data = rs ∧
      RunOf RecordOk o rs := by
  obtain ⟨rs, h1, h2, -, h4, -⟩ := checkBuffer_ok h
  have hrun : RunOf RecordOk o rs := h2.mono (fun _ _ hr => hr.recordOk)
  refine ⟨rs, h1, by rw [h4, Nat.zero_add], ?_, hrun⟩
  rw [h4, Nat.zero_add, h1]
  exact splitRecords_flatten (fun r hr => (hrun.mem r hr).elim (fun _ h => h.framed))

/-- `PartitionLog::AppendWithOffsets`: a follower's batch, taken as it is. -/
def appendWithOffsets (l : ReplicaLog) (data : Bytes) (recordCount : Nat) :
    Except Status ReplicaLog :=
  if data.isEmpty || recordCount == 0 then .error (.invalidArgument "append with no records")
  else
    match h : checkReplicated data l.logEndOffset with
    | .error e => .error e
    | .ok c =>
      if c.seen ≠ recordCount then
        .error (.invalidArgument
          s!"replicated batch declared {recordCount} records but contains {c.seen}")
      else
        .ok (l.extend (splitRecords c.seen data) (by
          obtain ⟨rs, -, -, h3, h4⟩ := runOf_checked h
          rw [h3]
          exact h4))

/-- `PartitionLog::Flush` that read the log end `target` when it started. -/
def flush (l : ReplicaLog) (target : Nat) : ReplicaLog where
  records := l.records
  clean := l.clean
  flushedOffset := max l.flushedOffset (min target l.records.length)
  run := l.run
  flushed_le := max_le l.flushed_le (Nat.min_le_right _ _)

/-- What an open meets beside the records: the offset of the last index entry, from which `Recover`
    scans, and whether the files have no unsynced bytes. -/
structure Reopening where
  entry : Nat
  clean : Bool
  deriving Repr, DecidableEq

/-- The log end the scan of `Recover` finds in a log of one segment. Where the scan never returns,
    the log is never opened. -/
def recoveredEnd (l : ReplicaLog) (entry : Nat) : Nat :=
  let data := (l.records.drop entry).flatten
  match scanLoop data (data.length + 1) 0 entry 0 (-1) with
  | .ok s => s.offset
  | _ => l.records.length

/-- The log a new process finds after a process crash: the records the scan accepts, and a flushed
    offset that is the log end. -/
def reopen (l : ReplicaLog) (found : Reopening) : ReplicaLog where
  records := l.records.take (l.recoveredEnd found.entry)
  clean := found.clean && l.clean && decide (l.flushedOffset = l.records.length)
  flushedOffset := (l.records.take (l.recoveredEnd found.entry)).length
  run := l.run.take _
  flushed_le := le_rfl

/-- The first `n` records, but never less than the flushed ones. -/
def cut (l : ReplicaLog) (n : Nat) : ReplicaLog where
  records := l.records.take (max n l.flushedOffset)
  clean := l.clean
  flushedOffset := l.flushedOffset
  run := l.run.take _
  flushed_le := by
    rw [length_take]
    exact le_min (le_max_right _ _) l.flushed_le

/-- What a machine crash leaves on the disk: `n` records, or the synced ones if those are more. -/
def machineCrash (l : ReplicaLog) (n : Nat) : ReplicaLog where
  records := l.records.take (max n l.syncedOffset)
  clean := true
  flushedOffset := (l.records.take (max n l.syncedOffset)).length
  run := l.run.take _
  flushed_le := le_rfl

/-! ## 2. What the operations do -/

section Appends

variable {l l' : ReplicaLog} {data : Bytes} {count : Nat} {rs : List Bytes}

theorem appendAssigningOffsets_ok {t : Int} (h : l.appendAssigningOffsets t data count = .ok l') :
    ∃ rs, data = rs.flatten ∧ (∀ r ∈ rs, Framed r) ∧ rs.length = count ∧ 0 < count ∧
      Append l (stampAll t l.logEndOffset rs) l' := by
  unfold appendAssigningOffsets at h
  split at h
  · simp at h
  rename_i hne
  split at h
  · simp at h
  · simp at h
  rename_i a ha
  split at h
  · simp at h
  obtain ⟨rs, h1, h2, h3, h4, h5⟩ := runOf_assigned ha
  simp only [Except.ok.injEq] at h
  subst h
  have hc : count ≠ 0 := by
    intro h0
    simp [h0] at hne
  refine ⟨rs, h1, h2, by omega, by omega, ?_, h5, rfl, rfl⟩
  simp only [extend, h4]

theorem appendWithOffsets_ok (h : l.appendWithOffsets data count = .ok l') :
    ∃ rs, data = rs.flatten ∧ rs.length = count ∧ Append l rs l' := by
  unfold appendWithOffsets at h
  split at h
  · simp at h
  split at h
  · simp at h
  rename_i c hc
  split at h
  · simp at h
  obtain ⟨rs, h1, h2, h3, h4⟩ := runOf_checked hc
  simp only [Except.ok.injEq] at h
  subst h
  refine ⟨rs, h1, by omega, ?_, h4, rfl, rfl⟩
  simp only [extend, h3]

theorem Append.logEnd_eq (h : l.Append rs l') : l'.logEndOffset = l.logEndOffset + rs.length := by
  unfold logEndOffset
  rw [h.records, length_append]

theorem Append.logEnd_le (h : l.Append rs l') :
    l.logEndOffset ≤ l'.logEndOffset := h.logEnd_eq ▸ Nat.le_add_right _ _

/-- **An open keeps records that parse on their own.** -/
theorem reopen_records (h : ∀ r ∈ l.records, ParsesAlone r) (found : Reopening) :
    (l.reopen found).records = l.records := by
  refine take_of_length_le ?_
  unfold recoveredEnd
  dsimp only
  split
  · rename_i s hs
    rcases Nat.le_total found.entry l.records.length with hle | hle
    · have hrun : RunOf Good (0 + found.entry) (l.records.drop found.entry) :=
        (runOf_good l.run h).drop _ hle
      rw [Nat.zero_add] at hrun
      rw [(scanLoop_whole drop_zero hrun hs).2, length_drop]
      omega
    · obtain ⟨rs, -, -, -, hend, -⟩ := scanLoop_sound hs (Nat.zero_le _)
      omega
  · exact le_rfl

theorem isEmpty_batch (hne : rs ≠ []) (h : ∀ r ∈ rs, Framed r) :
    (rs.flatten.isEmpty || rs.length == 0) = false := by
  rw [Bool.or_eq_false_iff]
  refine ⟨?_, by simpa using hne⟩
  obtain ⟨r, rs, rfl⟩ := exists_cons_of_ne_nil hne
  have hpos := (h r mem_cons_self).pos
  rw [isEmpty_eq_false_iff, flatten_cons]
  exact append_ne_nil_of_left_ne_nil (ne_nil_of_length_pos hpos) _

/-- A leader takes every batch of records that fill their places. -/
theorem appendAssigningOffsets_of_fills (hne : rs ≠ []) (h : FillsRun 0 rs)
    (ho : l.logEndOffset + rs.length < 2 ^ 63) (t : Int) :
    ∃ l', l.appendAssigningOffsets t rs.flatten rs.length = .ok l' ∧
      Append l (stampAll t l.logEndOffset rs) l' := by
  obtain ⟨a, ha, hseen⟩ := assignLoop_of_fills t rs rs.flatten.length [] l.logEndOffset (-1) 0 h
    le_rfl ho
  rw [nil_append, length_nil] at ha
  rw [Nat.zero_add] at hseen
  have hempty := isEmpty_batch hne h.framed
  obtain ⟨rs', hflat, hframed, hcount, hsplit, hrun⟩ := runOf_assigned ha
  have hrs : rs' = rs := by
    rw [← splitRecords_flatten hframed, ← splitRecords_flatten h.framed, ← hcount, hseen, hflat]
  subst hrs
  unfold appendAssigningOffsets
  rw [if_neg (by rw [hempty]; simp)]
  split
  · rename_i e he
    rw [ha] at he
    cases he
  · rename_i he
    rw [ha] at he
    cases he
  · rename_i a' ha'
    rw [ha, Outcome.ok.injEq] at ha'
    subst ha'
    rw [if_neg (by rw [hseen]; simp)]
    exact ⟨_, rfl, by simp only [extend, hsplit], hrun, rfl, rfl⟩

/-- A follower takes every batch that continues its log and fills its places. -/
theorem appendWithOffsets_of_fills (hne : rs ≠ []) (h : FillsRun 0 rs)
    (hok : RunOf RecordOk l.logEndOffset rs) :
    ∃ l', l.appendWithOffsets rs.flatten rs.length = .ok l' ∧ Append l rs l' := by
  obtain ⟨c, hc, hseen⟩ := checkReplicated_of_fills h hok
  have hempty := isEmpty_batch hne h.framed
  unfold appendWithOffsets
  rw [if_neg (by rw [hempty]; simp)]
  split
  · rename_i e he
    rw [hc] at he
    simp at he
  · rename_i c' hc'
    rw [hc, Except.ok.injEq] at hc'
    subst hc'
    rw [if_neg (by rw [hseen]; simp)]
    refine ⟨_, rfl, ?_, hok, rfl, rfl⟩
    simp only [extend, hseen, splitRecords_flatten h.framed]

end Appends

end ReplicaLog

end PulseLog

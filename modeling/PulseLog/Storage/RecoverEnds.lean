/-
  Subject:   On which files `Recover` comes to an end.

  A round of the scan that finds no whole record in its chunk, while the file goes on behind the
  chunk, is repeated. The chunk is not grown for the next round, so nothing changes any more.

  * **`recover_ends_iff`** -- recovery ends, in both modes and whatever the files hold, if and only
    if no round of its scan starts at an oversized record;
  * `recover_never_ends` -- a file of 1 MiB and four bytes on which it does not.
-/
import PulseLog.Storage.Reopen

namespace PulseLog

/-- Nothing kills the process; calls may fail. -/
def Alive (w : World) : Prop := ∀ n, Fault.crash n ∉ w.faults

/-- The call ends, and the process goes on. -/
abbrev Ends {α σ : Type} (world : σ → World) (r : Outcome Status α × σ) : Prop :=
  Sat (fun _ s => Alive (world s)) (fun _ s => Alive (world s)) (fun _ => False) r

section Ends

variable {w : World}

theorem ends_syscall (h : Alive w) (eff : Dir → Dir) (part : Nat → Dir → Dir) :
    Ends id (syscall eff part w) := by
  have hrest : ∀ f fs, w.faults = f :: fs → ∀ n, Fault.crash n ∉ fs := by
    intro f fs hf n hn
    exact h n (by rw [hf]; exact List.mem_cons_of_mem _ hn)
  unfold syscall
  split
  · exact h
  · rename_i hf
    exact hrest _ _ hf
  · rename_i hf
    exact hrest _ _ hf
  · rename_i hf
    exact (h _ (by rw [hf]; exact List.mem_cons_self)).elim

/-- Behind its scan recovery ends. -/
theorem ends_recover {s : Segment} {fullScan : Bool} {r : Scanned}
    (hscan : scanLoop (w.bytes s.logPath) ((w.bytes s.logPath).length + 1) (s.scanStart fullScan).1
      (s.scanStart fullScan).2 0 (-1) = .ok r) (h : Alive w) :
    Ends Prod.snd (Segment.recover fullScan (s, w)) :=
  sat_recover_calls (fun eff part h => ends_syscall h eff part) hscan h

/-- A scan that does not end is where recovery stays. -/
theorem recover_halted {s : Segment} {fullScan : Bool}
    (hscan : scanLoop (w.bytes s.logPath) ((w.bytes s.logPath).length + 1) (s.scanStart fullScan).1
      (s.scanStart fullScan).2 0 (-1) = .halted) :
    Segment.recover fullScan (s, w) = (.halted, (s, w)) := by
  show Prog.bind _ _ _ = _
  simp only [Prog.bind, Prog.ofOutcome, hscan]

end Ends

/-- **When recovery ends**: with any log file and any index, from the start of the file or from the
    last index entry, if and only if no round of its scan starts at an oversized record. -/
theorem recover_ends_iff {s : Segment} {w : World} {fullScan : Bool} (hw : Alive w) :
    (Segment.recover fullScan (s, w)).1 ≠ .halted ↔
      ∀ q, RoundAt (w.bytes s.logPath) (s.scanStart fullScan).1 (s.scanStart fullScan).2 0 (-1) q →
        ¬ Oversized (w.bytes s.logPath) q := by
  have hfuel : (w.bytes s.logPath).length - (s.scanStart fullScan).1 <
      (w.bytes s.logPath).length + 1 := by omega
  rw [← scanLoop_ends hfuel]
  constructor
  · intro hne
    cases hscan : scanLoop (w.bytes s.logPath) ((w.bytes s.logPath).length + 1)
        (s.scanStart fullScan).1 (s.scanStart fullScan).2 0 (-1) with
    | ok r => exact ⟨r, rfl⟩
    | error e => exact absurd hscan (scanLoop_ne_error _ _ _ _ _ _ e)
    | halted =>
      rw [recover_halted hscan] at hne
      exact absurd rfl hne
  · rintro ⟨r, hscan⟩ hhalt
    have hends := ends_recover hscan hw
    generalize Segment.recover fullScan (s, w) = out at hends hhalt
    obtain ⟨x, t⟩ := out
    cases hhalt
    exact hends

/-- A directory with one small log file, and the segment `Open` makes of it. -/
def smallDirectory : World := ⟨(∅ : Dir).insert ⟨0, .log⟩ ⟨bareRecord, []⟩, [], [], [], []⟩

def smallSegment : Segment :=
  ⟨0, ⟨0, 4096, false⟩, 0, ⟨0, []⟩, ⟨0, []⟩, true, 0, 0, 0, 0, -1, 0, 0, 27⟩

/-- In a file smaller than a chunk no record is oversized. -/
theorem small_recover_ends : (Segment.recover true (smallSegment, smallDirectory)).1 ≠ .halted := by
  have hw : Alive smallDirectory := fun _ => List.not_mem_nil
  refine (recover_ends_iff hw).mpr (fun q _ hbig => ?_)
  have hlen : (smallDirectory.bytes smallSegment.logPath).length = 27 := by decide +kernel
  have := hbig.1
  rw [recoveryChunkBytes] at this
  omega

/-- A log file of 1 MiB and four bytes: a length field, and zeros. -/
def oversizedFile : Bytes := storeLe 4 recoveryChunkBytes ++ zeros recoveryChunkBytes

theorem oversized_oversizedFile : Oversized oversizedFile 0 := by
  have hlen : oversizedFile.length = 4 + recoveryChunkBytes := by
    rw [oversizedFile, List.length_append, length_storeLe, length_zeros]
  have hload : loadLe 4 oversizedFile 0 = recoveryChunkBytes := by
    rfl
  rw [Oversized, hlen, hload]
  unfold recoveryChunkBytes maxRecordBytes
  omega

/-- A directory with this file and nothing else. -/
def oversizedDirectory : World := ⟨(∅ : Dir).insert ⟨0, .log⟩ ⟨oversizedFile, []⟩, [], [], [], []⟩

/-- **A file on which recovery does not end**, in neither mode: the segment is opened, and the scan
    reads its first chunk for ever. -/
theorem recover_never_ends : ∃ s w, Segment.openSegment 0 0 ⟨0, 4096, false⟩ oversizedDirectory =
    (.ok s, w) ∧ Alive w ∧ ∀ fullScan, (Segment.recover fullScan (s, w)).1 = .halted := by
  have hquiet : Undisturbed oversizedDirectory := fun _ hf => absurd hf List.not_mem_nil
  have hret : Returns id (Segment.openSegment 0 0 ⟨0, 4096, false⟩ oversizedDirectory) :=
    returns_openSegment hquiet
  obtain ⟨s, w, hrun, hopen, hw⟩ := sat_returns (sat_onReturn (sat_openSegment
    (fun _ _ ho => ho) (fun _ _ => .trivial)) hret)
  have hlog : oversizedDirectory.file ⟨0, .log⟩ = some ⟨oversizedFile, []⟩ := AList.lookup_insert _
  have hdata : w.bytes s.logPath = oversizedFile := by
    rw [Segment.logPath, hopen.base_eq, (hopen.holding (by rfl)).bytes]
    show oversizedDirectory.bytes ⟨0, .log⟩ = _
    rw [IndexFormat.bytes_of_file hlog]
  refine ⟨s, w, hrun, fun n hn => ?_, fun fullScan => ?_⟩
  · cases hw _ hn
  have hempty : s.index.entries = [] := by
    rw [hopen.index]
    exact IndexFormat.kept_nil
  have hstart : s.scanStart fullScan = (0, 0) := by
    rw [Segment.scanStart, if_neg (fun h => h.2 hempty), hopen.base_eq]
  rw [recover_halted]
  rw [hstart, hdata]
  exact scanLoop_stuck oversized_oversizedFile _

end PulseLog

/-
  Subject:   Files of one log directory, and what the system may do to a call on them
             (include/pulselog/storage/file_util.h, src/storage/file_util.cc).

  * `Dir` -- the directory: a file is named by its base offset and its kind, the names
    `FormatBaseOffset` makes. Reads return the bytes present;
  * `File.unsynced` -- the byte ranges written since the last completed fsync of the file. A
    process crash does not touch them, they stay in the page cache;
  * `Fault` -- what happens to the next file operation: it succeeds, it fails with an error, or
    the process dies in it. A write that fails or dies leaves a proper prefix of its bytes;
  * `World` -- the directory, the faults to come, what the clocks and `statvfs` will answer, and the
    files whose directory entry an fsync of the directory has made durable;
  * `Frame S w w'` -- between two worlds only the files in `S` changed, and no fault was added.
-/
import Mathlib.Data.List.AList
import Mathlib.Data.List.Sort
import PulseLog.General.Effect
import PulseLog.General.Bytes
import PulseLog.Base.Status

namespace PulseLog

open List

/-! ## 1. The directory -/

/-- The three files of a segment. -/
inductive FileKind where
  | log | index | tindex
  deriving Repr, DecidableEq

/-- `dir / (FormatBaseOffset(base) + ".log")` and so on. -/
structure Path where
  base : Nat
  kind : FileKind
  deriving Repr, DecidableEq

structure File where
  data : Bytes
  unsynced : List (Nat × Nat)
  deriving Repr, DecidableEq

abbrev Dir := AList (fun _ : Path => File)

/-- What happens to a file operation. `n` is how much of a write is done before the end. -/
inductive Fault where
  | none
  | fail (n : Nat) (e : Status)
  | crash (n : Nat)
  deriving Repr, DecidableEq

structure World where
  dir : Dir
  faults : List Fault
  clock : List Int
  space : List (Option Nat)
  durable : List Path

namespace World

def file (w : World) (p : Path) : Option File := w.dir.lookup p

/-- `std::filesystem::exists`. -/
def fileExists (w : World) (p : Path) : Bool := (w.file p).isSome

/-- The content of a file; a missing file reads as empty. -/
def bytes (w : World) (p : Path) : Bytes := ((w.file p).map File.data).getD []

/-- `FileHandle::Size`. -/
def size (w : World) (p : Path) : Nat := (w.bytes p).length

/-- `FileHandle::ReadAt`: as many of the wanted bytes as the file has. -/
def readAt (w : World) (p : Path) (n pos : Nat) : Bytes := slice (w.bytes p) pos n

/-- `ListFiles(dir, ".log")` and `ParseBaseOffset`, sorted. -/
def logBases (w : World) : List Nat :=
  ((w.dir.keys.filter (fun p => p.kind = .log)).map Path.base).insertionSort (· ≤ ·)

end World

/-- What the system has in store for one call. -/
structure Env where
  faults : List Fault
  clock : List Int
  space : List (Option Nat)
  deriving Repr, DecidableEq

/-- The world as a call finds it. -/
def World.under (w : World) (env : Env) : World :=
  ⟨w.dir, env.faults, env.clock, env.space, w.durable⟩

/-! ## 2. File operations -/

/-- A call that changes the directory: all of it, or what a fault leaves of it. -/
def syscall (eff : Dir → Dir) (part : Nat → Dir → Dir) : Prog Status World Unit := fun w =>
  match w.faults with
  | [] => (.ok (), { w with dir := eff w.dir })
  | .none :: fs => (.ok (), { w with dir := eff w.dir, faults := fs })
  | .fail n e :: fs => (.error e, { w with dir := part n w.dir, faults := fs })
  | .crash n :: fs => (.halted, { w with dir := part n w.dir, faults := fs })

/-- Change one file, if it exists. -/
def Dir.update (d : Dir) (p : Path) (f : File → File) : Dir :=
  match d.lookup p with
  | none => d
  | some x => d.insert p (f x)

/-- The part of an unsynced range that lies before `size`. -/
def clip (size : Nat) (e : Nat × Nat) : Option (Nat × Nat) :=
  if e.1 < size then some (e.1, min e.2 (size - e.1)) else none

namespace File

def write (pos : Nat) (data : Bytes) (f : File) : File :=
  if data = [] then f else ⟨splice f.data pos data, (pos, data.length) :: f.unsynced⟩

def sync (f : File) : File := ⟨f.data, []⟩

def truncate (size : Nat) (f : File) : File :=
  ⟨f.data.take size ++ zeros (size - f.data.length), f.unsynced.filterMap (clip size)⟩

def extend (size : Nat) (f : File) : File :=
  ⟨f.data ++ zeros (size - f.data.length), f.unsynced⟩

end File

/-- `FileHandle::Open` with `create`. -/
def openFile (p : Path) : Prog Status World Unit :=
  syscall (fun d => if (d.lookup p).isSome then d else d.insert p ⟨[], []⟩) (fun _ d => d)

/-- `FileHandle::WriteAllAt`. Nothing is called for no bytes. -/
def writeAllAt (p : Path) (data : Bytes) (pos : Nat) : Prog Status World Unit :=
  if data = [] then pure ()
  else syscall (fun d => d.update p (File.write pos data))
    (fun n d => d.update p (File.write pos (data.take (min n (data.length - 1)))))

/-- `FileHandle::WriteVectoredAt`: the chunks, one after the other. -/
def writeVectoredAt (p : Path) (chunks : List Bytes) (pos : Nat) : Prog Status World Unit :=
  writeAllAt p chunks.flatten pos

/-- `FileHandle::Sync` and `FileHandle::SyncData`. -/
def syncFile (p : Path) : Prog Status World Unit :=
  syscall (fun d => d.update p File.sync) (fun _ d => d)

/-- `FileHandle::Truncate`. -/
def truncateFile (p : Path) (size : Nat) : Prog Status World Unit :=
  syscall (fun d => d.update p (File.truncate size)) (fun _ d => d)

/-- `FileHandle::Preallocate`: the file grows to `size`, the new bytes read as zeros. -/
def preallocateFile (p : Path) (size : Nat) : Prog Status World Unit :=
  syscall (fun d => d.update p (File.extend size))
    (fun n d => d.update p (File.extend (min n size)))

/-- `std::filesystem::remove`. A file that is made under this name later has an entry of its own. -/
def removeFile (p : Path) : Prog Status World Unit := do
  syscall (fun d => d.erase p) (fun _ d => d)
  Prog.modify (fun w => { w with durable := w.durable.filter (fun q => q ≠ p) })

/-- `EnsureDirectory` changes no file. -/
def ensureDirectory : Prog Status World Unit := syscall id (fun _ d => d)

/-- `SyncDirectory`: the entries of the files there are become durable. -/
def syncDirectory : Prog Status World Unit := do
  syscall id (fun _ d => d)
  Prog.modify (fun w => { w with durable := w.dir.keys })

/-- `WallClockMillis`, and `MonotonicNanos` in milliseconds. -/
def clockMillis : Prog Status World Int := fun w =>
  match w.clock with
  | [] => (.ok 0, w)
  | t :: ts => (.ok t, { w with clock := ts })

/-- `AvailableBytes`; `none` when `statvfs` fails. -/
def availableBytes : Prog Status World (Option Nat) := fun w =>
  match w.space with
  | [] => (.ok none, w)
  | a :: rest => (.ok a, { w with space := rest })

variable {w w' : World} {S : Path → Prop} {p : Path}

/-- The listing names exactly the log files there are. -/
theorem mem_logBases {b : Nat} : b ∈ w.logBases ↔ (w.file ⟨b, .log⟩).isSome = true := by
  unfold World.logBases World.file
  rw [mem_insertionSort, mem_map, AList.lookup_isSome]
  constructor
  · rintro ⟨⟨b', kind⟩, hp, rfl⟩
    obtain ⟨hmem, hkind⟩ := mem_filter.mp hp
    simp only [decide_eq_true_eq] at hkind
    rw [← hkind]
    exact hmem
  · intro h
    exact ⟨⟨b, .log⟩, mem_filter.mpr ⟨h, by simp⟩, rfl⟩

/-- The listing is strictly increasing. -/
theorem logBases_sorted (w : World) : w.logBases.Pairwise (· < ·) := by
  unfold World.logBases
  have hnodup : ((w.dir.keys.filter (fun p => p.kind = .log)).map Path.base).Nodup := by
    refine List.Nodup.map_on (fun p hp q hq h => ?_) ((AList.keys_nodup w.dir).filter _)
    cases p
    cases q
    simp_all
  generalize (w.dir.keys.filter (fun p => p.kind = .log)).map Path.base = bs at hnodup
  have hs := pairwise_insertionSort (r := (· ≤ ·)) bs
  have hn := (perm_insertionSort (r := (· ≤ ·)) bs).nodup_iff.mpr hnodup
  exact (hs.and hn).imp (fun h => lt_of_le_of_ne h.1 h.2)

/-! ## 3. What a file operation can do -/

/-- No fault and no clock value was added. -/
structure Spent (w w' : World) : Prop where
  faults : ∀ f ∈ w'.faults, f ∈ w.faults
  clock : ∀ t ∈ w'.clock, t ∈ w.clock

theorem Spent.refl (w : World) : Spent w w := ⟨fun _ h => h, fun _ h => h⟩

theorem Spent.trans {w₁ w₂ w₃ : World} (h : Spent w₁ w₂) (h' : Spent w₂ w₃) : Spent w₁ w₃ :=
  ⟨fun f hf => h.faults f (h'.faults f hf), fun t ht => h.clock t (h'.clock t ht)⟩

/-- Only files in `S` differ between two worlds. -/
structure Frame (S : Path → Prop) (w w' : World) : Prop where
  others : ∀ p, ¬ S p → w'.file p = w.file p
  spent : Spent w w'

theorem Frame.refl (S : Path → Prop) (w : World) : Frame S w w := ⟨fun _ _ => rfl, Spent.refl w⟩

theorem Frame.trans {w₁ w₂ w₃ : World} (h : Frame S w₁ w₂) (h' : Frame S w₂ w₃) : Frame S w₁ w₃ :=
  ⟨fun p hp => (h'.others p hp).trans (h.others p hp), h.spent.trans h'.spent⟩

theorem Frame.mono {T : Path → Prop} (h : Frame S w w') (hST : ∀ p, S p → T p) : Frame T w w' :=
  ⟨fun p hp => h.others p (fun hs => hp (hST p hs)), h.spent⟩

/-- No file differs. -/
abbrev Steady : World → World → Prop := Frame (fun _ => False)

/-- Where nothing changed, no more changed than any `S` allows. -/
theorem Frame.widen (h : Steady w w') : Frame S w w' := h.mono (fun _ hp => hp.elim)

theorem Frame.same (h : Steady w w') (p : Path) : w'.file p = w.file p := h.others p id

/-- A change of one file is a change of its segment. -/
theorem Frame.at_base {base : Nat} (h : Frame (· = p) w w') (hp : p.base = base) :
    Frame (·.base = base) w w' :=
  h.mono (fun q hq => by rw [hq, hp])

/-- Some operation still to come fails (as opposed to succeeding or ending the process). -/
def MayFail (w : World) : Prop := ∃ n e, Fault.fail n e ∈ w.faults

theorem Frame.mayFail (h : Frame S w w') (hf : MayFail w') : MayFail w := by
  obtain ⟨n, e, hm⟩ := hf
  exact ⟨n, e, h.spent.faults _ hm⟩

/-- A call that found the world `w` may stop in `t`: with an error, if one may come, or for good. -/
def Stops {σ : Type} (E : Status → σ → Prop) (H : σ → Prop) (w : World) (t : σ) : Prop :=
  (MayFail w → ∀ e, E e t) ∧ H t

theorem Stops.trivial {σ : Type} {t : σ} : Stops (fun _ _ => True) (fun _ => True) w t :=
  ⟨fun _ _ => True.intro, True.intro⟩

section Rules

variable {Q : Unit → World → Prop} {E : Status → World → Prop} {H : World → Prop}

theorem Stops.later {σ : Type} {E : Status → σ → Prop} {H : σ → Prop} {t : σ} (h : Stops E H w t)
    (hf : Frame S w w') : Stops E H w' t :=
  ⟨fun hm => h.1 (hf.mayFail hm), h.2⟩

/-- **The rule of every file operation.** -/
theorem sat_syscall {eff : Dir → Dir} {part : Nat → Dir → Dir}
    (hok : ∀ w', w'.dir = eff w.dir → Spent w w' → Q () w')
    (hstop : ∀ n w', w'.dir = part n w.dir → Spent w w' → Stops E H w w') :
    Sat Q E H (syscall eff part w) := by
  have hspent : ∀ {f} {fs} d, w.faults = f :: fs →
      Spent w { w with dir := d, faults := fs } := fun d hfs =>
    ⟨fun f hf => by rw [hfs]; exact mem_cons_of_mem _ hf, fun _ h => h⟩
  unfold syscall
  split
  · exact hok _ rfl ⟨fun _ h => h, fun _ h => h⟩
  · rename_i fs hfs
    exact hok _ rfl (hspent _ hfs)
  · rename_i n e fs hfs
    exact (hstop n _ rfl (hspent _ hfs)).1 ⟨n, e, by rw [hfs]; exact mem_cons_self⟩ e
  · rename_i n fs hfs
    exact (hstop n _ rfl (hspent _ hfs)).2

theorem lookup_update (d : Dir) (p : Path) (f : File → File) :
    (d.update p f).lookup p = (d.lookup p).map f := by
  unfold Dir.update
  split
  · rename_i h
    rw [h]
    rfl
  · rename_i x h
    rw [AList.lookup_insert, h]
    rfl

theorem lookup_update_ne (d : Dir) {q : Path} (f : File → File) (h : q ≠ p) :
    (d.update p f).lookup q = d.lookup q := by
  unfold Dir.update
  split
  · rfl
  · exact AList.lookup_insert_ne h

/-- The world after one file was updated. -/
structure Updated (p : Path) (f : File → File) (w w' : World) : Prop where
  frame : Frame (· = p) w w'
  file : w'.file p = (w.file p).map f

theorem Updated.of_dir {f : File → File} (hd : w'.dir = w.dir.update p f) (hf : Spent w w') :
    Updated p f w w' := by
  refine ⟨⟨fun q hq => ?_, hf⟩, ?_⟩
  · unfold World.file
    rw [hd]
    exact lookup_update_ne w.dir f hq
  · unfold World.file
    rw [hd]
    exact lookup_update w.dir p f

theorem file_congr (h : w'.dir = w.dir) (p : Path) : w'.file p = w.file p := by
  rw [World.file, World.file, h]

theorem Frame.of_dir (hd : w'.dir = w.dir) (hf : Spent w w') : Frame S w w' :=
  ⟨fun p _ => file_congr hd p, hf⟩

/-- A write: all of it, or a proper prefix and an error or a crash. -/
theorem sat_writeAllAt {data : Bytes} {pos : Nat} (hne : data ≠ [])
    (hok : ∀ w', Updated p (File.write pos data) w w' → Q () w')
    (hstop : ∀ k w', k < data.length → Updated p (File.write pos (data.take k)) w w' →
      Stops E H w w') : Sat Q E H (writeAllAt p data pos w) := by
  have hlen : 0 < data.length := length_pos_iff.mpr hne
  unfold writeAllAt
  rw [if_neg hne]
  exact sat_syscall (fun w' hd hf => hok w' (.of_dir hd hf)) (fun n w' hd hf =>
    hstop (min n (data.length - 1)) w' (by omega) (.of_dir hd hf))

theorem sat_syncFile (hok : ∀ w', Updated p File.sync w w' → Q () w')
    (hstop : ∀ w', Steady w w' → Stops E H w w') : Sat Q E H (syncFile p w) :=
  sat_syscall (fun w' hd hf => hok w' (.of_dir hd hf)) (fun _ w' hd hf => hstop w' (.of_dir hd hf))

theorem sat_ensureDirectory (hok : ∀ w', Steady w w' → Q () w')
    (hstop : ∀ w', Steady w w' → Stops E H w w') : Sat Q E H (ensureDirectory w) :=
  sat_syscall (fun w' hd hf => hok w' (.of_dir hd hf)) (fun _ w' hd hf => hstop w' (.of_dir hd hf))

theorem sat_syncDirectory (hok : ∀ w', Steady w w' → Q () w')
    (hstop : ∀ w', Steady w w' → Stops E H w w') : Sat Q E H (syncDirectory w) :=
  sat_then (sat_syscall (fun _ hd hs => hok _ (.of_dir hd ⟨hs.faults, hs.clock⟩))
    (fun _ w' hd hf => hstop w' (.of_dir hd hf)))

theorem sat_truncateFile {size : Nat} (hok : ∀ w', Updated p (File.truncate size) w w' → Q () w')
    (hstop : ∀ w', Steady w w' → Stops E H w w') : Sat Q E H (truncateFile p size w) :=
  sat_syscall (fun w' hd hf => hok w' (.of_dir hd hf)) (fun _ w' hd hf => hstop w' (.of_dir hd hf))

theorem sat_preallocateFile {size : Nat} (hok : ∀ w', Updated p (File.extend size) w w' → Q () w')
    (hstop : ∀ n w', Updated p (File.extend n) w w' → Stops E H w w') :
    Sat Q E H (preallocateFile p size w) :=
  sat_syscall (fun w' hd hf => hok w' (.of_dir hd hf))
    (fun _ w' hd hf => hstop _ w' (.of_dir hd hf))

/-- Opening creates an empty file where there was none. -/
theorem sat_openFile
    (hok : ∀ w', Frame (· = p) w w' → w'.file p = some ((w.file p).getD ⟨[], []⟩) → Q () w')
    (hstop : ∀ w', Steady w w' → Stops E H w w') : Sat Q E H (openFile p w) := by
  refine sat_syscall (fun w' hd hf => ?_) (fun _ w' hd hf => hstop w' (.of_dir hd hf))
  by_cases hs : (w.dir.lookup p).isSome
  · rw [if_pos hs] at hd
    refine hok w' (.of_dir hd hf) ?_
    obtain ⟨f, hf'⟩ := Option.isSome_iff_exists.mp hs
    unfold World.file
    rw [hd, hf', Option.getD_some]
  · rw [if_neg hs] at hd
    have hn : w.dir.lookup p = none := by simpa using hs
    refine hok w' ⟨fun q hq => ?_, hf⟩ ?_
    · unfold World.file
      rw [hd]
      exact AList.lookup_insert_ne hq
    · unfold World.file
      rw [hd, AList.lookup_insert, hn, Option.getD_none]

theorem sat_removeFile (hok : ∀ w', Frame (· = p) w w' → w'.file p = none → Q () w')
    (hstop : ∀ w', Steady w w' → Stops E H w w') : Sat Q E H (removeFile p w) := by
  refine sat_then (sat_syscall (fun w1 hd hs => hok _ ⟨fun q hq => ?_, hs.faults, hs.clock⟩ ?_)
    (fun _ w' hd hf => hstop w' (.of_dir hd hf)))
  · show w1.dir.lookup q = _
    rw [hd]
    exact AList.lookup_erase_ne hq
  · show w1.dir.lookup p = _
    rw [hd]
    exact AList.lookup_erase p w.dir

end Rules

end PulseLog

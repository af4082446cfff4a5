/-
  Subject:   What `flushed_offset` says about fsync, over all lives of a log.

  The runs are appends on the three paths with the rolls they make, flushes, process crashes
  between two calls or inside one, and reopens. Bytes that were written and not synced stay in the
  page cache when a process dies.

  * `flushed_synced_run` -- the records below it are synced in every state, if each reopen finds log
    files without unsynced bytes;
  * `unsynced_after_crash` -- otherwise a recovery sets `flushed_offset` to the log end and calls no
    fsync.
-/
import PulseLog.Storage.LogRun

namespace PulseLog

open List

namespace Flushed

open LogRun

/-! ## 1. The property -/

/-- A segment without records, or one whose records below `fl` end in front of every unsynced
    range. -/
def CoveredSegment (fl : Nat) (w : World) (s : Segment) : Prop :=
  s.nextOffset = s.baseOffset ∨ ∃ (f : File) (rs : List Bytes) (tail : Bytes),
    w.file s.logPath = some f ∧ f.data = rs.flatten ++ tail ∧ (∀ r ∈ rs, Framed r) ∧
    s.nextOffset = s.baseOffset + rs.length ∧
    ∀ i < rs.length, s.baseOffset + i < fl →
      ∀ e ∈ f.unsynced, (rs.take (i + 1)).flatten.length ≤ e.1

/-- **The records below `flushed_offset` are synced.** -/
def Covered (p : Process) : Prop :=
  ∀ l, p.log = some l → ∀ s ∈ l.segments, CoveredSegment l.flushedOffset p.world s

def next (options : LogOptions) (p : Process) (ev : Event) : Process := (step options p ev).1

def run (options : LogOptions) (es : List Event) : Process := es.foldl (next options) init

/-- Appends, flushes, crashes and reopens. -/
def EventOk : Event → Prop
  | .call (.append _) env => env.Calm
  | .call .flush env => env.Calm
  | .kill => True
  | .reopen env => env.Calm
  | _ => False

/-- Every byte of every log file was synced. -/
def AllSynced (w : World) : Prop := ∀ b f, w.file ⟨b, .log⟩ = some f → f.unsynced = []

/-- A reopen finds everything synced. -/
def SyncedAtOpen (p : Process) : Event → Prop
  | .reopen _ => p.log = none → AllSynced p.world
  | _ => True

/-! ## 2. Every run keeps it -/

/-- Any framed records; sync positions are to be trusted. -/
def mode : LogMode where
  record := fun _ r => Framed r
  framed := fun _ _ h => h
  tail := fun _ => True
  tail_nil := trivial
  tail_drop := fun _ _ _ => trivial
  strict := False
  durable := True
  link := fun _ _ => True
  link_roll := fun _ _ => trivial
  shared := True
  faulty := False

/-- The log, or the directory it left. -/
def Inv (p : Process) : Prop :=
  match p.log with
  | some l => ∃ e segs g, LogInv mode e segs g l p.world
  | none => ∃ segs, DiskLog mode False (fun _ _ => True) segs p.world

section Steps

variable {e : Nat} {segs : List SegView} {g : SegView} {l : PartitionLog} {w : World}

theorem framed_of_stores {b : Batch} {o : Nat} {t : Int} {rs : List Bytes} (h : b.Stores o t rs) :
    RunOf (fun _ r => Framed r) o rs := by
  cases b with
  | assign records n =>
    obtain ⟨rs₀, -, hf, ho, rfl⟩ := h
    exact runOf_stampAll t (fun _ _ _ hr => hr.rewriteRecordHeader _ _) ho (runOf_of_forall hf)
  | replicate => exact h.2.mono (fun _ _ hr => hr.framed)
  | vectored => exact h.2.mono (fun _ _ hr => hr.framed)

/-- What a process leaves when it dies is a directory. -/
theorem inv_fallen {written : Bytes} (h : Fallen mode e segs g written w) : Inv ⟨none, w⟩ :=
  h.left id

theorem inv_call {options : LogOptions} {c : LogCall} {env : Env} (h : LogInv mode e segs g l w)
    (hc : EventOk (.call c env)) : Inv (next options ⟨some l, w⟩ (.call c env)) := by
  cases c with
  | append b =>
    have h0 : LogInv mode (g.1 + g.2.length) segs g l (w.under env) :=
      (h.under (hc.not_mayFail w)).retarget (fun hf => hf.elim)
    refine step_call (P := fun r => Inv r.1) (sat_mono
      (sat_map (sat_append h0 False.elim (fun _ _ _ hs => framed_of_stores hs)
        (.inr ⟨trivial, id⟩)))
      (fun _ t ht => ?_) (fun _ t ht => ?_) (fun t ht => ?_))
    · obtain ⟨r, -, rs, -, segs', g', -, hl⟩ := ht
      exact ⟨_, _, _, hl⟩
    · rcases ht with ⟨segs', g', -, hl⟩ | ⟨hf, -⟩
      · exact ⟨_, _, _, hl⟩
      · exact hf.elim
    · obtain ⟨segs', g', -, hl | ⟨time, rs, -, ⟨k, hl⟩ | hl⟩⟩ := ht
      · exact inv_fallen hl
      · exact inv_fallen hl
      · exact inv_fallen hl
  | flush =>
    refine step_call (P := fun r => Inv r.1) (sat_mono
      (sat_map (sat_flush (h.under (hc.not_mayFail w)))) (fun _ t ht => ?_)
      (fun _ t ht => ⟨_, _, _, ht.1⟩) (fun t ht => inv_fallen ht))
    obtain ⟨-, -, hl⟩ := ht
    exact ⟨_, _, _, hl⟩
  | truncateTo | enforceRetention => exact hc.elim

theorem inv_reopen {options : LogOptions} {env : Env}
    (h : DiskLog mode False (fun _ _ => True) segs w) (hc : env.Calm) (hs : AllSynced w) :
    Inv (next options ⟨none, w⟩ (.reopen env)) := by
  have hopen : Openable mode (fun _ _ => True) segs (w.under env) :=
    openable_framed (h.of_dir rfl) (fun _ _ hr => hr) id (fun _ _ => trivial)
      (fun _ x _ f hf => hs x.1 f hf) (fun hm => absurd hm (hc.not_mayFail w))
  refine step_reopen (P := fun r => Inv r.1) (sat_mono (sat_openLog hopen (fun _ _ => trivial))
    (fun _ w' hr => ?_) (fun _ _ hr => hr.1.left) (fun _ hr => hr.1.left))
  obtain ⟨-, ⟨views, g, hO⟩, -⟩ := hr
  exact ⟨0, views, g, hO.inv 0⟩

theorem inv_step (options : LogOptions) (p : Process) (ev : Event) (h : Inv p)
    (hev : EventOk ev ∧ SyncedAtOpen p ev) : Inv (next options p ev) := by
  obtain ⟨log, w⟩ := p
  cases ev with
  | call c env =>
    cases log with
    | none => exact h
    | some l =>
      obtain ⟨e, segs, g, h⟩ := h
      exact inv_call h hev.1
  | close => exact hev.1.elim
  | kill =>
    cases log with
    | none => exact h
    | some l =>
      obtain ⟨e, segs, g, h⟩ := h
      exact inv_fallen h.killed
  | reopen env =>
    cases log with
    | none =>
      obtain ⟨segs, h⟩ := h
      exact inv_reopen h hev.1 (hev.2 rfl)
    | some l => exact h

theorem covered_of_objInv {fl : Nat} {s : Segment} (h : ObjInv mode fl g s w) :
    CoveredSegment fl w s := by
  obtain ⟨f, tail, hf, hd, -⟩ := h.holds.log
  refine .inr ⟨f, g.2, tail, hf, hd, h.holds.run.framed (fun _ _ hr => hr), h.holds.next,
    fun i hi hlt u hu => ?_⟩
  have hle : i + 1 ≤ fl - g.1 := by
    have := h.base_eq
    omega
  obtain ⟨more, hmore⟩ : g.2.take (i + 1) <+: g.2.take (fl - g.1) := take_prefix_take_left hle
  -- the record ends inside the flushed part, which ends at the synced position
  calc (g.2.take (i + 1)).flatten.length
      ≤ (g.2.take (fl - g.1)).flatten.length := by
        rw [← hmore, flatten_append, length_append]
        exact Nat.le_add_right _ _
    _ ≤ s.syncedPosition := h.flushed trivial
    _ ≤ u.1 := h.holds.durable trivial f hf u hu

theorem Holds.covered {fl : Nat} {gs : List SegView} {ss : List Segment}
    (h : Holds mode fl w gs ss) : ∀ s ∈ ss, CoveredSegment fl w s := by
  induction h with
  | nil => simp
  | seg h _ ih =>
    intro s hs
    rcases mem_cons.mp hs with rfl | hs
    · exact covered_of_objInv h
    · exact ih s hs
  | idle _ _ _ hn _ ih =>
    intro s hs
    rcases mem_cons.mp hs with rfl | hs
    · exact .inl hn
    · exact ih s hs

theorem Inv.covered {p : Process} (h : Inv p) : Covered p := by
  intro l hl s hs
  rw [Inv, hl] at h
  obtain ⟨e, segs, g, h⟩ := h
  obtain ⟨olds, a, hsegs, -, hold, ha⟩ := h.objects
  rw [hsegs] at hs
  exact Holds.covered (hold.append (.seg ha .nil)) s hs

end Steps

/-- **Below `flushed_offset` everything is synced**, in every state of a run whose reopens find
    synced files. -/
theorem flushed_synced_run {options : LogOptions} {es : List Event}
    (h : Along (next options) (fun p ev => EventOk ev ∧ SyncedAtOpen p ev) init es) :
    Covered (run options es) :=
  (Along.foldl (inv_step options) h ⟨[], diskLog_empty ⟨[], [], []⟩⟩).covered

theorem allSynced_of_entries {w : World}
    (h : ∀ x ∈ w.dir.entries, x.1.kind = .log → x.2.unsynced = []) : AllSynced w :=
  fun _ _ hf => h _ (AList.mem_lookup_iff.mp hf) rfl

/-- A life with one append, without a flush. -/
def oneAppend : List Event :=
  [.reopen ⟨[], [], []⟩, .call (.append (.assign bareRecord 1)) ⟨[], [], []⟩]

/-- The record is flushed before the process is killed. -/
theorem flushed_life_covered : Covered (run (smallSegments true)
    (oneAppend ++ [.call .flush ⟨[], [], []⟩, .kill, .reopen ⟨[], [], []⟩])) := by
  have hcalm : Env.Calm ⟨[], [], []⟩ := calm_nil _ _
  refine flushed_synced_run ⟨⟨hcalm, fun _ => ?_⟩, ⟨hcalm, trivial⟩, ⟨hcalm, trivial⟩,
    ⟨trivial, trivial⟩, ⟨hcalm, fun _ => ?_⟩, trivial⟩
  · exact allSynced_of_entries (by decide +kernel)
  · exact allSynced_of_entries (by decide +kernel)

/-- **`flushed_offset` without an fsync.** A record is appended and not flushed, the process is
    killed, and the recovery of the next one takes the record for flushed. -/
theorem unsynced_after_crash : ¬ Covered (run (smallSegments false)
    (oneAppend ++ [.kill, .reopen ⟨[], [], []⟩])) := by
  have hlog : (run (smallSegments false) (oneAppend ++ [.kill, .reopen ⟨[], [], []⟩])).log.map
      (fun l => (l.flushedOffset, l.segments.map (fun s => (s.baseOffset, s.nextOffset)))) =
      some (1, [(0, 1)]) := by decide +kernel
  have hfile : ((run (smallSegments false) (oneAppend ++ [.kill, .reopen ⟨[], [], []⟩])).world.file
      ⟨0, .log⟩).map File.unsynced = some [(0, 27)] := by decide +kernel
  intro hc
  obtain ⟨l, hl, hs⟩ := Option.map_eq_some_iff.mp hlog
  rw [Prod.mk.injEq] at hs
  obtain ⟨s, hmem, hb⟩ := mem_map.mp
    (show (0, 1) ∈ l.segments.map (fun s => (s.baseOffset, s.nextOffset)) by rw [hs.2]; simp)
  rw [Prod.mk.injEq] at hb
  rcases hc l hl s hmem with h | ⟨f, rs, tail, hf, -, hfr, hn, hcov⟩
  · omega
  · rw [Segment.logPath, hb.1] at hf
    rw [hf, Option.map_some, Option.some.injEq] at hfile
    have hlen : rs.length = 1 := by omega
    obtain ⟨r, rfl⟩ := length_eq_one_iff.mp hlen
    have h0 := hcov 0 Nat.zero_lt_one (by omega) (0, 27) (by rw [hfile]; simp)
    have hpos := (hfr r (by simp)).pos
    simp only [take_succ_cons, take_zero, flatten_singleton] at h0
    omega

end Flushed

end PulseLog

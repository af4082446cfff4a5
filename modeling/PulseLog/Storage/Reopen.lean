/-
  Subject:   Opening a log returns where nothing disturbs it.

  The rules about `Open` say what holds if it returns. Whether it returns is another matter: the
  recovery scan reads the same chunk again as long as a record does not fit into it. Here the calls
  of `Open` are gone through once more, for a process that meets no failure and is not killed.

  * **`returns_openLog_any`** -- `Open` returns if the scan of every segment does;
    `returns_openLog` -- as it does if each record fits into a chunk of the scan and less than a
    chunk follows the records.
-/
import PulseLog.Storage.AnyDirectory
import PulseLog.Storage.LogRun

namespace PulseLog

open List IndexFormat PartitionLog

/-- Nothing fails, and nothing kills the process. -/
def Undisturbed (w : World) : Prop := ∀ f ∈ w.faults, f = .none

/-- The call returns, and the next one is undisturbed too. -/
abbrev Returns {α σ : Type} (world : σ → World) (r : Outcome Status α × σ) : Prop :=
  Sat (fun _ s => Undisturbed (world s)) (fun _ _ => False) (fun _ => False) r

/-- What a call meets when nothing disturbs it. -/
def Env.Quiet (env : Env) : Prop := ∀ f ∈ env.faults, f = .none

theorem Env.Quiet.calm {env : Env} (h : env.Quiet) : env.Calm := by
  intro n e hm
  cases h _ hm

theorem Env.Quiet.undisturbed {env : Env} (h : env.Quiet) (w : World) : Undisturbed (w.under env) :=
  h

/-! ## 1. File operations -/

variable {w w1 : World} {α : Type} {s : Segment} {r : Scanned} {base : Nat} {so : SegmentOptions}
  {options : LogOptions}

theorem returns_syscall (h : Undisturbed w) (eff : Dir → Dir) (part : Nat → Dir → Dir) :
    Returns id (syscall eff part w) := by
  unfold Undisturbed at h
  unfold syscall
  cases hf : w.faults with
  | nil => exact fun _ hf => nomatch hf
  | cons f fs =>
    rw [hf] at h
    have hrest : ∀ g ∈ fs, g = .none := fun g hg => h g (mem_cons_of_mem _ hg)
    cases h f mem_cons_self
    exact hrest

theorem returns_clockMillis (h : Undisturbed w) : Returns id (clockMillis w) := by
  unfold clockMillis
  cases w.clock <;> exact h

theorem returns_when {σ : Type} {world : σ → World} {c : Prop} [Decidable c] {s : σ}
    {p : Prog Status σ Unit} (h : Undisturbed (world s)) (hp : Returns world (p s)) :
    Returns world (Prog.when c p s) := sat_when (fun _ => hp) (fun _ => h)

/-! ## 2. One segment -/

theorem returns_openIndex (fmt : IndexFormat α) (base : Nat) (h : Undisturbed w) :
    Returns id (fmt.openIndex base w) := by
  refine sat_bind (returns_syscall h _ _) (fun _ w1 h1 => ?_)
  rw [bind_get]
  refine sat_bind (returns_when h1 (returns_syscall h1 _ _)) (fun _ w2 h2 => ?_)
  rw [bind_get]
  exact sat_bind (returns_when h2 (returns_syscall h2 _ _)) (fun _ _ h3 => h3)

theorem returns_preallocateNew {fileSize : Nat} {existed : Bool}
    (h : Undisturbed w) : Returns id (Segment.preallocateNew base so existed fileSize w) := by
  unfold Segment.preallocateNew
  split
  · exact sat_then (sat_attempt (sat_mono (returns_syscall h _ _) (fun _ _ h1 => h1)
      (fun _ _ h1 => h1.elim) (fun _ h1 => h1)))
  · exact h

theorem returns_openSegment {sid : Nat} (h : Undisturbed w) :
    Returns id (Segment.openSegment sid base so w) := by
  unfold Segment.openSegment
  rw [bind_get]
  refine sat_bind (returns_syscall h _ _) (fun _ w1 h1 => ?_)
  refine sat_bind (returns_openIndex offsetFormat base h1) (fun _ w2 h2 => ?_)
  refine sat_bind (returns_openIndex timeFormat base h2) (fun _ w3 h3 => ?_)
  rw [bind_get]
  refine sat_bind (returns_preallocateNew h3) (fun _ w4 h4 => ?_)
  exact sat_bind (returns_clockMillis h4) (fun _ _ h5 => h5)

section Calls

/- `J` holds after each file operation that succeeds, `F` after one that fails. -/
variable {J F : World → Prop} (hcall : ∀ {w : World} (eff : Dir → Dir) (part : Nat → Dir → Dir),
  J w → Sat (fun _ w' => J w') (fun (_ : Status) w' => F w') (fun _ => False) (syscall eff part w))

include hcall

theorem sat_truncateFrom_calls (fmt : IndexFormat α) (offset : Nat) {ix : Index α}
    (h : J w) : Sat (fun _ t => J t.2) (fun _ t => F t.2) (fun _ => False)
      (fmt.truncateFrom offset (ix, w)) := by
  unfold truncateFrom
  rw [bind_get]
  split
  · exact h
  · exact sat_onSnd (hcall _ _ h)

/-- **Recovery ends as its file operations do**, if its scan ends. -/
theorem sat_recover_calls {fullScan : Bool}
    (hscan : scanLoop (w.bytes s.logPath) ((w.bytes s.logPath).length + 1) (s.scanStart fullScan).1
      (s.scanStart fullScan).2 0 (-1) = .ok r) (h : J w) :
    Sat (fun _ t => J t.2) (fun _ t => F t.2) (fun _ => False)
      (Segment.recover fullScan (s, w)) := by
  unfold Segment.recover
  rw [bind_get]
  refine sat_then (sat_ofOutcome (fun r hr => ?_) (fun _ he => ?_) (fun he => ?_))
  rotate_left
  · exact nomatch hscan.symm.trans he
  · exact nomatch hscan.symm.trans he
  refine sat_bind (R := fun _ t => J t.2) (sat_when (fun _ => ?_) (fun _ => h)) (fun _ t' ht' => ?_)
  · refine sat_bind (R := fun _ t => J t.2) (sat_onSnd (hcall _ _ h)) (fun _ t1 h1 => ?_)
    refine sat_bind (R := fun _ t => J t.2) (sat_zoom (sat_truncateFrom_calls hcall _ _ h1))
      (fun _ t2 h2 => ?_)
    refine sat_bind (R := fun _ t => J t.2) (sat_zoom (sat_truncateFrom_calls hcall _ _ h2))
      (fun _ t3 h3 => ?_)
    exact h3
  · exact ht'

end Calls

/-- **Recovery returns** if its scan does. -/
theorem returns_recover (hscan : scanLoop (w.bytes s.logPath)
      ((w.bytes s.logPath).length + 1) (s.scanStart false).1 (s.scanStart false).2 0 (-1) = .ok r)
    (h : Undisturbed w) : Returns Prod.snd (Segment.recover false (s, w)) :=
  sat_recover_calls (fun eff part h => returns_syscall h eff part) hscan h

/-! ## 3. The log -/

theorem returns_loadEach {todo : List Nat} (done : List Nat) {rep : RecoveryReport}
    {l : PartitionLog} (hsort : (done ++ todo).Pairwise (· < ·))
    (hscan : ∀ b ∈ todo, ∃ r, (segFiles w b).scan b = .ok r)
    (hlogs : ∀ b ∈ todo, (w.file ⟨b, .log⟩).isSome = true)
    (hf : Frame (fun p => p.base ∈ done) w w1) (h : Undisturbed w1) :
    Returns Prod.snd (loadEach todo rep (l, w1)) := by
  induction todo generalizing done rep l w1 with
  | nil => exact h
  | cons b todo ih =>
    have hsame : ∀ p : Path, p.base = b → w1.file p = w.file p := fun p hp =>
      hf.others p (by rw [hp]; exact not_mem_done hsort)
    have hlog : (w1.file ⟨b, .log⟩).isSome = true := by
      rw [hsame _ rfl]
      exact hlogs b mem_cons_self
    obtain ⟨scanned, hs⟩ := hscan b mem_cons_self
    rw [← segFiles_congr hsame] at hs
    unfold loadEach
    rw [bind_get]
    refine sat_then (sat_onSnd (sat_imp (sat_onReturn (sat_openSegment (fun _ _ ho => ho)
      (fun _ _ => .trivial)) (returns_openSegment h)) ?_))
    rintro s w2 ⟨ho, h2⟩
    have hrec : Returns Prod.snd (Segment.recover false (s, w2)) := by
      refine returns_recover (r := scanned) ?_ h2
      rw [Segment.logPath, ho.base_eq, (ho.holding hlog).bytes, ho.scanStart]
      exact hs
    refine sat_then (sat_onSnd
      (sat_runOn (sat_imp (sat_onReturn (sat_recover_any ho hlog) hrec) ?_)))
    rintro r ⟨_, w3⟩ ⟨⟨hf3, -⟩, h3⟩
    refine ih (done ++ [b]) (by rwa [append_assoc]) (fun b' hb' => hscan b'
      (mem_cons_of_mem _ hb')) (fun b' hb' => hlogs b' (mem_cons_of_mem _ hb')) ?_ h3
    refine (hf.mono (fun p hp => mem_append_left _ hp)).trans
      ((ho.frame.trans hf3).mono (fun p hp => ?_))
    rw [hp]
    simp

/-- **Opening a log returns** if the scan of every segment does. -/
theorem returns_openLog_any (hscan : ∀ b ∈ w.logBases, ∃ r, (segFiles w b).scan b = .ok r)
    (h : Undisturbed w) : Returns id (openLog options w) := by
  refine sat_bind (sat_onReturn (sat_syscall (Q := fun _ w1 => w1.dir = w.dir) (fun _ hd _ => hd)
    (fun _ _ _ _ => .trivial)) (returns_syscall h _ _)) (fun _ w1 h1 => ?_)
  refine sat_bind (sat_onReturn (sat_clockMillis
    (fun t w2 hd _ _ => hd.trans h1.1)) (returns_clockMillis h1.2)) (fun now w2 hx => ?_)
  obtain ⟨hd2, h2⟩ := hx
  have hbases : w2.logBases = w.logBases := by rw [World.logBases, World.logBases, hd2]
  have hfiles : ∀ b, segFiles w2 b = segFiles w b := fun b =>
    segFiles_congr (fun p _ => file_congr hd2 p)
  have hload : Returns Prod.snd (loadSegments (make options now, w2)) := by
    unfold loadSegments
    rw [bind_get]
    split
    · exact sat_then (sat_onSnd (returns_openSegment h2))
    · refine sat_then (returns_loadEach [] (logBases_sorted w2) (fun b hb => ?_)
        (fun b hb => mem_logBases.mp hb) (Frame.refl _ _) h2)
      rw [hfiles]
      exact hscan b (hbases ▸ hb)
  exact sat_then (sat_runOn (sat_attempt (sat_mono hload (fun _ _ hx => hx) (fun _ _ hx => hx.elim)
    (fun _ hx => hx))))

/-- A segment whose recovery returns. -/
structure Recoverable (T : SegView → Bytes → Prop) (g : SegView) : Prop where
  short : ∀ tail, T g tail → tail.length ≤ recoveryChunkBytes
  good : RunOf Good g.1 g.2
  fits : ∀ r ∈ g.2, r.length ≤ recoveryChunkBytes

/-- **Opening a log returns** on segments of good records. -/
theorem returns_openLog {M : LogMode} {T : SegView → Bytes → Prop} {segs : List SegView}
    (hopen : Openable M T segs w) (hrec : ∀ g ∈ segs, Recoverable T g)
    (h : Undisturbed w) : Returns id (openLog options w) := by
  refine returns_openLog_any (fun b hb => ?_) h
  rw [hopen.disk.logBases_eq] at hb
  obtain ⟨g, hg, rfl⟩ := mem_map.mp hb
  obtain ⟨tail, ht, hdisk⟩ := hopen.disk.files g hg
  obtain ⟨f, hf, hd⟩ := hdisk.log
  refine SegFiles.scan_returns ?_ ((hrec g hg).short tail ht) hdisk.entries
    (hrec g hg).good (hrec g hg).fits
  show w.bytes ⟨g.1, .log⟩ = _
  rw [bytes_of_file hf, hd]

end PulseLog

/-
  Subject:   A partition log over the lives of the processes that open it.

  * `Process`, `step` -- one process at a time has the log open. It is killed between two calls, or
    it dies in one of them; then another one opens the directory as it was left. `Report` is what
    an observer learns from an event;
  * `exactMode` -- the promises of a run without failures, in which neighbouring segments meet
    exactly and only unwritten zeros stand behind the records; `found_exact`, `openable_exact` --
    such a directory can be opened, and recovery finds what was there;
  * `Slices` -- the segments show their parts of a history of records.
-/
import Mathlib.Data.List.Infix
import PulseLog.General.Run
import PulseLog.Storage.LogAppend
import PulseLog.Storage.LogOpen

namespace PulseLog

open List

/-! ## 1. Runs -/

/-- A call on an open log. -/
inductive LogCall where
  | append (b : Batch)
  | truncateTo (offset : Nat)
  | enforceRetention
  | flush
  deriving Repr, DecidableEq

/-- The call; of the results only that of an append is kept. -/
def LogCall.prog : LogCall → Prog Status (PartitionLog × World) (Option AppendResult)
  | .append b => do
    let r ← b.append
    pure (some r)
  | .truncateTo offset => do
    PartitionLog.truncateTo offset
    pure none
  | .enforceRetention => do
    let _ ← PartitionLog.enforceRetention
    pure none
  | .flush => do
    PartitionLog.flush
    pure none

/-- The records an append that returned `r` stored. -/
def Batch.stored (r : AppendResult) : Batch → List Bytes
  | .assign records _ => stampAll r.appendTime r.baseOffset (splitRecords r.recordCount records)
  | .replicate records _ => splitRecords r.recordCount records
  | .vectored chunks _ => splitRecords r.recordCount chunks.flatten

theorem Reports.stored {b : Batch} {o : Nat} {rs : List Bytes} {r : AppendResult}
    (h : Reports b o rs r) : b.stored r = rs := by
  have hst := h.stores
  cases b with
  | assign records n =>
    obtain ⟨rs₀, hb, hf, -, rfl⟩ := hst
    rw [Batch.stored, h.count, length_stampAll, hb, splitRecords_flatten hf, h.base]
  | replicate records n =>
    rw [Batch.stored, h.count, hst.1, splitRecords_flatten (hst.2.framed (fun _ _ hr => hr.framed))]
  | vectored chunks n =>
    rw [Batch.stored, h.count, hst.1, splitRecords_flatten (hst.2.framed (fun _ _ hr => hr.framed))]

namespace LogRun

/-- The directory, and the log of the process that has it open. -/
structure Process where
  log : Option PartitionLog
  world : World

inductive Event where
  | call (c : LogCall) (env : Env)
  | close (env : Env)
  | kill
  | reopen (env : Env)

/-- What an observer learns from an event. -/
inductive Report where
  | quiet
  | appended (b : Batch) (r : AppendResult)
  | died (c : LogCall)
  | opened

def report : LogCall → Option AppendResult → Report
  | .append b, some r => .appended b r
  | _, _ => .quiet

/-- One event. An error leaves the log as the call left it; a call that does not return takes the
    process with it. -/
def step (options : LogOptions) (p : Process) : Event → Process × Report
  | .call c env =>
    match p.log with
    | none => (p, .quiet)
    | some l =>
      match c.prog (l, p.world.under env) with
      | (.ok r, t) => (⟨some t.1, t.2⟩, report c r)
      | (.error _, t) => (⟨some t.1, t.2⟩, .quiet)
      | (.halted, t) => (⟨none, t.2⟩, .died c)
  | .close env =>
    match p.log with
    | none => (p, .quiet)
    | some l => (⟨none, (PartitionLog.close (l, p.world.under env)).2.2⟩, .quiet)
  | .kill => (⟨none, p.world⟩, .quiet)
  | .reopen env =>
    match p.log with
    | some _ => (p, .quiet)
    | none =>
      match PartitionLog.openLog options (p.world.under env) with
      | (.ok r, w) => (⟨some r.1, w⟩, .opened)
      | (_, w) => (⟨none, w⟩, .quiet)

/-- An empty directory that no process has opened. -/
def init : Process := ⟨none, ⟨∅, [], [], [], []⟩⟩

section Rules

variable {options : LogOptions} {l : PartitionLog} {w : World} {env : Env}
  {P : Process × Report → Prop}

theorem step_call {c : LogCall} (h : Sat (fun r t => P (⟨some t.1, t.2⟩, report c r))
    (fun _ t => P (⟨some t.1, t.2⟩, .quiet)) (fun t => P (⟨none, t.2⟩, .died c))
    (c.prog (l, w.under env))) : P (step options ⟨some l, w⟩ (.call c env)) := by
  simp only [step]
  rcases hr : c.prog (l, w.under env) with ⟨r | e | _, t⟩ <;> (rw [hr] at h; exact h)

theorem step_close (h : Sat (fun _ t => P (⟨none, t.2⟩, .quiet))
    (fun _ t => P (⟨none, t.2⟩, .quiet))
    (fun t => P (⟨none, t.2⟩, .quiet)) (PartitionLog.close (l, w.under env))) :
    P (step options ⟨some l, w⟩ (.close env)) := by
  simp only [step]
  rcases hr : PartitionLog.close (l, w.under env) with ⟨r | e | _, t⟩ <;> (rw [hr] at h; exact h)

theorem step_reopen (h : Sat (fun r w' => P (⟨some r.1, w'⟩, .opened))
    (fun _ w' => P (⟨none, w'⟩, .quiet)) (fun w' => P (⟨none, w'⟩, .quiet))
    (PartitionLog.openLog options (w.under env))) : P (step options ⟨none, w⟩ (.reopen env)) := by
  simp only [step]
  rcases hr : PartitionLog.openLog options (w.under env) with ⟨r | e | _, w'⟩ <;>
    (rw [hr] at h; exact h)

end Rules

end LogRun

/-- Nothing that a call meets fails; the process may still die in it. -/
def Env.Calm (env : Env) : Prop := ∀ n e, Fault.fail n e ∉ env.faults

theorem Env.Calm.not_mayFail {env : Env} (h : env.Calm) (w : World) : ¬ MayFail (w.under env) :=
  fun ⟨n, e, hm⟩ => h n e hm

theorem calm_nil (clock : List Int) (space : List (Option Nat)) : Env.Calm ⟨[], clock, space⟩ :=
  fun _ _ h => nomatch h

/-- Records that every later scan and lookup accepts. -/
def Sound (o : Nat) (r : Bytes) : Prop := Good o r ∧ r.length ≤ maxRecordBytes

/-- The leader's batch of records that parse alone and are not too large stores sound records. -/
theorem sound_assign {o n : Nat} {time : Int} {rs rs' : List Bytes}
    (ha : ∀ r ∈ rs, ParsesAlone r ∧ r.length ≤ maxRecordBytes)
    (h : (Batch.assign rs.flatten n).Stores o time rs') : RunOf Sound o rs' := by
  obtain ⟨rfl, ho⟩ := Batch.stores_assign (fun r hr => (ha r hr).1.framed) h
  refine runOf_stampAll time (fun o r ho hr => ⟨good_stamp hr.1 ho, ?_⟩) ho (runOf_of_forall ha)
  rw [stamp, length_rewriteRecordHeader _ _ hr.1.framed.header]
  exact hr.2

/-! ## 2. Directories between two lives -/

section Directories

variable {M : LogMode} {T T' : SegView → Bytes → Prop} {segs : List SegView} {g : SegView} {e : Nat}
  {w : World} {strict : Prop}

theorem diskLog_empty (env : Env) :
    DiskLog M strict T [] ((⟨∅, [], [], [], []⟩ : World).under env) :=
  ⟨by simp, .nil, .nil, fun b hb => by simp [World.file, World.under] at hb,
    fun b _ _ => IndexFormat.kept_nil⟩

theorem DiskLog.mono (h : DiskLog M strict T segs w)
    (hT : ∀ x ∈ segs, ∀ tail, T x tail → T' x tail) : DiskLog M strict T' segs w := by
  refine ⟨fun x hx => ?_, h.listing⟩
  obtain ⟨tail, ht, hd⟩ := h.files x hx
  exact ⟨tail, hT x hx tail ht, hd⟩

/-- **What an open that did not return leaves** is a directory again. -/
theorem Interrupted.diskLog (h : Interrupted M T segs w) (hT : ∀ x tail, M.tail tail → T x tail) :
    ∃ views, (Forall₂ (fun x x' => x' = x ∨ Found T x x') segs views ∨
      segs = [] ∧ views = [(0, [])]) ∧ DiskLog M False T views w := by
  obtain ⟨views, hv, hl⟩ := h
  rcases hv with hv | ⟨hs, rfl, tail, ht, hd⟩
  · refine ⟨views, .inl (hv.imp (fun _ _ hx => hx.view)), fun x hx => ?_, hl⟩
    obtain ⟨x₀, -, hx⟩ := forall₂_exists_left hv hx
    cases hx with
    | kept ht hd => exact ⟨_, ht, hd⟩
    | found _ hd =>
      obtain ⟨tail, ht, hd⟩ := hd
      exact ⟨_, hT _ tail ht, hd⟩
  · refine ⟨_, .inr ⟨hs, rfl⟩, fun x hx => ?_, hl⟩
    rw [mem_singleton.mp hx]
    exact ⟨_, hT _ tail ht, hd⟩

theorem Interrupted.left (h : Interrupted M (fun _ _ => True) segs w) :
    ∃ views, DiskLog M False (fun _ _ => True) views w := by
  obtain ⟨views, -, hd⟩ := h.diskLog (fun _ _ _ => trivial)
  exact ⟨views, hd⟩

/-- **What a process that died leaves** where nothing fails is a directory, possibly with the file
    of a roll in flight. -/
theorem Fallen.diskLog {written : Bytes} (h : Fallen M e segs g written w) (hf : ¬ M.faulty) :
    DiskLog M False (TornTail M g written) (segs ++ [g]) w ∨ e = g.1 + g.2.length ∧
      DiskLog M False (fun _ => M.tail) (segs ++ [g] ++ [(g.1 + g.2.length, [])]) w := by
  obtain ⟨extra, he, hd⟩ := h.residue (fun hm => absurd hm hf)
  rcases he with rfl | ⟨rfl, -, hm | ⟨rfl, rfl⟩⟩
  · exact .inl hd
  · exact absurd hm hf
  · refine .inr ⟨rfl, ?_⟩
    rw [append_assoc]
    refine hd.mono (fun x _ tail ht => ?_)
    rcases ht with ht | ⟨-, t, ht, rfl⟩
    · exact ht
    · exact ht

/-- The same, whatever lies behind the records. -/
theorem Fallen.left {written : Bytes} (h : Fallen M e segs g written w) (hf : ¬ M.faulty) :
    ∃ views, DiskLog M False (fun _ _ => True) views w := by
  rcases h.diskLog hf with hd | ⟨-, hd⟩
  · exact ⟨_, hd.mono (fun _ _ _ _ => trivial)⟩
  · exact ⟨_, hd.mono (fun _ _ _ _ => trivial)⟩

/-- Where a run promises no more than framed records, every directory can be opened. -/
theorem openable_framed (h : DiskLog M False (fun _ _ => True) segs w)
    (hrecord : ∀ o r, Framed r → M.record o r) (hstrict : ¬ M.strict) (hlink : ∀ x b, M.link x b)
    (hsync : M.durable → ∀ x ∈ segs, ∀ f, w.file ⟨x.1, .log⟩ = some f → f.unsynced = [])
    (hc : MayFail w → M.faulty) : Openable M (fun _ _ => True) segs w := by
  have hdisk : DiskLog M M.strict (fun _ _ => True) segs w := by
    rw [eq_false hstrict]
    exact h
  refine ⟨hdisk, fun x hx tail _ recs' rest hr => ⟨?_, fun hs => absurd hs hstrict⟩,
    fun views _ => (isChain_isInfix views).imp (fun x y _ => hlink x y.1), hsync, hc⟩
  obtain ⟨_, -, hd⟩ := h.files x hx
  exact (runOf_of_forall (hr.framed (hd.run.framed M.framed))).mono hrecord

end Directories

/-! ## 3. Views of a history

The history of a log is the list of all its records from offset 0 on. -/

/-- A run of records of the history is a part of it. -/
theorem prefix_of_runOf {history rs : List Bytes} {o : Nat}
    (h : RunOf (fun o r => history[o]? = some r) o rs) : rs <+: history.drop o := by
  induction rs generalizing o with
  | nil => exact nil_prefix
  | cons r rs ih =>
    obtain ⟨hlt, hget⟩ := List.getElem?_eq_some_iff.mp h.1
    rw [drop_eq_getElem_cons hlt, hget]
    exact cons_prefix_cons.mpr ⟨rfl, ih h.2⟩

/-- Every segment shows its part of the history. -/
def Slices (views : List SegView) (history : List Bytes) : Prop :=
  ∀ x ∈ views, x.2 <+: history.drop x.1

section Slices

variable {views segs segs' : List SegView} {g g' : SegView} {history more : List Bytes}

theorem Slices.get (h : Slices views history) {x : SegView} (hx : x ∈ views) {i : Nat} {r : Bytes}
    (hr : x.2[i]? = some r) : history[x.1 + i]? = some r := by
  obtain ⟨t, ht⟩ := h x hx
  rw [← getElem?_drop, ← ht, getElem?_append_left (List.getElem?_eq_some_iff.mp hr).1, hr]

theorem Slices.extend (h : Slices views history) (hp : history <+: more) : Slices views more :=
  fun x hx => (h x hx).trans (hp.drop x.1)

/-- The last segment grows by what follows it in the history. -/
theorem Slices.grow {ex : List Bytes} (h : Slices (views ++ [g]) history)
    (hex : ex <+: history.drop (g.1 + g.2.length)) :
    Slices (views ++ [(g.1, g.2 ++ ex)]) history := by
  intro x hx
  rcases mem_append.mp hx with hx | hx
  · exact h x (mem_append_left _ hx)
  · rw [mem_singleton.mp hx]
    obtain ⟨t, ht⟩ := h g (by simp)
    have hd : history.drop (g.1 + g.2.length) = t := by
      rw [← drop_drop, ← ht, drop_left]
    rw [hd] at hex
    rw [← ht]
    exact (prefix_append_right_inj g.2).mpr hex

theorem Rolled.slices (h : Rolled segs g segs' g') (hs : Slices (segs ++ [g]) history) :
    Slices (segs' ++ [g']) history := by
  cases h with
  | same => exact hs
  | next _ =>
    intro x hx
    rcases mem_append.mp hx with hx | hx
    · exact hs x hx
    · rw [mem_singleton.mp hx]
      exact nil_prefix

/-- The last segment with all of the batch. -/
theorem Slices.push (hs : Slices (segs ++ [g]) history) (he : g.1 + g.2.length = history.length)
    (rs : List Bytes) : Slices (segs ++ [(g.1, g.2 ++ rs)]) (history ++ rs) ∧
      g.1 + (g.2 ++ rs).length = (history ++ rs).length := by
  refine ⟨(hs.extend (prefix_append _ rs)).grow ?_, ?_⟩
  · rw [he, drop_left]
  · rw [length_append, length_append]
    omega

/-- Where neighbours meet exactly no segment goes beyond the last. -/
theorem ends_le (hc : (views ++ [g]).IsChain (fun x y => y.1 = x.1 + x.2.length)) :
    ∀ x ∈ views ++ [g], x.1 + x.2.length ≤ g.1 + g.2.length := by
  induction views with
  | nil =>
    intro x hx
    rw [mem_singleton.mp hx]
  | cons y ys ih =>
    have htail : (ys ++ [g]).IsChain (fun x y => y.1 = x.1 + x.2.length) :=
      (isChain_cons.mp hc).2
    intro x hx
    rcases mem_cons.mp hx with rfl | hx
    · obtain ⟨z, hz⟩ : ∃ z, (ys ++ [g]).head? = some z := by cases ys <;> exact ⟨_, rfl⟩
      have hnext := (isChain_cons.mp hc).1 z hz
      have := ih htail z (mem_of_head? hz)
      omega
    · exact ih htail x hx

/-- **The records of the segments are the end of the history.** -/
theorem Slices.flatten (h : Slices (views ++ [g]) history)
    (hc : (views ++ [g]).IsChain (fun x y => y.1 = x.1 + x.2.length))
    (he : g.1 + g.2.length = history.length) :
    ((views ++ [g]).map Prod.snd).flatten = history.drop (viewStart (views ++ [g])) := by
  induction views with
  | nil =>
    have hp := h g (by simp)
    have hl : g.2.length = (history.drop g.1).length := by
      rw [length_drop]
      omega
    simpa [viewStart] using hp.eq_of_length hl
  | cons x xs ih =>
    have ht := ih (fun y hy => h y (mem_cons_of_mem _ hy)) (isChain_cons.mp hc).2
    have hnext : viewStart (xs ++ [g]) = x.1 + x.2.length := by
      cases xs with
      | nil => exact (isChain_cons.mp hc).1 g rfl
      | cons y ys => exact (isChain_cons.mp hc).1 y rfl
    rw [cons_append, map_cons, flatten_cons, ht, hnext, ← drop_drop]
    obtain ⟨t, hxt⟩ := h x (by simp)
    show x.2 ++ (history.drop x.1).drop x.2.length = history.drop x.1
    rw [← hxt, drop_left]

/-- A history can be cut behind the last segment. -/
theorem Slices.cut (h : Slices (views ++ [g]) history)
    (hc : (views ++ [g]).IsChain (fun x y => y.1 = x.1 + x.2.length)) :
    Slices (views ++ [g]) (history.take (g.1 + g.2.length)) := by
  intro x hx
  have hle := ends_le hc x hx
  rw [drop_take]
  exact prefix_take_iff.mpr ⟨h x hx, by omega⟩

end Slices

/-! ## 4. Runs without failures -/

/-- The promises of a run without failures, with records `P` and preallocation `pre`. -/
def exactMode (P : Nat → Bytes → Prop) (hP : ∀ o r, P o r → Good o r) (pre : Bool) (strict : Prop) :
    LogMode where
  record := P
  framed := fun o r h => (hP o r h).alone.framed
  tail := fun t => ∃ n, t = zeros n ∧ (pre = false → n = 0)
  tail_nil := ⟨0, rfl, fun _ => rfl⟩
  tail_drop := by
    rintro _ k ⟨n, rfl, hn⟩
    exact ⟨n - k, drop_zeros k n, fun hp => by rw [hn hp, Nat.zero_sub]⟩
  strict := strict
  durable := False
  link := fun g b => b = g.1 + g.2.length
  link_roll := fun _ _ => rfl
  shared := False
  faulty := False

theorem exactMode_spare {P : Nat → Bytes → Prop} {hP : ∀ o r, P o r → Good o r} {strict : Prop}
    (options : LogOptions) (n : Nat) (hn : options.preallocate = false → n = 0) :
    (exactMode P hP options.preallocate strict).tail (zeros n) := ⟨n, rfl, hn⟩

section Exact

variable {P : Nat → Bytes → Prop} {hP : ∀ o r, P o r → Good o r} {pre : Bool}
  {strict strict' : Prop} {T : SegView → Bytes → Prop} {segs views : List SegView} {w : World}

/-- In front of bytes that are no record recovery finds the segments there were. -/
theorem found_exact (h : DiskLog (exactMode P hP pre strict) strict' T segs w)
    (hT : ∀ g tail, T g tail → NoRecord (g.1 + g.2.length) tail)
    (hv : Forall₂ (fun x x' => x' = x ∨ Found T x x') segs views) : segs = views := by
  refine forall₂_eq_eq_eq ▸ forall₂_imp_left hv (fun x y hx hxy => ?_)
  rcases hxy with rfl | hf
  · rfl
  · obtain ⟨tail, -, hd⟩ := h.files x hx
    exact (hf.eq (hd.run.mono hP) (hT x)).symm

/-- And the directory can be opened. -/
theorem openable_exact (h : DiskLog (exactMode P hP pre strict) strict T segs w)
    (hT : ∀ g tail, T g tail → NoRecord (g.1 + g.2.length) tail) (hc : ¬ MayFail w) :
    Openable (exactMode P hP pre strict) T segs w := by
  refine ⟨h, fun x hx tail ht recs' rest hr => ?_, fun views hv => ?_, fun hd => hd.elim,
    fun hm => absurd hm hc⟩
  · obtain ⟨tail', -, hd⟩ := h.files x hx
    rw [(hr.exact (hd.run.mono hP) (hT x tail ht)).1]
    exact ⟨hd.run, fun _ => le_rfl⟩
  · rw [← found_exact h hT hv]
    exact h.listing.chain

end Exact

/-! ## 5. A small log

For runs on fixed inputs. -/

/-- Options with segments of 32 bytes. -/
def smallSegments (preallocate : Bool) : LogOptions :=
  ⟨32, 0, 4096, 0, 0, 0, preallocate, ⟨false, 0, 0, 0⟩⟩

/-- A record without key and value, at offset 0 and with the checksum field left zero. -/
def bareRecord : Bytes := storeLe 4 23 ++ zeros 23

theorem bareRecord_alone : ParsesAlone bareRecord :=
  ⟨⟨by decide +kernel, by decide +kernel, by decide +kernel⟩, by decide +kernel⟩

theorem bareRecord_length_le : bareRecord.length ≤ maxRecordBytes := by decide +kernel

end PulseLog

/-
  Subject:   Concurrent calls of `PartitionManager::OpenPartition` for one partition
             (src/broker/partition_manager.cc), with appends through the replica in the map.

  A call looks the partition up under the shared lock, opens and recovers the log with no lock
  held, and inserts under the exclusive lock; the call that finds the map filled destroys its own
  log, whose destructor closes it. The steps of any number of calls interleave.

  * **`kept_of_calm`** -- without preallocation, on an undamaged directory, for batches of good
    records, nothing that was appended is lost;
  * `preallocated_record_lost` -- with preallocation the loser's close cuts the file to the end it
    saw when it opened it.
-/
import PulseLog.Broker.PartitionReplica
import PulseLog.General.Run
import PulseLog.Storage.LogAppend
import PulseLog.Storage.LogOpen

namespace PulseLog

open List

/-! ## 1. Closing a log with nothing to sync -/

/-- A log whose close touches no file. -/
def Still (l : PartitionLog) : Prop :=
  ∀ s ∈ l.segments, s.endPosition = s.syncedPosition ∧ s.preallocatedTo ≤ s.endPosition

theorem sat_close_still {l : PartitionLog} {w : World} (h : Still l) :
    Sat (fun _ t => t.2 = w) (fun _ _ => False) (fun _ => False)
      (PartitionLog.close.attempt (l, w)) :=
  sat_attempt (sat_closeIdle fun s hs => ⟨(h s hs).1.symm, (h s hs).2⟩)

namespace OpenPartition

/-! ## 2. The calls -/

/-- A call of `OpenPartition` between two of its steps. -/
inductive Call where
  | idle
  | missed
  | opened (log : PartitionLog)
  | returned
  | stuck

/-- An append that returned: where the bytes went, the batch, and the offset and time it got. -/
structure Accepted where
  base : Nat
  position : Nat
  batch : Batch
  offset : Nat
  time : Int
  deriving Repr, DecidableEq

/-- The directory, the map entry of the partition, and the calls. -/
structure State where
  world : World
  entry : Option PartitionLog
  calls : Nat → Call
  accepted : List Accepted
  crashed : Bool

def init (w : World) : State := ⟨w, none, fun _ => .idle, [], false⟩

def State.setCall (s : State) (i : Nat) (c : Call) : State :=
  { s with calls := Function.update s.calls i c }

inductive Event where
  | lookUp (i : Nat)
  | openAndRecover (i : Nat) (env : Env)
  | insertOrDiscard (i : Nat) (env : Env)
  | append (b : Batch) (env : Env)

/-- The place of the last append: the end of the active segment. -/
def place (l : PartitionLog) (b : Batch) (r : AppendResult) : List Accepted :=
  ((l.active.bind (fun id => l.segments.find? (fun s => s.id == id))).map (fun s =>
    ⟨s.baseOffset, s.endPosition - b.bytes.length, b, r.baseOffset, r.appendTime⟩)).toList

/-- One step. A recovery that never returns blocks its own call only; an append that does not
    return takes the process with it. -/
def act (options : LogOptions) (s : State) : Event → State
  | .lookUp i =>
    match s.calls i with
    | .idle => s.setCall i (if s.entry.isSome then .returned else .missed)
    | _ => s
  | .openAndRecover i env =>
    match s.calls i with
    | .missed =>
      match PartitionLog.openLog options (s.world.under env) with
      | (.ok r, w) => { s with world := w }.setCall i (.opened r.1)
      | (.error _, w) => { s with world := w }.setCall i .returned
      | (.halted, w) => { s with world := w }.setCall i .stuck
    | _ => s
  | .insertOrDiscard i env =>
    match s.calls i with
    | .opened l =>
      match s.entry with
      | none => { s with entry := some l }.setCall i .returned
      | some _ =>
        -- the loser's log is destroyed, and its destructor closes it
        match PartitionLog.close.attempt (l, s.world.under env) with
        | (.halted, t) => { s with world := t.2 }.setCall i .stuck
        | (_, t) => { s with world := t.2 }.setCall i .returned
    | _ => s
  | .append b env =>
    match s.entry with
    | none => s
    | some l =>
      match b.append (l, s.world.under env) with
      | (.ok r, t) =>
        { s with world := t.2, entry := some t.1, accepted := s.accepted ++ place t.1 b r }
      | (.error _, t) => { s with world := t.2, entry := some t.1 }
      | (.halted, t) => { s with world := t.2, crashed := true }

def step (options : LogOptions) (s : State) (e : Event) : State :=
  if s.crashed then s else act options s e

def run (options : LogOptions) (w : World) (es : List Event) : State :=
  es.foldl (step options) (init w)

/-- The file holds the records of the append where they were written. -/
def KeptAt (w : World) (a : Accepted) : Prop :=
  ∃ rs, a.batch.Stores a.offset a.time rs ∧
    slice (w.bytes ⟨a.base, .log⟩) a.position rs.flatten.length = rs.flatten

/-- **No record of an append that returned is lost or altered.** -/
def Kept (s : State) : Prop := ∀ a ∈ s.accepted, KeptAt s.world a

/-! ## 3. The directory -/

/-- The promises of a run: every record parses alone, and nothing lies behind the records. -/
def mode : LogMode where
  record := Good
  framed := fun _ _ h => h.alone.framed
  tail := fun t => t = []
  tail_nil := rfl
  tail_drop := fun t k h => by rw [h, drop_nil]
  strict := False
  durable := False
  link := fun _ _ => True
  link_roll := fun _ _ => trivial
  shared := True
  faulty := False

/-- Torn bytes behind the records of a segment: no record stands at their head. -/
def Tailed (g : SegView) (tail : Bytes) : Prop := NoRecord (g.1 + g.2.length) tail

/-- A directory as a log leaves it, even one whose process died in an append. -/
def Undamaged (w : World) : Prop := ∃ segs, DiskLog mode False Tailed segs w

/-- A directory with nothing behind the records. -/
def Clean (segs : List SegView) (w : World) : Prop :=
  DiskLog mode False (fun _ tail => tail = []) segs w

section Directory

variable {T : SegView → Bytes → Prop} {segs : List SegView} {g g' : SegView} {e : Nat}
  {l : PartitionLog} {w w' : World}

theorem tailed_nil {g : SegView} {tail : Bytes} (h : tail = []) : Tailed g tail := by
  rw [h]
  exact noRecord_nil _

theorem isChain_link : ∀ views : List SegView, views.IsChain (fun g g' => mode.link g g'.1)
  | [] => .nil
  | [g] => .singleton g
  | _ :: g :: views => .cons_cons trivial (isChain_link (g :: views))

theorem openable (hT : ∀ g tail, T g tail → Tailed g tail) (h : DiskLog mode False T segs w)
    (hc : w.faults = []) : Openable mode T segs w := by
  refine ⟨h, fun g hg tail ht recs' rest hr => ?_, fun views _ => isChain_link views,
    fun hd => hd.elim, fun hm => absurd hm (not_mayFail hc)⟩
  obtain ⟨tail', -, hd⟩ := h.files g hg
  rw [(hr.exact hd.run (hT g tail ht)).1]
  exact ⟨hd.run, fun hs => hs.elim⟩

/-- Recovery cuts nothing off a clean directory. -/
theorem Clean.whole (h : Clean segs w) : ∀ g ∈ segs, Whole (fun _ tail => tail = []) g := by
  intro g hg tail recs' rest ht hr
  obtain ⟨tail', -, hd⟩ := h.files g hg
  rw [(hr.exact hd.run (tailed_nil ht)).2, ht]

theorem Clean.sameRecords (h : Clean segs w) (hs : SameRecords w w') : Clean segs w' := by
  refine ⟨fun x hx => ?_, h.listing.sorted, h.listing.chain, fun b hb => ?_, fun b hle hn => ?_⟩
  · obtain ⟨tail, ht, hd⟩ := h.files x hx
    obtain ⟨f, hf, hdata⟩ := hd.log
    have hlog := hs.logs x.1
    rw [hf, Option.map_some, Option.map_eq_some_iff] at hlog
    obtain ⟨f', hf', hdata'⟩ := hlog
    exact ⟨tail, ht, ⟨f', hf', by rw [hdata', hdata]⟩, hd.run, by
      rw [(hs.index x.1).kept]; exact hd.entries⟩
  · refine h.listing.logs b ?_
    rw [← Option.isSome_map, ← hs.logs b, Option.isSome_map]
    exact hb
  · rw [(hs.index b).kept]
    exact h.listing.fresh b hle hn

/-- The directory under an open log. -/
theorem clean_of_logInv (h : LogInv mode e segs g l w) : Clean (segs ++ [g]) w := by
  obtain ⟨olds, a, -, -, hold, ha⟩ := h.objects
  refine ⟨fun x hx => ?_, h.listing.mono (fun _ hb => hb.1)⟩
  rcases mem_append.mp hx with hx | hx
  · exact hold.disk x hx
  · rw [mem_singleton.mp hx]
    obtain ⟨tail, ht, hd⟩ := ha.holds.disk
    rw [ha.base_eq] at hd
    exact ⟨tail, ht, hd⟩

end Directory

/-! ## 4. The records of the appends that returned -/

/-- The records of the append are among those of a segment, at the place noted. -/
def Located (views : List SegView) (a : Accepted) : Prop :=
  ∃ x ∈ views, x.1 = a.base ∧ ∃ pre rs post, x.2 = pre ++ rs ++ post ∧
    pre.flatten.length = a.position ∧ a.batch.Stores a.offset a.time rs

/-- Every segment is still there, with at least the records it had. -/
def Grows (views views' : List SegView) : Prop := ∀ x ∈ views, ∃ x' ∈ views',
    x'.1 = x.1 ∧ x.2 <+: x'.2

section Located

variable {segs segs' views views' : List SegView} {g g' : SegView} {a : Accepted} {w : World}

theorem Located.grows (h : Located views a) (hg : Grows views views') : Located views' a := by
  obtain ⟨x, hx, hb, pre, rs, post, he, hp, hst⟩ := h
  obtain ⟨x', hx', hb', more, hm⟩ := hg x hx
  exact ⟨x', hx', hb'.trans hb, pre, rs, post ++ more, by rw [← hm, he]; simp, hp, hst⟩

theorem grows_rolled {rs : List Bytes} (h : Rolled segs g segs' g') :
    Grows (segs ++ [g]) (segs' ++ [(g'.1, g'.2 ++ rs)]) := by
  intro x hx
  cases h with
  | same =>
    rcases mem_append.mp hx with hx | hx
    · exact ⟨x, mem_append_left _ hx, rfl, prefix_rfl⟩
    · rw [mem_singleton.mp hx]
      exact ⟨_, mem_append_right _ mem_cons_self, rfl, prefix_append _ _⟩
  | next => exact ⟨x, mem_append_left _ hx, rfl, prefix_rfl⟩

/-- The files of the segments, with whatever lies behind the records, hold the append. -/
theorem Located.keptAt (h : Located views a) (hd : ∀ x ∈ views, ∃ tail f,
    w.file ⟨x.1, .log⟩ = some f ∧ f.data = x.2.flatten ++ tail) : KeptAt w a := by
  obtain ⟨x, hx, hb, pre, rs, post, he, hp, hst⟩ := h
  obtain ⟨tail, f, hf, hdata⟩ := hd x hx
  refine ⟨rs, hst, ?_⟩
  rw [← hb, IndexFormat.bytes_of_file hf, hdata, he, ← hp, flatten_append, flatten_append,
    append_assoc _ _ tail]
  have hmid := slice_mid pre.flatten rs.flatten (post.flatten ++ tail) 0 rs.flatten.length (by simp)
  rw [Nat.add_zero] at hmid
  rw [hmid, slice_zero, take_length]

/-- The place noted for an append is where its records are. -/
theorem located_place {e : Nat} {l : PartitionLog} {b : Batch} {r : AppendResult} {rs : List Bytes}
    (h : LogInv mode e segs (g.1, g.2 ++ rs) l w) (hst : b.Stores r.baseOffset r.appendTime rs) :
    ∀ a ∈ place l b r, Located (segs ++ [(g.1, g.2 ++ rs)]) a := by
  obtain ⟨olds, s, hl, hact, -, hs⟩ := h.objects
  have hp : place l b r =
      [⟨s.baseOffset, s.endPosition - b.bytes.length, b, r.baseOffset, r.appendTime⟩] := by
    unfold place
    rw [hact, Option.bind_some, find_active hl h.ids]
    rfl
  intro a ha
  rw [hp, mem_singleton] at ha
  subst ha
  refine ⟨_, mem_append_right _ mem_cons_self, hs.base_eq.symm, g.2, rs, [], by simp, ?_, hst⟩
  rw [hs.holds.ends, flatten_append, length_append, hst.length, Nat.add_sub_cancel]

end Located

/-! ## 5. The invariant -/

/-- The state once a log was opened: `segs` and `g` are what the directory holds. -/
structure Live (segs : List SegView) (g : SegView) (s : State) : Prop where
  clean : Clean (segs ++ [g]) s.world
  winner : ∀ l, s.entry = some l → ∀ w, w.dir = s.world.dir → w.faults = [] →
    LogInv mode (g.1 + g.2.length) segs g l w
  candidate : s.entry = none → ∀ i l, s.calls i = .opened l → ∀ w, w.dir = s.world.dir →
    w.faults = [] → LogInv mode (g.1 + g.2.length) segs g l w
  still : ∀ i l, s.calls i = .opened l → Still l
  located : ∀ a ∈ s.accepted, Located (segs ++ [g]) a

/-- **The invariant**: nobody has opened the log, or it is open, or the process is gone. -/
inductive Quiet (s : State) : Prop
  | unopened (hd : Undamaged s.world) (he : s.entry = none) (hc : ∀ i l, s.calls i ≠ .opened l)
      (ha : s.accepted = [])
  | live (segs : List SegView) (g : SegView) (h : Live segs g s)
  | crashed (hc : s.crashed = true) (hk : Kept s)

theorem Quiet.kept {s : State} (h : Quiet s) : Kept s := by
  intro a ha
  cases h with
  | unopened _ _ _ hnil =>
    rw [hnil] at ha
    cases ha
  | live segs g h =>
    refine (h.located a ha).keptAt (fun x hx => ?_)
    obtain ⟨tail, -, hd⟩ := h.clean.files x hx
    exact ⟨tail, hd.log⟩
  | crashed _ hk => exact hk a ha

section Steps

variable {segs : List SegView} {g : SegView} {s : State} {i : Nat} {c : Call} {l : PartitionLog}
  {w' : World} {options : LogOptions} {env : Env}

theorem setCall_cases {j : Nat} {d : Call} (h : (s.setCall i c).calls j = d) :
    j = i ∧ c = d ∨ s.calls j = d := by
  change Function.update s.calls i c j = d at h
  by_cases hj : j = i
  · subst hj
    rw [Function.update_self] at h
    exact .inl ⟨rfl, h⟩
  · rw [Function.update_of_ne hj] at h
    exact .inr h

theorem setCall_opened {j : Nat} (hne : ∀ l, c ≠ .opened l)
    (h : (s.setCall i c).calls j = .opened l) : s.calls j = .opened l :=
  (setCall_cases h).resolve_left (fun h0 => hne l h0.2)

theorem Live.setCall (h : Live segs g s) (hne : ∀ l, c ≠ .opened l) : Live segs g (s.setCall i c) :=
  ⟨h.clean, h.winner, fun he j l hj => h.candidate he j l (setCall_opened hne hj),
    fun j l hj => h.still j l (setCall_opened hne hj), h.located⟩

/-- A call that opened the log as the directory has it. -/
theorem Live.setOpened (h : Live segs g s) (hst : Still l)
    (hl : s.entry = none → ∀ w, w.dir = s.world.dir → w.faults = [] →
      LogInv mode (g.1 + g.2.length) segs g l w) : Live segs g (s.setCall i (.opened l)) := by
  refine ⟨h.clean, h.winner, fun he j l' hj => ?_, fun j l' hj => ?_, h.located⟩
  · rcases setCall_cases hj with ⟨-, hc⟩ | hj
    · cases hc
      exact hl he
    · exact h.candidate he j l' hj
  · rcases setCall_cases hj with ⟨-, hc⟩ | hj
    · cases hc
      exact hst
    · exact h.still j l' hj

/-- Work on the files that leaves the records alone. -/
theorem Live.sameRecords (h : Live segs g s) (hs : SameRecords s.world w') :
    Live segs g { s with world := w' } := by
  have hlog : ∀ {l}, (∀ w, w.dir = s.world.dir → w.faults = [] →
      LogInv mode (g.1 + g.2.length) segs g l w) → ∀ w, w.dir = w'.dir → w.faults = [] →
      LogInv mode (g.1 + g.2.length) segs g l w := by
    intro l hl w hw hf
    have hdir : SameRecords (s.world.under ⟨[], [], []⟩) s.world := .of_dir rfl
    exact (hl (s.world.under ⟨[], [], []⟩) rfl rfl).sameRecords (hdir.trans (hs.trans (.of_dir hw)))
      id id (fun hm => (not_mayFail hf hm).elim)
  exact ⟨h.clean.sameRecords hs, fun l he => hlog (h.winner l he),
    fun he j l hj => hlog (h.candidate he j l hj), h.still, h.located⟩

theorem still_of_openLog {T : SegView → Bytes → Prop} {segs' : List SegView}
    (h : OpenLog mode T segs' segs g l w') (hp : l.options.preallocate = false) : Still l := by
  intro x hx
  exact ⟨(h.synced x hx).symm, le_of_eq (h.reach (.inr hp) x hx)⟩

/-- An open that did not return has left an undamaged directory undamaged. -/
theorem undamaged_of_interrupted {segs' : List SegView} (h : Interrupted mode Tailed segs' w') :
    Undamaged w' := by
  obtain ⟨views, hv, hlist⟩ := h
  refine ⟨views, fun x hx => ?_, hlist⟩
  rcases hv with hv | ⟨-, rfl, tail, rfl, ht⟩
  · obtain ⟨y, hy, hyx⟩ := forall₂_exists_left hv hx
    cases hyx with
    | kept ht hseg => exact ⟨_, ht, hseg⟩
    | found hf hseg =>
      obtain ⟨tail, rfl, hseg⟩ := hseg
      exact ⟨_, tailed_nil rfl, hseg⟩
  · rw [mem_singleton.mp hx]
    exact ⟨_, tailed_nil rfl, ht⟩

theorem spare_of_off (hpre : options.preallocate = false) :
    ∀ n, (options.preallocate = false → n = 0) → mode.tail (zeros n) := by
  intro n hn
  rw [hn hpre]
  rfl

/-- **The first open** finds the records there were and cuts the torn bytes. -/
theorem quiet_open_first (hpre : options.preallocate = false) (hd : Undamaged s.world)
    (he : s.entry = none) (hc : ∀ i l, s.calls i ≠ .opened l) (ha : s.accepted = [])
    (hi : s.calls i = .missed) (hf : env.faults = []) :
    Quiet (act options s (.openAndRecover i env)) := by
  obtain ⟨segs, hd⟩ := hd
  have hop : Openable mode Tailed segs (s.world.under env) :=
    openable (fun _ _ h => h) (hd.of_dir rfl) hf
  have h := sat_openLog hop (spare_of_off hpre)
  simp only [act, hi]
  rcases hr : PartitionLog.openLog options (s.world.under env) with ⟨r | e | _, w'⟩ <;> rw [hr] at h
  · obtain ⟨hopt, ⟨views, g, hO⟩, -⟩ := h
    have hlive : Live views g { s with world := w' } := by
      refine ⟨clean_of_logInv (hO.inv 0), fun l hl => ?_, fun _ j l hj => absurd hj (hc j l),
        fun j l hj => absurd hj (hc j l), fun a hm => ?_⟩
      · rw [he] at hl
        cases hl
      · rw [ha] at hm
        cases hm
    refine .live views g (hlive.setOpened (still_of_openLog hO (by rw [hopt, hpre])) ?_)
    exact fun _ w hw hfw => (hO.inv _).of_dir hw (fun hm => (not_mayFail hfw hm).elim)
  · exact (not_mayFail hf h.2).elim
  · exact .unopened (undamaged_of_interrupted h.1) he
      (fun j l hj => hc j l (setCall_opened (by simp) hj)) ha

/-- **A further open** changes no record. -/
theorem quiet_open_again (hpre : options.preallocate = false) (hlive : Live segs g s)
    (hi : s.calls i = .missed) (hf : env.faults = []) :
    Quiet (act options s (.openAndRecover i env)) := by
  have hclean : Clean (segs ++ [g]) (s.world.under env) := hlive.clean.of_dir rfl
  have hop := openable (fun _ _ ht => tailed_nil ht) hclean hf
  have h := sat_openLog hop (spare_of_off hpre)
  have hne : segs ++ [g] ≠ [] := by simp
  have hdir : SameRecords s.world (s.world.under env) := .of_dir rfl
  simp only [act, hi]
  rcases hr : PartitionLog.openLog options (s.world.under env) with ⟨r | e | _, w'⟩ <;> rw [hr] at h
  · obtain ⟨hopt, ⟨views, g', hO⟩, hsame⟩ := h
    have heq : segs ++ [g] = views ++ [g'] := by
      rcases hO.found with ⟨h0, -⟩ | hF
      · exact absurd h0 hne
      · refine forall₂_eq_eq_eq ▸ forall₂_imp_left hF (fun x y hx hxy => ?_)
        obtain ⟨tail, -, hd⟩ := hclean.files x hx
        exact (hxy.eq hd.run (fun _ ht => tailed_nil ht)).symm
    obtain ⟨rfl, hg⟩ := append_inj' heq rfl
    cases hg
    refine .live segs g ((hlive.sameRecords (hdir.trans (hsame hne hclean.whole))).setOpened
      (still_of_openLog hO (by rw [hopt, hpre])) ?_)
    exact fun _ w hw hfw => (hO.inv _).of_dir hw (fun hm => (not_mayFail hfw hm).elim)
  · exact (not_mayFail hf h.2).elim
  · rcases h.2 hne hclean.whole with hsame | hm
    · exact .live segs g ((hlive.sameRecords (hdir.trans hsame)).setCall (by simp))
    · exact (not_mayFail hf hm).elim

theorem quiet_insert (hlive : Live segs g s) (hi : s.calls i = .opened l) :
    Quiet (act options s (.insertOrDiscard i env)) := by
  simp only [act, hi]
  cases he : s.entry with
  | none =>
    have hin : Live segs g { s with entry := some l } := by
      refine ⟨hlive.clean, fun l' hl' => ?_, (fun h0 => nomatch h0), hlive.still, hlive.located⟩
      cases hl'
      exact hlive.candidate he i l hi
    exact .live segs g (hin.setCall (by simp))
  | some l₀ =>
    have h := sat_close_still (w := s.world.under env) (hlive.still i l hi)
    dsimp only
    rcases hr : PartitionLog.close.attempt (l, s.world.under env) with ⟨r | e | _, t⟩ <;>
      rw [hr] at h
    · have hw : t.2 = s.world.under env := h
      have hdir : SameRecords s.world t.2 := .of_dir (by rw [hw]; rfl)
      rw [← he]
      exact .live segs g ((hlive.sameRecords hdir).setCall (by simp))
    · exact h.elim
    · exact h.elim

theorem quiet_append {b : Batch} (hlive : Live segs g s) (he : s.entry = some l)
    (hf : env.faults = []) (hadm : mode.Admits b) : Quiet (act options s (.append b env)) := by
  have hinv : LogInv mode (g.1 + g.2.length) segs g l (s.world.under env) :=
    hlive.winner l he _ rfl hf
  have h := sat_append hinv False.elim hadm (.inr ⟨trivial, id⟩)
  have hmoved : ∀ rs acc {segs' g' l' w'}, Rolled segs g segs' g' →
      LogInv mode (g.1 + g.2.length) segs' (g'.1, g'.2 ++ rs) l' w' →
      (∀ a ∈ acc, Located (segs' ++ [(g'.1, g'.2 ++ rs)]) a) →
      Quiet { s with world := w', entry := some l', accepted := s.accepted ++ acc } := by
    intro rs acc segs' g' l' w' hroll hl' hacc
    refine .live segs' (g'.1, g'.2 ++ rs) ⟨clean_of_logInv hl', fun l₁ h₁ w hw hfw => ?_,
      (fun h0 => nomatch h0), hlive.still, fun a ha => ?_⟩
    · cases h₁
      exact (hl'.of_dir hw (fun hm => (not_mayFail hfw hm).elim)).retarget (fun hfa => hfa.elim)
    · rcases mem_append.mp ha with ha | ha
      · exact (hlive.located a ha).grows (grows_rolled hroll)
      · exact hacc a ha
  simp only [act, he]
  rcases hr : b.append (l, s.world.under env) with ⟨r | e | _, t⟩ <;> rw [hr] at h
  · obtain ⟨rs, hrep, segs', g', hroll, hl'⟩ := h
    refine hmoved rs _ hroll hl' (located_place hl' ?_)
    rw [hrep.base]
    exact hrep.stores
  · rcases h with ⟨segs', g', hroll, hl'⟩ | ⟨hfa, -⟩
    · have hsame := hmoved [] [] hroll (by rw [append_nil]; exact hl') (by simp)
      rwa [append_nil] at hsame
    · exact hfa.elim
  · -- the process died: whatever it left behind the records, they are there
    have hkept : ∀ rs {segs' g' written},
        Rolled segs g segs' g' →
        Fallen mode (g.1 + g.2.length) segs' (g'.1, g'.2 ++ rs) written t.2 →
        ∀ a ∈ s.accepted, KeptAt t.2 a := by
      intro rs segs' g' written hroll hfall a ha
      have hloc : Located (segs' ++ [(g'.1, g'.2 ++ rs)]) a :=
        (hlive.located a ha).grows (grows_rolled hroll)
      refine hloc.keptAt (fun x hx => ?_)
      obtain ⟨tail, -, hd⟩ := hfall.files x hx
      exact ⟨tail, hd.log⟩
    refine .crashed rfl ?_
    obtain ⟨segs', g', hroll, hfall | ⟨time, rs, -, ⟨k, hfall⟩ | hfall⟩⟩ := h
    · exact hkept [] hroll (by rw [append_nil]; exact hfall)
    · exact hkept [] hroll (by rw [append_nil]; exact hfall)
    · exact hkept rs hroll hfall

end Steps

/-! ## 6. Runs -/

/-- An event whose file operations succeed; the records of a batch parse alone and carry valid
    checksums once stored. -/
def Calm : Event → Prop
  | .lookUp _ => True
  | .openAndRecover _ env => env.faults = []
  | .insertOrDiscard _ env => env.faults = []
  | .append b env => env.faults = [] ∧ ∀ o t rs, b.Stores o t rs → RunOf Good o rs

theorem quiet_act {options : LogOptions} (hpre : options.preallocate = false) {s : State}
    {e : Event} (h : Quiet s) (hc : s.crashed = false) (he : Calm e) : Quiet (act options s e) := by
  cases e with
  | lookUp i =>
    simp only [act]
    split
    · have hne : ∀ l, (if s.entry.isSome then Call.returned else Call.missed) ≠ .opened l := by
        split <;> simp
      cases h with
      | unopened hd hentry hcalls ha =>
        exact .unopened hd hentry (fun j l hj => hcalls j l (setCall_opened hne hj)) ha
      | live segs g hlive => exact .live segs g (hlive.setCall hne)
      | crashed hcr => exact absurd hcr (by rw [hc]; simp)
    · exact h
  | openAndRecover i env =>
    by_cases hi : s.calls i = .missed
    · cases h with
      | unopened hd hentry hcalls ha => exact quiet_open_first hpre hd hentry hcalls ha hi he
      | live segs g hlive => exact quiet_open_again hpre hlive hi he
      | crashed hcr => exact absurd hcr (by rw [hc]; simp)
    · simp only [act]
      exact h
  | insertOrDiscard i env =>
    cases hi : s.calls i with
    | opened l =>
      cases h with
      | unopened _ _ hcalls _ => exact absurd hi (hcalls i l)
      | live segs g hlive => exact quiet_insert hlive hi
      | crashed hcr => exact absurd hcr (by rw [hc]; simp)
    | _ => simpa only [act, hi] using h
  | append b env =>
    cases hentry : s.entry with
    | none => simpa only [act, hentry] using h
    | some l =>
      cases h with
      | unopened _ hnone _ _ =>
        rw [hnone] at hentry
        cases hentry
      | live segs g hlive => exact quiet_append hlive hentry he.1 he.2
      | crashed hcr => exact absurd hcr (by rw [hc]; simp)

theorem quiet_step {options : LogOptions} (hpre : options.preallocate = false) (s : State)
    (e : Event) (h : Quiet s) (he : Calm e) : Quiet (step options s e) := by
  unfold step
  split
  · exact h
  · rename_i hc
    exact quiet_act hpre h (Bool.eq_false_iff.mpr hc) he

/-- **No record is lost.** Without preallocation, from a directory as a log leaves it, through any
    interleaving of any number of calls with appends. -/
theorem kept_of_calm {options : LogOptions} {w : World} {es : List Event}
    (hpre : options.preallocate = false) (hw : Undamaged w) (hes : ∀ e ∈ es, Calm e) :
    Kept (run options w es) := by
  have hstart : Quiet (init w) := .unopened hw rfl (fun _ _ h => nomatch h) rfl
  exact (Along.foldl (quiet_step hpre) (along_of_forall hes) hstart).kept

/-- An empty directory. -/
def emptyWorld : World := ⟨∅, [], [], [], []⟩

theorem undamaged_empty : Undamaged emptyWorld := by
  refine ⟨[], by simp, .nil, .nil, fun b hb => ?_, fun b _ _ => ?_⟩
  · simp [World.file, emptyWorld] at hb
  · exact IndexFormat.kept_nil

/-- Options with segments of 64 bytes. -/
def options (preallocate : Bool) : LogOptions :=
  ⟨64, 0, 4096, 0, 0, 0, preallocate, ⟨false, 0, 0, 0⟩⟩

/-- Two calls miss, both open, the one that opened last inserts, a record is appended, and the
    other call discards its log. -/
def race : List Event :=
  [.lookUp 0, .lookUp 1, .openAndRecover 1 ⟨[], [], []⟩, .openAndRecover 0 ⟨[], [], []⟩,
    .insertOrDiscard 0 ⟨[], [], []⟩, .append (.assign PartitionReplica.sampleRecord 1) ⟨[], [], []⟩,
    .insertOrDiscard 1 ⟨[], [], []⟩]

theorem race_calm : ∀ e ∈ race, Calm e := by
  have halone : ∀ r ∈ [PartitionReplica.sampleRecord], ParsesAlone r := by
    intro r hr
    rw [mem_singleton.mp hr]
    exact ⟨⟨by decide +kernel, by decide +kernel, by decide +kernel⟩, by decide +kernel⟩
  have hgood : ∀ o t rs, (Batch.assign [PartitionReplica.sampleRecord].flatten 1).Stores o t rs →
      RunOf Good o rs := fun _ _ _ h => Batch.good_assign halone h
  rw [flatten_singleton] at hgood
  intro e he
  simp only [race, mem_cons, not_mem_nil, or_false] at he
  rcases he with rfl | rfl | rfl | rfl | rfl | rfl | rfl
  · trivial
  · trivial
  · exact rfl
  · exact rfl
  · exact rfl
  · exact ⟨rfl, hgood⟩
  · exact rfl

theorem race_kept : Undamaged emptyWorld ∧ (∀ e ∈ race, Calm e) ∧
    (run (options false) emptyWorld race).accepted.length = 1 ∧
    Kept (run (options false) emptyWorld race) :=
  ⟨undamaged_empty, race_calm, by decide +kernel, kept_of_calm rfl undamaged_empty race_calm⟩

/-- **The loser's close empties the file.** The call that made the file opened it without recovery
    and still holds the preallocated size and the end 0; the other call has trimmed the file,
    inserted and appended in between. -/
theorem preallocated_record_lost : ¬ Kept (run (options true) emptyWorld race) := by
  intro h
  have hacc : (run (options true) emptyWorld race).accepted =
      [⟨0, 0, .assign PartitionReplica.sampleRecord 1, 0, 0⟩] := by decide +kernel
  have hfile : (run (options true) emptyWorld race).world.bytes ⟨0, .log⟩ = [] := by decide +kernel
  obtain ⟨rs, hst, hslice⟩ := h _ (by rw [hacc]; exact mem_cons_self)
  have hlen := congrArg List.length hslice
  rw [hst.length, hfile, length_slice] at hlen
  exact absurd hlen (by decide)

end OpenPartition

end PulseLog

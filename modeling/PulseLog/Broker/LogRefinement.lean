/-
  Subject:   The log of the cluster model is the partition log of the storage model.

  The cluster results speak of a `ReplicaLog`. Here the runs of a `PartitionLog` (appends of leader
  and follower, flushes, kills, deaths inside a call, reopens) go along with a `ReplicaLog` that is
  changed by its own operations only.

  * `Op` -- the operations of the cluster model on a log, machine crashes apart;
  * `Shows` -- the `ReplicaLog` has the records and the flushed offset of the open log, and while it
    is clean, the fsyncs of the storage model cover everything below the flushed offset;
  * **`log_refines`** -- every run has such a `ReplicaLog`, from the empty one on.
-/
import PulseLog.Broker.CatchUp
import PulseLog.Storage.CrashRecovery
import PulseLog.Storage.Flushed
import PulseLog.Storage.ObjectSteps

namespace PulseLog

open List CrashRecovery LogRun

/-! ## 1. The flushed offset through a call -/

/-- The last object ends at the log end, and the flushed offset is not behind it. -/
structure Tailed (l : PartitionLog) : Prop where
  ends : l.segments.getLast?.map Segment.nextOffset = some l.logEndOffset
  flushed : l.flushedOffset ≤ l.logEndOffset

section Tailed

variable {t t' : PartitionLog × World}

/-- The flushed offset never moves back in an append. -/
theorem LogStep.tailed (h : LogStep t t') (ht : Tailed t.1) :
    Tailed t'.1 ∧ t.1.flushedOffset ≤ t'.1.flushedOffset := by
  obtain ⟨hend, hfl⟩ := ht
  cases h with
  | sync h =>
    have hmap : t.1.segments.map Segment.nextOffset = t'.1.segments.map Segment.nextOffset :=
      forall₂_map_eq h.segments fun _ _ hs => hs.next.symm
    have := h.ends
    rcases h.flushed with hf | hf <;>
      exact ⟨⟨by rw [← getLast?_map, ← hmap, getLast?_map, hend, h.ends], by omega⟩, by omega⟩
  | @roll a f h =>
    rw [h.last] at hend
    exact ⟨⟨by rw [h.segments, getLast?_concat, Option.map_some, h.next, h.ends]; exact hend,
      by rw [h.flushed, h.ends]; exact hfl⟩, h.flushed.ge⟩
  | @grow m a a' h =>
    obtain ⟨olds, hsegs, hsegs'⟩ := h.segments
    rw [hsegs, getLast?_concat, Option.map_some, Option.some.injEq] at hend
    have := h.grown.next
    exact ⟨⟨by rw [hsegs', getLast?_concat, h.ends]; rfl, by rw [h.flushed, h.ends]; omega⟩,
      h.flushed.ge⟩

theorem Reach.flushed_le (h : Reach t t') (ht : Tailed t.1) :
    t.1.flushedOffset ≤ t'.1.flushedOffset := by
  obtain ⟨-, h⟩ := h
  suffices hall : Tailed t'.1 ∧ t.1.flushedOffset ≤ t'.1.flushedOffset from hall.2
  induction h with
  | refl => exact ⟨ht, le_rfl⟩
  | tail _ hs ih =>
    obtain ⟨h1, h2⟩ := hs.tailed ih.1
    exact ⟨h1, ih.2.trans h2⟩

theorem LogInv.tailed {M : LogMode} {e : Nat} {segs : List SegView} {g : SegView}
    {l : PartitionLog} {w : World} (h : LogInv M e segs g l w) : Tailed l := by
  obtain ⟨olds, a, hl, -, -, ha⟩ := h.objects
  refine ⟨?_, h.flushed_le⟩
  rw [hl, getLast?_concat, Option.map_some, ha.holds.next, h.ends, ha.base_eq]

end Tailed

/-! ## 2. The operations -/

namespace ReplicaLog

/-- An append of the leader or of a follower. -/
def Stored (l l' : ReplicaLog) : Prop :=
  ∃ data n, (∃ t, l.appendAssigningOffsets t data n = .ok l') ∨
    l.appendWithOffsets data n = .ok l'

/-- What a cluster does to the log of a broker whose machine stays up. -/
inductive Op (l : ReplicaLog) : ReplicaLog → Prop
  | stored {l' : ReplicaLog} (h : Stored l l') : Op l l'
  | flushed (target : Nat) : Op l (l.flush target)
  | died (found : Reopening) : Op l (l.reopen found)
  | diedAppending {l' : ReplicaLog} (h : Stored l l') (kept : Nat) (found : Reopening) :
    Op l ((l'.cut (l.logEndOffset + kept)).reopen found)

abbrev Ops : ReplicaLog → ReplicaLog → Prop := Relation.ReflTransGen Op

end ReplicaLog

open ReplicaLog

/-- A batch of the leader or of a follower that is stored at `o` as records that parse on their own,
    below the last offset there is. -/
structure Fits (o : Nat) (b : Batch) : Prop where
  checked : ∀ chunks n, b ≠ .vectored chunks n
  size : b.bytes.length < 2 ^ 32
  good : ∀ t rs, b.Stores o t rs → RunOf Good o rs ∧ o + rs.length < 2 ^ 63

theorem alone_of_stampAll {t : Int} : ∀ {rs : List Bytes} {o : Nat}, (∀ r ∈ rs, Framed r) →
    RunOf Good o (stampAll t o rs) → ∀ r ∈ rs, ParsesAlone r
  | r :: rs, o, hf, hg, x, hx => by
    rcases mem_cons.mp hx with rfl | hx
    · have hr := (hf x mem_cons_self).header
      exact ⟨hf x mem_cons_self, bodyOk_congr (drop_rewriteRecordHeader _ _ hr)
        (length_rewriteRecordHeader _ _ hr) hg.1.alone.body⟩
    · exact alone_of_stampAll (fun y hy => hf y (mem_cons_of_mem _ hy)) hg.2 x hx

/-- **What the storage stores of a batch, the abstract log stores too.** -/
theorem stored_of_stores {l : ReplicaLog} {b : Batch} {t : Int} {rs : List Bytes}
    (hb : Fits l.logEndOffset b) (hst : b.Stores l.logEndOffset t rs) (hne : rs ≠ []) :
    ∃ l', Stored l l' ∧ l.Append rs l' := by
  obtain ⟨hgood, hend⟩ := hb.good t rs hst
  have hsize := hb.size
  cases b with
  | assign records n =>
    obtain ⟨rs₀, rfl, hf, -, rfl⟩ := hst
    have hsize : rs₀.flatten.length < 2 ^ 32 := hsize
    rw [length_stampAll] at hend
    obtain ⟨l', h, happ⟩ := appendAssigningOffsets_of_fills (by rintro rfl; exact hne rfl)
      (fillsRun_of_alone (alone_of_stampAll hf hgood) (by omega)) hend t
    exact ⟨l', ⟨_, _, .inl ⟨t, h⟩⟩, happ⟩
  | replicate records n =>
    obtain ⟨rfl, -⟩ := hst
    have hsize : rs.flatten.length < 2 ^ 32 := hsize
    obtain ⟨l', h, happ⟩ := appendWithOffsets_of_fills hne
      (fillsRun_of_good hgood (by omega)) (hgood.mono fun _ _ hr => hr.recordOk)
    exact ⟨l', ⟨_, _, .inr h⟩, happ⟩
  | vectored chunks n => exact absurd rfl (hb.checked chunks n)

/-! ## 3. The simulation -/

namespace LogRefinement

/-- The events of the storage model the simulation speaks of. -/
def Admitted (pre : Bool) (s : State) (ev : Event) : Prop :=
  CrashRecovery.EventOk pre ev ∧ Flushed.EventOk ev ∧
    ∀ b env, ev = .call (.append b) env → Fits s.history.length b

/-- The `ReplicaLog` has the records and the flushed offset of the storage model. -/
structure Shows (s : State) (l : ReplicaLog) : Prop where
  records : l.records = s.history
  alone : ∀ r ∈ s.history, ParsesAlone r
  inFlight : ∀ b ∈ s.inFlight, Fits s.history.length b
  flushed : ∀ p ∈ s.process.log, p.flushedOffset = l.flushedOffset

theorem absorb_process (s : State) (r : Process × Report) : (absorb s r).process = r.1 := by
  unfold absorb
  split <;> try rfl
  split <;> rfl

section Simulation

variable {options : LogOptions} {s : State} {l : ReplicaLog} {p : PartitionLog} {w : World}
  {env : Env} {e : Nat} {segs : List SegView} {g : SegView}

theorem flushedOffset_flush {f : Nat} (h : l.flushedOffset ≤ f) (hf : f ≤ l.records.length) :
    (l.flush f).flushedOffset = f := by
  show max l.flushedOffset (min f l.records.length) = f
  omega

section

variable (h : Shows s l)
include h

/-- A call that stores nothing, but may flush. -/
theorem Shows.flush {q : Process} {t : PartitionLog × World}
    (ht : t.1.logEndOffset = s.history.length) (hle : t.1.flushedOffset ≤ t.1.logEndOffset)
    (hfl : l.flushedOffset ≤ t.1.flushedOffset) (hq : q = ⟨some t.1, t.2⟩) :
    Shows { s with process := q } (l.flush t.1.flushedOffset) := by
  refine ⟨h.records, h.alone, h.inFlight, fun p hp => ?_⟩
  subst hq
  cases hp
  exact (flushedOffset_flush hfl (by rw [h.records]; omega)).symm

theorem shows_append {b : Batch} (hs : s.process = ⟨some p, w⟩)
    (hup : Up options.preallocate s.history p w)
    (hev : Admitted options.preallocate s (.call (.append b) env)) :
    ∃ l', Ops l l' ∧ l'.clean = l.clean ∧
      Shows (next options s (.call (.append b) env)) l' := by
  obtain ⟨e, segs, g, hinv, -, he⟩ := hup
  obtain ⟨⟨hcalm, hlt, hst⟩, -, hfits⟩ := hev
  have hb := hfits b env rfl
  have hpl : p.flushedOffset = l.flushedOffset := h.flushed p (by rw [hs]; rfl)
  have hlen : l.logEndOffset = s.history.length := by rw [logEndOffset, h.records]
  have h0 : LogInv (mode options.preallocate) (g.1 + g.2.length) segs g p (w.under env) :=
    (hinv.under (hcalm.not_mayFail w)).retarget (fun hf => hf.elim)
  have hreach : ∀ {t : PartitionLog × World}, Reach (p, w.under env) t →
      l.flushedOffset ≤ t.1.flushedOffset := fun ht => hpl ▸ ht.flushed_le h0.tailed
  unfold CrashRecovery.next
  rw [hs]
  refine step_call (P := fun r => ∃ l', Ops l l' ∧ l'.clean = l.clean ∧ Shows (absorb s r) l')
    (sat_mono (sat_map (sat_and (sat_append h0 False.elim (fun o t rs hb => (hst o t rs hb).1)
      (.inl (by unfold uint32Max; omega))) (sat_append_added b (h0.led id))))
    (fun _ t ht => ?_) (fun _ t ht => ?_) (fun t ht => ?_))
  · obtain ⟨r, rfl, ⟨rs, hrep, segs', g', hroll, hl⟩, m, hadd, -⟩ := ht
    have hstores := hrep.stores
    rw [he, ← hlen] at hstores
    obtain ⟨l1, hop, happ⟩ := stored_of_stores (hlen ▸ hb) hstores hrep.nonempty
    have hgood := (hb.good _ _ (hlen ▸ hstores)).1
    have hrecs : l1.records = s.history ++ rs := by rw [happ.records, h.records]
    refine ⟨l1.flush t.1.flushedOffset, (Relation.ReflTransGen.single (.stored hop)).tail
      (.flushed _), happ.clean, ?_⟩
    show Shows ⟨⟨some t.1, t.2⟩, s.history ++ b.stored r, none⟩ _
    rw [hrep.stored]
    refine ⟨hrecs, fun x hx => ?_, fun _ hx => (by cases hx), ?_⟩
    · rcases mem_append.mp hx with hx | hx
      · exact h.alone x hx
      · exact (hgood.mem x hx).elim fun _ hg => hg.alone
    · rintro _ ⟨⟩
      have hend := hl.ends
      have hle := hl.flushed_le
      have hroll := hroll.ends
      refine (flushedOffset_flush (happ.flushed ▸ hreach hadd.reach) ?_).symm
      rw [hrecs, length_append]
      rw [length_append] at hend
      omega
  · rcases ht.1 with ⟨segs', g', hroll, hl⟩ | ⟨hf, -⟩
    · refine ⟨_, .single (.flushed _), rfl, h.flush ?_ hl.flushed_le (hreach ht.2) rfl⟩
      rw [hl.ends, hroll.ends, he]
    · exact hf.elim
  · refine ⟨l, .refl, rfl, h.records, h.alone, ?_, fun q hq => by cases hq⟩
    rintro _ ⟨⟩
    exact hb

theorem shows_flush (hs : s.process = ⟨some p, w⟩)
    (hup : Up options.preallocate s.history p w) (hc : env.Calm) :
    ∃ l', Ops l l' ∧ l'.clean = l.clean ∧ Shows (next options s (.call .flush env)) l' := by
  obtain ⟨e, segs, g, hinv, -, he⟩ := hup
  have hpl : p.flushedOffset = l.flushedOffset := h.flushed p (by rw [hs]; rfl)
  have h0 := hinv.under (hc.not_mayFail w)
  have hdone : ∀ {t : PartitionLog × World}, LogInv (mode options.preallocate) e segs g t.1 t.2 →
      SyncStep (p, w.under env) t → ∃ l', Ops l l' ∧ l'.clean = l.clean ∧
        Shows { s with process := ⟨some t.1, t.2⟩ } l' := fun hl ht =>
    ⟨_, .single (.flushed _), rfl, h.flush (hl.ends.trans he) hl.flushed_le
      (hpl ▸ ((LogStep.sync ht).tailed h0.tailed).2) rfl⟩
  unfold CrashRecovery.next
  rw [hs]
  refine step_call (P := fun r => ∃ l', Ops l l' ∧ l'.clean = l.clean ∧ Shows (absorb s r) l')
    (sat_mono (sat_map (sat_and (sat_flush h0) sat_flush_sync)) (fun _ t ht => ?_)
      (fun _ t ht => hdone ht.1.1 ht.2) (fun t ht => ?_))
  · obtain ⟨-, rfl, hl, ht⟩ := ht
    exact hdone hl ht
  · exact ⟨l, .refl, rfl, h.records, h.alone, fun _ hb => (by cases hb), fun q hq => by cases hq⟩

open Classical in
theorem shows_reopen (hs : s.process = ⟨none, w⟩)
    (hdown : Down options.preallocate s.history s.inFlight w) (hc : env.Calm) :
    ∃ l', Ops l l' ∧ (l'.clean = true → l.clean = true ∧ Flushed.AllSynced w) ∧
      Shows (next options s (.reopen env)) l' := by
  let found : Reopening := ⟨0, decide (Flushed.AllSynced w)⟩
  have hclean : ∀ l' : ReplicaLog, l'.clean = l.clean → (l'.reopen found).clean = true →
      l.clean = true ∧ Flushed.AllSynced w := by
    intro l' hl' hr
    simp only [reopen, found, Bool.and_eq_true, decide_eq_true_eq] at hr
    exact ⟨hl' ▸ hr.1.2, hr.1.1⟩
  have halone : ∀ r ∈ l.records, ParsesAlone r := h.records ▸ h.alone
  have hleft : ∀ w', ∃ l', Ops l l' ∧ (l'.clean = true → l.clean = true ∧ Flushed.AllSynced w) ∧
      Shows { s with process := ⟨none, w'⟩ } l' := fun w' =>
    ⟨_, .single (.died found), hclean l rfl, by rw [reopen_records halone, h.records], h.alone,
      h.inFlight, fun q hq => by cases hq⟩
  unfold CrashRecovery.next
  rw [hs]
  refine step_reopen (P := fun r => ∃ l', Ops l l' ∧
    (l'.clean = true → l.clean = true ∧ Flushed.AllSynced w) ∧ Shows (absorb s r) l')
    (sat_mono (sat_reopen hdown hc) (fun r w' hr => ?_) (fun _ w' _ => hleft w')
      (fun w' _ => hleft w'))
  obtain ⟨rs, hbegun, hup, hle, hfl⟩ := hr
  have hold := hup.holding
  have hhist : s.history ++ (recordsOf r.1 w').drop (s.history.length - r.1.logStartOffset) =
      s.history ++ rs := by
    rw [hold.records, drop_drop, Nat.add_sub_cancel' hle, drop_left]
  show ∃ l', _ ∧ _ ∧ Shows ⟨⟨some r.1, w'⟩, s.history ++ _, none⟩ l'
  rw [hhist]
  -- one argument for the log as it was and for the one with records of the batch in flight
  have hfound : ∀ l1 : ReplicaLog, l1.records = s.history ++ rs →
      (∀ x ∈ rs, ParsesAlone x) → Shows ⟨⟨some r.1, w'⟩, s.history ++ rs, none⟩
        (l1.reopen found) := by
    intro l1 h1 hrs
    have hall : ∀ x ∈ s.history ++ rs, ParsesAlone x := fun x hx =>
      (mem_append.mp hx).elim (h.alone x) (hrs x)
    rw [← h1] at hall
    refine ⟨(reopen_records hall found).trans h1, h1 ▸ hall, fun _ hx => (by cases hx), ?_⟩
    rintro _ ⟨⟩
    rw [hfl, hold.ends, ← h1]
    exact (congrArg length (reopen_records hall found)).symm
  rcases eq_or_ne rs [] with rfl | hne
  · exact ⟨_, .single (.died found), hclean l rfl, hfound l (by rw [h.records, append_nil])
      fun x hx => by cases hx⟩
  obtain rfl | ⟨batch, t, whole, hb, hst, more, rfl⟩ := hbegun
  · exact absurd rfl hne
  have hlen : l.logEndOffset = s.history.length := by rw [logEndOffset, h.records]
  have hfits := h.inFlight batch hb
  obtain ⟨hgood, -⟩ := hfits.good t _ hst
  rw [← hlen] at hfits hst
  obtain ⟨l1, hop, happ⟩ := stored_of_stores hfits hst (append_ne_nil_of_left_ne_nil hne _)
  refine ⟨_, .single (.diedAppending hop rs.length found), hclean _ happ.clean,
    hfound _ ?_ fun x hx => (hgood.mem x (mem_append_left _ hx)).elim fun _ hg => hg.alone⟩
  have hle := l.flushed_le
  rw [← happ.flushed] at hle
  show l1.records.take (max (l.logEndOffset + rs.length) l1.flushedOffset) = s.history ++ rs
  rw [max_eq_left (by rw [logEndOffset]; omega), happ.records, h.records, hlen,
    take_length_add_append, take_left]

/-- **One event of the storage model** is matched by operations of the `ReplicaLog`. -/
theorem shows_step {ev : Event} (hinv : CrashRecovery.Inv options.preallocate s)
    (hsync : l.clean = true → Flushed.Inv s.process) (hev : Admitted options.preallocate s ev) :
    ∃ l', Ops l l' ∧ Shows (next options s ev) l' ∧
      (l'.clean = true → Flushed.Inv (next options s ev).process) := by
  suffices hmain : ∃ l', Ops l l' ∧
      (l'.clean = true → l.clean = true ∧ Flushed.SyncedAtOpen s.process ev) ∧
      Shows (next options s ev) l' by
    obtain ⟨l', hops, hclean, hl'⟩ := hmain
    refine ⟨l', hops, hl', fun hc => ?_⟩
    rw [CrashRecovery.next, absorb_process]
    exact Flushed.inv_step options s.process ev (hsync (hclean hc).1) ⟨hev.2.1, (hclean hc).2⟩
  obtain ⟨⟨log, w⟩, history, b⟩ := s
  cases log with
  | none =>
    cases ev with
    | reopen env =>
      obtain ⟨l', hops, hclean, hl'⟩ := shows_reopen h rfl hinv hev.2.1
      exact ⟨l', hops, fun hc => ⟨(hclean hc).1, fun _ => (hclean hc).2⟩, hl'⟩
    | call | close | kill => exact ⟨l, .refl, fun hc => ⟨hc, trivial⟩, h⟩
  | some p =>
    cases ev with
    | call c env =>
      cases c with
      | append batch =>
        obtain ⟨l', hops, hclean, hl'⟩ := shows_append h rfl hinv hev
        exact ⟨l', hops, fun hc => ⟨hclean ▸ hc, trivial⟩, hl'⟩
      | flush =>
        obtain ⟨l', hops, hclean, hl'⟩ := shows_flush h rfl hinv hev.2.1
        exact ⟨l', hops, fun hc => ⟨hclean ▸ hc, trivial⟩, hl'⟩
      | truncateTo | enforceRetention => exact hev.2.1.elim
    | close => exact hev.2.1.elim
    | kill => exact ⟨l, .refl, fun hc => ⟨hc, trivial⟩, h.records, h.alone, h.inFlight,
        fun q hq => by cases hq⟩
    | reopen env => exact ⟨l, .refl, fun hc => ⟨hc, fun hn => by cases hn⟩, h⟩

end

/-- The reads of a partition log find what those of the `ReplicaLog` find. -/
def ReadsAs (l : ReplicaLog) (p : PartitionLog) (w : World) : Prop :=
  ∀ walk o maxBytes, p.logStartOffset ≤ o → o < p.logEndOffset → 0 < maxBytes →
    ∃ rs, rs ≠ [] ∧ l.readFrom walk o rs.length = some rs ∧
      p.read w o maxBytes = .ok ⟨o, rs.length, rs.flatten, p.logStartOffset, p.logEndOffset⟩

theorem readsAs_of_up {pre : Bool} (h : Up pre l.records p w)
    (hsize : ∀ r ∈ l.records, r.length ≤ maxRecordBytes) : ReadsAs l p w := by
  obtain ⟨e, segs, g, hinv, hslices, -⟩ := h
  have hread : LogReadable (fun o r => l.records[o]? = some r) (segs ++ [g]) p w :=
    { hinv.readable id (fun _ _ hb => hb.le) with
      run := fun x hx => runOf_of_get fun _ _ hr => hslices.get hx hr }
  intro walk o maxBytes hs he hm
  obtain ⟨r, rs, -, hrun, hok⟩ := read_log hread
    (fun x hx r hr => hsize r (mem_of_mem_drop ((hslices x hx).subset hr))) hs he hm
  have hpre : r :: rs <+: l.records.drop o := prefix_iff_getElem?.mpr fun i hi => by
    rw [getElem?_drop]
    exact hrun.get (getElem?_eq_getElem hi)
  refine ⟨r :: rs, cons_ne_nil _ _, ?_, hok⟩
  rw [readFrom_eq hsize, ← prefix_iff_eq_take.mp hpre]

/-- **Every run of the storage model is one of a `ReplicaLog`.** When the log is open, it holds the
    records of the `ReplicaLog` at their offsets and has its flushed offset; below the synced offset
    no byte is unsynced; and reads agree where no record is too large for a lookup. -/
theorem log_refines {es : List Event}
    (h : Along (next options) (Admitted options.preallocate) start es) :
    let s := es.foldl (next options) start
    ∃ l, Ops .empty l ∧ l.records = s.history ∧ ∀ p ∈ s.process.log,
      CrashRecovery.Holding l.records p s.process.world ∧ p.flushedOffset = l.flushedOffset ∧
      (l.clean = true → ∀ seg ∈ p.segments,
        Flushed.CoveredSegment l.syncedOffset s.process.world seg) ∧
      ((∀ r ∈ l.records, r.length ≤ maxRecordBytes) → ReadsAs l p s.process.world) := by
  intro s
  obtain ⟨hinv, l, hops, hl, hsync⟩ := h.foldl (I := fun s =>
      CrashRecovery.Inv options.preallocate s ∧ ∃ l, Ops .empty l ∧ Shows s l ∧
        (l.clean = true → Flushed.Inv s.process))
    (fun s ev ⟨hinv, l, hops, hl, hsync⟩ hev => by
      obtain ⟨l', hops', hl', hsync'⟩ := shows_step hl hinv hsync hev
      exact ⟨inv_step options s ev hinv hev.1, l', hops.trans hops', hl', hsync'⟩)
    ⟨down_empty, .empty, .refl, ⟨rfl, by simp [start], fun _ hb => (by cases hb),
      fun _ hp => by cases hp⟩, fun _ => ⟨[], diskLog_empty ⟨[], [], []⟩⟩⟩
  refine ⟨l, hops, hl.records, fun p hp => ⟨?_, hl.flushed p hp, fun hc => ?_, ?_⟩⟩
  · rw [CrashRecovery.Inv, hp] at hinv
    rw [hl.records]
    exact hinv.holding
  · rw [syncedOffset, if_pos hc, ← hl.flushed p hp]
    exact (hsync hc).covered p hp
  · rw [CrashRecovery.Inv, hp, ← hl.records] at hinv
    exact readsAs_of_up hinv

end Simulation

end LogRefinement

end PulseLog

/-
  Subject:   Appends with automatic rolls when file operations fail.

  A log is opened on an empty directory and appended to while any operation on its files may fail
  or end the process. Then it is closed or its process is killed, and it is opened again.

  * A roll that failed may have made the log file of the new segment already. The old segment stays
    the active one, and nothing removes the file;
  * `accepted_readable` -- if nothing is stored while such a file is there, every record whose
    append returned OK can be read at its offset after the reopen, whatever failed;
  * `shadowed_by_failed_roll` -- otherwise the reopen takes the file for the last segment, and the
    records stored behind its base are beyond the log end.
-/
import PulseLog.Storage.LogRun

namespace PulseLog

open List

namespace FailedRoll

open LogRun

/-! ## 1. Runs -/

structure State where
  process : Process
  accepted : List (Batch × AppendResult)

/-- The appends that returned are noted. -/
def absorb (s : State) : Process × Report → State
  | (p, .appended b r) => ⟨p, s.accepted ++ [(b, r)]⟩
  | (p, _) => ⟨p, s.accepted⟩

def next (options : LogOptions) (s : State) (ev : Event) : State :=
  absorb s (step options s.process ev)

/-- The log as the first process finds it. -/
def opened (options : LogOptions) (env : Env) : State := next options ⟨init, []⟩ (.reopen env)

/-- Every record of an append that returned is read at its offset. -/
def Readable (s : State) : Prop :=
  ∀ l, s.process.log = some l → ∀ a ∈ s.accepted, ∀ i r, (a.1.stored a.2)[i]? = some r →
    ∀ maxBytes, 0 < maxBytes → ∃ out, l.read s.process.world (a.2.baseOffset + i) maxBytes =
      .ok out ∧ out.baseOffset = a.2.baseOffset + i ∧ r <+: out.out

/-- Appends below 4 GiB of such records. -/
def EventOk : Event → Prop
  | .call (.append b) _ => b.bytes.length < 2 ^ 32 ∧ ∀ o t rs, b.Stores o t rs → RunOf Sound o rs
  | _ => False

/-- Every log file belongs to a segment. -/
def NoStray (l : PartitionLog) (w : World) : Prop :=
  ∀ b ∈ w.logBases, b ∈ l.segments.map Segment.baseOffset

/-- If the log end moved, every log file belongs to a segment. -/
def Clear (s s' : State) : Prop :=
  ∀ l l', s.process.log = some l → s'.process.log = some l' → l'.logEndOffset ≠ l.logEndOffset →
    NoStray l' s'.process.world

instance (l : PartitionLog) (w : World) : Decidable (NoStray l w) :=
  inferInstanceAs (Decidable (∀ b ∈ w.logBases, b ∈ l.segments.map Segment.baseOffset))

instance (s s' : State) : Decidable (Clear s s') :=
  decidable_of_iff (∀ l ∈ s.process.log.toList, ∀ l' ∈ s'.process.log.toList,
    l'.logEndOffset ≠ l.logEndOffset → NoStray l' s'.process.world) (by
      simp only [Clear, Option.mem_toList]
      exact ⟨fun h l l' hl hl' => h l hl l' hl', fun h l hl l' hl' => h l l' hl hl'⟩)

/-! ## 2. The life of the first process -/

/-- The promises of a run with failures. Neighbours leave no gap; they may overlap where a file was
    left by a roll that failed. -/
def mode : LogMode where
  record := fun o r => RecordOk o r ∧ r.length ≤ maxRecordBytes
  framed := fun _ _ h => h.1.framed
  tail := fun _ => True
  tail_nil := trivial
  tail_drop := fun _ _ _ => trivial
  strict := False
  durable := False
  link := fun g b => b ≤ g.1 + g.2.length
  link_roll := fun _ _ => le_rfl
  shared := False
  faulty := True

/-- The appends that returned are part of the history, below the offset `n`. -/
structure Told (accepted : List (Batch × AppendResult)) (history : List Bytes) (n : Nat) :
    Prop where
  stored : ∀ a ∈ accepted, a.1.stored a.2 <+: history.drop a.2.baseOffset
  within : ∀ a ∈ accepted, a.2.baseOffset + (a.1.stored a.2).length ≤ n
  good : RunOf Good 0 history

/-- An open log that shows the history. -/
def Up (accepted : List (Batch × AppendResult)) (l : PartitionLog) (w : World) : Prop :=
  ∃ history segs g, Told accepted history history.length ∧ LogInv mode history.length segs g l w ∧
    Slices (segs ++ [g]) history ∧ g.1 + g.2.length = history.length ∧ viewStart (segs ++ [g]) = 0

/-- A directory that shows the history, at least as far as appends returned. -/
def Down (accepted : List (Batch × AppendResult)) (w : World) : Prop :=
  accepted = [] ∨ ∃ history views, Told accepted history (viewEnd views) ∧
    DiskLog mode False (fun _ _ => True) views w ∧ Slices views history ∧ viewStart views = 0

/-- The log, or the directory it left. -/
def Inv (s : State) : Prop :=
  match s.process.log with
  | some l => Up s.accepted l s.process.world
  | none => Down s.accepted s.process.world

section Life

variable {accepted : List (Batch × AppendResult)} {history rs : List Bytes} {n m e : Nat}
  {segs segs' views : List SegView} {g g' : SegView} {l : PartitionLog} {w : World}

theorem Told.mono (h : Told accepted history n) (hnm : n ≤ m) : Told accepted history m :=
  ⟨h.stored, fun a ha => le_trans (h.within a ha) hnm, h.good⟩

theorem Told.extend (h : Told accepted history n) (hg : RunOf Good history.length rs) :
    Told accepted (history ++ rs) n := by
  refine ⟨fun a ha => (h.stored a ha).trans ((prefix_append _ _).drop _), h.within, ?_⟩
  rw [runOf_append, Nat.zero_add]
  exact ⟨h.good, hg⟩

theorem Told.push {b : Batch} {r : AppendResult} (h : Told accepted history history.length)
    (hr : Reports b history.length rs r) (hg : RunOf Good history.length rs) :
    Told (accepted ++ [(b, r)]) (history ++ rs) (history ++ rs).length := by
  have hext := (h.extend hg).mono (m := (history ++ rs).length)
    (by rw [length_append]; exact Nat.le_add_right _ _)
  refine ⟨fun a ha => ?_, fun a ha => ?_, hext.good⟩ <;> rcases mem_append.mp ha with ha | ha
  · exact hext.stored a ha
  · rw [mem_singleton.mp ha, hr.stored, hr.base, drop_left]
  · exact hext.within a ha
  · rw [mem_singleton.mp ha, hr.stored, hr.base, length_append]

theorem Rolled.viewStart (h : Rolled segs g segs' g') :
    viewStart (segs' ++ [g']) = viewStart (segs ++ [g]) := by
  cases h with
  | same => rfl
  | next _ => cases segs <;> rfl

theorem viewStart_regrow : viewStart (segs ++ [(g.1, g.2 ++ rs)]) = viewStart (segs ++ [g]) := by
  cases segs <;> rfl

/-- Without stray files it does not matter where one looks for them. -/
theorem retarget_of_noStray (h : LogInv mode e segs g l w) (hn : NoStray l w) (e' : Nat) :
    LogInv mode e' segs g l w := by
  refine h.retarget (fun _ b hb => ?_)
  have hbase : (segs ++ [g]).map Prod.fst = l.segments.map Segment.baseOffset :=
    forall₂_map_eq (h.all_objects id) (fun _ _ hx => hx.base_eq.symm)
  rw [hbase]
  exact hn b (mem_logBases.mpr hb)

/-- **A process dies, or closes its log**; a file of a failed roll may lie at `e`. -/
theorem down_of_fallen {written : Bytes} (h : Fallen mode e segs g written w)
    (ht : Told accepted history e) (hs : Slices (segs ++ [g]) history)
    (h0 : viewStart (segs ++ [g]) = 0) (hb : g.1 ≤ e) (he : e ≤ g.1 + g.2.length) :
    Down accepted w := by
  obtain ⟨extra, hx, hd⟩ := h.residue (fun _ => ⟨hb, fun _ => he⟩)
  refine .inr ⟨history, segs ++ g :: extra, ht.mono ?_, hd.mono (fun _ _ _ _ => trivial), ?_, ?_⟩
  · rcases hx with rfl | ⟨rfl, -⟩
    · rw [viewEnd_concat]
      exact he
    · rw [viewEnd, getLast?_append_cons]
      exact le_rfl
  · intro x hxm
    rcases mem_append.mp hxm with hxm | hxm
    · exact hs x (mem_append_left _ hxm)
    rcases mem_cons.mp hxm with rfl | hxm
    · exact hs x (by simp)
    rcases hx with rfl | ⟨rfl, -⟩
    · cases hxm
    · rw [mem_singleton.mp hxm]
      exact nil_prefix
  · rw [← h0]
    cases segs <;> rfl

theorem down_of_halfway {b : Batch} (h : Halfway mode b segs g w)
    (ht : Told accepted history history.length) (hs : Slices (segs ++ [g]) history)
    (he : g.1 + g.2.length = history.length) (h0 : viewStart (segs ++ [g]) = 0)
    (hst : ∀ o t rs, b.Stores o t rs → RunOf Sound o rs) : Down accepted w := by
  obtain ⟨segs', g', hroll, h⟩ := h
  have he' := hroll.ends.trans he
  have hs' := hroll.slices hs
  have h0' := (Rolled.viewStart hroll).trans h0
  rw [he] at h
  rcases h with h | ⟨time, rs, hb, ⟨k, h⟩ | h⟩
  · exact down_of_fallen h ht hs' h0' (by omega) (by omega)
  · exact down_of_fallen h ht hs' h0' (by omega) (by omega)
  · obtain ⟨hpush, hlen⟩ := hs'.push he' rs
    have hgood : RunOf Good history.length rs := (hst _ _ _ hb).mono (fun _ _ hr => hr.1)
    refine down_of_fallen h (ht.extend hgood) hpush (viewStart_regrow.trans h0') ?_ ?_
    · omega
    · rw [length_append]
      omega

/-- **An append that came back** with the records `rs` stored. -/
theorem up_of_moved {accepted' : List (Batch × AppendResult)} (h : Moved mode segs g rs l w)
    (hs : Slices (segs ++ [g]) history) (he : g.1 + g.2.length = history.length)
    (h0 : viewStart (segs ++ [g]) = 0) (ht : Told accepted' (history ++ rs) (history ++ rs).length)
    (hn : rs ≠ [] → NoStray l w) : Up accepted' l w := by
  obtain ⟨segs', g', hroll, hl⟩ := h
  obtain ⟨hpush, hlen⟩ := (hroll.slices hs).push (hroll.ends.trans he) rs
  refine ⟨_, segs', _, ht, ?_, hpush, hlen, viewStart_regrow.trans
    ((Rolled.viewStart hroll).trans h0)⟩
  by_cases hrs : rs = []
  · have hsame : (history ++ rs).length = g.1 + g.2.length := by rw [hrs, append_nil, he]
    rw [hsame]
    exact hl
  · exact retarget_of_noStray hl (hn hrs) _

theorem Moved.end_ne (h : Moved mode segs g rs l w) (hrs : rs ≠ []) :
    l.logEndOffset ≠ g.1 + g.2.length := by
  obtain ⟨segs', g', hroll, hl⟩ := h
  have hpos := length_pos_iff.mpr hrs
  have hends := hroll.ends
  have hlog : l.logEndOffset = g'.1 + (g'.2 ++ rs).length := hl.ends
  rw [length_append] at hlog
  omega

/-- **One append**, whatever fails in it. -/
theorem inv_append {options : LogOptions} {s : State} {b : Batch} {env : Env}
    (hs : s.process = ⟨some l, w⟩) (h : Up s.accepted l w) (hev : EventOk (.call (.append b) env))
    (hclear : Clear s (next options s (.call (.append b) env))) :
    Inv (next options s (.call (.append b) env)) := by
  obtain ⟨history, segs, g, ht, h, hsl, he, h0⟩ := h
  obtain ⟨hlt, hst⟩ := hev
  have hsize : b.bytes.length ≤ uint32Max := by
    unfold uint32Max
    omega
  have hinv : LogInv mode (g.1 + g.2.length) segs g l (w.under env) := by
    rw [he]
    exact h.of_dir rfl (fun _ => trivial)
  have hadm : mode.Admits b :=
    fun o t rs hb => (hst o t rs hb).mono (fun _ _ hr => ⟨hr.1.recordOk, hr.2⟩)
  have hgood : ∀ t rs, b.Stores (g.1 + g.2.length) t rs → RunOf Good history.length rs := by
    intro t rs hb
    rw [he] at hb
    exact (hst _ _ _ hb).mono (fun _ _ hr => hr.1)
  -- records that were stored moved the log end
  have hstray : ∀ {rs l' w' acc}, Clear s ⟨⟨some l', w'⟩, acc⟩ → Moved mode segs g rs l' w' →
      rs ≠ [] → NoStray l' w' := by
    intro rs l' w' acc hc hm hrs
    refine hc l l' (by rw [hs]) rfl ?_
    rw [h.ends]
    exact Moved.end_ne hm hrs
  unfold next at hclear ⊢
  rw [hs] at hclear ⊢
  refine step_call (P := fun r => Clear s (absorb s r) → Inv (absorb s r)) (sat_mono
    (sat_map (sat_append hinv (fun _ _ => trivial) hadm (.inl hsize))) (fun _ t hr hc => ?_)
      (fun _ t hr hc => ?_)
    (fun t hr _ => down_of_halfway hr ht hsl he h0 hst)) hclear
  · obtain ⟨r, rfl, rs, hrep, hm⟩ := hr
    have hg := hgood _ _ hrep.stores
    rw [he] at hrep
    exact up_of_moved hm hsl he h0 (ht.push hrep hg) (hstray hc hm)
  · rcases hr with ⟨segs', g', hroll, hl⟩ | ⟨-, time, rs, hb, hm⟩
    · rw [he] at hl
      exact ⟨history, segs', g', ht, hl, hroll.slices hsl, hroll.ends.trans he,
        (Rolled.viewStart hroll).trans h0⟩
    · refine up_of_moved hm hsl he h0 ((ht.extend (hgood _ _ hb)).mono ?_) (hstray hc hm)
      rw [length_append]
      exact Nat.le_add_right _ _

theorem inv_step (options : LogOptions) (s : State) (ev : Event) (h : Inv s)
    (hev : EventOk ev ∧ Clear s (next options s ev)) : Inv (next options s ev) := by
  obtain ⟨⟨log, w⟩, accepted⟩ := s
  cases ev with
  | call c env =>
    cases c with
    | append b =>
      cases log with
      | none => exact h
      | some l => exact inv_append rfl h hev.1 hev.2
    | truncateTo | enforceRetention | flush => exact hev.1.elim
  | close | kill | reopen => exact hev.1.elim

/-- The first open, on an empty directory. -/
theorem inv_opened (options : LogOptions) (env : Env) : Inv (opened options env) := by
  have hopen : Openable mode (fun _ _ => True) [] ((⟨∅, [], [], [], []⟩ : World).under env) :=
    ⟨diskLog_empty env, by simp, fun views hv => by
      rw [forall₂_nil_left_iff.mp hv]
      exact isChain_nil, fun hd => hd.elim, fun _ => trivial⟩
  refine step_reopen (P := fun r => Inv (absorb ⟨init, []⟩ r)) (sat_mono
    (sat_openLog hopen (fun _ _ => trivial)) (fun r w' hr => ?_) (fun _ _ _ => .inl rfl)
    (fun _ _ => .inl rfl))
  obtain ⟨-, ⟨views, g, hO⟩, -⟩ := hr
  rcases hO.found with ⟨-, rfl, rfl⟩ | hF
  · exact ⟨[], [], (0, []), ⟨by simp [absorb], by simp [absorb], trivial⟩,
      hO.inv 0, by simp [Slices], rfl, rfl⟩
  · have := hF.length_eq
    simp at this

/-- **The end of the life**: killed, or closed with whatever fails in the close. -/
theorem down_of_ended (options : LogOptions) {s : State} {fin : Event} (h : Inv s)
    (hfin : fin = .kill ∨ ∃ env, fin = .close env) :
    (next options s fin).process.log = none ∧
      Down (next options s fin).accepted (next options s fin).process.world := by
  obtain ⟨⟨log, w⟩, accepted⟩ := s
  cases log with
  | none =>
    rcases hfin with rfl | ⟨env, rfl⟩
    · exact ⟨rfl, h⟩
    · exact ⟨rfl, h⟩
  | some l =>
    obtain ⟨history, segs, g, ht, h, hsl, he, h0⟩ := h
    have hfall : ∀ {w'}, Fallen mode history.length segs g [] w' → Down accepted w' :=
      fun hf => down_of_fallen hf ht hsl h0 (by omega) (by omega)
    rcases hfin with rfl | ⟨env, rfl⟩
    · exact ⟨rfl, hfall h.killed⟩
    · have hinv : LogInv mode history.length segs g l (w.under env) :=
        h.of_dir rfl (fun _ => trivial)
      exact step_close (P := fun r => (absorb ⟨⟨some l, w⟩, accepted⟩ r).process.log = none ∧
          Down (absorb ⟨⟨some l, w⟩, accepted⟩ r).accepted
            (absorb ⟨⟨some l, w⟩, accepted⟩ r).process.world)
        (sat_mono (sat_close hinv id) (fun _ _ hsh => ⟨rfl, hfall hsh.fallen⟩)
          (fun _ _ hsh => ⟨rfl, hfall hsh.fallen⟩) (fun _ hf => ⟨rfl, hfall hf⟩))

end Life

/-! ## 3. The reopen -/

section Reopen

variable {accepted : List (Batch × AppendResult)} {history : List Bytes} {views vs : List SegView}
  {x x' g : SegView} {l : PartitionLog} {w : World} {o : Nat} {r : Bytes}

/-- The records of a segment that shows a good history. -/
theorem slices_good (hs : Slices views history) (hg : RunOf Good 0 history) :
    ∀ x ∈ views, RunOf Good x.1 x.2 := by
  intro x hx
  obtain ⟨t, ht⟩ := hs x hx
  by_cases hle : x.1 ≤ history.length
  · have hd := hg.drop x.1 hle
    rw [Nat.zero_add, ← ht, runOf_append] at hd
    exact hd.1
  · rw [drop_of_length_le (by omega)] at ht
    rw [(append_eq_nil_iff.mp ht).1]
    trivial

/-- Recovery loses no record of the history. -/
theorem found_prefix (h : Found (fun _ _ => True) x x') (hg : RunOf Good x.1 x.2) :
    x'.1 = x.1 ∧ x.2 <+: x'.2 := by
  obtain ⟨hb, tail, rest, -, hr⟩ := h
  obtain ⟨ex, he, -, -⟩ := hr.covers hg
  exact ⟨hb, by rw [he]; exact prefix_append _ _⟩

theorem openable (hd : DiskLog mode False (fun _ _ => True) views w)
    (hg : ∀ x ∈ views, RunOf Good x.1 x.2) : Openable mode (fun _ _ => True) views w := by
  refine ⟨hd, fun x hx tail _ recs' rest hr => ⟨?_, False.elim⟩, fun views' hv => ?_,
    fun hdu => hdu.elim, fun _ => trivial⟩
  · obtain ⟨ex, rfl, -, hex⟩ := hr.covers (hg x hx)
    obtain ⟨_, -, hdisk⟩ := hd.files x hx
    refine runOf_append.mpr ⟨hdisk.run, hex.mono (fun _ _ hr => ⟨hr.ok, le_trans hr.fits ?_⟩)⟩
    decide
  · have hrel : Forall₂ (fun x x' : SegView => x'.1 = x.1 ∧ x.2 <+: x'.2) views views' := by
      refine forall₂_imp_left hv (fun x x' hx hxx => ?_)
      rcases hxx with rfl | hf
      · exact ⟨rfl, prefix_refl _⟩
      · exact found_prefix hf (hg x hx)
    refine forall₂_isChain hrel (fun x x' y y' hx hy hxy => ?_) hd.listing.chain
    have hlen := hx.2.length_le
    have hlink : y.1 ≤ x.1 + x.2.length := hxy
    show y'.1 ≤ x'.1 + x'.2.length
    omega

/-- The record of an offset in a history stands in the segment that covers the offset. -/
theorem getElem?_slice (hs : x.2 <+: history.drop x.1) (hx : x.1 ≤ o) (ho : o < x.1 + x.2.length) :
    x.2[o - x.1]? = history[o]? := by
  obtain ⟨t, ht⟩ := hs
  have hget : (x.2 ++ t)[o - x.1]? = x.2[o - x.1]? := getElem?_append_left (by omega)
  rw [← hget, ht, getElem?_drop, Nat.add_sub_cancel' hx]

/-- **What recovery found still shows the record of an offset.** -/
theorem contents_found (hd : DiskLog mode False (fun _ _ => True) views w)
    (hs : Slices views history) (hg : ∀ x ∈ views, RunOf Good x.1 x.2) (h0 : viewStart views = 0)
    (hv : Forall₂ (Found (fun _ _ => True)) views vs) (ho : o < viewEnd views)
    (hr : history[o]? = some r) : contents vs o = some r := by
  obtain ⟨front, x, back, rfl, hx, hox, hback⟩ :=
    exists_covering hd.listing.sorted hd.listing.chain (by omega) ho
  obtain ⟨front', x', back', rfl, -, hf, hb⟩ := forall₂_split hv
  obtain ⟨hbase, hpre⟩ := found_prefix hf (hg x (by simp))
  have hget := getElem?_slice (hs x (by simp)) hx hox
  rw [contents_split (by omega) ?_, hbase]
  · obtain ⟨t, ht⟩ := hpre
    rw [← ht, getElem?_append_left (by omega), hget, hr]
  · intro y hy
    obtain ⟨z, hz, hzy⟩ := forall₂_exists_left hb hy
    rw [hzy.base]
    exact hback z hz

theorem viewEnd_found (hg : ∀ x ∈ views, RunOf Good x.1 x.2)
    (hv : Forall₂ (Found (fun _ _ => True)) views vs) : viewEnd views ≤ viewEnd vs := by
  rcases eq_nil_or_concat' views with rfl | ⟨front, x, rfl⟩
  · exact Nat.zero_le _
  · obtain ⟨front', x', rfl, -, hf⟩ := forall₂_concat_left hv
    obtain ⟨hbase, hpre⟩ := found_prefix hf (hg x (by simp))
    have hlen := hpre.length_le
    rw [viewEnd_concat, viewEnd_concat]
    omega

/-- **A reopen that returns** reads every record of an append that returned. -/
theorem readable_of_openLog (ht : Told accepted history (viewEnd views))
    (hd : DiskLog mode False (fun _ _ => True) views w) (hs : Slices views history)
    (h0 : viewStart views = 0) {w' : World}
    (hO : OpenLog mode (fun _ _ => True) views vs g l w') : Readable ⟨⟨some l, w'⟩, accepted⟩ := by
  have hg := slices_good hs ht.good
  have hinv := hO.inv 0
  intro l' hl' a ha i r hr maxBytes hm
  obtain rfl : l = l' := Option.some.inj hl'
  have hi := (List.getElem?_eq_some_iff.mp hr).1
  have hlt : a.2.baseOffset + i < viewEnd views := lt_of_lt_of_le (by omega) (ht.within a ha)
  have hhist : history[a.2.baseOffset + i]? = some r := by
    obtain ⟨t, hst⟩ := ht.stored a ha
    rw [← getElem?_drop, ← hst, getElem?_append_left hi, hr]
  have hF : Forall₂ (Found (fun _ _ => True)) views (vs ++ [g]) := by
    rcases hO.found with ⟨rfl, -⟩ | hF
    · exact absurd hlt (Nat.not_lt_zero _)
    · exact hF
  have hcont := contents_found hd hs hg h0 hF hlt hhist
  have hend : l.logEndOffset = viewEnd (vs ++ [g]) := by
    rw [hinv.ends, viewEnd_concat]
  have hstart : l.logStartOffset = 0 := by
    rw [hinv.start, ← h0]
    exact viewStart_congr (forall₂_map_eq hF (fun _ _ hx => hx.base.symm)).symm
  have hread := hinv.readable id (fun _ _ hx => hx)
  have hsize : ∀ x ∈ vs ++ [g], ∀ r ∈ x.2, r.length ≤ maxRecordBytes := by
    intro x hx r hr
    obtain ⟨o, ho⟩ := (hinv.run id x hx).mem r hr
    exact ho.2
  obtain ⟨r', rs, hc, -, hread⟩ := read_log hread hsize (by omega)
    (by rw [hend]; exact lt_of_lt_of_le hlt (viewEnd_found hg hF)) hm
  rw [hcont, Option.some.injEq] at hc
  refine ⟨_, hread, rfl, ?_⟩
  rw [← hc]
  exact prefix_append _ _

theorem accepted_reopen (options : LogOptions) (s : State) (env : Env) :
    (next options s (.reopen env)).accepted = s.accepted := by
  simp only [next, step]
  split
  · rfl
  · split <;> rfl

theorem readable_reopen {options : LogOptions} {env : Env} {s : State} (hlog : s.process.log = none)
    (hdown : Down s.accepted s.process.world) : Readable (next options s (.reopen env)) := by
  rcases hdown with hnil | ⟨history, views, ht, hd, hsl, h0⟩
  · intro l _ a ha
    rw [accepted_reopen, hnil] at ha
    cases ha
  obtain ⟨⟨log, w⟩, accepted⟩ := s
  subst hlog
  have hd' : DiskLog mode False (fun _ _ => True) views (w.under env) := hd.of_dir rfl
  have hnone : ∀ w', Readable ⟨⟨none, w'⟩, accepted⟩ := fun _ _ h => nomatch h
  refine step_reopen (P := fun r => Readable (absorb ⟨⟨none, w⟩, accepted⟩ r)) (sat_mono
    (sat_openLog (openable hd' (slices_good hsl ht.good)) (fun _ _ => trivial)) (fun r w' hr => ?_)
    (fun _ w' _ => hnone w') (fun w' _ => hnone w'))
  obtain ⟨-, ⟨vs, g, hO⟩, -⟩ := hr
  exact readable_of_openLog ht hd' hsl h0 hO

end Reopen

/-- **Every record whose append returned OK can be read after the reopen**, whatever failed and
    however the first process ended, if no append stored records beside the file of a failed
    roll. -/
theorem accepted_readable {options : LogOptions} {env env' : Env} {es : List Event} {fin : Event}
    (hes : Along (next options) (fun s ev => EventOk ev ∧ Clear s (next options s ev))
      (opened options env) es) (hfin : fin = .kill ∨ ∃ env, fin = .close env) :
    Readable ([fin, .reopen env'].foldl (next options)
      (es.foldl (next options) (opened options env))) := by
  have hlife := Along.foldl (inv_step options) hes (inv_opened options env)
  obtain ⟨hlog, hdown⟩ := down_of_ended options hlife hfin
  exact readable_reopen hlog hdown

/-- Segments of 64 bytes. -/
def options : LogOptions := ⟨64, 0, 4096, 0, 0, 0, false, ⟨false, 0, 0, 0⟩⟩

def one : Batch := .assign [bareRecord].flatten 1

/-- Two records do not fit beside the one there is, so this batch rolls. -/
def two : Batch := .assign [bareRecord, bareRecord].flatten 2

/-- The log file of the new segment is made, and the open of its index fails. -/
def indexFails : Env := ⟨[.none, .fail 0 ⟨.ioError, "open"⟩], [], []⟩

/-- The roll is tried again and takes the file over. -/
def retried : List Event :=
  [.call (.append one) ⟨[], [], []⟩, .call (.append two) indexFails, .call (.append two)
    ⟨[], [], []⟩]

theorem retried_readable :
    ((retried.foldl (next options) (opened options ⟨[], [], []⟩)).accepted.map
      (fun a => a.2.baseOffset) = [0, 1]) ∧
    Readable ([.kill, .reopen ⟨[], [], []⟩].foldl (next options)
      (retried.foldl (next options) (opened options ⟨[], [], []⟩))) := by
  have hbare : ParsesAlone bareRecord ∧ bareRecord.length ≤ maxRecordBytes :=
    ⟨bareRecord_alone, bareRecord_length_le⟩
  have hone : ∀ env, EventOk (.call (.append one) env) := fun _ =>
    ⟨by decide +kernel, fun _ _ _ h => sound_assign (by simpa using hbare) h⟩
  have htwo : ∀ env, EventOk (.call (.append two) env) := fun _ =>
    ⟨by decide +kernel, fun _ _ _ h => sound_assign (by simpa using hbare) h⟩
  refine ⟨by decide +kernel, accepted_readable ⟨⟨hone _, ?_⟩, ⟨htwo _, ?_⟩, ⟨htwo _, ?_⟩, trivial⟩
    (.inl rfl)⟩
  · decide +kernel
  · decide +kernel
  · decide +kernel

/-- The next append fits into the old segment. -/
def passedOver : List Event :=
  [.call (.append one) ⟨[], [], []⟩, .call (.append two) indexFails, .call (.append one)
    ⟨[], [], []⟩]

/-- **A record that was accepted cannot be read.** The reopen finds the file of the failed roll and
    takes its base for the log end. -/
theorem shadowed_by_failed_roll : ¬ Readable ([.kill, .reopen ⟨[], [], []⟩].foldl (next options)
    (passedOver.foldl (next options) (opened options ⟨[], [], []⟩))) := by
  set s := [.kill, .reopen ⟨[], [], []⟩].foldl (next options)
    (passedOver.foldl (next options) (opened options ⟨[], [], []⟩)) with hs
  have hacc : s.accepted.map (fun a => (a.2.baseOffset, (a.1.stored a.2).map List.length)) =
      [(0, [27]), (1, [27])] := by
    decide +kernel
  have hread : s.process.log.map (fun l => (l.read s.process.world 1 1024).value?.map
      PartitionLog.LogReadResult.out) = some (some []) := by
    decide +kernel
  intro h
  obtain ⟨l, hl, hout⟩ := Option.map_eq_some_iff.mp hread
  obtain ⟨a, ha, hab⟩ := mem_map.mp (show (1, [27]) ∈ s.accepted.map
    (fun a => (a.2.baseOffset, (a.1.stored a.2).map List.length)) by rw [hacc]; simp)
  rw [Prod.mk.injEq] at hab
  obtain ⟨r, hr, hlen⟩ := map_eq_singleton_iff.mp hab.2
  obtain ⟨out, hok, -, hpre⟩ := h l hl a ha 0 r (by rw [hr]; rfl) 1024 (by decide)
  rw [hab.1] at hok
  rw [hok] at hout
  have hnil : out.out = [] := Option.some.inj hout
  have := hpre.length_le
  rw [hnil, hlen] at this
  exact absurd this (by decide)

end FailedRoll

end PulseLog

/-
  Subject:   What `EnforceRetention` deletes, over all lives of a log.

  A segment is too old when its largest timestamp is. That number is kept in memory; a reopen
  rebuilds it from the records behind the last index entry and from the time index, and both can
  miss the newest record.

  * `retention_keeps_young` -- in every run of appends, flushes, retention passes, closes, crashes
    and reopens in which each reopen recalls its segments, a pass deletes old segments from the
    front only;
  * `young_record_deleted` -- otherwise a pass deletes a segment with a record that is too young.
-/
import PulseLog.Storage.TimeLookup

namespace PulseLog

open List IndexFormat PartitionLog

/-! ## 1. One pass -/

/-- A pass at `now` over the log `t`: it has dropped segments from the front and touched no file of
    another segment; without a size limit each was too old by the largest timestamp of its
    object. -/
structure Retained (now : Int) (t t' : PartitionLog × World) : Prop where
  active : t'.1.active = t.1.active
  options : t'.1.options = t.1.options
  dropped : ∃ old, t.1.segments = old ++ t'.1.segments ∧
    (t.1.options.retentionBytes ≤ 0 → ∀ s ∈ old, t.1.options.retentionMs < now - s.maxTimestamp) ∧
    Frame (fun p => ∃ s ∈ old, p.base = s.baseOffset) t.2 t'.2
  nonempty : t.1.segments ≠ [] → t'.1.segments ≠ []

/-- A segment whose indexes have its base. -/
def Based (s : Segment) : Prop :=
  s.index.baseOffset = s.baseOffset ∧ s.timeIndex.baseOffset = s.baseOffset

variable {e i : Nat} {segs segs' views : List SegView} {g g' x : SegView} {s : Segment}
  {l l' : PartitionLog} {w w' : World} {t t' : PartitionLog × World} {rs : List Bytes} {now : Int}

section Pass

/-- Every outcome of a call meets `P`. -/
abbrev Always {ε σ α : Type} (P : σ → Prop) (r : Outcome ε α × σ) : Prop :=
  Sat (fun _ t => P t) (fun _ t => P t) P r

section Always

variable {ε σ α : Type} {P P' : σ → Prop} {r : Outcome ε α × σ}

theorem Always.state (h : Always P r) : P r.2 := by
  rcases r with ⟨a | e | _, t⟩ <;> exact h

theorem Always.imp (h : Always P r) (hP : ∀ t, P t → P' t) : Always P' r :=
  sat_mono h (fun _ => hP) (fun _ => hP) hP

end Always

/-- A segment stays what it was but for its own files. -/
def Local (s : Segment) (w : World) (t : Segment × World) : Prop :=
  t.1.baseOffset = s.baseOffset ∧ Frame (·.base = s.baseOffset) w t.2

theorem always_sync (hb : Based s) : Always (Local s w) (Segment.sync (s, w)) := by
  refine sat_mono (sat_sync_files (Frame.refl _ _)
    (fun p w1 w2 hp h hu => h.trans (hu.frame.at_base ?_)) (fun _ _ h hf => h.trans hf.widen))
    (fun _ t ht => ⟨by rw [ht.1], ht.2⟩) (fun _ t ht => ⟨by rw [ht.1], ht.2⟩)
    (fun t ht => ⟨by rw [ht.1], ht.2⟩)
  rcases hp with rfl | rfl | rfl
  · rfl
  · exact hb.1
  · exact hb.2

theorem always_closeSegment (hb : Based s) : Always (Local s w) (Segment.close (s, w)) := by
  unfold Segment.close
  rw [bind_get]
  split
  · exact ⟨rfl, Frame.refl _ _⟩
  refine sat_bind (R := fun _ => Local s w) (sat_attempt (always_sync hb)) ?_
  rintro status ⟨s1, w1⟩ ⟨hb1, h1⟩
  rw [bind_get]
  have hstill : ∀ {w2}, Steady w1 w2 → Local s w (s1, w2) := fun hf => ⟨hb1, h1.trans hf.widen⟩
  refine sat_bind (R := fun _ => Local s w)
    (sat_attempt (sat_when (fun _ => sat_onSnd (sat_truncateFile
    (fun w2 hu => ⟨hb1, h1.trans (hu.frame.at_base hb1)⟩)
    (fun w2 hf => ⟨fun _ _ => hstill hf, hstill hf⟩))) (fun _ => ⟨hb1, h1⟩))) ?_
  rintro trimmed ⟨s2, w2⟩ h2
  rw [Segment.update, bind_modify]
  exact sat_then (sat_ofExcept (fun _ _ => sat_ofExcept (fun _ _ => h2) (fun _ _ => h2))
    (fun _ _ => h2))

/-- Closing and deleting a segment, whatever fails. -/
theorem always_discard (hb : Based s) :
    Always (fun t : PartitionLog × World => t.1 = l ∧ Frame (·.base = s.baseOffset) w t.2)
      (PartitionLog.discard s (l, w)) := by
  refine sat_then (sat_onSnd (sat_runOn (sat_then (sat_mono (always_closeSegment hb) ?_
    (fun _ _ ht => ⟨rfl, ht.2⟩) (fun _ ht => ⟨rfl, ht.2⟩)))))
  rintro _ ⟨s1, w1⟩ ⟨hb1, h1⟩
  refine sat_deleteSegment (fun w2 hf _ => ⟨rfl, h1.trans ?_⟩) (fun _ w2 hf _ => ⟨rfl, h1.trans ?_⟩)
    (fun w2 hf _ => ⟨rfl, h1.trans ?_⟩) <;>
  · rw [hb1] at hf
    exact hf

theorem Retained.refl (now : Int) (t : PartitionLog × World) : Retained now t t :=
  ⟨rfl, rfl, ⟨[], rfl, fun _ _ h => (nomatch h), Frame.refl _ _⟩, id⟩

/-- One more segment was dropped in front. -/
theorem Retained.cons (h : Retained now (l', w') t) (hsegs : l.segments = s :: l'.segments)
    (hne : l'.segments ≠ []) (hact : l'.active = l.active) (hopt : l'.options = l.options)
    (hold : l.options.retentionBytes ≤ 0 → l.options.retentionMs < now - s.maxTimestamp)
    (hf : Frame (·.base = s.baseOffset) w w') : Retained now (l, w) t := by
  obtain ⟨old, hsplit, hage, hframe⟩ := h.dropped
  rw [hopt] at hage
  refine ⟨h.active.trans hact, h.options.trans hopt, ⟨s :: old, ?_,
    fun hb => forall_mem_cons.mpr ⟨hold hb, hage hb⟩, ?_⟩, fun _ => h.nonempty hne⟩
  · rw [hsegs, hsplit]
    rfl
  · exact (hf.mono fun p hp => ⟨s, mem_cons_self, hp⟩).trans
      (hframe.mono fun p ⟨x, hx, hp⟩ => ⟨x, mem_cons_of_mem _ hx, hp⟩)

theorem always_dropFront : ∀ (n deleted : Nat) (l : PartitionLog) (w : World),
    (∀ s ∈ l.segments, Based s) →
    Always (Retained now (l, w)) (dropFront now n deleted (l, w))
  | 0, _, l, w, _ => Retained.refl now (l, w)
  | n + 1, deleted, l, w, hbased => by
    unfold dropFront
    rw [bind_get]
    rcases hsegs : l.segments with _ | ⟨oldest, _ | ⟨newest, rest⟩⟩
    · exact Retained.refl now (l, w)
    · exact Retained.refl now (l, w)
    rw [hsegs] at hbased
    dsimp only
    split
    · rename_i hdrop
      have hold : l.options.retentionBytes ≤ 0 →
          l.options.retentionMs < now - oldest.maxTimestamp := by
        intro hb
        rcases hdrop with hold | hbig
        · exact hold.2.2
        · omega
      rw [update, bind_modify]
      have hcons : ∀ {l'} {w'} {t},
          Retained now (l', w') t → l'.segments = newest :: rest → l'.active = l.active →
          l'.options = l.options → Frame (·.base = oldest.baseOffset) w w' →
            Retained now (l, w) t :=
        fun h hl' hact hopt hf => h.cons (by rw [hsegs, hl']) (by rw [hl']; simp) hact hopt hold hf
      refine sat_then (sat_mono (always_discard (hbased oldest mem_cons_self)) ?_
        (fun _ t ht => ?_) (fun t ht => ?_))
      · rintro _ ⟨_, w1⟩ ⟨rfl, hf⟩
        have hrest := always_dropFront n (deleted + 1)
          { l with segments := newest :: rest, logStartOffset := newest.baseOffset } w1
          (fun x hx => hbased x (mem_cons_of_mem _ hx))
        exact hrest.imp (fun _ ht => hcons ht rfl rfl rfl hf)
      all_goals
        obtain ⟨_, w1⟩ := t
        obtain ⟨rfl, hf⟩ := ht
        exact hcons (Retained.refl now _) rfl rfl rfl hf
    · exact Retained.refl now (l, w)

theorem onSnd_clock_eq (l : PartitionLog) (w : World) :
    (Prog.onSnd clockMillis (l, w) : Outcome Status Int × _) =
      (.ok (w.clock.headD 0), (l, { w with clock := w.clock.tail })) := by
  obtain ⟨dir, faults, _ | ⟨t, ts⟩, space⟩ := w
  · rfl
  · rfl

/-- **A retention pass**, whatever fails in it. -/
theorem always_enforceRetention (hbased : ∀ s ∈ l.segments, Based s) :
    Always (Retained (w.clock.headD 0) (l, w)) (enforceRetention (l, w)) := by
  unfold enforceRetention
  rw [bind_get]
  split
  · exact Retained.refl _ (l, w)
  rw [bind_ok (onSnd_clock_eq l w)]
  have hspent : Steady w { w with clock := w.clock.tail } :=
    .of_dir rfl ⟨fun _ h => h, fun _ h => mem_of_mem_tail h⟩
  refine (always_dropFront _ 0 l _ hbased).imp (fun t ht => ?_)
  obtain ⟨old, hsplit, hage, hframe⟩ := ht.dropped
  exact ⟨ht.active, ht.options, ⟨old, hsplit, hage, hspent.widen.trans hframe⟩, ht.nonempty⟩

end Pass

/-! ## 2. What the objects know -/

/-- **No record is newer than the largest timestamp of its object.** -/
def AllDated (views : List SegView) (ss : List Segment) : Prop :=
  ∀ (i : Nat) x s, views[i]? = some x → ss[i]? = some s →
    ∀ r ∈ x.2, recordTimestamp r ≤ s.maxTimestamp

/-- The objects are still there, in their places, and know no smaller timestamp. -/
def Outgrown (ss ss' : List Segment) : Prop :=
  ∀ (i : Nat) s, ss[i]? = some s → ∃ s', ss'[i]? = some s' ∧ s.maxTimestamp ≤ s'.maxTimestamp

section Objects

variable {ss ss' ss'' : List Segment}

theorem Outgrown.refl (ss : List Segment) : Outgrown ss ss := fun _ s hs => ⟨s, hs, le_rfl⟩

theorem Outgrown.trans (h : Outgrown ss ss') (h' : Outgrown ss' ss'') : Outgrown ss ss'' := by
  intro i s hs
  obtain ⟨s', hs', hle⟩ := h i s hs
  obtain ⟨s'', hs'', hle'⟩ := h' i s' hs'
  exact ⟨s'', hs'', le_trans hle hle'⟩

theorem outgrown_of_forall₂ (h : Forall₂ SyncOnly ss ss') : Outgrown ss ss' := by
  induction h with
  | nil => exact Outgrown.refl []
  | cons hx _ ih =>
    intro i s hs
    cases i with
    | zero =>
      obtain rfl := Option.some.inj hs
      exact ⟨_, rfl, le_of_eq hx.newest.symm⟩
    | succ i => exact ih i s hs

theorem outgrown_append (ss more : List Segment) : Outgrown ss (ss ++ more) := by
  intro i s hs
  obtain ⟨hi, -⟩ := List.getElem?_eq_some_iff.mp hs
  exact ⟨s, by rw [getElem?_append_left hi, hs], le_rfl⟩

theorem LogStep.outgrown (h : LogStep t t') : Outgrown t.1.segments t'.1.segments := by
  cases h with
  | sync h => exact outgrown_of_forall₂ h.segments
  | roll h =>
    rw [h.segments]
    exact outgrown_append _ _
  | @grow m a a' h =>
    obtain ⟨olds, hsegs, hsegs'⟩ := h.segments
    rw [hsegs, hsegs']
    intro i s hs
    rcases getElem?_concat_eq_some.mp hs with hs | ⟨rfl, rfl⟩
    · exact ⟨s, getElem?_concat_eq_some.mpr (.inl hs), le_rfl⟩
    · exact ⟨a', getElem?_concat_eq_some.mpr (.inr ⟨rfl, rfl⟩), by
        rw [h.grown.newest]
        exact le_max_left _ _⟩

theorem Reach.outgrown (h : Reach t t') : Outgrown t.1.segments t'.1.segments := by
  obtain ⟨-, hsteps⟩ := h
  induction hsteps with
  | refl => exact Outgrown.refl _
  | tail _ hstep ih => exact ih.trans hstep.outgrown

/-- The last object knows the timestamps of the batch. -/
theorem Lengthened.last {m : Int} (h : Lengthened m t t') :
    ∃ olds a, t'.1.segments = olds ++ [a] ∧ m ≤ a.maxTimestamp := by
  obtain ⟨a, a', t₁, t₂, -, hg, hs⟩ := h
  obtain ⟨olds, -, hsegs⟩ := hg.segments
  have hsync := hs.segments
  rw [hsegs] at hsync
  obtain ⟨olds', b, hsegs', -, hb⟩ := forall₂_concat_left hsync
  refine ⟨olds', b, hsegs', ?_⟩
  rw [SyncOnly.newest hb, hg.grown.newest]
  exact le_max_right _ _

/-- A record of a segment after an append: it stood in the same segment before, or is one of the new
    ones in the last. -/
theorem Rolled.record {r : Bytes} (h : Rolled segs g segs' g')
    (hx : (segs' ++ [(g'.1, g'.2 ++ rs)])[i]? = some x) (hr : r ∈ x.2) :
    (∃ y, (segs ++ [g])[i]? = some y ∧ r ∈ y.2) ∨ i = segs'.length ∧ r ∈ rs := by
  rcases getElem?_concat_eq_some.mp hx with hold | ⟨hi, rfl⟩
  · refine .inl ⟨x, ?_, hr⟩
    cases h with
    | same => exact getElem?_concat_eq_some.mpr (.inl hold)
    | next _ => exact hold
  · rcases mem_append.mp hr with hr | hr
    · cases h with
      | same => exact .inl ⟨g, getElem?_concat_eq_some.mpr (.inr ⟨hi, rfl⟩), hr⟩
      | next _ => exact nomatch hr
    · exact .inr ⟨hi, hr⟩

/-- **The objects know the timestamps of the records after an append**, if they did before. -/
theorem AllDated.appended (h : AllDated (segs ++ [g]) ss) (hlen : (segs ++ [g]).length = ss.length)
    (hout : Outgrown ss ss') (hroll : Rolled segs g segs' g')
    (hnew : ∀ r ∈ rs, ∀ s, ss'[segs'.length]? = some s → recordTimestamp r ≤ s.maxTimestamp) :
    AllDated (segs' ++ [(g'.1, g'.2 ++ rs)]) ss' := by
  intro i x s hx hs r hr
  rcases hroll.record hx hr with ⟨y, hy, hry⟩ | ⟨rfl, hrs⟩
  · obtain ⟨hi, -⟩ := List.getElem?_eq_some_iff.mp hy
    rw [hlen] at hi
    obtain ⟨s', hs', hle⟩ := hout i ss[i] (getElem?_eq_getElem hi)
    rw [hs, Option.some.injEq] at hs'
    subst hs'
    exact le_trans (h i y _ hy (getElem?_eq_getElem hi) r hry) hle
  · exact hnew r hrs s hs

/-- Objects dropped in front leave the others in step with their views. -/
theorem AllDated.drop {olds : List SegView} {ss₀ : List Segment}
    (h : AllDated (olds ++ views) (ss₀ ++ ss)) (hlen : olds.length = ss₀.length) :
    AllDated views ss := by
  intro i x s hx hs
  refine h (olds.length + i) x s ?_ ?_
  · rw [getElem?_append_right (Nat.le_add_right _ _), Nat.add_sub_cancel_left, hx]
  · rw [hlen, getElem?_append_right (Nat.le_add_right _ _), Nat.add_sub_cancel_left, hs]

end Objects

/-! ## 3. What a reopen finds -/

/-- **The reopen of a segment recalls its records**: none in front of the last index entry is newer
    than the records behind it and than the last entry of the time index. -/
def Recalled (b : Nat) (f : SegFiles) : Prop :=
  ∀ r, f.scan b = .ok r → ∀ x ∈ splitRecords ((f.scanStart b).2 - b) f.data,
    recordTimestamp x ≤ max r.maxTimestamp (TimeIndex.maxTimestamp ⟨b, (f.after b r).times⟩)

section Reopen

variable {recs recs' : List Bytes} {tail : Bytes} {b : Nat} {M : Mode}

/-- **A recovered object knows the timestamps of its records**, if the reopen recalls them. -/
theorem Recovered.dated {P : Nat → Bytes → Prop} {strict : Prop} (hframed : ∀ o r, P o r → Framed r)
    (hd : DiskSeg P strict b recs tail w) (h : Recovered b (segFiles w b) s w')
    (hs : SegInv M recs' s w') (hcall : Recalled b (segFiles w b)) :
    ∀ r ∈ recs', recordTimestamp r ≤ s.maxTimestamp := by
  obtain ⟨f, hf, hdata⟩ := hd.log
  have hfile : (segFiles w b).data = recs.flatten ++ tail :=
    (bytes_of_file hf).trans hdata
  obtain ⟨rel, hrel, -, -, hstart⟩ := SegFiles.scanStart_eq (f := segFiles w b) b hd.entries
  obtain ⟨r, hscan, -, hnext, -, hh⟩ := h.found
  have hrun := hscan
  unfold SegFiles.scan at hrun
  rw [hfile, hstart] at hrun
  obtain ⟨found, rest, hres, -, hpos, hoff, hdated⟩ := rescanned_of_scan hrel hrun
  have hrecs : ∀ x ∈ recs, Framed x := hd.run.framed hframed
  -- the object's records are those the scan found
  have hsame : recs' = found := by
    obtain ⟨rest', hafter⟩ := SegFiles.after_data b (hfile.trans hres.split) hpos
    obtain ⟨g, tail', hg, hgd, -⟩ := hs.log
    have hbytes : recs'.flatten ++ tail' = found.flatten ++ rest' := by
      rw [← hafter, ← hh.bytes, ← h.base_eq]
      exact ((bytes_of_file hg).trans hgd).symm
    have hlen : recs'.length = found.length := by
      have := hs.next
      rw [h.base_eq] at this
      omega
    calc recs' = splitRecords recs'.length (recs'.flatten ++ tail') :=
          (splitRecords_append (hs.run.framed M.framed) _).symm
      _ = splitRecords found.length (found.flatten ++ rest') := by rw [hlen, hbytes]
      _ = found := splitRecords_append (hres.framed hrecs) _
  intro x hx
  rw [hsame] at hx
  rw [h.newest r hscan]
  rcases hdated x hx with hold | hnew
  · refine hcall r hscan x ?_
    rw [hstart, hfile, Nat.add_sub_cancel_left]
    have hlen : (recs.take rel).length = rel := length_take_of_le hrel
    have hsplit : recs.flatten ++ tail =
        (recs.take rel).flatten ++ ((recs.drop rel).flatten ++ tail) := by
      rw [← append_assoc, ← flatten_append, take_append_drop]
    have htake : ∀ y ∈ recs.take rel, Framed y := fun y hy => hrecs y (mem_of_mem_take hy)
    have hfront := splitRecords_append htake ((recs.drop rel).flatten ++ tail)
    rw [hlen, ← hsplit] at hfront
    rw [hfront]
    exact hold
  · exact le_trans hnew (le_max_left _ _)

end Reopen

/-! ## 4. Every run -/

namespace Retention

open LogRun

/-- Any framed records; no two objects share a file. -/
def mode : LogMode := { Flushed.mode with durable := False, shared := False }

/-- The log whose objects know the timestamps of their records, or the directory it left. -/
def Inv (p : Process) : Prop :=
  match p.log with
  | some l => ∃ e segs g, LogInv mode e segs g l p.world ∧ AllDated (segs ++ [g]) l.segments
  | none => ∃ segs, DiskLog mode False (fun _ _ => True) segs p.world

/-- Appends of less than 4 GiB at times of the clock's type, flushes, retention passes, closes,
    crashes and reopens. No file operation fails, but the process may die in any of them. -/
def EventOk : Event → Prop
  | .call (.append b) env => env.Calm ∧ b.bytes.length ≤ uint32Max ∧ ∀ c ∈ env.clock, -2 ^ 63 ≤ c
  | .call .flush env => env.Calm
  | .call .enforceRetention env => env.Calm
  | .call (.truncateTo _) _ => False
  | .close env => env.Calm
  | .kill => True
  | .reopen env => env.Calm

/-- A reopen recalls the records of every segment. -/
def RecallsAtOpen (p : Process) : Event → Prop
  | .reopen _ => p.log = none → ∀ b ∈ p.world.logBases, Recalled b (segFiles p.world b)
  | _ => True

section Steps

variable {options : LogOptions} {env : Env}

theorem length_views (h : LogInv mode e segs g l w) : (segs ++ [g]).length = l.segments.length :=
  (h.all_objects id).length_eq

theorem inv_append {b : Batch} (h : LogInv mode e segs g l w)
    (hd : AllDated (segs ++ [g]) l.segments) (hc : EventOk (.call (.append b) env)) :
    Inv (Flushed.next options ⟨some l, w⟩ (.call (.append b) env)) := by
  obtain ⟨hcalm, hsize, hclock⟩ := hc
  have h0 : LogInv mode (g.1 + g.2.length) segs g l (w.under env) :=
    (h.under (hcalm.not_mayFail w)).retarget (fun hf => hf.elim)
  refine step_call (P := fun r => Inv r.1) (sat_mono (sat_map (sat_and
    (sat_append h0 False.elim (fun _ _ _ hs => Flushed.framed_of_stores hs) (.inl hsize))
    (sat_append_added b (h0.led id)))) (fun _ t ht => ?_) (fun _ t ht => ?_) (fun t ht => ?_))
  · obtain ⟨r, -, ⟨rs, hrep, segs', g', hroll, hl⟩, m, hlen, hnew⟩ := ht
    refine ⟨_, _, _, hl, hd.appended (length_views h) hlen.reach.outgrown hroll fun x hx s hs => ?_⟩
    -- the object behind the sealed ones is the last, which took the batch
    obtain ⟨olds, a, hsegs, hm⟩ := hlen.last
    have hcount := length_views hl
    rw [hsegs, length_append, length_append] at hcount
    rw [hsegs] at hs
    rcases getElem?_concat_eq_some.mp hs with hs | ⟨-, rfl⟩
    · have hlt := (List.getElem?_eq_some_iff.mp hs).1
      simp only [length_singleton] at hcount
      omega
    · have hst := hrep.stores
      rw [← hrep.base] at hst
      exact le_trans (hnew hclock rs hst x hx) hm
  · obtain ⟨⟨segs', g', hroll, hl⟩ | ⟨hf, -⟩, hreach⟩ := ht
    · have hdated : AllDated (segs' ++ [(g'.1, g'.2 ++ [])]) t.1.segments :=
        hd.appended (length_views h) hreach.outgrown hroll (by simp)
      rw [append_nil] at hdated
      exact ⟨_, _, _, hl, hdated⟩
    · exact hf.elim
  · obtain ⟨⟨segs', g', -, hl | ⟨time, rs, -, ⟨k, hl⟩ | hl⟩⟩, -⟩ := ht
    · exact hl.left id
    · exact hl.left id
    · exact hl.left id

/-- Objects that were only synced know what they knew. -/
theorem AllDated.sync (h : AllDated views t.1.segments) (hs : SyncStep t t') :
    AllDated views t'.1.segments := by
  intro i x s' hx hs' r hr
  have hi := (List.getElem?_eq_some_iff.mp hs').1
  rw [← hs.segments.length_eq] at hi
  have hsi := getElem?_eq_getElem hi
  rw [SyncOnly.newest (forall₂_getElem? hs.segments hsi hs')]
  exact h i x _ hx hsi r hr

theorem inv_flush (h : LogInv mode e segs g l w) (hd : AllDated (segs ++ [g]) l.segments)
    (hc : env.Calm) : Inv (Flushed.next options ⟨some l, w⟩ (.call .flush env)) := by
  refine step_call (P := fun r => Inv r.1) (sat_mono (sat_map (sat_and
    (sat_flush (h.under (hc.not_mayFail w))) sat_flush_sync)) (fun _ t ht => ?_)
    (fun _ t ht => ⟨_, _, _, ht.1.1, AllDated.sync hd ht.2⟩) (fun t ht => ht.1.left id))
  obtain ⟨-, -, hl, hsync⟩ := ht
  exact ⟨_, _, _, hl, AllDated.sync hd hsync⟩

theorem inv_enforceRetention (h : LogInv mode e segs g l w) (hd : AllDated (segs ++ [g]) l.segments)
    (hc : env.Calm) : Inv (Flushed.next options ⟨some l, w⟩ (.call .enforceRetention env)) := by
  have h0 := h.under (hc.not_mayFail w)
  refine step_call (P := fun r => Inv r.1) (sat_mono (sat_map (sat_and
    (sat_enforceRetention id id h0) (always_enforceRetention (h0.led id).based)))
    (fun _ t ht => ?_) (fun _ _ ht => ht.1.elim) (fun t ht => ?_))
  · obtain ⟨-, -, ⟨segs', ⟨gone, rfl⟩, hl⟩, htrim⟩ := ht
    obtain ⟨old, hsplit, -, -⟩ := htrim.dropped
    -- as many views are gone as objects
    have hbefore := length_views h
    have hafter := length_views hl
    rw [hsplit, append_assoc] at hbefore hd
    rw [length_append, hafter, length_append] at hbefore
    exact ⟨_, _, _, hl, hd.drop (by omega)⟩
  · obtain ⟨⟨segs', -, hl⟩, -⟩ := ht
    exact hl.left id

/-- The objects of an open that returned know their records, if it recalls them. -/
theorem allDated_of_loaded (h : DiskLog mode False (fun _ _ => True) segs w)
    (hl : LogInv mode e views g l w') (hload : LoadedFrom options w l w')
    (hcall : ∀ b ∈ w.logBases, Recalled b (segFiles w b)) : AllDated (views ++ [g]) l.segments := by
  have hall := hl.all_objects id
  intro i x s hx hs
  have hobj := forall₂_getElem? hall hx hs
  cases hload with
  | fresh hempty hs' hsegs hstart hend hactive hnext =>
    -- the only segment has no records
    have hlen := length_views hl
    rw [hsegs] at hlen
    have hviews : views = [] := length_eq_zero_iff.mp (by simpa using hlen)
    have hg : g.2 = [] := by
      have := hl.ends
      exact length_eq_zero_iff.mp (by omega)
    rw [hviews] at hx
    have hxg : x = g := by simpa using mem_of_getElem? hx
    rw [hxg, hg]
    exact fun r hr => nomatch hr
  | recovered hne hsegs hframe hstart hend =>
    obtain ⟨b, hb, hrec⟩ := forall₂_exists_left hsegs (mem_of_getElem? hs)
    have hmap := hb
    rw [h.logBases_eq] at hmap
    obtain ⟨y, hy, rfl⟩ := mem_map.mp hmap
    obtain ⟨tail, -, hdisk⟩ := h.files y hy
    exact hrec.dated mode.framed hdisk hobj.holds (hcall _ hb)

theorem inv_reopen (h : DiskLog mode False (fun _ _ => True) segs w) (hc : env.Calm)
    (hcall : ∀ b ∈ w.logBases, Recalled b (segFiles w b)) :
    Inv (Flushed.next options ⟨none, w⟩ (.reopen env)) := by
  have hdisk : DiskLog mode False (fun _ _ => True) segs (w.under env) := h.of_dir rfl
  have hopen : Openable mode (fun _ _ => True) segs (w.under env) :=
    openable_framed hdisk (fun _ _ hr => hr) id (fun _ _ => trivial) False.elim
      (fun hm => absurd hm (hc.not_mayFail w))
  refine step_reopen (P := fun r => Inv r.1) (sat_mono (sat_and
    (sat_openLog hopen (fun _ _ => trivial)) (sat_openLog_any options))
    (fun _ w' hr => ?_) (fun _ _ hr => hr.1.1.left) (fun _ hr => hr.1.1.left))
  obtain ⟨⟨-, ⟨views, g, hO⟩, -⟩, hload⟩ := hr
  exact ⟨0, views, g, hO.inv 0, allDated_of_loaded hdisk (hO.inv 0) hload hcall⟩

theorem inv_step (options : LogOptions) (p : Process) (ev : Event) (h : Inv p)
    (hev : EventOk ev ∧ RecallsAtOpen p ev) : Inv (Flushed.next options p ev) := by
  obtain ⟨log, w⟩ := p
  cases ev with
  | call c env =>
    cases log with
    | none => exact h
    | some l =>
      obtain ⟨e, segs, g, h, hd⟩ := h
      cases c with
      | append b => exact inv_append h hd hev.1
      | flush => exact inv_flush h hd hev.1
      | enforceRetention => exact inv_enforceRetention h hd hev.1
      | truncateTo => exact hev.1.elim
  | close env =>
    cases log with
    | none => exact h
    | some l =>
      obtain ⟨e, segs, g, h, -⟩ := h
      have hshut : ∀ w', Shut mode e segs g w' → Inv ⟨none, w'⟩ := fun w' hs =>
        ⟨_, (hs.disk id).mono (fun _ _ _ _ => trivial)⟩
      exact step_close (P := fun r => Inv r.1) (sat_mono
        (sat_close (h.under (Env.Calm.not_mayFail hev.1 w)) id) (fun _ t ht => hshut _ ht)
        (fun _ t ht => hshut _ ht) (fun t ht => ht.left id))
  | kill =>
    cases log with
    | none => exact h
    | some l =>
      obtain ⟨e, segs, g, h, -⟩ := h
      exact h.killed.left id
  | reopen env =>
    cases log with
    | none =>
      obtain ⟨segs, h⟩ := h
      exact inv_reopen h hev.1 (hev.2 rfl)
    | some l => exact h

end Steps

/-! ## 5. The main result -/

/-- **A pass deletes old segments from the front only.** The active segment stays, so do the files
    of the segments that stay, and every record of the others is too old. -/
def DropsOldOnly (env : Env) (l : PartitionLog) (w : World) : Prop :=
  ∃ old, l.segments = old ++ (enforceRetention (l, w.under env)).2.1.segments ∧
    (∃ s ∈ (enforceRetention (l, w.under env)).2.1.segments, l.active = some s.id) ∧
    (∀ s ∈ old, ∀ s' ∈ (enforceRetention (l, w.under env)).2.1.segments,
      s.baseOffset < s'.baseOffset) ∧
    (∀ p : Path, (∀ s ∈ old, p.base ≠ s.baseOffset) →
      (enforceRetention (l, w.under env)).2.2.file p = w.file p) ∧
    ∀ s ∈ old, ∀ r ∈ splitRecords (s.nextOffset - s.baseOffset) (w.bytes s.logPath),
      l.options.retentionMs < env.clock.headD 0 - recordTimestamp r

/-- The records of an object are those of its view. -/
theorem splitRecords_of_obj {fl : Nat} (h : ObjInv mode fl x s w) :
    splitRecords (s.nextOffset - s.baseOffset) (w.bytes s.logPath) = x.2 := by
  obtain ⟨f, tail, hf, hd, -⟩ := h.holds.log
  rw [h.holds.next, Nat.add_sub_cancel_left, bytes_of_file hf, hd]
  exact splitRecords_append (h.holds.run.framed mode.framed) _

/-- The objects stand in the order of their bases. -/
theorem bases_sorted (h : LogInv mode e segs g l w) :
    l.segments.Pairwise (fun s s' => s.baseOffset < s'.baseOffset) := by
  have hmap : (segs ++ [g]).map Prod.fst = l.segments.map Segment.baseOffset :=
    forall₂_map_eq (h.all_objects id) (fun _ _ ho => ho.base_eq.symm)
  have hsorted := pairwise_map.mpr h.listing.sorted
  rw [hmap] at hsorted
  exact pairwise_map.mp hsorted

theorem dropsOldOnly_of_inv (h : LogInv mode e segs g l w) (hd : AllDated (segs ++ [g]) l.segments)
    (hbytes : l.options.retentionBytes ≤ 0) (env : Env) : DropsOldOnly env l w := by
  have htrim : Retained (env.clock.headD 0) (l, w.under env)
      (enforceRetention (l, w.under env)).2 :=
    Always.state (always_enforceRetention (h.led id).based)
  obtain ⟨old, hsplit, hage, hframe⟩ := htrim.dropped
  dsimp only at hsplit hage hframe
  refine ⟨old, hsplit, ?_, ?_, fun p hp => ?_, fun s hs r hr => ?_⟩
  · -- the last object is the active one, and the pass leaves a last object
    obtain ⟨olds, a, hsegs, hact⟩ := (h.led id).active
    have hkept := htrim.nonempty (by rw [hsegs]; simp)
    have hlast := congrArg List.getLast? hsplit
    rw [hsegs, getLast?_concat, getLast?_append_of_ne_nil _ hkept] at hlast
    exact ⟨a, mem_of_getLast? hlast.symm, hact⟩
  · have hsorted := bases_sorted h
    rw [hsplit] at hsorted
    exact (pairwise_append.mp hsorted).2.2
  · exact hframe.others p fun ⟨s, hs, hb⟩ => hp s hs hb
  · -- the record is not newer than the timestamp the pass looked at
    have hmem : s ∈ l.segments := by
      rw [hsplit]
      exact mem_append_left _ hs
    obtain ⟨i, hi⟩ := getElem?_of_mem hmem
    have hlt := (List.getElem?_eq_some_iff.mp hi).1
    rw [← length_views h] at hlt
    have hx := getElem?_eq_getElem hlt
    rw [splitRecords_of_obj (forall₂_getElem? (h.all_objects id) hx hi)] at hr
    have hle := hd i _ s hx hi r hr
    have hold := hage hbytes s hs
    omega

/-- **Retention deletes no young record**, in any run whose reopens recall the records. -/
theorem retention_keeps_young {options : LogOptions} {es : List Event} {l : PartitionLog}
    (h : Along (Flushed.next options) (fun p ev => EventOk ev ∧ RecallsAtOpen p ev) init es)
    (hl : (Flushed.run options es).log = some l) (hbytes : l.options.retentionBytes ≤ 0)
    (env : Env) :
    DropsOldOnly env l (Flushed.run options es).world := by
  have hinv : Inv (Flushed.run options es) :=
    Along.foldl (inv_step options) h ⟨[], diskLog_empty ⟨[], [], []⟩⟩
  rw [Inv, hl] at hinv
  obtain ⟨e, segs, g, hlog, hd⟩ := hinv
  exact dropsOldOnly_of_inv hlog hd hbytes env

/-- A record at a time of the clock. -/
def appendAt (time : Int) : Event :=
  .call (.append (.assign bareRecord 1)) ⟨[], [time, time, time], []⟩

/-- Records at these times, then a clean restart. -/
def restarted (times : List Int) : List Event :=
  .reopen ⟨[], [], []⟩ :: times.map appendAt ++ [.close ⟨[], [], []⟩, .reopen ⟨[], [], []⟩]

/-- An age limit of 50 ms. -/
def agedOptions (segmentBytes : Int) : LogOptions :=
  { smallSegments false with segmentBytes, indexIntervalBytes := 40, retentionMs := 50 }

/-- A segment whose last index entry is at its base recalls its records. -/
theorem recalled_of_first {b : Nat} {f : SegFiles} (h : (f.scanStart b).2 - b = 0) :
    Recalled b f := by
  intro r _ x hx
  rw [h] at hx
  exact nomatch hx

/-- Of two segments with a record each, a pass at 65 deletes the one of time 10. -/
theorem restarted_drops_old : ∃ l, (Flushed.run (agedOptions 32) (restarted [10, 20])).log =
    some l ∧ l.segments.length = 2 ∧
    (enforceRetention (l, (Flushed.run (agedOptions 32) (restarted [10, 20])).world.under
      ⟨[], [65], []⟩)).2.1.segments.length = 1 ∧
    DropsOldOnly ⟨[], [65], []⟩ l (Flushed.run (agedOptions 32) (restarted [10, 20])).world := by
  have hlog : (Flushed.run (agedOptions 32) (restarted [10, 20])).log.map (fun l =>
      (l.options.retentionBytes, l.segments.length, (enforceRetention
        (l, (Flushed.run (agedOptions 32) (restarted [10, 20])).world.under
          ⟨[], [65], []⟩)).2.1.segments.length)) = some (0, 2, 1) := by decide +kernel
  obtain ⟨l, hl, hfacts⟩ := Option.map_eq_some_iff.mp hlog
  rw [Prod.mk.injEq, Prod.mk.injEq] at hfacts
  refine ⟨l, hl, hfacts.2.1, hfacts.2.2, retention_keeps_young ?_ hl (le_of_eq hfacts.1) _⟩
  have hcalm : ∀ clock, Env.Calm ⟨[], clock, []⟩ := fun clock => calm_nil clock []
  refine ⟨⟨hcalm _, fun _ b hb => ?_⟩, ⟨⟨hcalm _, by decide +kernel, by decide +kernel⟩, trivial⟩,
    ⟨⟨hcalm _, by decide +kernel, by decide +kernel⟩, trivial⟩, ⟨hcalm _, trivial⟩,
    ⟨hcalm _, fun _ b hb => recalled_of_first ?_⟩, trivial⟩
  · exact absurd hb (by decide +revert +kernel)
  · revert b
    decide +kernel

/-- The times of the records of a segment. -/
def timesOf (w : World) (s : Segment) : List Int :=
  (splitRecords (s.nextOffset - s.baseOffset) (w.bytes s.logPath)).map recordTimestamp

/-- Three records in a segment and one in the next. -/
def forgetful : Process := Flushed.run (agedOptions 100) (restarted [10, 100, 20, 30])

/-- **A young record is deleted.** The record of time 100 gets no entry in the time index and lies
    in front of the last entry of the offset index, so the restart takes 20 for the newest time of
    the segment. A pass at 120 deletes it, with a limit of 50. -/
theorem young_record_deleted : ∃ l, forgetful.log = some l ∧ l.options.retentionBytes ≤ 0 ∧
    l.options.retentionMs = 50 ∧ ¬ DropsOldOnly ⟨[], [120], []⟩ l forgetful.world := by
  have hlog : forgetful.log.map (fun l => (l.options.retentionBytes, l.options.retentionMs)) =
      some (0, 50) := by decide +kernel
  have htimes : forgetful.log.map (fun l => (l.segments.map (timesOf forgetful.world),
      (enforceRetention (l, forgetful.world.under ⟨[], [120], []⟩)).2.1.segments.map
        (timesOf forgetful.world))) = some ([[10, 100, 20], [30]], [[30]]) := by decide +kernel
  obtain ⟨l, hl, hfacts⟩ := Option.map_eq_some_iff.mp hlog
  rw [Prod.mk.injEq] at hfacts
  rw [hl, Option.map_some, Option.some.injEq, Prod.mk.injEq] at htimes
  refine ⟨l, hl, le_of_eq hfacts.1, hfacts.2, ?_⟩
  rintro ⟨old, hsplit, -, -, -, hage⟩
  have hold := congrArg (List.map (timesOf forgetful.world)) hsplit
  rw [map_append, htimes.1, htimes.2] at hold
  have hfirst : [[10, 100, 20]] = old.map (timesOf forgetful.world) :=
    append_cancel_right hold
  obtain ⟨s, hs, hst⟩ := mem_map.mp (show [10, 100, 20] ∈ old.map (timesOf forgetful.world) by
    rw [← hfirst]
    simp)
  obtain ⟨r, hr, h100⟩ := mem_map.mp (show 100 ∈ timesOf forgetful.world s by
    rw [hst]
    simp)
  have := hage s hs r hr
  rw [hfacts.2, h100] at this
  exact absurd this (by decide)

end Retention

end PulseLog

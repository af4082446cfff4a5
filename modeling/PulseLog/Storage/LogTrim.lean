/-
  Subject:   Closing, retention and truncation of a log.

  * `sat_closeAll`, `sat_close` -- closing leaves the files of the same records (`Shut`), whether it
    reports an error or not;
  * `sat_enforceRetention` -- segments are dropped from the front; a crash in between has dropped
    some of them;
  * `sat_truncateTo` -- segments are dropped from the back, and the one that holds the offset is
    cut in front of it.
-/
import PulseLog.Storage.LogRoll

namespace PulseLog

open List IndexFormat PartitionLog

/-! ## 1. Closing -/

/-- An object that shows the segment `g`. -/
def Shows (M : LogMode) (w : World) (g : SegView) (s : Segment) : Prop :=
  s.baseOffset = g.1 ∧ SegInv M.toMode g.2 s w

/-- The files of a segment that was closed. -/
def ShutSeg (M : LogMode) (w : World) (g : SegView) : Prop :=
  ∃ tail, M.tail tail ∧ DiskSeg M.record M.strict g.1 g.2 tail w

/-- The directory of a log that was closed. -/
structure Shut (M : LogMode) (stray : Nat) (segs : List SegView) (g : SegView) (w : World) :
    Prop where
  files : ∀ x ∈ segs ++ [g], ShutSeg M w x
  listing : Listing M (fun b => M.faulty ∧ b = stray ∧ Blank M w b) (segs ++ [g]) w

variable {M : LogMode} {S : Path → Prop} {segs gs views : List SegView} {g g₀ g₁ : SegView}
  {l : PartitionLog} {ss olds : List Segment} {s s₀ a₁ a : Segment} {w w' : World} {e o : Nat}

theorem Shows.frame (h : Shows M w g s) (hf : Frame S w w') (hS : ∀ p, p.base = g.1 → ¬ S p) :
    Shows M w' g s :=
  ⟨h.1, h.2.frame hf (by rw [h.1]; exact hS)⟩

theorem ShutSeg.frame (h : ShutSeg M w g) (hf : Frame S w w') (hS : ∀ p, p.base = g.1 → ¬ S p) :
    ShutSeg M w' g := by
  obtain ⟨tail, ht, hd⟩ := h
  exact ⟨tail, ht, hd.frame hf hS⟩

theorem ShutSeg.torn (h : ShutSeg M w g) : Torn M.toMode g.1 g.2 [] w := by
  obtain ⟨tail, ht, hd⟩ := h
  exact ⟨tail, ht, hd.weaken⟩

theorem Shows.torn (h : Shows M w g s) : Torn M.toMode g.1 g.2 [] w := by
  have ht := h.2.torn
  rwa [h.1] at ht

/-- Half way through closing the objects of `views`. -/
structure Closing (M : LogMode) (views : List SegView) (w : World) (todo : List Segment)
    (w' : World) : Prop where
  frame : Frame (fun p => p.base ∈ views.map Prod.fst) w w'
  split : ∃ v v', views = v ++ v' ∧ (∀ x ∈ v, ShutSeg M w' x) ∧ Forall₂ (Shows M w') v' todo

/-- **Closing all objects**: errors are noted, the records stay on disk. -/
theorem sat_closeAll (h : Forall₂ (Shows M w) views ss)
    (hsort : views.Pairwise (fun x y => x.1 < y.1)) {E : Status → List Segment × World → Prop} :
    Sat (fun _ t => Frame (fun p => p.base ∈ views.map Prod.fst) w t.2 ∧
        ∀ x ∈ views, ShutSeg M t.2 x) E
      (fun t => Frame (fun p => p.base ∈ views.map Prod.fst) w t.2 ∧
        ∀ x ∈ views, Torn M.toMode x.1 x.2 [] t.2)
      (Prog.onEach Segment.close.attempt ss w) := by
  have hloop := sat_onEach (p := Segment.close.attempt) (E := E)
    (I := fun _ todo w' => Closing M views w todo w')
    (H := fun t => Frame (fun p => p.base ∈ views.map Prod.fst) w t.2 ∧
      ∀ x ∈ views, Torn M.toMode x.1 x.2 [] t.2) ?_ ss [] w
    ⟨Frame.refl _ _, [], views, rfl, by simp, h⟩
  · refine sat_mono hloop (fun _ t ht => ⟨ht.frame, fun x hx => ?_⟩) (fun _ _ ht => ?_)
      (fun t ht => ht)
    · obtain ⟨v, v', hv, hshut, htodo⟩ := ht.split
      cases htodo
      rw [append_nil] at hv
      exact hshut x (hv ▸ hx)
    · simpa using ht
  intro done s todo w1 hI
  obtain ⟨v, v', hv, hshut, htodo⟩ := hI.split
  cases htodo with
  | @cons g₀ _ v'' _ h₀ htodo =>
    -- the other segments have other bases
    have hs := hsort
    rw [hv, pairwise_append, pairwise_cons] at hs
    obtain ⟨-, ⟨hs2, -⟩, hs3⟩ := hs
    have hmem : g₀.1 ∈ views.map Prod.fst := by simp [hv]
    have hb := h₀.1
    have hkeep : ∀ {w2}, Frame (·.base = s.baseOffset) w1 w2 →
        Frame (fun p => p.base ∈ views.map Prod.fst) w w2 ∧ (∀ x ∈ v, ShutSeg M w2 x) ∧
        Forall₂ (Shows M w2) v'' todo := by
      intro w2 hf
      rw [hb] at hf
      refine ⟨hI.frame.trans (hf.mono (fun p hp => by rw [hp]; exact hmem)),
        fun x hx => (hshut x hx).frame hf (fun p hp hp' => ?_), ?_⟩
      · have := hs3 x hx g₀ (by simp)
        omega
      · refine forall₂_imp_left htodo (fun x y hx hxy => Shows.frame hxy hf (fun p hp hp' => ?_))
        have := hs2 x hx
        omega
    have hdone : ∀ {w2} {tail}, Frame (·.base = s.baseOffset) w1 w2 →
        M.tail tail → DiskSeg M.record M.strict s.baseOffset g₀.2 tail w2 →
        Closing M views w todo w2 := by
      intro w2 tail hf htl hd
      obtain ⟨k1, k2, k3⟩ := hkeep hf
      rw [hb] at hd
      exact ⟨k1, v ++ [g₀], v'', by rw [hv]; simp, forall_mem_concat.mpr ⟨k2, tail, htl, hd⟩, k3⟩
    refine sat_attempt (sat_closeSegment h₀.2 (fun s' w2 tail hf _ htl hd =>
      ⟨hdone hf htl hd, fun _ _ => hdone hf htl hd⟩) (fun s' w2 hf ht => ?_))
    obtain ⟨k1, k2, k3⟩ := hkeep hf
    rw [hb] at ht
    refine ⟨k1, fun x hx => ?_⟩
    rw [hv, mem_append, mem_cons] at hx
    rcases hx with hx | rfl | hx
    · exact (k2 x hx).torn
    · exact ht
    · obtain ⟨y, -, hxy⟩ := forall₂_exists_right k3 hx
      exact hxy.torn

/-- What was closed is what a crash would leave. -/
theorem Shut.fallen (h : Shut M e segs g w) : Fallen M e segs g [] w :=
  fallen_of (fun x hx => (h.files x (mem_append_left _ hx)).torn) (h.files g (by simp)).torn
    (h.listing.mono (fun _ hS => ⟨hS.2.1, .inl hS.1, hS.2.2⟩))

/-- Without failures there is no other file. -/
theorem Shut.disk (h : Shut M e segs g w) (hf : ¬ M.faulty) :
    DiskLog M M.strict (fun _ => M.tail) (segs ++ [g]) w :=
  ⟨h.files, h.listing.mono (fun _ hS => hf hS.1)⟩

/-- A log is closed whatever its objects say. -/
theorem sat_closeWith {P H : World → Prop} (hopen : l.closed = false)
    (h : Forall₂ (Shows M w) views l.segments) (hsort : views.Pairwise (fun x y => x.1 < y.1))
    (hok : ∀ w', Frame (fun p => p.base ∈ views.map Prod.fst) w w' → (∀ x ∈ views, ShutSeg M w' x) →
      P w') (hhalt : ∀ w', Frame (fun p => p.base ∈ views.map Prod.fst) w w' →
      (∀ x ∈ views, Torn M.toMode x.1 x.2 [] w') → H w') :
    Sat (fun _ t => P t.2) (fun _ t => P t.2) (fun t => H t.2) (close (l, w)) := by
  unfold close
  rw [bind_get]
  rw [if_neg (by rw [hopen]; simp), update, bind_modify]
  refine sat_then (sat_zoom (sat_mono (sat_closeAll h hsort) (fun _ t ht => ?_) (fun _ _ ht => ht)
    (fun t ht => hhalt t.2 ht.1 ht.2)))
  exact sat_ofExcept (fun _ _ => hok t.2 ht.1 ht.2) (fun _ _ => hok t.2 ht.1 ht.2)

theorem sat_close (h : LogInv M e segs g l w) (hm : ¬ M.shared) :
    Sat (fun _ t => Shut M e segs g t.2) (fun _ t => Shut M e segs g t.2)
      (fun t => Fallen M e segs g [] t.2) (close (l, w)) :=
  sat_closeWith h.isOpen ((h.all_objects hm).imp (fun _ _ ho => ⟨ho.base_eq, ho.holds⟩))
    h.listing.sorted (fun _ hf hs => ⟨hs, h.relisted hf (fun _ hp => hp)⟩)
    (fun _ hf ht => h.fallen hf (fun _ hp => hp) (fun x hx => ht x (mem_append_left _ hx))
      (ht g (by simp)))

/-- A segment with nothing to sync and nothing to trim. -/
def Idle (s : Segment) : Prop := s.syncedPosition = s.endPosition ∧ s.preallocatedTo ≤ s.endPosition

/-- Closing such a segment calls nothing. -/
theorem sat_closeSegment_idle (h : Idle s) :
    Sat (fun _ t => t.2 = w) (fun _ t => t.2 = w) (fun _ => False) (Segment.close (s, w)) := by
  unfold Segment.close
  rw [bind_get]
  split
  · exact rfl
  refine sat_then (sat_attempt ?_)
  unfold Segment.sync
  rw [bind_get, if_pos h.1.symm]
  show Sat _ _ _ ((Prog.get >>= _) (s, w))
  rw [bind_get]
  refine sat_then (sat_attempt (sat_when (fun hgt => absurd h.2 (Nat.not_le.mpr hgt))
    (fun _ => ?_)))
  rw [Segment.update, bind_modify]
  exact sat_then (sat_ofExcept (fun _ _ => sat_ofExcept (fun _ _ => rfl) (fun _ _ => rfl))
    (fun _ _ => rfl))

/-- **Closing a log over such segments changes nothing.** -/
theorem sat_closeIdle (h : ∀ s ∈ l.segments, Idle s) :
    Sat (fun _ t => t.2 = w) (fun _ t => t.2 = w) (fun _ => False) (close (l, w)) := by
  unfold close
  rw [bind_get]
  split
  · exact rfl
  rw [update, bind_modify]
  refine sat_bind (R := fun _ t => t.2 = w) (sat_zoom ?_) (fun results t ht => ?_)
  · refine sat_imp (sat_onEach (E := fun _ t => t.2 = w) (H := fun _ => False)
      (I := fun _ todo w1 => w1 = w ∧ ∀ s ∈ todo, Idle s) ?_ l.segments [] w ⟨rfl, h⟩)
      (fun _ _ hx => hx.1)
    rintro done s todo _ ⟨rfl, hidle⟩
    rw [forall_mem_cons] at hidle
    exact sat_attempt (sat_mono (sat_closeSegment_idle hidle.1) (fun _ _ hx => ⟨hx, hidle.2⟩)
      (fun _ _ hx => ⟨hx, hidle.2⟩) (fun _ hx => hx))
  · exact sat_ofExcept (fun _ _ => ht) (fun _ _ => ht)

/-! ## 2. Retention -/

/-- The directory after the segment `g` is gone. -/
theorem Listing.without {S T : Nat → Prop} {segs' : List SegView} (h : Listing M S segs w)
    (hsub : segs' <+ segs) (hchain : segs'.IsChain (fun g g' => M.link g g'.1))
    (hmem : ∀ b ∈ segs.map Prod.fst, b = g.1 ∨ b ∈ segs'.map Prod.fst)
    (hstart : viewStart segs ≤ viewStart segs') (hf : Frame (·.base = g.1) w w')
    (hlog : w'.file ⟨g.1, .log⟩ = none) (hix : viewStart segs' ≤ g.1 → w'.file ⟨g.1, .index⟩ = none)
    (hS : ∀ b, b ≠ g.1 → S b → T b) : Listing M T segs' w' := by
  refine ⟨h.sorted.sublist hsub, hchain, fun b hb => ?_, fun b hle hn => ?_⟩ <;>
    by_cases hbg : b = g.1
  · rw [hbg, hlog] at hb
    cases hb
  · rw [hf.others _ hbg] at hb
    exact (h.logs b hb).imp (fun hm => (hmem b hm).resolve_left hbg) (hS b hbg)
  · rw [World.bytes, hbg, hix (hbg ▸ hle)]
    exact kept_nil
  · rw [bytes_congr (hf.others _ hbg)]
    exact h.fresh b (hstart.trans hle) (fun hm => (hmem b hm).elim hbg hn)

theorem Listing.tail {S T : Nat → Prop} (h : Listing M S (g₀ :: segs) w) (hne : segs ≠ [])
    (hf : Frame (·.base = g₀.1) w w') (hgone : w'.file ⟨g₀.1, .log⟩ = none)
    (hS : ∀ b, b ≠ g₀.1 → S b → T b) : Listing M T segs w' := by
  have hsort := pairwise_cons.mp h.sorted
  have hstart : g₀.1 < viewStart segs := by
    cases segs with
    | nil => exact absurd rfl hne
    | cons x xs => exact hsort.1 x mem_cons_self
  exact h.without (sublist_cons_self _ _) h.chain.tail (fun b => mem_cons.mp) hstart.le hf hgone
    (fun hle => absurd hle (not_le.mpr hstart)) hS

/-- A segment that is closed and deleted, in a run without failures. -/
theorem sat_discard (h : Shows M w g s) (hcalm : ¬ MayFail w) :
    Sat (fun _ t => l = t.1 ∧ Frame (·.base = g.1) w t.2 ∧
        ∀ p : Path, p.base = g.1 → t.2.file p = none)
      (fun _ _ => False)
      (fun t => Frame (·.base = g.1) w t.2 ∧
        (Torn M.toMode g.1 g.2 [] t.2 ∨ t.2.file ⟨g.1, .log⟩ = none))
      (PartitionLog.discard s (l, w)) := by
  have hb := h.1
  refine sat_then (sat_onSnd (sat_runOn (sat_then (sat_closeSegment h.2
    (fun s1 w1 tail hf1 hb1 ht hd => ⟨?_, fun hm => absurd hm hcalm⟩) (fun s' w1 hf ht => ?_)))))
  rotate_left
  · rw [hb] at hf ht
    exact ⟨hf, .inl ht⟩
  rw [hb] at hf1 hd hb1
  have hcalm1 : ¬ MayFail w1 := fun hm => hcalm (hf1.mayFail hm)
  refine sat_deleteSegment (fun w2 hf hgone => ?_) (fun er w2 hf hm => hcalm1 hm)
    (fun w2 hf hpart => ?_)
  · rw [hb1] at hf hgone
    exact ⟨rfl, hf1.trans hf, hgone hcalm1⟩
  · rw [hb1] at hf
    rw [Segment.logPath, hb1] at hpart
    refine ⟨hf1.trans hf, ?_⟩
    rcases hpart with h1 | h1 | h1
    · exact .inr h1
    · exact absurd h1 hcalm1
    · have hnone : Steady w1 w2 := ⟨fun p _ => h1 p, hf.spent⟩
      exact .inl ⟨tail, ht, (hd.frame hnone (fun _ _ h => h)).weaken⟩

theorem LogInv.gt_first (h : LogInv M e (g₀ :: gs) g l w) :
    ∀ x ∈ gs ++ [g], ∀ p : Path, p.base = x.1 → ¬ p.base = g₀.1 := by
  intro x hx p hp hp'
  have := (pairwise_cons.mp h.listing.sorted).1 x hx
  omega

theorem LogInv.dropped (h : LogInv M e (g₀ :: gs) g l w) (hl : l.segments = s₀ :: (ss ++ [a]))
    (hact : l.active = some a.id) (hold : Holds M l.flushedOffset w gs ss)
    (ha : ObjInv M l.flushedOffset g a w) (hf : Frame (·.base = g₀.1) w w')
    (hgone : w'.file ⟨g₀.1, .log⟩ = none) :
    LogInv M e gs g { l with
      segments := ss ++ [a], logStartOffset := viewStart (gs ++ [g]) } w' := by
  have hids := h.ids
  have hlt := h.nextId
  rw [hl] at hids hlt
  exact { h with
    objects := ⟨ss, a, rfl, hact, hold.frame hf (fun x hx => h.gt_first x (mem_append_left _ hx)),
      ha.frame hf (h.gt_first g (by simp))⟩
    ids := (pairwise_cons.mp hids).2
    nextId := fun x hx => hlt x (mem_cons_of_mem _ hx)
    start := rfl
    calm := fun hm => h.calm (hf.mayFail hm)
    listing := h.listing.tail (by simp) hf hgone
      (fun b hb hS => ⟨hS.1, hS.2.1, hS.2.2.congr (hf.others _ hb)⟩) }

variable (hm : ¬ M.shared) (hcalm : ¬ M.faulty)

include hm hcalm

theorem sat_dropFront (now : Int) :
    ∀ (n deleted : Nat) (segs : List SegView) (l : PartitionLog) (w : World),
    LogInv M e segs g l w →
    Sat (fun _ t => ∃ segs', segs' <:+ segs ∧ LogInv M e segs' g t.1 t.2) (fun _ _ => False)
      (fun t => ∃ segs', segs' <:+ segs ∧ Fallen M e segs' g [] t.2)
      (dropFront now n deleted (l, w))
  | 0, deleted, segs, l, w, h => ⟨segs, suffix_rfl, h⟩
  | n + 1, deleted, segs, l, w, h => by
    obtain ⟨olds, a, hl, hact, hold, ha⟩ := h.objects
    unfold dropFront
    rw [bind_get]
    rw [hl]
    cases hold with
    | nil => exact ⟨[], suffix_rfl, h⟩
    | idle hm' => exact absurd hm' hm
    | @seg g₀ s₀ gs ss h₀ hold =>
      obtain ⟨newest, rest, hrest⟩ : ∃ newest rest, ss ++ [a] = newest :: rest := by
        cases ss with
        | nil => exact ⟨a, [], rfl⟩
        | cons x xs => exact ⟨x, xs ++ [a], rfl⟩
      rw [cons_append, hrest]
      dsimp only
      have hnewest : newest.baseOffset = viewStart (gs ++ [g]) := by
        have hall := hold.append (.seg ha .nil)
        rw [hrest] at hall
        cases hall' : gs ++ [g] with
        | nil => simp at hall'
        | cons x xs =>
          rw [hall'] at hall
          cases hall with
          | seg hx _ => exact hx.base_eq
          | idle hm' => exact absurd hm' hm
      split
      · rw [update, bind_modify]
        refine sat_then (sat_mono (sat_discard ⟨h₀.base_eq, h₀.holds⟩ (fun hf => hcalm (h.calm hf)))
          (fun _ t ht => ?_) (fun _ _ ht => ht) (fun t ht => ?_))
        · obtain ⟨l1, w1⟩ := t
          obtain ⟨rfl, hf, hgone⟩ := ht
          have h1 := h.dropped hl hact hold ha hf (hgone _ rfl)
          rw [hrest, ← hnewest] at h1
          have hsuf : ∀ {P : List SegView → Prop}, (∃ segs', segs' <:+ gs ∧ P segs') →
              ∃ segs', segs' <:+ g₀ :: gs ∧ P segs' := fun h =>
            h.imp fun _ h => ⟨h.1.trans (suffix_cons _ _), h.2⟩
          exact sat_mono (sat_dropFront now n (deleted + 1) gs _ w1 h1) (fun _ _ => hsuf)
            (fun _ _ ht => ht) (fun _ => hsuf)
        · obtain ⟨hf, hpart⟩ := ht
          have hold' := hold.frame hf (fun x hx => h.gt_first x (mem_append_left _ hx))
          have ha' := ha.frame hf (h.gt_first g (by simp))
          rcases hpart with htorn | hgone
          · exact ⟨g₀ :: gs, suffix_rfl, h.fallen hf (fun p hp => by simp [hp])
              (forall_mem_cons.mpr ⟨htorn, hold'.torn⟩) ha'.torn⟩
          · exact ⟨gs, suffix_cons _ _, fallen_of hold'.torn ha'.torn
              (h.listing.tail (by simp) hf hgone
              (fun b hb hS => ⟨hS.2.1, .inl hS.1, hS.2.2.congr (hf.others _ hb)⟩))⟩
      · exact ⟨g₀ :: gs, suffix_rfl, h⟩

/-- **Retention** drops segments from the front, in a run without failures. -/
theorem sat_enforceRetention (h : LogInv M e segs g l w) :
    Sat (fun _ t => ∃ segs', segs' <:+ segs ∧ LogInv M e segs' g t.1 t.2) (fun _ _ => False)
      (fun t => ∃ segs', segs' <:+ segs ∧ Fallen M e segs' g [] t.2)
      (enforceRetention (l, w)) := by
  unfold enforceRetention
  rw [bind_get]
  split
  · exact ⟨segs, suffix_rfl, h⟩
  exact sat_clockThen (fun now w' hf => sat_dropFront hm hcalm now _ 0 segs l w' (h.frame hf))

omit hm hcalm

/-! ## 3. Truncating a segment -/

section TruncateSegment

variable {M : Mode} {recs : List Bytes}

theorem EntriesOk.cut {strict : Prop} {es : List OffsetIndexEntry} {i : Nat}
    (h : EntriesOk strict recs es) (hi : i ≤ recs.length) {q : Prop} :
    EntriesOk q (recs.take i)
      (es.filter (fun e => decide (e.relativeOffset < (recs.take i).length))) := by
  have hlen : (recs.take i).length = i := by
    rw [length_take]
    omega
  have hm : ∀ e ∈ es.filter (fun e => decide (e.relativeOffset < (recs.take i).length)),
      e ∈ es ∧ e.relativeOffset < i := by
    intro e he
    rw [mem_filter, decide_eq_true_eq, hlen] at he
    exact he
  refine ⟨h.sorted.filter _, fun e he => h.valid e (hm e he).1, fun e he => ?_, fun e he => ?_,
    fun _ e he => ?_⟩
  · have := (hm e he).2
    omega
  · have := (hm e he).2
    rw [h.place e (hm e he).1, take_take, Nat.min_eq_left (by omega)]
  · have := (hm e he).2
    omega

/-- **Truncating a segment** cuts its records in front of the offset. -/
theorem sat_truncateSegment (h : SegInv M recs s w) (hdur : ¬ M.durable)
    (hsize : ∀ r ∈ recs, r.length ≤ maxRecordBytes) (hlo : s.baseOffset ≤ o)
    (hhi : o ≤ s.nextOffset) :
    Sat (fun _ t => Frame (·.base = s.baseOffset) w t.2 ∧ SameObject s t.1 ∧
        SegInv M (recs.take (o - s.baseOffset)) t.1 t.2)
      (fun _ _ => MayFail w) (fun _ => True) (Segment.truncateFrom o (s, w)) := by
  have hnext := h.next
  have hi : o - s.baseOffset ≤ recs.length := by omega
  obtain ⟨f, tail, hf, hd, -⟩ := h.log
  rw [nil_append] at hd
  have hlen : (recs.take (o - s.baseOffset)).length = o - s.baseOffset := by
    rw [length_take]
    omega
  have hsplit : f.data = (recs.take (o - s.baseOffset)).flatten ++
      ((recs.drop (o - s.baseOffset)).flatten ++ tail) := by
    rw [hd, ← append_assoc, ← flatten_append, take_append_drop]
  -- the files are cut, the counters follow
  have hcut : ∀ k,
      (∀ s', SameObject s' (k s') ∧ (k s').isOpen = s'.isOpen ∧ (k s').index = s'.index ∧
        (k s').timeIndex = s'.timeIndex ∧
        (k s').endPosition = (recs.take (o - s.baseOffset)).flatten.length ∧
        (s'.baseOffset = s.baseOffset → (k s').nextOffset = o) ∧
        (k s').syncedPosition ≤ (k s').endPosition) →
      Sat (fun _ t => Frame (·.base = s.baseOffset) w t.2 ∧ SameObject s t.1 ∧
          SegInv M (recs.take (o - s.baseOffset)) t.1 t.2)
        (fun _ _ => MayFail w) (fun _ => True)
        ((do
          Prog.onSnd (truncateFile s.logPath (recs.take (o - s.baseOffset)).flatten.length)
          Segment.onIndex (offsetFormat.truncateFrom o)
          Segment.onTimeIndex (timeFormat.truncateFrom o)
          Segment.update k) (s, w)) := by
    intro k hk
    refine sat_cutFiles (k := fun _ => Segment.update k) hf hsplit rfl (by omega) h.entries
      h.indexBase h.indexFile h.timeBase (fun tix w1 hf1 hlog hix htb => ?_)
      (fun _ _ _ _ => ⟨fun hm _ => hm, trivial⟩)
    obtain ⟨g, hg, hgd, -⟩ := hlog
    obtain ⟨k1, k2, k3, k4, k5, k6, k7⟩ := hk { s with
      index := ⟨s.baseOffset, s.index.entries.filter
        (fun e => decide (e.relativeOffset < (recs.take (o - s.baseOffset)).length))⟩
      timeIndex := tix }
    have hb := k1.base
    dsimp only at hb
    refine ⟨hf1, ⟨k1.id, k1.base, k1.options⟩, ⟨g, [], ?_, ?_, M.tail_nil⟩, ?_, k5, ?_, k7,
      ?_, ?_, ?_, ?_, ?_, fun hdu => absurd hdu hdur⟩
    · rw [Segment.logPath, hb]
      exact hg
    · rw [hgd]
      simp
    · rw [hb]
      exact h.run.take _
    · rw [k6 rfl, hb]
      omega
    · rw [k3]
      exact h.entries.cut hi
    · rw [k3, hb]
    · rw [k3, hb]
      exact hix
    · rw [k4, hb, htb]
    · rw [k2]
      exact h.isOpen
  unfold Segment.truncateFrom
  rw [bind_get]
  dsimp only
  split
  · have ho : o - s.baseOffset = recs.length := by omega
    rw [ho, take_length]
    exact ⟨Frame.refl _ _, SameObject.refl s, h⟩
  split
  · have ho : o = s.baseOffset := by omega
    have hzero : (recs.take (o - s.baseOffset)).flatten.length = 0 := by
      rw [ho, Nat.sub_self]
      rfl
    have := hcut (fun s => { s with
      endPosition := 0, nextOffset := s.baseOffset, syncedPosition := 0, recordCount := 0
      lastIndexedPosition := 0, preallocatedTo := 0 }) (fun s' => ⟨⟨rfl, rfl, rfl⟩, rfl, rfl, rfl,
        hzero.symm, fun hb => hb.trans ho.symm, le_rfl⟩)
    rw [hzero, ho] at this
    rw [ho]
    exact this
  · obtain ⟨_, hpos, rfl⟩ := (positionFor_gives h.toReadable (fun _ => hsize)
      (show o - s.baseOffset < recs.length by omega)).ok
    rw [show s.baseOffset + (o - s.baseOffset) = o by omega] at hpos
    rw [hpos]
    exact hcut _ (fun s' => ⟨⟨rfl, rfl, rfl⟩, rfl, rfl, rfl, rfl, fun _ => rfl,
      Nat.min_le_right _ _⟩)

end TruncateSegment

/-! ## 4. Truncating the log -/

/-- The log `TruncateTo` is about to make active, while it drops segments from the back. -/
def PartitionLog.repaired (l : PartitionLog) (g : SegView) : PartitionLog :=
  { l with
    active := l.segments.getLast?.map Segment.id
    logEndOffset := g.1 + g.2.length
    flushedOffset := 0 }

theorem Holds.reflush {fl fl' : Nat} (h : Holds M fl w segs ss) (hdur : ¬ M.durable) :
    Holds M fl' w segs ss := by
  induction h with
  | nil => exact .nil
  | seg h _ ih => exact .seg ⟨h.base_eq, h.holds, fun hd => absurd hd hdur⟩ ih
  | idle hm he hs hn _ ih => exact .idle hm he hs hn ih

theorem Listing.init {S T : Nat → Prop} (h : Listing M S (segs ++ [g₁] ++ [g]) w)
    (hf : Frame (·.base = g.1) w w') (hgone : ∀ p : Path, p.base = g.1 → w'.file p = none)
    (hS : ∀ b, b ≠ g.1 → S b → T b) : Listing M T (segs ++ [g₁]) w' := by
  refine h.without (sublist_append_left _ _) h.chain.left_of_append (fun b hb => ?_)
    (viewStart_concat _ _ _).le hf (hgone _ rfl) (fun _ => hgone _ rfl) hS
  rw [map_append, mem_append] at hb
  exact hb.symm.imp (by simp) id

/-- One round of dropping from the back. -/
theorem LogInv.shortened (h : LogInv M e (segs ++ [g₁]) g (l.repaired g) w)
    (hl : l.segments = olds ++ [a₁] ++ [a]) (hold : Holds M 0 w segs olds) (ha : ObjInv M 0 g₁ a₁ w)
    (hf : Frame (·.base = g.1) w w') (hgone : ∀ p : Path, p.base = g.1 → w'.file p = none) :
    LogInv M e segs g₁ (repaired { l with segments := olds ++ [a₁] } g₁) w' := by
  have hapart : ∀ x ∈ segs ++ [g₁], ∀ p : Path, p.base = x.1 → ¬ p.base = g.1 := by
    intro x hx p hp hp'
    have := h.listing.lt_last x hx
    omega
  have hids := h.ids
  have hlt := h.nextId
  simp only [repaired, hl] at hids hlt
  exact { h with
    objects := ⟨olds, a₁, rfl, by simp [repaired],
      hold.frame hf (fun x hx => hapart x (mem_append_left _ hx)), ha.frame hf
        (hapart g₁ (by simp))⟩
    ids := (pairwise_append.mp hids).1
    nextId := fun x hx => hlt x (mem_append_left _ hx)
    start := h.start.trans (viewStart_concat _ _ _)
    ends := rfl
    flushed_le := Nat.zero_le _
    calm := fun hm => h.calm (hf.mayFail hm)
    listing := h.listing.init hf hgone
      (fun b hb hS => ⟨hS.1, hS.2.1, hS.2.2.congr (hf.others _ hb)⟩) }

include hm hcalm

/-- The loop of truncation over whole segments. -/
theorem sat_dropBack (hlink : ∀ x b, M.link x b → b ≤ x.1 + x.2.length) :
    ∀ (n : Nat) (segs : List SegView) (g : SegView) (l : PartitionLog) (w : World),
    LogInv M e segs g (l.repaired g) w → l.segments.length ≤ n → viewStart (segs ++ [g]) ≤ o →
    o ≤ g.1 + g.2.length →
    Sat (fun _ t => ∃ segs' g' ss, segs' ++ [g'] <+: segs ++ [g] ∧
        t.1 = { l with segments := ss } ∧ LogInv M e segs' g' (t.1.repaired g') t.2 ∧ g'.1 ≤ o ∧
        o ≤ g'.1 + g'.2.length)
      (fun _ _ => False) (fun _ => True) (dropBack o n (l, w))
  | 0, segs, g, l, w, h, hn, _, _ => by
    obtain ⟨olds, a, hl, -⟩ := h.objects
    simp only [repaired] at hl
    rw [hl] at hn
    simp at hn
  | n + 1, segs, g, l, w, h, hn, hstart, hend => by
    obtain ⟨olds, a, hl, hact, hold, ha⟩ := h.objects
    simp only [repaired] at hl hold ha
    have hb := ha.base_eq
    have hstop : g.1 ≤ o → ∃ segs' g' ss, segs' ++ [g'] <+: segs ++ [g] ∧
        l = { l with segments := ss } ∧ LogInv M e segs' g' (l.repaired g') w ∧ g'.1 ≤ o ∧
        o ≤ g'.1 + g'.2.length :=
      fun hle => ⟨segs, g, l.segments, prefix_rfl, rfl, h, hle, hend⟩
    unfold dropBack
    rw [bind_get]
    rw [hl, getLast?_concat]
    dsimp only
    split
    · rename_i hc
      rw [update, bind_modify]
      -- there is a segment in front of the last one
      have hforall := hold.forall₂ hm
      rcases eq_nil_or_concat' segs with hnil | ⟨init, g₁, hsegs⟩
      · subst hnil
        cases hforall
        simp at hc
      · subst hsegs
        obtain ⟨olds₁, a₁, holds, hfirst, ha₁⟩ := forall₂_concat_left hforall
        subst holds
        refine sat_then (sat_mono (sat_discard ⟨hb, ha.holds⟩ (fun hf => hcalm (h.calm hf))) ?_
          (fun _ _ ht => ht) (fun _ _ => trivial))
        rintro _ ⟨l1, w1⟩ ⟨rfl, hf, hgone⟩
        rw [hl, dropLast_concat]
        have h1 := h.shortened hl (holds_of_forall₂ hfirst) ha₁ hf hgone
        have hle := hlink g₁ g.1 ((isChain_concat.mp h.listing.chain).2 g₁ (by simp))
        refine sat_mono (sat_dropBack hlink n init g₁ _ w1 h1 ?_ ?_ ?_)
          (fun _ t ht => ?_) (fun _ _ ht => ht) (fun _ _ => trivial)
        · rw [hl] at hn
          simp only [length_append, length_cons] at hn ⊢
          omega
        · exact (viewStart_concat _ _ _).ge.trans hstart
        · omega
        · obtain ⟨segs', g', ss, hp, ht1, ht2⟩ := ht
          exact ⟨segs', g', ss, hp.trans (prefix_append _ _), by rw [ht1], ht2⟩
    · refine hstop ?_
      by_cases hlen : (olds ++ [a]).length > 1
      · omega
      · have holds : olds = [] := by
          rw [length_append, length_singleton] at hlen
          exact eq_nil_of_length_eq_zero (by omega)
        subst holds
        cases hold
        exact hstart

/-- **Truncation** keeps the segments in front of the offset and cuts the one that holds it. A
    refusal changes nothing. -/
theorem sat_truncateTo (hdur : ¬ M.durable)
    (hsize : ∀ o r, M.record o r → r.length ≤ maxRecordBytes)
    (hlink : ∀ x b, M.link x b → b ≤ x.1 + x.2.length) (h : LogInv M e segs g l w) :
    Sat (fun _ t => ∃ segs' g', segs' ++ [g'] <+: segs ++ [g] ∧
        LogInv M e segs' (g'.1, g'.2.take (o - g'.1)) t.1 t.2)
      (fun _ t => LogInv M e segs g t.1 t.2) (fun _ => True)
      (truncateTo o (l, w)) := by
  unfold truncateTo
  rw [bind_get]
  dsimp only
  split
  · have hends := h.ends
    refine ⟨segs, g, prefix_rfl, ?_⟩
    rw [take_of_length_le (by omega)]
    exact h
  split
  · exact h
  have hends := h.ends
  have hstart := h.start
  -- the log as it would be with nothing flushed
  have h0 : LogInv M e segs g (l.repaired g) w := by
    obtain ⟨olds, a, hl, hact, hold, ha⟩ := h.objects
    exact { h with
      objects := ⟨olds, a, hl, by simp [repaired, hl], hold.reflush hdur, ha.base_eq, ha.holds,
        fun hd => absurd hd hdur⟩
      ends := rfl
      flushed_le := Nat.zero_le _ }
  refine sat_then (sat_mono (sat_dropBack hm hcalm hlink _ segs g l w h0 le_rfl (by omega)
    (by omega)) ?_ (fun _ _ ht => ht.elim) (fun _ _ => trivial))
  rintro _ ⟨_, w1⟩ ⟨segs', g', ss, hp, rfl, h1, hlo, hhi⟩
  rw [update, bind_modify]
  obtain ⟨olds, a, hss, hact, hold, ha⟩ := h1.objects
  simp only [repaired] at hss hold ha
  have hids := h1.ids
  simp only [repaired] at hids
  have hb := ha.base_eq
  have hlast : ss.getLast?.map Segment.id = some a.id := by
    rw [hss, getLast?_concat]
    rfl
  rw [hlast, bind_ok (activeSegment_eq hss hids rfl)]
  refine sat_then (sat_onActive hss hids (sat_mono (sat_truncateSegment ha.holds hdur
    (fun r hr => ?_) (by omega) (by rw [ha.holds.next]; omega)) (fun _ t ht => ?_)
    (fun _ _ hf => absurd (h1.calm hf) hcalm) (fun _ _ => trivial)))
  · obtain ⟨i, hi⟩ := ha.holds.run.mem r hr
    exact hsize i r hi
  obtain ⟨hf, hobj, hs⟩ := ht
  rw [hb] at hf hs
  have hg : ((g'.1, g'.2.take (o - g'.1))).1 = g'.1 := rfl
  have hlen : g'.1 + (g'.2.take (o - g'.1)).length = o := by
    rw [length_take]
    omega
  have hold' : Holds M (min l.flushedOffset o) t.2 segs' olds :=
    (hold.frame hf h1.lt_active).reflush hdur
  have hobj' : ObjInv M (min l.flushedOffset o) (g'.1, g'.2.take (o - g'.1)) t.1 t.2 :=
    ⟨hobj.base.trans hb, hs, fun hd => absurd hd hdur⟩
  have h2 := h1.regrown hss hact
    (hf.mono (fun q hq => by simp [hq])) rfl hobj.id hold' hg hobj' (by
      rw [hlen]
      exact Nat.min_le_right _ _)
  exact ⟨segs', g', hp, h2.congr ⟨rfl, rfl, hlast.symm, rfl, rfl, hlen.symm, rfl, rfl⟩⟩

end PulseLog

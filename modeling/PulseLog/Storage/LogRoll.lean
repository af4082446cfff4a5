/-
  Subject:   Rolling and flushing keep the invariant of a log.

  In each rule the first part is what holds when the call returns, the second what holds when it
  reports an error, the third what is on disk when the process dies in it.

  * `sat_rollSegment`, `sat_maybeRoll` -- the contents stay, a new segment may follow (`Rolled`).
    The new file is made before the old segment is synced: a roll that fails in between leaves a
    blank file at the log end, one that dies there too;
  * `sat_flush` -- the contents stay; on return everything is synced.
-/
import PulseLog.Storage.LogInv

namespace PulseLog

open List IndexFormat PartitionLog

variable {M : LogMode} {E : Status → PartitionLog × World → Prop} {H : PartitionLog × World → Prop}
  {segs : List SegView} {g : SegView} {l : PartitionLog} {w w' : World} {olds olds' : List Segment}
  {s a a' : Segment} {e fl fl' : Nat}

/-! ## 1. Objects of the log -/

section Calls

variable {α : Type} (hl : l.segments = olds ++ [a])
  (hids : l.segments.Pairwise (fun s s' => s.id ≠ s'.id))

include hl hids

theorem id_beq_active : ∀ x ∈ olds, (x.id == a.id) = false := by
  rw [hl] at hids
  simpa using (pairwise_concat.mp hids).2

theorem sat_onActive {p : Prog Status (Segment × World) α} {Q : α → PartitionLog × World → Prop}
    (h : Sat (fun x t => Q x ({ l with segments := olds ++ [t.1] }, t.2))
      (fun e t => E e ({ l with segments := olds ++ [t.1] }, t.2))
      (fun t => H ({ l with segments := olds ++ [t.1] }, t.2)) (p (a, w))) :
    Sat Q E H (onSegment a.id p (l, w)) := by
  refine sat_zoom ?_
  rw [hl]
  exact sat_onFirst (id_beq_active hl hids) (by simp) h

theorem find_active : l.segments.find? (fun s => s.id == a.id) = some a := by
  rw [hl, find?_append, find?_eq_none.mpr (by simpa using id_beq_active hl hids)]
  simp

theorem deref_active : deref a.id (l, w) = (.ok a, (l, w)) := by
  unfold deref
  rw [bind_get]
  rw [find_active hl hids]
  rfl

theorem activeSegment_eq (hact : l.active = some a.id) :
    activeSegment (l, w) = (.ok a, (l, w)) := by
  unfold activeSegment
  rw [bind_get]
  rw [hact]
  exact deref_active hl hids

end Calls

theorem sat_onSnd_clock {Q : Int → PartitionLog × World → Prop}
    (h : ∀ t w', Steady w w' → Q t (l, w')) : Sat Q E H (Prog.onSnd clockMillis (l, w)) :=
  sat_onSnd (sat_clockMillis (fun t w' hd hf _ => h t w' (.of_dir hd hf)))

theorem sat_clockThen {α : Type} {k : Int → Prog Status (PartitionLog × World) α}
    {Q : α → PartitionLog × World → Prop} (h : ∀ t w', Steady w w' → Sat Q E H (k t (l, w'))) :
    Sat Q E H ((Prog.onSnd clockMillis >>= k) (l, w)) :=
  sat_bind (sat_onSnd_clock h) (fun _ _ hk => hk)

/-! ## 2. Opening a new segment -/

/-- A segment opened on files without records. -/
theorem Opened.segInv {N : Mode} {id base : Nat} {options : SegmentOptions}
    (h : Opened id base options w s w')
    (hent : EntriesOk N.strict [] (offsetFormat.kept (w.bytes ⟨base, .index⟩)))
    (hlog : ∃ f, w'.file ⟨base, .log⟩ = some f ∧ N.tail f.data) : SegInv N [] s w' := by
  obtain ⟨f, hf, ht⟩ := hlog
  obtain ⟨u, hu⟩ := h.indexFile
  have hb := h.base_eq
  refine ⟨⟨f, f.data, by rw [Segment.logPath, hb]; exact hf, by simp, ht⟩, trivial, by
    rw [h.ends]; rfl, by rw [h.next, hb]; rfl, by rw [h.synced]; exact Nat.zero_le _, ?_,
      ?_, ?_, ?_,
    h.isOpen, fun _ f' _ e _ => by rw [h.synced]; exact Nat.zero_le _⟩
  · rw [h.index]
    exact hent
  · rw [h.index, hb]
  · exact ⟨_, [], by rw [hb]; exact hu, by simp, by decide⟩
  · rw [h.timeIndex, hb]

/-- The directory after a file was opened at the end of the log. -/
theorem LogInv.opened (h : LogInv M (g.1 + g.2.length) segs g l w) (hne : g.2 ≠ [])
    (hf : Frame (·.base = g.1 + g.2.length) w w')
    (hlog : LogOpened (g.1 + g.2.length) l.options.preallocate w w')
    (hk : offsetFormat.kept (w'.bytes ⟨g.1 + g.2.length, .index⟩) =
      offsetFormat.kept (w.bytes ⟨g.1 + g.2.length, .index⟩)) :
    Listing M (fun b => b = g.1 + g.2.length ∧ Blank M w' b) (segs ++ [g]) w' := by
  have hnot := h.listing.end_notMem hne
  refine ⟨h.listing.sorted, h.listing.chain, ?_, ?_⟩
  · intro b hb
    by_cases he : b = g.1 + g.2.length
    · subst he
      refine .inr ⟨rfl, ?_⟩
      rcases hlog with hsame | ⟨-, n, hn, hz⟩
      · rw [hsame] at hb
        rcases h.listing.logs _ hb with h1 | ⟨-, -, n, h3, h4⟩
        · exact absurd h1 hnot
        · exact ⟨n, h3, by rw [hsame]; exact h4⟩
      · exact ⟨n, h.spare n hz, hn⟩
    · rw [hf.others _ he] at hb
      rcases h.listing.logs b hb with h1 | ⟨-, h2, -⟩
      · exact .inl h1
      · exact absurd h2 he
  · intro b hle hn
    by_cases he : b = g.1 + g.2.length
    · subst he
      rw [hk]
      exact h.listing.fresh _ hle hn
    · rw [bytes_congr (hf.others _ he)]
      exact h.listing.fresh b hle hn

section

variable (hl : l.segments = olds ++ [a]) (hold : Holds M l.flushedOffset w' segs olds)
  (hs : SegInv M.toMode [] s w') (hsid : s.id = l.nextId) (hcalm : MayFail w' → M.faulty)
include hl hold hs hsid hcalm

theorem LogInv.pushed (h : LogInv M (g.1 + g.2.length) segs g l w) (hne : g.2 ≠ [])
    (hid : a'.id = a.id) (ha : ObjInv M l.flushedOffset g a' w')
    (hsb : s.baseOffset = g.1 + g.2.length)
    (hlist : Listing M (fun b => b = g.1 + g.2.length ∧ Blank M w' b) (segs ++ [g]) w') :
    LogInv M (g.1 + g.2.length) (segs ++ [g]) (g.1 + g.2.length, []) { l with
      segments := olds ++ [a'] ++ [s], active := some s.id, nextId := l.nextId + 1 } w' := by
  have hids : Ids (l.nextId + 1) (olds ++ [a'] ++ [s]) :=
    (Ids.of_map ⟨h.ids, h.nextId⟩ (by simp [hl, hid])).push hsid
  exact ⟨⟨olds ++ [a'], s, rfl, rfl, hold.append (.seg ha .nil), hsb, hs, fun _ => by simp⟩,
    hids.1, hids.2, h.start.trans (viewStart_concat _ _ _).symm, h.ends, h.flushed_le, h.isOpen,
    h.spare, hcalm, hlist.push (Nat.lt_add_of_pos_right (length_pos_iff.mpr hne))
      (M.link_roll g hne) (fun b hb => .inl hb.1)⟩

/-- The log after a roll from an empty segment: the new object has taken over its files. -/
theorem LogInv.shadowed {b : Nat} (h : LogInv M b segs (b, []) l w) (hm : M.shared)
    (ha : SegInv M.toMode [] a w) (hsb : s.baseOffset = b)
    (hlist : Listing M (fun c => M.faulty ∧ c = b ∧ Blank M w' c) (segs ++ [(b, [])]) w') :
    LogInv M b segs (b, []) { l with
      segments := olds ++ [a] ++ [s], active := some s.id, nextId := l.nextId + 1 } w' := by
  have hids : Ids (l.nextId + 1) (olds ++ [a] ++ [s]) :=
    (Ids.of_map ⟨h.ids, h.nextId⟩ (by rw [hl])).push hsid
  have hend : a.endPosition = 0 := ha.ends
  have hsync : a.syncedPosition = 0 := Nat.le_zero.mp (hend ▸ ha.synced)
  have hidle : Holds M l.flushedOffset w' [] [a] := .idle hm hend hsync ha.next .nil
  have hold' := hold.append hidle
  rw [append_nil] at hold'
  exact { h with
    objects := ⟨olds ++ [a], s, rfl, rfl, hold', hsb, hs, fun _ => by simp⟩
    ids := hids.1
    nextId := hids.2
    calm := hcalm
    listing := hlist }

end

/-! ## 3. Rolling -/

/-- What a roll makes of the segments: a new empty one follows a segment with records. -/
inductive Rolled (segs : List SegView) (g : SegView) : List SegView → SegView → Prop
  | same : Rolled segs g segs g
  | next (h : g.2 ≠ []) : Rolled segs g (segs ++ [g]) (g.1 + g.2.length, [])

theorem Rolled.ends {segs segs' : List SegView} {g g' : SegView} (h : Rolled segs g segs' g') :
    g'.1 + g'.2.length = g.1 + g.2.length := by
  cases h with
  | same => rfl
  | next => rfl

theorem sat_rollSegment_next (h : LogInv M (g.1 + g.2.length) segs g l w) (hne : g.2 ≠ []) :
    Sat (fun _ t => LogInv M (g.1 + g.2.length) (segs ++ [g]) (g.1 + g.2.length, []) t.1 t.2)
      (fun _ t => LogInv M (g.1 + g.2.length) segs g t.1 t.2 ∧ MayFail w)
      (fun t => Fallen M (g.1 + g.2.length) segs g [] t.2)
      (rollSegment (l, w)) := by
  obtain ⟨olds, a, hl, hact, hold, ha⟩ := h.objects
  have hpos := length_pos_iff.mpr hne
  have hnext : a.nextOffset = g.1 + g.2.length := by rw [ha.holds.next, ha.base_eq]
  set e := g.1 + g.2.length with he
  -- the files of the other segments are not touched by the open
  have hapart : ∀ g' ∈ segs ++ [g], ∀ p : Path, p.base = g'.1 → ¬ p.base = e := by
    intro g' hg' p hp hp'
    exact h.listing.end_notMem hne (mem_map.mpr ⟨g', hg', by rw [← hp, hp']⟩)
  have holdF : ∀ {w₁}, Frame (·.base = e) w w₁ → Holds M l.flushedOffset w₁ segs olds :=
    fun hf => hold.frame hf (fun g' hg' => hapart g' (mem_append_left _ hg'))
  have haF : ∀ {w₁}, Frame (·.base = e) w w₁ → ObjInv M l.flushedOffset g a w₁ :=
    fun hf => ha.frame hf (hapart g (by simp))
  have hfall : ∀ {w₁}, Holds M l.flushedOffset w₁ segs olds →
      Torn M.toMode g.1 g.2 [] w₁ →
      Listing M (fun b => b = e ∧ Blank M w₁ b) (segs ++ [g]) w₁ → Fallen M e segs g [] w₁ :=
    fun ho ht hlist => fallen_of ho.torn ht
      (hlist.mono (fun b hb => ⟨hb.1, .inr ⟨hb.1, rfl⟩, hb.2⟩))
  unfold rollSegment
  rw [bind_get, hact]
  dsimp only
  rw [bind_ok (deref_active hl h.ids), hnext]
  -- 1. the new files
  refine sat_then (sat_onSnd (sat_openSegment ?_ (fun w1 ho => ?_)))
  rotate_left
  · have hlist := h.opened hne ho.frame ho.log ho.index.kept
    exact ⟨fun hm _ => ⟨{ h with
      objects := ⟨olds, a, hl, hact, holdF ho.frame, haF ho.frame⟩
      calm := fun hm' => h.calm (ho.frame.mayFail hm')
      listing := hlist.mono (fun b hb => ⟨h.calm hm, hb⟩) }, hm⟩,
      hfall (holdF ho.frame) (haF ho.frame).torn hlist⟩
  intro s w1 ho
  have hkept : offsetFormat.kept (w.bytes ⟨e, .index⟩) = [] :=
    h.listing.fresh e (le_trans (viewStart_le h.listing.sorted) (Nat.le_add_right _ _))
      (h.listing.end_notMem hne)
  have hk1 : offsetFormat.kept (w1.bytes ⟨e, .index⟩) =
      offsetFormat.kept (w.bytes ⟨e, .index⟩) := by
    obtain ⟨u, hu⟩ := ho.indexFile
    rw [bytes_of_file hu, ho.index, hkept]
    exact kept_nil
  have hlist1 := h.opened hne ho.frame ho.log hk1
  have hblank : Blank M w1 e := by
    rcases hlist1.logs e ho.made with h1 | h1
    · exact absurd h1 (h.listing.end_notMem hne)
    · exact h1.2
  have hs1 : SegInv M.toMode [] s w1 := by
    obtain ⟨n, hn, hfile⟩ := hblank
    refine ho.segInv ?_ ⟨_, hfile, hn⟩
    rw [hkept]
    exact entriesOk_nil
  have hmoved : ∀ {w₂}, Frame (·.base = g.1) w1 w₂ →
      Listing M (fun b => b = e ∧ Blank M w₂ b) (segs ++ [g]) w₂ ∧
        Holds M l.flushedOffset w₂ segs olds := by
    intro w₂ hf
    exact ⟨hlist1.frame hf (fun p hp => by simp [hp]) (fun _ hfile hb => ⟨hb.1, hb.2.congr hfile⟩),
      (holdF ho.frame).frame hf h.lt_active⟩
  -- 2. the old segment is synced
  have ha1 := haF ho.frame
  have hb := ha1.base_eq
  refine sat_then (sat_onActive hl h.ids (sat_syncSegment ha1.holds ?_ (fun w2 hf h2 => ?_)))
  rotate_left
  · rw [hb] at hf
    have ha2 : ObjInv M l.flushedOffset g a w2 := ⟨hb, h2, ha1.flushed⟩
    refine ⟨fun hm _ => ⟨{ h with
      objects := ⟨olds, a, rfl, hact, (hmoved hf).2, ha2⟩
      ids := by rw [← hl]; exact h.ids
      nextId := by rw [← hl]; exact h.nextId
      calm := fun hm' => h.calm (ho.frame.mayFail (hf.mayFail hm'))
      listing := (hmoved hf).1.mono (fun b hb => ⟨h.calm (ho.frame.mayFail hm), hb⟩) },
      ho.frame.mayFail hm⟩, hfall (hmoved hf).2 ha2.torn (hmoved hf).1⟩
  intro a' w2 hf2 hobj hsy h2
  rw [hb] at hf2
  have ha2 : ObjInv M l.flushedOffset g a' w2 := ObjInv.synced (hobj.base.trans hb) h2 hsy
  -- 3. the directory, whose error is dropped, and the new object
  have hdone := fun w3 (hf : Steady w2 w3) =>
    have hf' := hf2.trans hf.widen
    h.pushed hl (hmoved hf').2
      (hs1.frame hf' (fun q hq hq' => by rw [ho.base_eq] at hq; omega)) ho.id_eq
      (fun hm => h.calm (ho.frame.mayFail (hf'.mayFail hm))) hne hobj.id
      (ha2.frame hf (fun _ _ h => h)) ho.base_eq (hmoved hf').1
  exact sat_then (sat_attempt (sat_onSnd (sat_syncDirectory hdone (fun w3 hf =>
    ⟨fun _ _ => hdone w3 hf, hfall (hmoved (hf2.trans hf.widen)).2
      (ha2.frame hf (fun _ _ h => h)).torn (hmoved (hf2.trans hf.widen)).1⟩))))

/-- A roll from an empty segment opens the files of that segment a second time. -/
theorem sat_rollSegment_shared {b : Nat} (h : LogInv M b segs (b, []) l w) (hm : M.shared)
    (hcalm : ¬ M.faulty) :
    Sat (fun _ t => LogInv M b segs (b, []) t.1 t.2)
      (fun _ t => LogInv M b segs (b, []) t.1 t.2 ∧ MayFail w)
      (fun t => Fallen M b segs (b, []) [] t.2)
      (rollSegment (l, w)) := by
  obtain ⟨olds, a, hl, hact, hold, ha⟩ := h.objects
  have hab : a.baseOffset = b := ha.base_eq
  have hnext : a.nextOffset = b := by rw [ha.holds.next, hab]; rfl
  obtain ⟨f, tail, hfile, hdata, htail⟩ := ha.holds.log
  rw [Segment.logPath, hab] at hfile
  have hix := ha.holds.indexFile
  rw [hab] at hix
  have hkept : offsetFormat.kept (w.bytes ⟨b, .index⟩) = a.index.entries :=
    ha.holds.entries.kept hix
  have hlisted : ∀ {w₁}, Frame (·.base = b) w w₁ →
      Listing M (fun c => M.faulty ∧ c = b ∧ Blank M w₁ c) (segs ++ [(b, [])]) w₁ := by
    intro w₁ hf
    exact h.listing.frame hf (fun p hp => by simp [hp]) (fun c _ hS => absurd hS.1 hcalm)
  have hfall : ∀ {w₁}, Frame (·.base = b) w w₁ → w₁.file ⟨b, .log⟩ = some f →
      offsetFormat.kept (w₁.bytes ⟨b, .index⟩) = offsetFormat.kept (w.bytes ⟨b, .index⟩) →
      Fallen M b segs (b, []) [] w₁ := by
    intro w₁ hf hf₁ hk
    refine h.fall hf ⟨tail, htail, ⟨f, hf₁, hdata⟩, trivial, ?_⟩
    rw [hk, hkept]
    exact ha.holds.entries.weaken
  unfold rollSegment
  rw [bind_get, hact]
  dsimp only
  rw [bind_ok (deref_active hl h.ids), hnext]
  refine sat_then (sat_onSnd (sat_openSegment ?_ (fun w1 ho =>
    ⟨fun hf => absurd (h.calm hf) hcalm, hfall ho.frame (ho.log.same hfile) ho.index.kept⟩)))
  intro s w1 ho
  have hs1 : SegInv M.toMode [] s w1 := by
    refine ho.segInv ?_ ⟨f, ho.log.same hfile, by rw [hdata]; simpa using htail⟩
    rw [hkept]
    exact ha.holds.entries
  have hk1 : offsetFormat.kept (w1.bytes ⟨b, .index⟩) =
      offsetFormat.kept (w.bytes ⟨b, .index⟩) := by
    have hi := hs1.indexFile
    rw [ho.base_eq] at hi
    rw [hs1.entries.kept hi, ho.index]
  -- an empty segment has nothing to sync
  have hend : a.endPosition = a.syncedPosition := by
    have h1 : a.endPosition = 0 := ha.holds.ends
    have h2 := ha.holds.synced
    omega
  refine sat_then (sat_onActive hl h.ids ?_)
  unfold Segment.sync
  rw [bind_get, if_pos hend]
  have hdone := fun w3 (hf : Steady w1 w3) =>
    have hf' := ho.frame.trans hf.widen
    h.shadowed hl (hold.frame hf' h.lt_active) (hs1.frame hf (fun _ _ h => h)) ho.id_eq
      (fun hm' => h.calm (hf'.mayFail hm')) hm ha.holds ho.base_eq (hlisted hf')
  refine sat_then (sat_attempt (sat_onSnd (sat_syncDirectory hdone (fun w3 hf =>
    ⟨fun _ _ => hdone w3 hf, hfall (ho.frame.trans hf.widen) ?_ ?_⟩))))
  · rw [hf.same]
    exact ho.log.same hfile
  · rw [bytes_congr (hf.same _), hk1]

/-- **Rolling.** An empty segment is rolled only where objects may share files. -/
theorem sat_rollSegment (h : LogInv M (g.1 + g.2.length) segs g l w)
    (hr : g.2 ≠ [] ∨ M.shared ∧ ¬ M.faulty) :
    Sat (fun _ t => ∃ segs' g', Rolled segs g segs' g' ∧ g'.1 = g.1 + g.2.length ∧
        LogInv M (g.1 + g.2.length) segs' g' t.1 t.2)
      (fun _ t => LogInv M (g.1 + g.2.length) segs g t.1 t.2 ∧ MayFail w)
      (fun t => Fallen M (g.1 + g.2.length) segs g [] t.2)
      (rollSegment (l, w)) := by
  by_cases hne : g.2 = []
  · obtain ⟨hm, hcalm⟩ := hr.resolve_left (fun h => h hne)
    obtain ⟨b, recs⟩ := g
    subst hne
    exact sat_imp (sat_rollSegment_shared h hm hcalm)
      (fun _ t ht => ⟨segs, (b, []), .same, rfl, ht⟩)
  · exact sat_imp (sat_rollSegment_next h hne) (fun _ t ht => ⟨_, _, .next hne, rfl, ht⟩)

/-- **Rolling before an append.** A log without stray files stays so, if the call returns. -/
theorem sat_maybeRoll {n : Nat} (h : LogInv M (g.1 + g.2.length) segs g l w)
    (hr : n ≤ uint32Max ∨ M.shared ∧ ¬ M.faulty) :
    Sat (fun _ t => ∃ segs' g', Rolled segs g segs' g' ∧
        LogInv M (g.1 + g.2.length) segs' g' t.1 t.2 ∧
        (LogInv M g.1 segs g l w → LogInv M g'.1 segs' g' t.1 t.2))
      (fun _ t => LogInv M (g.1 + g.2.length) segs g t.1 t.2 ∧ MayFail w)
      (fun t => Fallen M (g.1 + g.2.length) segs g [] t.2)
      (maybeRoll n (l, w)) := by
  obtain ⟨olds, a, hl, hact, hold, ha⟩ := h.objects
  unfold maybeRoll
  rw [bind_get, hact]
  dsimp only
  rw [bind_ok (deref_active hl h.ids)]
  have hrest : ∀ old w1, (old = true → a.endPosition > 0) →
      Steady w w1 →
      Sat (fun _ t => ∃ segs' g', Rolled segs g segs' g' ∧
          LogInv M (g.1 + g.2.length) segs' g' t.1 t.2 ∧
          (LogInv M g.1 segs g l w → LogInv M g'.1 segs' g' t.1 t.2))
        (fun _ t => LogInv M (g.1 + g.2.length) segs g t.1 t.2 ∧ MayFail w)
        (fun t => Fallen M (g.1 + g.2.length) segs g [] t.2)
        ((if (l.options.segmentBytes > 0 ∧
              (a.endPosition + n) > l.options.segmentBytes ∧ a.endPosition > 0) ∨
            old = true ∨ a.endPosition + n > uint32Max
          then rollSegment else pure ()) (l, w1)) := by
    intro old w1 hage hf
    have h1 := h.frame hf
    split
    · rename_i hc
      refine sat_mono (sat_rollSegment h1 ?_) (fun _ _ ⟨segs', g', hroll, hb, h2⟩ =>
          ⟨segs', g', hroll, h2, fun _ => by rw [hb]; exact h2⟩)
        (fun _ _ ht => ⟨ht.1, hf.mayFail ht.2⟩) (fun _ ht => ht)
      -- a segment without bytes is rolled only in front of a batch no position could address
      by_cases hne : g.2 = []
      · have hend : a.endPosition = 0 := by rw [ha.holds.ends, hne]; rfl
        rcases hc with hc | hc | hc
        · omega
        · have := hage hc
          omega
        · exact .inr (hr.resolve_left (by omega))
      · exact .inl hne
    · exact ⟨segs, g, .same, h1, fun h0 => h0.frame hf⟩
  split
  · rename_i hc
    exact sat_clockThen (fun _ w1 hf => hrest _ w1 (fun _ => hc.2) hf)
  · exact hrest false w (by simp) (Frame.refl _ _)

/-! ## 4. Flushing -/

section

variable (h : LogInv M e segs g l w) (hl : l.segments = olds ++ [a]) (hact : l.active = some a.id)
  (hf : Frame (fun p => p.base ∈ (segs ++ [g]).map Prod.fst) w w')
  (hids : olds'.map Segment.id = olds.map Segment.id) (hid : a'.id = a.id)
  (hold : Holds M fl' w' segs olds')
include h hl hact hf hids hid hold

/-- The log after calls on its segment objects; the active segment may have grown. -/
theorem LogInv.regrown {g' : SegView} (hg : g'.1 = g.1) (ha : ObjInv M fl' g' a' w')
    (hfl : fl' ≤ g'.1 + g'.2.length) : LogInv M e segs g' { l with
      segments := olds' ++ [a'], flushedOffset := fl', logEndOffset := g'.1 + g'.2.length } w' := by
  have hids' : Ids l.nextId (olds' ++ [a']) := by
    refine Ids.of_map ⟨h.ids, h.nextId⟩ ?_
    rw [hl, map_append, map_append, hids, map_singleton, map_singleton, hid]
  refine ⟨⟨olds', a', rfl, by rw [hid]; exact hact, hold, ha⟩, hids'.1, hids'.2, ?_, rfl, hfl,
    h.isOpen, h.spare, fun hm => h.calm (hf.mayFail hm),
    (h.relisted hf (fun _ hp => hp)).regrow hg⟩
  rw [h.start]
  cases segs with
  | nil => exact hg.symm
  | cons => rfl

/-- The same segments in objects that were synced or not. -/
theorem LogInv.refreshed (ha : ObjInv M fl' g a' w') (hfl : fl' ≤ l.logEndOffset) :
    LogInv M e segs g { l with segments := olds' ++ [a'], flushedOffset := fl' } w' := by
  rw [h.ends] at hfl
  exact (h.regrown hl hact hf hids hid hold rfl ha hfl).congr
    ⟨rfl, rfl, rfl, rfl, rfl, h.ends, rfl, rfl⟩

end

/-- The call `Flush` makes on each segment. -/
def syncIfBehind : Prog Status (Segment × World) Unit := do
  let s ← Prog.get
  Prog.when (s.1.syncedPosition < s.1.endPosition) Segment.sync

theorem sat_syncIfBehind (h : ObjInv M fl g s w) :
    Sat (fun _ t => t.1.id = s.id ∧ Frame (·.base = g.1) w t.2 ∧ ∀ fl', ObjInv M fl' g t.1 t.2)
      (fun _ t => t.1.id = s.id ∧ Frame (·.base = g.1) w t.2 ∧ ObjInv M fl g t.1 t.2 ∧ MayFail w)
      (fun t => Frame (·.base = g.1) w t.2 ∧ Torn M.toMode g.1 g.2 [] t.2)
      (syncIfBehind (s, w)) := by
  have hb := h.base_eq
  refine sat_when (fun _ => ?_) (fun hn => ?_)
  · refine sat_syncSegment h.holds (fun s' w' hf hobj hsy h' => ?_) (fun w' hf h' => ?_)
    · rw [hb] at hf
      exact ⟨hobj.id, hf, fun fl' => ObjInv.synced (hobj.base.trans hb) h' hsy⟩
    · rw [hb] at hf
      have ho : ObjInv M fl g s w' := ⟨hb, h', h.flushed⟩
      exact ⟨fun hm _ => ⟨rfl, hf, ho, hm⟩, hf, ho.torn⟩
  · have hs := h.holds.synced
    exact ⟨rfl, Frame.refl _ _, fun fl' => ObjInv.synced hb h.holds (by dsimp only at hn ⊢; omega)⟩

/-- Half way through a flush: what was synced is flushed as far as one likes. -/
structure Flushing (M : LogMode) (fl : Nat) (segs : List SegView) (g : SegView)
    (olds : List Segment)
    (a : Segment) (w : World) (done todo : List Segment) (w' : World) : Prop where
  frame : Frame (fun p => p.base ∈ (segs ++ [g]).map Prod.fst) w w'
  ids : (done ++ todo).map Segment.id = olds.map Segment.id
  views : ∃ v v', segs = v ++ v' ∧ (∀ fl', Holds M fl' w' v done) ∧ Holds M fl w' v' todo
  active : ObjInv M fl g a w'

theorem holds_nil_of {gs : List SegView} (h : Holds M fl w gs []) (fl' : Nat) :
    Holds M fl' w gs [] := by
  cases h
  exact .nil

/-- The loop of `Flush` over the sealed segments. -/
theorem sat_flushSealed (h : LogInv M e segs g l w) (hl : l.segments = olds ++ [a])
    (hact : l.active = some a.id) (hold : Holds M l.flushedOffset w segs olds)
    (ha : ObjInv M l.flushedOffset g a w) :
    Sat (fun _ t => Flushing M l.flushedOffset segs g olds a w t.1 [] t.2)
      (fun _ t => LogInv M e segs g { l with segments := t.1 ++ [a] } t.2 ∧ MayFail w)
      (fun t => Fallen M e segs g [] t.2) (Prog.onEach syncIfBehind olds w) := by
  have hstep := sat_onEach (p := syncIfBehind)
    (I := fun done todo w' => Flushing M l.flushedOffset segs g olds a w done todo w')
    (E := fun _ t => LogInv M e segs g { l with segments := t.1 ++ [a] } t.2 ∧ MayFail w)
    (H := fun t => Fallen M e segs g [] t.2) ?_ olds [] w
    ⟨Frame.refl _ _, rfl, ⟨[], segs, rfl, fun _ => .nil, hold⟩, ha⟩
  · simpa using hstep
  intro done s todo w1 hI
  obtain ⟨v, v', hsegs, hdone, htodo⟩ := hI.views
  cases htodo with
  | @seg g₀ _ v'' _ h₀ htodo =>
    have hmem : g₀.1 ∈ (segs ++ [g]).map Prod.fst := by simp [hsegs]
    -- the other segments have other bases
    have hsort := h.listing.sorted
    rw [hsegs, append_assoc, pairwise_append] at hsort
    obtain ⟨-, hs2, hs3⟩ := hsort
    rw [cons_append, pairwise_cons] at hs2
    have hkeep : ∀ {w2}, Frame (·.base = g₀.1) w1 w2 →
        Frame (fun p => p.base ∈ (segs ++ [g]).map Prod.fst) w w2 ∧
        (∀ fl', Holds M fl' w2 v done) ∧ Holds M l.flushedOffset w2 v'' todo ∧
        ObjInv M l.flushedOffset g a w2 := by
      intro w2 hf
      refine ⟨hI.frame.trans (hf.mono (fun p hp => by rw [hp]; exact hmem)),
        fun fl' => (hdone fl').frame hf (fun x hx p hp hp' => ?_),
        htodo.frame hf (fun x hx p hp hp' => ?_), hI.active.frame hf (fun p hp hp' => ?_)⟩
      · have := hs3 x hx g₀ (by simp)
        omega
      · have := hs2.1 x (by simp [hx])
        omega
      · have := hs2.1 g (by simp)
        omega
    refine sat_mono (sat_syncIfBehind h₀) (fun _ t ht => ?_) (fun _ t ht => ?_) (fun t ht => ?_)
    · obtain ⟨hid, hf, hobj⟩ := ht
      obtain ⟨k1, k2, k3, k4⟩ := hkeep hf
      refine ⟨k1, ?_, ⟨v ++ [g₀], v'', by rw [hsegs]; simp, fun fl' => ?_, k3⟩, k4⟩
      · rw [← hI.ids]
        simp [hid]
      · exact (k2 fl').append (.seg (hobj fl') .nil)
    · obtain ⟨hid, hf, hobj, hm⟩ := ht
      obtain ⟨k1, k2, k3, k4⟩ := hkeep hf
      refine ⟨h.refreshed hl hact k1 ?_ rfl ?_ k4 h.flushed_le, hI.frame.mayFail hm⟩
      · rw [← hI.ids]
        simp [hid]
      · rw [hsegs]
        exact (k2 _).append (.seg hobj k3)
    · obtain ⟨hf, ht⟩ := ht
      obtain ⟨k1, k2, k3, k4⟩ := hkeep hf
      refine h.fallen k1 (fun _ hp => hp) (fun x hx => ?_) k4.torn
      rw [hsegs, mem_append, mem_cons] at hx
      rcases hx with hx | rfl | hx
      · exact (k2 0).torn x hx
      · exact ht
      · exact k3.torn x hx
  | idle hm hends hsync hnext htodo =>
    -- nothing was ever written through this object
    unfold syncIfBehind
    refine sat_when (fun hlt => ?_) (fun _ => ?_)
    · dsimp only at hlt
      omega
    · refine ⟨hI.frame, ?_, ⟨v, v', hsegs, fun fl' => ?_, htodo⟩, hI.active⟩
      · rw [← hI.ids]
        simp
      · have := (hdone fl').append (.idle hm hends hsync hnext .nil)
        rwa [append_nil] at this

theorem sat_flush (h : LogInv M e segs g l w) :
    Sat (fun _ t => LogInv M e segs g t.1 t.2)
      (fun _ t => LogInv M e segs g t.1 t.2 ∧ MayFail w)
      (fun t => Fallen M e segs g [] t.2) (flush (l, w)) := by
  obtain ⟨olds, a, hl, hact, hold, ha⟩ := h.objects
  unfold flush
  rw [bind_get]
  split
  · exact h
  refine sat_then (sat_zoom ?_)
  rw [hl]
  refine sat_onEach_concat olds w (sat_mono
    (sat_flushSealed h hl hact hold ha) (fun _ t ht => ?_) (fun _ t ht => ht) (fun t ht => ht))
  -- the sealed segments are synced, the active one is left
  obtain ⟨v, v', hsegs, hdone, htodo⟩ := ht.views
  have hkeep : ∀ {w2}, Frame (·.base = g.1) t.2 w2 →
      Frame (fun p => p.base ∈ (segs ++ [g]).map Prod.fst) w w2 ∧
      ∀ fl', Holds M fl' w2 segs t.1 := by
    intro w2 hf
    refine ⟨ht.frame.trans (hf.mono (fun p hp => by rw [hp]; simp)), fun fl' => ?_⟩
    have hall := (hdone fl').append (holds_nil_of htodo fl')
    rw [← hsegs, append_nil] at hall
    exact hall.frame hf h.lt_active
  have hids : t.1.map Segment.id = olds.map Segment.id := by
    rw [← ht.ids, append_nil]
  refine sat_mono (sat_syncIfBehind ht.active) (fun _ u hu => ?_) (fun _ u hu => ?_)
    (fun u hu => ?_)
  · obtain ⟨hid, hf, hobj⟩ := hu
    have h1 := h.refreshed hl hact (hkeep hf).1 hids hid ((hkeep hf).2 _) (hobj _) le_rfl
    exact sat_clockThen (fun _ w2 hf => (h1.frame hf).congr ⟨rfl, rfl, rfl, rfl, rfl, rfl,
      rfl, rfl⟩)
  · obtain ⟨hid, hf, hobj, hm⟩ := hu
    exact ⟨h.refreshed hl hact (hkeep hf).1 hids hid ((hkeep hf).2 _) hobj h.flushed_le,
      ht.frame.mayFail hm⟩
  · obtain ⟨hf, htorn⟩ := hu
    exact h.fallen (hkeep hf).1 (fun _ hp => hp) ((hkeep hf).2 0).torn htorn

end PulseLog

/-
  Subject:   What an append does to the segment objects of a log, whatever fails in it.

  An append is a sequence of steps: objects are synced, a new one is pushed, the last one grows. The
  steps say nothing about the log files; they are for what is kept in memory, the time index above
  all.

  * **`sat_append_added`** -- every outcome of an append is reached by steps; one that returned has
    grown the active object by its batch.
-/
import Mathlib.Logic.Relation
import PulseLog.Storage.LogRun

namespace PulseLog

open List IndexFormat PartitionLog

variable {l l' : PartitionLog} {w w' w'' : World} {t₀ t₁ t t' : PartitionLog × World}
  {s s' a a' f : Segment} {olds : List Segment} {data records : Bytes} {last n o count : Nat}
  {m : Int} {r : AppendResult} {b : Batch}

/-! ## 1. The steps -/

/-- Objects that differ in how far they are synced and preallocated only. -/
def SyncOnly (s s' : Segment) : Prop :=
  { s' with syncedPosition := s.syncedPosition, preallocatedTo := s.preallocatedTo } = s

/-- What opening a time index would find. -/
def timesAt (w : World) (b : Nat) : List TimeIndexEntry := timeFormat.kept (w.bytes ⟨b, .tindex⟩)

/-- The time indexes in the directory keep their entries. -/
structure SameTimes (w w' : World) : Prop where
  times : ∀ b, timesAt w' b = timesAt w b
  spent : Spent w w'

/-- All but that of `base` keep them. -/
structure OtherTimes (base : Nat) (w w' : World) : Prop where
  times : ∀ b, b ≠ base → timesAt w' b = timesAt w b
  spent : Spent w w'

/-- Objects are synced, files are opened. -/
structure SyncStep (t t' : PartitionLog × World) : Prop where
  segments : Forall₂ SyncOnly t.1.segments t'.1.segments
  active : t'.1.active = t.1.active
  nextId : t'.1.nextId = t.1.nextId
  start : t'.1.logStartOffset = t.1.logStartOffset
  ends : t'.1.logEndOffset = t.1.logEndOffset
  flushed : t'.1.flushedOffset = t.1.flushedOffset ∨ t'.1.flushedOffset = t.1.logEndOffset
  times : SameTimes t.2 t'.2

/-- A new object `f` follows the last one, `a`. -/
structure RollStep (a f : Segment) (t t' : PartitionLog × World) : Prop where
  last : t.1.segments.getLast? = some a
  segments : t'.1.segments = t.1.segments ++ [f]
  active : t'.1.active = some f.id
  id : f.id = t.1.nextId
  nextId : t'.1.nextId = t.1.nextId + 1
  base : f.baseOffset = a.nextOffset
  next : f.nextOffset = a.nextOffset
  indexBase : f.index.baseOffset = f.baseOffset
  time : f.timeIndex = ⟨a.nextOffset, timesAt t.2 a.nextOffset⟩
  start : t'.1.logStartOffset = t.1.logStartOffset
  ends : t'.1.logEndOffset = t.1.logEndOffset
  flushed : t'.1.flushedOffset = t.1.flushedOffset
  times : SameTimes t.2 t'.2

/-- An object before and after an append to it; `m` is the largest timestamp of the batch. -/
structure Grown (m : Int) (a a' : Segment) : Prop extends SameObject a a' where
  next : a.nextOffset < a'.nextOffset
  indexBase : a'.index.baseOffset = a.index.baseOffset
  time : TimeNoted m a.nextOffset a.timeIndex a'.timeIndex
  newest : a'.maxTimestamp = max a.maxTimestamp m

/-- The last object grows. -/
structure GrowStep (m : Int) (a a' : Segment) (t t' : PartitionLog × World) : Prop where
  grown : Grown m a a'
  segments : ∃ olds, t.1.segments = olds ++ [a] ∧ t'.1.segments = olds ++ [a']
  active : t'.1.active = t.1.active
  nextId : t'.1.nextId = t.1.nextId
  start : t'.1.logStartOffset = t.1.logStartOffset
  ends : t'.1.logEndOffset = a'.nextOffset
  flushed : t'.1.flushedOffset = t.1.flushedOffset
  times : OtherTimes a.baseOffset t.2 t'.2

inductive LogStep (t t' : PartitionLog × World) : Prop
  | sync (h : SyncStep t t')
  | roll {a f : Segment} (h : RollStep a f t t')
  | grow {m : Int} {a a' : Segment} (h : GrowStep m a a' t t')

/-- **The last object is the active one**; the objects are distinct, and so are their indexes. -/
structure Led (l : PartitionLog) : Prop where
  active : ∃ olds a, l.segments = olds ++ [a] ∧ l.active = some a.id
  ids : l.segments.Pairwise (fun s s' => s.id ≠ s'.id)
  nextId : ∀ s ∈ l.segments, s.id < l.nextId
  based : ∀ s ∈ l.segments,
    s.index.baseOffset = s.baseOffset ∧ s.timeIndex.baseOffset = s.baseOffset

/-- The outcomes of a call that began in `t₀`. -/
def Reach (t₀ t : PartitionLog × World) : Prop := Led t.1 ∧ Relation.ReflTransGen LogStep t₀ t

theorem SyncOnly.refl (s : Segment) : SyncOnly s s := rfl

theorem forall₂_syncOnly_refl (ss : List Segment) : Forall₂ SyncOnly ss ss := by
  induction ss with
  | nil => exact .nil
  | cons s ss ih => exact .cons (SyncOnly.refl s) ih

section

variable (h : SyncOnly s s')
include h

theorem SyncOnly.trans {s'' : Segment} (h' : SyncOnly s' s'') : SyncOnly s s'' := by
  unfold SyncOnly at h h' ⊢
  rw [← h, ← h']

theorem SyncOnly.base : s'.baseOffset = s.baseOffset := congrArg (·.baseOffset) h

theorem SyncOnly.next : s'.nextOffset = s.nextOffset := congrArg (·.nextOffset) h

theorem SyncOnly.time : s'.timeIndex = s.timeIndex := congrArg (·.timeIndex) h

theorem SyncOnly.newest : s'.maxTimestamp = s.maxTimestamp :=
  congrArg (·.maxTimestamp) h

end

/-- What tells the objects apart. -/
def ident (s : Segment) : Nat × Nat × Nat × Nat :=
  (s.id, s.baseOffset, s.index.baseOffset, s.timeIndex.baseOffset)

theorem SyncOnly.ident_eq (h : SyncOnly s s') : ident s' = ident s := (congrArg ident h :)

theorem Led.congr (hl : Led l) (hs : l'.segments.map ident = l.segments.map ident)
    (hact : l'.active = l.active) (hnext : l'.nextId = l.nextId) : Led l' := by
  obtain ⟨olds, a, hsegs, ha⟩ := hl.active
  have hold : ∀ s ∈ l'.segments, ∃ s₀ ∈ l.segments, ident s₀ = ident s :=
    fun s hs' => mem_map.mp (hs ▸ mem_map_of_mem hs')
  refine ⟨?_, ?_, fun s hs' => ?_, fun s hs' => ?_⟩
  · rw [hsegs, map_append] at hs
    obtain ⟨olds', t, hsegs', -, ht⟩ := map_eq_append_iff.mp hs
    obtain ⟨a', rfl, hid⟩ := map_eq_singleton_iff.mp ht
    exact ⟨olds', a', hsegs', by rw [hact, ha, show a'.id = a.id from congrArg Prod.fst hid]⟩
  · have hids := pairwise_map (f := ident) (R := fun x y => x.1 ≠ y.1) (l := l.segments)
    rw [← hs, pairwise_map] at hids
    exact hids.mpr hl.ids
  · obtain ⟨s₀, hs₀, hid⟩ := hold s hs'
    rw [hnext, show s.id = s₀.id from congrArg Prod.fst hid.symm]
    exact hl.nextId s₀ hs₀
  · obtain ⟨s₀, hs₀, hid⟩ := hold s hs'
    have hbased := hl.based s₀ hs₀
    simp only [ident, Prod.mk.injEq] at hid
    omega

theorem SyncStep.led (h : SyncStep t t') (hl : Led t.1) : Led t'.1 :=
  hl.congr (forall₂_map_eq h.segments fun _ _ hs => hs.ident_eq.symm).symm h.active h.nextId

theorem RollStep.led (h : RollStep a f t t') (hl : Led t.1) : Led t'.1 := by
  have hids := Ids.push ⟨hl.ids, hl.nextId⟩ h.id
  rw [← h.segments, ← h.nextId] at hids
  refine ⟨⟨_, f, h.segments, h.active⟩, hids.1, hids.2, ?_⟩
  rw [h.segments]
  exact forall_mem_concat.mpr ⟨hl.based, h.indexBase, by rw [h.time, h.base]⟩

theorem GrowStep.led (h : GrowStep m a a' t t') (hl : Led t.1) : Led t'.1 := by
  obtain ⟨olds, hsegs, hsegs'⟩ := h.segments
  refine hl.congr ?_ h.active h.nextId
  have hid : ident a' = ident a := by
    rw [ident, h.grown.id, h.grown.base, h.grown.indexBase, h.grown.time.base_eq]
    rfl
  rw [hsegs, hsegs', map_append, map_append, map_singleton, map_singleton, hid]

theorem LogStep.led (h : LogStep t t') (hl : Led t.1) : Led t'.1 := by
  cases h with
  | sync h => exact h.led hl
  | roll h => exact h.led hl
  | grow h => exact h.led hl

theorem Reach.step (h : Reach t₀ t) (hs : LogStep t t') : Reach t₀ t' :=
  ⟨hs.led h.1, h.2.tail hs⟩

theorem SameTimes.refl (w : World) : SameTimes w w := ⟨fun _ => rfl, Spent.refl w⟩

/-- A log that keeps its promises is led by its last object. -/
theorem LogInv.led {M : LogMode} {e : Nat} {segs : List SegView} {g : SegView}
    (h : LogInv M e segs g l w) (hs : ¬ M.shared) : Led l := by
  obtain ⟨olds, a, hl, hact, -, -⟩ := h.objects
  refine ⟨⟨olds, a, hl, hact⟩, h.ids, h.nextId, fun s hs' => ?_⟩
  obtain ⟨x, -, hx⟩ := forall₂_exists_left (h.all_objects hs) hs'
  exact ⟨hx.holds.indexBase, hx.holds.timeBase⟩

theorem SyncStep.refl (t : PartitionLog × World) : SyncStep t t :=
  ⟨forall₂_syncOnly_refl _, rfl, rfl, rfl, rfl, .inl rfl, SameTimes.refl _⟩

theorem Reach.sync (h : Reach t₀ t) (hs : SyncStep t t') : Reach t₀ t' := h.step (.sync hs)

/-- An append that stored a batch: the active object grew, and then the objects were synced. -/
def Lengthened (m : Int) (t₀ t : PartitionLog × World) : Prop :=
  ∃ a a' t₁ t₂, Reach t₀ t₁ ∧ GrowStep m a a' t₁ t₂ ∧ SyncStep t₂ t

theorem Lengthened.reach (h : Lengthened m t₀ t) : Reach t₀ t := by
  obtain ⟨a, a', t₁, t₂, h1, h2, h3⟩ := h
  exact (h1.step (.grow h2)).sync h3

/-! ## 2. What a segment's methods do to the object -/

variable {base : Nat}

theorem SameTimes.trans (h : SameTimes w w') (h' : SameTimes w' w'') : SameTimes w w'' :=
  ⟨fun b => (h'.times b).trans (h.times b), h.spent.trans h'.spent⟩

theorem SameTimes.then (h : SameTimes w w') (h' : OtherTimes base w' w'') : OtherTimes base w w'' :=
  ⟨fun b hb => (h'.times b hb).trans (h.times b), h.spent.trans h'.spent⟩

theorem OtherTimes.then (h : OtherTimes base w w') (h' : SameTimes w' w'') :
    OtherTimes base w w'' :=
  ⟨fun b hb => (h'.times b).trans (h.times b hb), h.spent.trans h'.spent⟩

theorem Frame.sameTimes {S : Path → Prop} (h : Frame S w w') (hS : ∀ b, ¬ S ⟨b, .tindex⟩) :
    SameTimes w w' :=
  ⟨fun b => by rw [timesAt, timesAt, bytes_congr (h.others _ (hS b))], h.spent⟩

theorem Frame.otherTimes (h : Frame (· = ⟨base, .tindex⟩) w w') : OtherTimes base w w' :=
  ⟨fun b hb => by rw [timesAt, timesAt, bytes_congr (h.others _ (by simpa using hb))], h.spent⟩

theorem Updated.sameTimes {p : Path} (h : Updated p File.sync w w') : SameTimes w w' := by
  refine ⟨fun b => ?_, h.frame.spent⟩
  have hbytes : w'.bytes ⟨b, .tindex⟩ = w.bytes ⟨b, .tindex⟩ := by
    by_cases hp : ⟨b, .tindex⟩ = p
    · rw [World.bytes, hp, h.file, Option.map_map]
      rfl
    · exact bytes_congr (h.frame.others _ hp)
  rw [timesAt, timesAt, hbytes]

/-- **Syncing an object**: up to three files are synced, and then its synced position is its end.
    What the syncs of these files keep, holds of the world in the end. -/
theorem sat_sync_files {J : World → Prop} (h0 : J w)
    (hsync : ∀ p w₁ w₂, p = s.logPath ∨ p = ⟨s.index.baseOffset, .index⟩ ∨
      p = ⟨s.timeIndex.baseOffset, .tindex⟩ → J w₁ → Updated p File.sync w₁ w₂ → J w₂)
    (hframe : ∀ w₁ w₂, J w₁ → Steady w₁ w₂ → J w₂) :
    Sat (fun _ t => t.1 = { s with syncedPosition := s.endPosition } ∧ J t.2)
      (fun _ t => t.1 = s ∧ J t.2) (fun t => t.1 = s ∧ J t.2) (Segment.sync (s, w)) := by
  unfold Segment.sync
  rw [bind_get]
  split
  · rename_i hend
    exact ⟨congrArg (fun n => { s with syncedPosition := n }) (Eq.symm hend), h0⟩
  have hstop : ∀ {w₁ w₂}, J w₁ → Steady w₁ w₂ → s = s ∧ J w₂ := fun h hf => ⟨rfl, hframe _ _ h hf⟩
  refine sat_then (sat_onSnd (sat_syncFile ?_ (fun w1 hf => ⟨fun _ _ => hstop h0 hf, hstop h0 hf⟩)))
  intro w1 hu
  have h1 := hsync _ w w1 (.inl rfl) h0 hu
  refine sat_then (sat_zoom (sat_syncIndex ?_ (fun w2 hf => ⟨fun _ _ => hstop h1 hf, hstop h1 hf⟩)))
  intro w2 hu
  have h2 := hsync _ w1 w2 (.inr (.inl rfl)) h1 hu
  exact sat_then (sat_zoom (sat_syncIndex
    (fun w3 hu => ⟨rfl, hsync _ w2 w3 (.inr (.inr rfl)) h2 hu⟩)
    (fun w3 hf => ⟨fun _ _ => hstop h2 hf, hstop h2 hf⟩)))

theorem sat_sync_object : Sat (fun _ t => SyncOnly s t.1 ∧ SameTimes w t.2)
    (fun _ t => SyncOnly s t.1 ∧ SameTimes w t.2) (fun _ => True) (Segment.sync (s, w)) := by
  refine sat_mono (sat_sync_files (SameTimes.refl w)
    (fun _ _ _ _ h hu => h.trans hu.sameTimes)
      (fun _ _ h hf => h.trans (hf.sameTimes fun _ h => h)))
    (fun _ t ht => ⟨?_, ht.2⟩) (fun _ t ht => ⟨?_, ht.2⟩) (fun _ _ => trivial)
  · rw [ht.1]
    rfl
  · rw [ht.1]
    exact SyncOnly.refl s

/-- The index part of an append. -/
structure Noted (m : Int) (o : Nat) (s s' : Segment) : Prop extends SameEnds s s' where
  indexBase : s'.index.baseOffset = s.index.baseOffset
  time : TimeNoted m o s.timeIndex s'.timeIndex
  newest : s'.maxTimestamp = s.maxTimestamp

theorem sat_offsetAppend_frame {ix : OffsetIndex} {position : Nat}
    {Q : Except Status Unit → OffsetIndex × World → Prop} {E : Status → OffsetIndex × World → Prop}
    (h : ∀ r ix' w', ix'.baseOffset = ix.baseOffset → Frame (· = ⟨ix.baseOffset, .index⟩) w w' →
      Q r (ix', w')) :
    Sat Q E (fun _ => True) ((OffsetIndex.append o position).attempt (ix, w)) := by
  refine sat_attempt ?_
  unfold OffsetIndex.append
  rw [bind_get]
  split
  · exact h _ ix w rfl (Frame.refl _ _)
  split
  · exact h _ ix w rfl (Frame.refl _ _)
  split
  · exact h _ ix w rfl (Frame.refl _ _)
  exact sat_pushEntry_write offsetFormat_lawful (fun w' hu => h _ _ w' rfl hu.frame)
    (fun _ w' _ hu => ⟨fun _ _ => h _ ix w' rfl hu.frame, trivial⟩)

theorem sat_indexAppend_noted {E : Status → Segment × World → Prop} :
    Sat (fun _ t => Noted m o s t.1 ∧ OtherTimes s.timeIndex.baseOffset w t.2) E (fun _ => True)
      (Segment.indexAppend o m (s, w)) := by
  unfold Segment.indexAppend
  rw [bind_get]
  split
  · refine sat_bind (R := fun _ t => SameEnds s t.1 ∧ t.1.index.baseOffset = s.index.baseOffset ∧
      t.1.timeIndex = s.timeIndex ∧ t.1.maxTimestamp = s.maxTimestamp ∧ SameTimes w t.2)
      (sat_zoom_attempt (sat_offsetAppend_frame fun r ix' w' hb hf => ?_)) ?_
    · exact ⟨⟨⟨rfl, rfl, rfl⟩, rfl, rfl, rfl⟩, hb, rfl, rfl, hf.sameTimes (by simp)⟩
    rintro r ⟨s1, w1⟩ ⟨h1, hib, hti, hmax, hsame⟩
    cases r with
    | error e => exact ⟨⟨h1, hib, .inl hti, hmax⟩, fun b _ => hsame.times b, hsame.spent⟩
    | ok _ =>
      dsimp only
      rw [Segment.update, bind_modify]
      refine sat_then (sat_zoom_attempt
        (sat_timeAppend (fun _ _ _ hn hf => ?_) (fun _ _ => trivial)))
      exact ⟨⟨⟨⟨h1.id, h1.base, h1.options⟩, h1.ends, h1.next, h1.synced⟩, hib, hti ▸ hn, hmax⟩,
        hsame.then (hti ▸ hf.otherTimes)⟩
  · exact ⟨⟨SameEnds.refl s, rfl, .inl rfl, rfl⟩, fun _ _ => rfl, Spent.refl w⟩

theorem sat_appendEncoded_grown (hne : data ≠ []) (hlast : s.nextOffset ≤ last) :
    Sat (fun _ t => Grown m s t.1 ∧ t.1.nextOffset = last + 1 ∧
        OtherTimes s.timeIndex.baseOffset w t.2)
      (fun _ t => SyncOnly s t.1 ∧ SameTimes w t.2) (fun _ => True)
      (Segment.appendEncoded data s.nextOffset last n m (s, w)) := by
  unfold Segment.appendEncoded
  rw [if_neg hne, bind_get, Segment.update, bind_modify]
  have hlog : ∀ b, ¬ ⟨b, .tindex⟩ = s.logPath := by
    intro b h
    cases congrArg Path.kind h
  refine sat_then (sat_onSnd (sat_writeAllAt hne (fun w1 hu => ?_)
    (fun _ w1 _ hu => ⟨fun _ _ => ⟨rfl, hu.frame.sameTimes hlog⟩, trivial⟩)))
  have h1 : SameTimes w w1 := hu.frame.sameTimes hlog
  refine sat_bind (sat_indexAppend_noted) ?_
  rintro _ ⟨s2, w2⟩ ⟨h2, hw2⟩
  refine ⟨⟨⟨h2.id, h2.base, h2.options⟩, Nat.lt_succ_of_le hlast, h2.indexBase, h2.time, ?_⟩, rfl,
    h1.then hw2⟩
  show max s2.maxTimestamp m = _
  rw [h2.newest]

/-! ## 3. What the calls do to the log -/

/-- A call whose outcomes are reached by steps; `Q` is what it says when it returns. -/
abbrev SatReach {α : Type} (t₀ : PartitionLog × World) (Q : α → PartitionLog × World → Prop)
    (x : Outcome Status α × PartitionLog × World) : Prop :=
  Sat Q (fun _ t => Reach t₀ t) (fun _ => True) x

theorem SyncStep.of_frame (h : SameLog l l') (hf : Steady w w') : SyncStep (l, w) (l', w') :=
  ⟨by rw [h.segments]; exact forall₂_syncOnly_refl _, h.active, h.nextId, h.start, h.ends,
    .inl h.flushed, hf.sameTimes fun _ h => h⟩

theorem sat_refuseAppend_reach (h : Reach t₀ (l, w)) :
    SatReach t₀ (fun _ t => data ≠ [] ∧ Reach t₀ t)
      (refuseAppend (data.isEmpty || count == 0) (l, w)) := by
  unfold refuseAppend
  rw [bind_get]
  split
  · exact h
  split
  · exact h
  · rename_i hempty
    refine sat_mono sat_checkDiskSpace (fun _ t ht => ⟨?_, h.sync (.of_frame ht.1 ht.2)⟩)
      (fun _ t ht => h.sync (.of_frame ht.1 ht.2)) (fun _ _ => trivial)
    intro hnil
    simp [hnil] at hempty

theorem Opened.sameTimes {id : Nat} {options : SegmentOptions} (h : Opened id base options w s w') :
    SameTimes w w' := by
  refine ⟨fun b => ?_, h.frame.spent⟩
  by_cases hb : b = base
  · subst hb
    obtain ⟨u, hu⟩ := h.timeFile
    rw [h.timeIndex] at hu
    exact (sameEntries_of_cut timeFormat_lawful hu).kept
  · rw [timesAt, timesAt, bytes_congr (h.frame.others _ hb)]

theorem OpenedPart.sameTimes {pre : Bool} (h : OpenedPart base pre w w') : SameTimes w w' := by
  refine ⟨fun b => ?_, h.frame.spent⟩
  by_cases hb : b = base
  · subst hb
    exact h.time.kept
  · rw [timesAt, timesAt, bytes_congr (h.frame.others _ hb)]

theorem SyncStep.of_times (h : SameTimes w w') : SyncStep (l, w) (l, w') :=
  ⟨forall₂_syncOnly_refl _, rfl, rfl, rfl, rfl, .inl rfl, h⟩

theorem SyncStep.tail (hl : l.segments = olds ++ [a]) (ha : SyncOnly a a') (h : SameTimes w w') :
    SyncStep (l, w) ({ l with segments := olds ++ [a'] }, w') :=
  ⟨by rw [hl]; exact rel_append (forall₂_syncOnly_refl olds) (.cons ha .nil), rfl, rfl, rfl, rfl,
    .inl rfl, h⟩

theorem sat_rollSegment_reach (h : Reach t₀ (l, w)) :
    SatReach t₀ (fun _ t => Reach t₀ t) (rollSegment (l, w)) := by
  obtain ⟨olds, a, hl, hact⟩ := h.1.active
  unfold rollSegment
  rw [bind_get, hact]
  dsimp only
  rw [bind_ok (deref_active hl h.1.ids)]
  -- 1. the new files
  refine sat_then (sat_onSnd (sat_openSegment (fun f w1 ho => ?_)
    (fun w1 ho => ⟨fun _ _ => h.sync (.of_times ho.sameTimes), trivial⟩)))
  -- 2. the old object is synced
  refine sat_then (sat_onActive hl h.1.ids (sat_mono sat_sync_object (fun _ t ht => ?_)
    (fun _ t ht => h.sync (.tail hl ht.1 (ho.sameTimes.trans ht.2))) (fun _ _ => trivial)))
  obtain ⟨a', w2⟩ := t
  obtain ⟨ha', hw2⟩ := ht
  -- 3. the directory, and the new object
  have hdone : ∀ w3, Steady w2 w3 → Reach t₀ ({ l with
      segments := olds ++ [a'] ++ [f], active := some f.id, nextId := l.nextId + 1 }, w3) := by
    intro w3 hf
    have hw3 : SameTimes w w3 := ho.sameTimes.trans (hw2.trans (hf.sameTimes fun _ h => h))
    have hsync : Reach t₀ ({ l with segments := olds ++ [a'] }, w3) := h.sync (.tail hl ha' hw3)
    refine hsync.step (.roll ⟨getLast?_concat, rfl, rfl, ho.id_eq, rfl, ?_, ?_,
      ?_, ?_, rfl, rfl, rfl, SameTimes.refl _⟩)
    · rw [ho.base_eq, ha'.next]
    · rw [ho.next, ha'.next]
    · rw [ho.index, ho.base_eq]
    · rw [ho.timeIndex, ha'.next, hw3.times]
      rfl
  exact sat_then (sat_attempt (sat_onSnd (sat_syncDirectory hdone
    (fun w3 hf => ⟨fun _ _ => hdone w3 hf, trivial⟩))))

theorem sat_maybeRoll_reach (h : Reach t₀ (l, w)) :
    SatReach t₀ (fun _ t => Reach t₀ t) (maybeRoll n (l, w)) := by
  obtain ⟨olds, a, hl, hact⟩ := h.1.active
  unfold maybeRoll
  rw [bind_get, hact]
  dsimp only
  rw [bind_ok (deref_active hl h.1.ids)]
  have hrest : ∀ c [Decidable c] w1, Steady w w1 → SatReach t₀
      (fun _ t => Reach t₀ t) ((if c then rollSegment else pure ()) (l, w1)) := by
    intro c _ w1 hf
    have h1 : Reach t₀ (l, w1) := h.sync (.of_frame (SameLog.refl l) hf)
    split
    · exact sat_rollSegment_reach h1
    · exact h1
  split
  · exact sat_clockThen (fun _ w1 hf => hrest _ w1 hf)
  · exact hrest _ w (Frame.refl _ _)

theorem sat_syncEach (ss : List Segment) :
    Sat (fun _ t => Forall₂ SyncOnly ss t.1 ∧ SameTimes w t.2)
    (fun _ t => Forall₂ SyncOnly ss t.1 ∧ SameTimes w t.2) (fun _ => True)
    (Prog.onEach syncIfBehind ss w) := by
  have heach := sat_onEach (p := syncIfBehind)
    (I := fun done todo w' => Forall₂ SyncOnly ss (done ++ todo) ∧ SameTimes w w')
    (E := fun _ t => Forall₂ SyncOnly ss t.1 ∧ SameTimes w t.2)
    (H := fun _ => True) ?_ ss [] w ⟨forall₂_syncOnly_refl _, SameTimes.refl w⟩
  · simpa only [nil_append, append_nil] using heach
  rintro done s todo w1 ⟨hss, hw1⟩
  -- one more object is synced, or it was synced before
  have hone : ∀ {s'}, SyncOnly s s' → Forall₂ SyncOnly ss (done ++ s' :: todo) := by
    intro s' hs
    obtain ⟨xs, x, ys, rfl, h1, h2, h3⟩ := forall₂_split hss.flip
    exact rel_append h1.flip (.cons (SyncOnly.trans h2 hs) h3.flip)
  refine sat_when (fun _ => sat_mono sat_sync_object (fun _ t ht => ?_) (fun _ t ht => ?_)
    (fun _ _ => trivial)) (fun _ => ?_)
  · rw [append_assoc]
    exact ⟨hone ht.1, hw1.trans ht.2⟩
  · exact ⟨hone ht.1, hw1.trans ht.2⟩
  · rw [append_assoc]
    exact ⟨hss, hw1⟩

theorem sat_flush_sync : Sat (fun _ t => SyncStep (l, w) t) (fun _ t => SyncStep (l, w) t)
    (fun _ => True) (flush (l, w)) := by
  unfold flush
  rw [bind_get]
  split
  · exact SyncStep.refl _
  refine sat_then (sat_zoom (sat_mono (sat_syncEach l.segments) (fun _ t ht => ?_)
    (fun _ t ht => ⟨ht.1, rfl, rfl, rfl, rfl, .inl rfl, ht.2⟩) (fun _ h => h)))
  exact sat_clockThen (fun _ w2 hf =>
    ⟨ht.1, rfl, rfl, rfl, rfl, .inr rfl, ht.2.trans (hf.sameTimes fun _ h => h)⟩)

/-- A grown object, with the log end still to be moved. -/
theorem sat_write_grown (h : Reach t₀ (l, w)) (hl : l.segments = olds ++ [a]) (hne : data ≠ [])
    (hlast : a.nextOffset ≤ last) :
    SatReach t₀ (fun _ t => ∃ a', GrowStep m a a' (l, w)
      ({ t.1 with logEndOffset := last + 1 }, t.2))
      (onSegment a.id (Segment.appendEncoded data a.nextOffset last n m) (l, w)) := by
  have hbase : a.timeIndex.baseOffset = a.baseOffset := (h.1.based a (by simp [hl])).2
  refine sat_onActive hl h.1.ids (sat_mono (sat_appendEncoded_grown hne hlast) (fun _ t ht => ?_)
    (fun _ t ht => h.sync (.tail hl ht.1 ht.2)) (fun _ h => h))
  obtain ⟨hg, hnext, htimes⟩ := ht
  rw [hbase] at htimes
  exact ⟨t.1, hg, ⟨olds, hl, rfl⟩, rfl, rfl, rfl, hnext.symm, rfl, htimes⟩

theorem sat_finalize_lengthened (h : Reach t₀ t₁)
    (hg : GrowStep m a a' t₁ ({ l with logEndOffset := r.lastOffset + 1 }, w)) :
    SatReach t₀ (fun _ t => Lengthened m t₀ t) (finalizeAppend r (l, w)) := by
  have hg' : GrowStep m a a' t₁ ({ l with
      logEndOffset := r.lastOffset + 1
      unflushedBytes := l.unflushedBytes + r.bytes
      unflushedRecords := l.unflushedRecords + r.recordCount }, w) := { hg with }
  unfold finalizeAppend
  rw [bind_get]
  split
  · exact sat_mono sat_flush_sync (fun _ t ht => ⟨a, a', t₁, _, h, hg', ht⟩)
      (fun _ t ht => (h.step (.grow hg')).sync ht) (fun _ h => h)
  · exact ⟨a, a', t₁, _, h, hg', SyncStep.refl _⟩

/-! ## 4. The append paths -/

/-- `m` is at least the timestamp of every record that the append with the result `r` stored, if the
    clock fits into 64 bits. -/
def Batch.Newest (b : Batch) (clock : List Int) (r : AppendResult) (m : Int) : Prop :=
  (∀ c ∈ clock, -2 ^ 63 ≤ c) → ∀ rs, b.Stores r.baseOffset r.appendTime rs →
    ∀ x ∈ rs, recordTimestamp x ≤ m

/-- An append that returned. -/
def Added (b : Batch) (t₀ : PartitionLog × World) (r : AppendResult) (t : PartitionLog × World) :
    Prop :=
  ∃ m, Lengthened m t₀ t ∧ b.Newest t₀.2.clock r m

theorem LogStep.spent (h : LogStep t t') : Spent t.2 t'.2 := by
  cases h with
  | sync h => exact h.times.spent
  | roll h => exact h.times.spent
  | grow h => exact h.times.spent

theorem Reach.spent (h : Reach t₀ t) : Spent t₀.2 t.2 := by
  obtain ⟨-, hsteps⟩ := h
  induction hsteps with
  | refl => exact Spent.refl _
  | tail _ hstep ih => exact ih.trans hstep.spent

theorem recordTimestamp_stamp_le {time : Int} {r : Bytes} (hf : Framed r) (ht : -2 ^ 63 ≤ time) :
    recordTimestamp (stamp time o r) ≤
      if recordTimestamp r > 0 then recordTimestamp r else time := by
  rw [stamp, recordTimestamp_rewriteRecordHeader _ _ hf.header]
  refine toI64_ofI64_le ?_
  split
  · omega
  · exact ht

theorem recordTimestamp_stampAll_le {time : Int} (ht : -2 ^ 63 ≤ time) :
    ∀ {rs : List Bytes} (o : Nat), (∀ r ∈ rs, Framed r) →
      (∀ r ∈ rs, (if recordTimestamp r > 0 then recordTimestamp r else time) ≤ m) →
      ∀ x ∈ stampAll time o rs, recordTimestamp x ≤ m
  | [], _, _, _, x, hx => nomatch hx
  | r :: rs, o, hf, hm, x, hx => by
    rw [forall_mem_cons] at hf hm
    rcases mem_cons.mp hx with rfl | hx
    · exact le_trans (recordTimestamp_stamp_le hf.1 ht) hm.1
    · exact recordTimestamp_stampAll_le ht (o + 1) hf.2 hm.2 x hx

/-- The end of an append path, behind the write. -/
theorem sat_finish_added (h : Reach t₀ t₁)
    (hg : GrowStep m a a' t₁ ({ l with logEndOffset := r.lastOffset + 1 }, w))
    (hr : b.Newest t₀.2.clock r m) : SatReach t₀ (Added b t₀)
      ((do finalizeAppend r; return r :
        Prog Status (PartitionLog × World) AppendResult) (l, w)) :=
  sat_bind (sat_finalize_lengthened h hg) (fun _ _ ht => ⟨m, ht, hr⟩)

/-- The clock read behind the write, and the end of the append path. -/
theorem sat_stamped_added (result : Int → AppendResult) (h : Reach t₀ t₁)
    (hlast : ∀ time, (result time).lastOffset = last)
    (hg : GrowStep m a a' t₁ ({ l with logEndOffset := last + 1 }, w))
    (hr : ∀ time, b.Newest t₀.2.clock (result time) m) :
    SatReach t₀ (Added b t₀)
      ((do
        let time ← Prog.onSnd clockMillis
        finalizeAppend (result time)
        return result time : Prog Status (PartitionLog × World) AppendResult) (l, w)) := by
  refine sat_clockThen (fun time w1 hf => ?_)
  have hg' : GrowStep m a a' t₁ ({ l with logEndOffset := (result time).lastOffset + 1 }, w1) := by
    rw [hlast time]
    exact { hg with times := hg.times.then (hf.sameTimes fun _ h => h) }
  exact sat_finish_added h hg' (hr time)

/-- A follower's batch is cut into its records in one way. -/
theorem newest_of_flatten {clock : List Int} {rs : List Bytes} {v : Bool}
    (hrun : RunOf (Checks v) o rs) (hm : ∀ x ∈ rs, recordTimestamp x ≤ m)
    (hb : ∀ o time rs', b.Stores o time rs' → rs'.flatten = rs.flatten ∧ ∀ x ∈ rs', Framed x) :
    b.Newest clock r m := by
  intro _ rs' hst
  obtain ⟨he, hf⟩ := hb _ _ _ hst
  have hsame : rs' = rs := flatten_framed_inj hf (hrun.framed fun _ _ hr => hr.framed) he
  rw [hsame]
  exact hm

section

variable (h : Reach t₀ (l, w))
include h

/-- **Rolling before an append**, and what follows on the active object. -/
theorem sat_rollActive_reach {k : Segment → Prog Status (PartitionLog × World) AppendResult}
    (hk : ∀ l1 w1 olds a, Reach t₀ (l1, w1) → l1.segments = olds ++ [a] →
      SatReach t₀ (Added b t₀) (k a (l1, w1))) :
    SatReach t₀ (Added b t₀) ((maybeRoll n >>= fun _ => activeSegment >>= k) (l, w)) := by
  refine sat_bind (sat_maybeRoll_reach h) ?_
  rintro _ ⟨l1, w1⟩ h1
  obtain ⟨olds, a, hl, hact⟩ := h1.1.active
  rw [bind_ok (activeSegment_eq hl h1.1.ids hact)]
  exact hk l1 w1 olds a h1 hl

theorem sat_appendAssigningOffsets_added :
    SatReach t₀ (Added (.assign records count) t₀)
      (appendAssigningOffsets records count (l, w)) := by
  refine sat_bind (sat_refuseAppend_reach h) ?_
  rintro _ ⟨l1, w1⟩ ⟨hne, h1⟩
  refine sat_rollActive_reach h1 (fun l2 w2 olds a h2 hl => ?_)
  refine sat_then (sat_onSnd (sat_clockMillis (fun time w3 hd hs htime => ?_)))
  have h3 : Reach t₀ (l2, w3) := h2.sync (.of_frame (SameLog.refl l2) (.of_dir hd hs))
  refine sat_then (sat_ofOutcome (fun c hc => ?_) (fun _ _ => h3) (fun _ => trivial))
  split
  · exact h3
  obtain ⟨rs, e1, e2, e3, e4, -, -, -, e8⟩ := assignLoop_ok time records.length [] records
    a.nextOffset (-1) 0 c le_rfl hc
  have hpos := length_pos_of_flatten (e1 ▸ hne)
  have hdata : c.data ≠ [] := by
    rw [e3, nil_append]
    intro h0
    have hlen := length_flatten_stampAll time a.nextOffset e2
    rw [h0, ← e1] at hlen
    exact hne (eq_nil_of_length_eq_zero hlen.symm)
  refine sat_bind (sat_write_grown h3 hl hdata (by omega)) ?_
  rintro _ ⟨l4, w4⟩ ⟨a', hg⟩
  refine sat_finish_added h3 hg ?_
  intro hclock rs' hst
  have hbound : -2 ^ 63 ≤ time := by
    rcases htime with rfl | hmem
    · decide
    · exact hclock time (h2.spent.clock time hmem)
  rw [e1] at hst
  obtain ⟨rfl, -⟩ := Batch.stores_assign e2 hst
  exact recordTimestamp_stampAll_le hbound _ e2 e8

theorem sat_appendWithOffsets_added :
    SatReach t₀ (Added (.replicate records count) t₀) (appendWithOffsets records count (l, w)) := by
  refine sat_bind (sat_refuseAppend_reach h) ?_
  rintro _ ⟨l1, w1⟩ ⟨hne, h1⟩
  rw [bind_get]
  dsimp only
  refine sat_then (sat_ofExcept (fun c hc => ?_) (fun _ _ => h1))
  split
  · exact h1
  obtain ⟨rs, e1, e2, e3, -, e5⟩ := checkBuffer_ok hc
  dsimp only at e2 e3
  have hpos := length_pos_of_flatten (e1 ▸ hne)
  refine sat_rollActive_reach h1 (fun l2 w2 olds a h2 hl => ?_)
  split
  · exact h2
  rename_i hnext
  rw [not_not] at hnext
  rw [← hnext]
  refine sat_bind (sat_write_grown h2 hl hne (by omega)) ?_
  rintro _ ⟨l4, w4⟩ ⟨a', hg⟩
  refine sat_stamped_added
    (fun time => ⟨a.nextOffset, c.offset - 1, c.seen, records.length, time, false⟩) h2
      (fun _ => rfl) hg
    (fun _ => newest_of_flatten e2 e5.each fun _ _ rs' hst => ?_)
  exact ⟨by rw [← e1, ← hst.1], hst.2.framed fun _ _ hr => hr.framed⟩

theorem sat_appendVectoredWithOffsets_added {chunks : List Bytes} :
    SatReach t₀ (Added (.vectored chunks count) t₀)
      (appendVectoredWithOffsets chunks count (l, w)) := by
  refine sat_bind (sat_refuseAppend_reach h) ?_
  rintro _ ⟨l1, w1⟩ ⟨hne, h1⟩
  refine sat_rollActive_reach h1 (fun l2 w2 olds a h2 hl => ?_)
  refine sat_then (sat_ofExcept (fun c hc => ?_) (fun _ _ => h2))
  split
  · exact h2
  obtain ⟨rs, e1, e2, e3, -, e5⟩ := checkChunks_ok hc
  dsimp only at e2 e3
  have hpos := length_pos_of_flatten (e1 ▸ hne)
  refine sat_bind (sat_write_grown h2 hl hne (by omega)) ?_
  rintro _ ⟨l4, w4⟩ ⟨a', hg⟩
  refine sat_stamped_added (fun time => ⟨a.nextOffset, c.offset - 1, c.seen, chunks.flatten.length,
    time, false⟩) h2 (fun _ => rfl) hg
    (fun _ => newest_of_flatten e2 e5.each fun _ _ rs' hst => ?_)
  exact ⟨by rw [← e1, ← hst.1], hst.2.framed fun _ _ hr => hr.framed⟩

end

/-- **Every outcome of an append is reached by steps.** -/
theorem sat_append_added (b : Batch) (h : Led l) :
    Sat (Added b (l, w)) (fun _ t => Reach (l, w) t) (fun _ => True) (b.append (l, w)) := by
  have h0 : Reach (l, w) (l, w) := ⟨h, .refl⟩
  cases b with
  | assign records count => exact sat_appendAssigningOffsets_added h0
  | replicate records count => exact sat_appendWithOffsets_added h0
  | vectored chunks count => exact sat_appendVectoredWithOffsets_added h0

end PulseLog

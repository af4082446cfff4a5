/-
  Subject:   `flushed_offset` while a flush runs beside appends, rolls and truncations.

  `Flush` captures the log end, syncs, and publishes what it has captured. The lock is free before
  and after the sync, so a truncation can come between.

  * `flush_race_safe` -- if truncations are `Careful`, `flushed_offset` is never above the log end,
    and every record below it is covered by a sync that began after its write;
  * `truncated_flush` -- otherwise a truncation between capture and publication leaves
    `flushed_offset` above the log end, and records appended later count as flushed at once.
-/
import PulseLog.General.Run
import PulseLog.Storage.FlushThreads

namespace PulseLog

open List

namespace FlushThreads

/-! ## 1. One segment -/

namespace Seg

/-- How many records lie below an offset. -/
def below (g : Seg) (x : Nat) : Nat := min g.sizes.length (x - g.baseOffset)

/-- The records below an offset are covered by a sync. -/
def CoveredTo (g : Seg) (x : Nat) : Prop := g.below x ≤ g.durable

/-- No record below the offset `x` goes beyond the position. -/
def Reaches (g : Seg) (x position : Nat) : Prop := g.position (g.below x) ≤ position

/-- Only covered records lie in front of the position. -/
def Synced (g : Seg) (position : Nat) : Prop := position ≤ g.position g.durable

/-- No write is in flight. -/
def Full (g : Seg) : Prop :=
  g.endPosition = bytesOf g.sizes ∧ g.nextOffset = g.baseOffset + g.sizes.length

/-- The positions of a segment whose records below `x` are published. -/
structure Ok (x : Nat) (g : Seg) : Prop where
  reaches : g.Reaches x g.endPosition
  ends : g.endPosition ≤ bytesOf g.sizes
  synced : g.Synced g.syncedPosition

/-- Records are added at or above the offset `x`, or covered. -/
structure Grows (x : Nat) (g g' : Seg) : Prop where
  base : g'.baseOffset = g.baseOffset
  sizes : ∃ more, g'.sizes = g.sizes ++ more ∧ (more = [] ∨ x ≤ g.baseOffset + g.sizes.length)
  durable : g.durable ≤ g'.durable

end Seg

section Segment

variable {g g' : Seg} {x y p : Nat}

/-- The bytes of the records from `i` to `j`. -/
theorem Seg.position_eq {i j : Nat} (hij : i ≤ j) :
    g.position j = g.position i + bytesOf ((g.sizes.take j).drop i) := by
  have hsplit : g.sizes.take j = g.sizes.take i ++ (g.sizes.take j).drop i := by
    conv_lhs => rw [← take_append_drop i (g.sizes.take j)]
    rw [take_take, Nat.min_eq_left hij]
  rw [Seg.position, Seg.position, ← bytesOf_append, ← hsplit]

theorem Seg.position_mono (g : Seg) : Monotone g.position := by
  intro i j hij
  rw [Seg.position_eq hij]
  exact Nat.le_add_right _ _

theorem Seg.position_le (g : Seg) (i : Nat) : g.position i ≤ bytesOf g.sizes := by
  conv_rhs => rw [← take_append_drop i g.sizes, bytesOf_append]
  exact Nat.le_add_right _ _

theorem Seg.le_of_position_le {i j : Nat} (hi : i ≤ g.sizes.length)
    (h : g.position i ≤ g.position j) : i ≤ j := by
  by_contra hlt
  have hne : (g.sizes.take i).drop j ≠ [] := by
    apply ne_nil_of_length_pos
    rw [length_drop, length_take]
    omega
  have := bytesOf_pos hne
  rw [Seg.position_eq (show j ≤ i by omega)] at h
  omega

theorem Seg.coveredTo_iff : g.CoveredTo x ↔
    ∀ i < g.sizes.length, g.baseOffset + i < x → i < g.durable := by
  unfold Seg.CoveredTo Seg.below
  constructor
  · omega
  · intro h
    by_contra hlt
    have := h g.durable (by omega) (by omega)
    omega

theorem Seg.Full.ok (h : g.Full) (hs : g.Synced g.syncedPosition) (x : Nat) : g.Ok x :=
  ⟨le_of_le_of_eq (g.position_le _) h.1.symm, le_of_eq h.1, hs⟩

theorem Seg.Reaches.mono (h : g.Reaches y p) (hxy : x ≤ y) : g.Reaches x p := by
  have hbelow : g.below x ≤ g.below y := by
    unfold Seg.below
    omega
  exact le_trans (g.position_mono hbelow) h

section

variable (h : g.Grows x g')
include h

/-- The new records are not below `y`. -/
theorem Seg.Grows.below (hyx : y ≤ x) : g'.below y = g.below y := by
  obtain ⟨more, hm, hnew⟩ := h.sizes
  unfold Seg.below
  rw [hm, h.base, length_append]
  rcases hnew with rfl | hnew
  · simp
  · omega

theorem Seg.Grows.covered (hyx : y ≤ x) (hc : g.CoveredTo y) : g'.CoveredTo y := by
  unfold Seg.CoveredTo
  rw [h.below hyx]
  exact le_trans hc h.durable

theorem Seg.Grows.reaches (hyx : y ≤ x) (hr : g.Reaches y p) : g'.Reaches y p := by
  obtain ⟨more, hm, -⟩ := h.sizes
  have hin : g.below y ≤ g.sizes.length := Nat.min_le_left _ _
  rw [Seg.Reaches, h.below hyx, Seg.position, hm, take_append_of_le_length hin]
  exact hr

theorem Seg.Grows.position_le (i : Nat) : g.position i ≤ g'.position i := by
  obtain ⟨more, hm, -⟩ := h.sizes
  rw [Seg.position, Seg.position, hm, take_append, bytesOf_append]
  exact Nat.le_add_right _ _

theorem Seg.Grows.synced (hs : g.Synced p) : g'.Synced p :=
  le_trans hs (le_trans (h.position_le _) (g'.position_mono h.durable))

end

/-- **Nothing is left to sync**: a covered position that is not below the published end. -/
theorem Seg.Synced.covers {q : Nat} (h : g.Synced p) (hr : g.Reaches x q) (hle : q ≤ p) :
    g.CoveredTo x :=
  Seg.le_of_position_le (Nat.min_le_left _ _) (le_trans hr (le_trans hle h))

/-! ### Syncing it -/

/-- What a call of `Sync` has found out, for the records below `x`. -/
def SyncAt.Ok (x : Nat) (g : Seg) : SyncAt → Prop
  | .enter => True
  | .loaded position => g.Reaches x position ∧ position ≤ bytesOf g.sizes
  | .file position written => position ≤ g.position written ∧ g.below x ≤ written
  | .indexes position => g.Synced position ∧ g.CoveredTo x

theorem SyncAt.Ok.grows {a : SyncAt} (h : a.Ok x g) (hg : g.Grows y g') (hxy : x ≤ y) :
    a.Ok x g' := by
  cases a with
  | enter => trivial
  | loaded =>
    obtain ⟨more, hm, -⟩ := hg.sizes
    refine ⟨hg.reaches hxy h.1, le_trans h.2 ?_⟩
    rw [hm, bytesOf_append]
    exact Nat.le_add_right _ _
  | file p n => exact ⟨le_trans h.1 (hg.position_le n), by rw [hg.below hxy]; exact h.2⟩
  | indexes => exact ⟨hg.synced h.1, hg.covered hxy h.2⟩

/-- What is left when `Sync` returns, and before. -/
def SyncResult.Ok (x : Nat) (g : Seg) : SyncResult → Prop
  | .continues a => a.Ok x g
  | .returned ok => ok = true → g.CoveredTo x

/-- **A step of `Sync`** covers records, or stores a position. -/
theorem Seg.syncStep_spec (ok : Bool) {a : SyncAt} (hg : g.Ok y) (hxy : x ≤ y) (ha : a.Ok x g) :
    ∃ d p, (g.syncStep ok a).1 = { g with durable := d, syncedPosition := p } ∧ g.durable ≤ d ∧
      (g.syncStep ok a).1.Ok y ∧ (g.syncStep ok a).2.Ok x (g.syncStep ok a).1 := by
  cases a with
  | enter => exact ⟨_, _, rfl, le_rfl, hg, hg.reaches.mono hxy, hg.ends⟩
  | loaded p =>
    simp only [Seg.syncStep]
    split
    · rename_i heq
      exact ⟨_, _, rfl, le_rfl, hg, fun _ => hg.synced.covers ha.1 (le_of_eq heq)⟩
    · refine ⟨_, _, rfl, le_rfl, hg, ?_, Nat.min_le_left _ _⟩
      rw [Seg.position, take_length]
      exact ha.2
  | file p n =>
    simp only [Seg.syncStep]
    split
    · refine ⟨_, _, rfl, le_max_left _ _, ⟨hg.reaches, hg.ends, ?_⟩, ?_,
        le_trans ha.2 (le_max_right _ _)⟩
      · exact le_trans hg.synced (g.position_mono (le_max_left _ _))
      · exact le_trans ha.1 (g.position_mono (le_max_right _ _))
    · exact ⟨_, _, rfl, le_rfl, hg, fun hf => absurd hf Bool.false_ne_true⟩
  | indexes p =>
    simp only [Seg.syncStep]
    split
    · exact ⟨_, _, rfl, le_rfl, ⟨hg.reaches, hg.ends, ha.1⟩, fun _ => ha.2⟩
    · exact ⟨_, _, rfl, le_rfl, hg, fun hf => absurd hf Bool.false_ne_true⟩

/-! ### Cutting it -/

theorem Seg.truncateFrom_base (g : Seg) (offset : Nat) :
    (g.truncateFrom offset).baseOffset = g.baseOffset := by
  unfold Seg.truncateFrom
  split
  · rfl
  split <;> rfl

theorem Seg.Full.truncateFrom (h : g.Full) (offset : Nat) : (g.truncateFrom offset).Full := by
  have hnext := h.2
  unfold Seg.truncateFrom
  split
  · exact h
  split
  · exact ⟨rfl, rfl⟩
  · refine ⟨rfl, ?_⟩
    dsimp only
    rw [length_take]
    omega

theorem Seg.CoveredTo.truncateFrom (h : g.CoveredTo x) (offset : Nat) :
    (g.truncateFrom offset).CoveredTo x := by
  unfold Seg.CoveredTo Seg.below at h
  unfold Seg.truncateFrom
  split
  · exact h
  split
  · exact Nat.min_le_left _ _
  · unfold Seg.CoveredTo Seg.below
    dsimp only
    rw [length_take]
    omega

theorem Seg.Synced.truncateFrom (h : g.Synced g.syncedPosition) (offset : Nat) :
    (g.truncateFrom offset).Synced (g.truncateFrom offset).syncedPosition := by
  unfold Seg.truncateFrom
  split
  · exact h
  split
  · exact Nat.zero_le _
  · -- the position of the smaller of the two places
    show min g.syncedPosition (g.position (offset - g.baseOffset)) ≤
      bytesOf ((g.sizes.take (offset - g.baseOffset)).take (min g.durable (offset - g.baseOffset)))
    rw [take_take, Nat.min_assoc, Nat.min_self]
    exact le_of_le_of_eq (min_le_min_right _ h) (g.position_mono.map_min).symm

theorem Seg.le_truncateFrom_next {offset : Nat} (h : offset ≤ g.nextOffset) :
    offset ≤ (g.truncateFrom offset).nextOffset := by
  unfold Seg.truncateFrom
  split
  · exact h
  split
  · assumption
  · exact le_rfl

end Segment

/-! ## 2. The list of segments -/

/-- Every segment but the last has no write in flight, and the next one begins where it ends. -/
def Listed (segments : List Seg) : Prop :=
  segments.IsChain fun g g' => g.Full ∧ g'.baseOffset = g.nextOffset

/-- The records below an offset are covered, in all segments. -/
def AllCovered (segments : List Seg) (x : Nat) : Prop := ∀ g ∈ segments, g.CoveredTo x

/-- The records below an offset are covered, in the first `n` segments. -/
def CoveredIn (segments : List Seg) (n x : Nat) : Prop :=
  ∀ j < n, ∀ g ∈ segments[j]?, g.CoveredTo x

section List

variable {segments front : List Seg} {x y i offset : Nat} {g g' : Seg} {P : Seg → Prop}

/-- One segment is changed; what held of it still does. -/
theorem forall_set {j : Nat} (hg : segments[i]? = some g) (hP : P g → P g')
    (h : ∀ k ∈ segments[j]?, P k) : ∀ k ∈ (segments.set i g')[j]?, P k := by
  intro k hk
  rw [getElem?_set] at hk
  split at hk
  · rename_i hij
    subst hij
    rw [if_pos (List.getElem?_eq_some_iff.mp hg).1] at hk
    exact Option.some.inj hk ▸ hP (h g hg)
  · exact h k hk

theorem exists_last_set (hg : segments[i]? = some g) (hP : P g → P g')
    (h : ∃ b, segments.getLast? = some b ∧ P b) :
    ∃ b, (segments.set i g').getLast? = some b ∧ P b := by
  obtain ⟨b, hb, hPb⟩ := h
  have hne : segments.set i g' ≠ [] := by
    intro hnil
    rw [set_eq_nil_iff] at hnil
    rw [hnil] at hb
    cases hb
  have hlast := getLast?_eq_some_getLast hne
  refine ⟨_, hlast, forall_set (j := segments.length - 1) hg hP (fun k hk => ?_) _ ?_⟩
  · rw [← getLast?_eq_getElem?, hb] at hk
    exact Option.some.inj hk ▸ hPb
  · show (segments.set i g')[segments.length - 1]? = _
    rw [← hlast, getLast?_eq_getElem?, length_set]

theorem set_last (hg : segments.getLast? = some g) (g' : Seg) :
    ∃ front, segments = front ++ [g] ∧ segments.set (segments.length - 1) g' = front ++ [g'] := by
  obtain ⟨front, rfl⟩ := getLast?_eq_some_iff.mp hg
  exact ⟨front, rfl, by simp⟩

theorem CoveredIn.succ (h : CoveredIn segments i x) (hc : ∀ g ∈ segments[i]?, g.CoveredTo x) :
    CoveredIn segments (i + 1) x := by
  intro j hj
  rcases Nat.lt_succ_iff_lt_or_eq.mp hj with hj | rfl
  · exact h j hj
  · exact hc

/-- Neither what is covered nor what is synced matters to the list. -/
theorem Listed.marked (h : Listed segments) (hg : segments[i]? = some g) (d p : Nat) :
    Listed (segments.set i { g with durable := d, syncedPosition := p }) := by
  let core (k : Seg) : Seg := { k with durable := 0, syncedPosition := 0 }
  have hcore : (segments.set i { g with durable := d, syncedPosition := p }).map core =
      segments.map core := by
    obtain ⟨hi, rfl⟩ := List.getElem?_eq_some_iff.mp hg
    have hsame : (segments.map core).set i (core segments[i]) = segments.map core := by
      rw [← map_set, set_getElem_self]
    exact map_set.trans hsame
  have hmap : ∀ segs, Listed (segs.map core) ↔ Listed segs := fun segs => isChain_map core
  exact (hmap _).mp (hcore ▸ (hmap _).mpr h)

/-- The last segment is changed, but not its base. -/
theorem Listed.last (h : Listed (front ++ [g])) (hbase : g'.baseOffset = g.baseOffset) :
    Listed (front ++ [g']) := by
  rw [Listed, isChain_append] at h ⊢
  refine ⟨h.1, .singleton _, fun k hk y hy => ?_⟩
  obtain rfl := Option.some.inj hy
  obtain ⟨hfull, hlink⟩ := h.2.2 k hk g rfl
  exact ⟨hfull, hbase.trans hlink⟩

/-- All segments are full when the active one is. -/
theorem Listed.full (h : Listed segments) (hg : segments.getLast? = some g) (hfull : g.Full) :
    ∀ k ∈ segments, k.Full :=
  List.IsChain.backwards_induction Seg.Full segments h (fun _ _ hlink _ => hlink.1) fun hne => by
    rw [getLast?_eq_some_getLast hne] at hg
    exact Option.some.inj hg ▸ hfull

/-- **What the loop of `TruncateTo` leaves**: the segments up to one; the next begins at or after
    the offset. -/
theorem dropBack_spec : ∀ (n : Nat) (segments : List Seg), segments.length ≤ n → segments ≠ [] →
    ∃ front g back, segments = front ++ g :: back ∧ dropBack offset n segments = front ++ [g] ∧
      ∀ g' ∈ back.head?, offset ≤ g'.baseOffset
  | 0, segments, hn, hne => absurd (length_eq_zero_iff.mp (by omega)) hne
  | n + 1, segments, hn, hne => by
    obtain ⟨front, g, rfl⟩ := (eq_nil_or_concat' segments).resolve_left hne
    unfold dropBack
    rw [getLast?_concat]
    dsimp only
    split
    · rename_i hdrop
      rw [length_append, length_singleton] at hdrop hn
      rw [dropLast_concat]
      obtain ⟨kept, k, back, rfl, hcut, hnext⟩ := dropBack_spec n front (by omega)
        (ne_nil_of_length_pos (by omega))
      refine ⟨kept, k, back ++ [g], by simp, hcut, fun g' hg' => ?_⟩
      cases back with
      | nil => exact Option.some.inj hg' ▸ hdrop.2
      | cons b back => exact hnext g' hg'
    · exact ⟨front, g, [], rfl, rfl, nofun⟩

theorem cut_eq (offset : Nat) (hne : segments ≠ []) : ∃ front g back,
    segments = front ++ g :: back ∧ cut offset segments = front ++ [g.truncateFrom offset] ∧
    ∀ g' ∈ back.head?, offset ≤ g'.baseOffset := by
  obtain ⟨front, g, back, hsplit, hcut, hnext⟩ := dropBack_spec segments.length segments le_rfl hne
  refine ⟨front, g, back, hsplit, ?_, hnext⟩
  unfold cut
  dsimp only
  rw [hcut, length_append, length_singleton, Nat.add_sub_cancel, modify_concat]

end List

/-! ## 3. The invariant -/

/-- The target a flush has captured and not published. -/
def Flusher.aim : Flusher → Option Nat
  | .captured f | .waiting f | .scanning f _ | .comparing f _ _ | .syncing f _ _ | .covered f =>
    some f.target
  | _ => none

/-- What the flusher has done of its way through the segments. -/
def Flusher.Passed (segments : List Seg) : Flusher → Prop
  | .scanning f i => CoveredIn segments i f.target
  | .comparing f i syncedBytes =>
    CoveredIn segments i f.target ∧ ∀ g ∈ segments[i]?, g.Synced syncedBytes
  | .syncing f i a => CoveredIn segments i f.target ∧ ∀ g ∈ segments[i]?, a.Ok f.target g
  | .covered f => AllCovered segments f.target
  | _ => True

/-- Where the log is being cut; otherwise its end. -/
def State.tail (s : State) : Nat :=
  match s.writer with
  | .truncating offset | .cutDone offset => offset
  | _ => s.logEndOffset

/-- What the writer knows of the log end and the active segment. It does not come to lower
    `flushed_offset`. -/
def Writer.Holds (logEnd : Nat) (g : Seg) : Writer → Prop
  | .written a => a.base = g.nextOffset ∧ a.base + a.count = g.baseOffset + g.sizes.length ∧
      g.endPosition + a.bytes = bytesOf g.sizes
  | .endStored a => a.base = g.nextOffset ∧ a.base + a.count = g.baseOffset + g.sizes.length ∧
      g.endPosition = bytesOf g.sizes
  | .nextStored a => g.Full ∧ a.base + a.count = g.nextOffset
  | .rollSync a => g.Full ∧ a.Ok 0 g
  | .truncating offset | .cutDone offset => g.Full ∧ offset ≤ logEnd
  | .logEndLowered offset => g.Full ∧ offset = logEnd
  | .lowering _ => False
  | _ => g.Full

/-- **The invariant.** -/
structure Sound (s : State) : Prop where
  ok : ∀ g ∈ s.segments, g.Ok s.tail
  listed : Listed s.segments
  active : ∃ g, s.segments.getLast? = some g ∧ s.tail ≤ g.nextOffset ∧
    s.writer.Holds s.logEndOffset g
  covered : AllCovered s.segments s.flushedOffset
  flushed_le : s.flushedOffset ≤ s.tail
  aimed : ∀ target ∈ s.flusher.aim, target ≤ s.tail
  passed : s.flusher.Passed s.segments

section Invariant

variable {s : State} {segments segments' : List Seg} {x i d p : Nat} {g g' : Seg}

theorem Sound.tail_le (h : Sound s) : s.tail ≤ s.logEndOffset := by
  obtain ⟨g, -, -, hholds⟩ := h.active
  unfold State.tail
  cases hw : s.writer with
  | truncating | cutDone =>
    rw [hw] at hholds
    exact hholds.2
  | _ => exact le_rfl

theorem AllCovered.grown {y : Nat} (h : AllCovered segments y) (hg : segments[i]? = some g)
    (hgrow : g.Grows x g') (hyx : y ≤ x) : AllCovered (segments.set i g') y := by
  intro k hk
  rcases mem_or_eq_of_mem_set hk with hk | rfl
  · exact h k hk
  · exact hgrow.covered hyx (h g (mem_of_getElem? hg))

/-- The flusher's way is not undone by a segment that grows. -/
theorem Flusher.Passed.grown {f : Flusher} (h : f.Passed segments) (hg : segments[i]? = some g)
    (hgrow : g.Grows x g') (haim : ∀ target ∈ f.aim, target ≤ x) :
    f.Passed (segments.set i g') := by
  have hcov : ∀ {n y}, y ≤ x → CoveredIn segments n y → CoveredIn (segments.set i g') n y :=
    fun hyx h j hj => forall_set hg (hgrow.covered hyx) (h j hj)
  cases f with
  | idle | called | bytesRead | recordsRead | captured | waiting | published | bytesTaken
  | recordsTaken => trivial
  | scanning f n => exact hcov (haim _ rfl) h
  | comparing f n q => exact ⟨hcov (haim _ rfl) h.1, forall_set hg hgrow.synced h.2⟩
  | syncing f n a =>
    exact ⟨hcov (haim _ rfl) h.1, forall_set hg (fun ha => ha.grows hgrow (haim _ rfl)) h.2⟩
  | covered f => exact AllCovered.grown h hg hgrow (haim _ rfl)

/-- Without the lock the flusher only relies on what is covered. -/
theorem Flusher.Passed.relisted {f : Flusher} (h : f.Passed segments) (hf : f.locked = false)
    (hcov : ∀ y, AllCovered segments y → AllCovered segments' y) : f.Passed segments' := by
  cases f with
  | idle | called | bytesRead | recordsRead | captured | waiting | published | bytesTaken
  | recordsTaken => trivial
  | scanning | comparing | syncing => exact nomatch hf
  | covered f => exact hcov _ h

/-- **A segment grows**, and the writer goes on. -/
theorem Sound.grown {w : Writer} (h : Sound s) (hg : s.segments[i]? = some g)
    (hgrow : g.Grows s.tail g') (hok : g'.Ok s.tail) (hlisted : Listed (s.segments.set i g'))
    (htail : State.tail { s with writer := w } = s.tail)
    (hlast : ∃ b, (s.segments.set i g').getLast? = some b ∧ s.tail ≤ b.nextOffset ∧
      w.Holds s.logEndOffset b) :
    Sound { s with segments := s.segments.set i g', writer := w } := by
  have htail' : State.tail { s with segments := s.segments.set i g', writer := w } = s.tail := htail
  refine ⟨?_, hlisted, ?_, h.covered.grown hg hgrow h.flushed_le, ?_, ?_,
    h.passed.grown hg hgrow h.aimed⟩ <;> rw [htail']
  · intro k hk
    rcases mem_or_eq_of_mem_set hk with hk | rfl
    · exact h.ok k hk
    · exact hok
  · exact hlast
  · exact h.flushed_le
  · exact h.aimed

/-- A sync of the active segment does not touch what the writer knows of it. -/
theorem Writer.Holds.marked {w : Writer} {logEnd : Nat} (h : w.Holds logEnd g)
    (hd : g.durable ≤ d) : w.Holds logEnd { g with durable := d, syncedPosition := p } := by
  cases w with
  | rollSync a => exact ⟨h.1, h.2.grows ⟨rfl, ⟨[], by simp⟩, hd⟩ le_rfl⟩
  | _ => exact h

/-- **A step of `Sync`**, of either thread. -/
theorem Sound.marked (h : Sound s) (hg : s.segments[i]? = some g) (hd : g.durable ≤ d)
    (hok : Seg.Ok s.tail { g with durable := d, syncedPosition := p }) :
    Sound { s with segments := s.segments.set i { g with durable := d, syncedPosition := p } } :=
  h.grown hg ⟨rfl, ⟨[], by simp⟩, hd⟩ hok (h.listed.marked hg d p) rfl
    (exists_last_set hg (fun hb => ⟨hb.1, hb.2.marked hd⟩) h.active)

end Invariant

/-! ## 4. A step of the flusher -/

section Flusher

variable {s : State} {i : Nat} {g : Seg}

theorem Sound.flusherAt {f : Flusher} (h : Sound s) (haim : ∀ target ∈ f.aim, target ≤ s.tail)
    (hp : f.Passed s.segments) : Sound { s with flusher := f } :=
  ⟨h.ok, h.listed, h.active, h.covered, h.flushed_le, haim, hp⟩

theorem sound_syncAt {f : Covers} {a : SyncAt} (ok : Bool) (h : Sound s)
    (hf : s.flusher = .syncing f i a) : Sound (s.syncAt f i a ok) := by
  have hpass := h.passed
  have haim := h.aimed
  rw [hf] at hpass haim
  unfold State.syncAt
  rcases hg : s.segments[i]? with _ | g
  · exact h
  obtain ⟨d, p, heq, hd, hok, hres⟩ := Seg.syncStep_spec ok (h.ok g (mem_of_getElem? hg))
    (haim _ rfl) (hpass.2 g hg)
  dsimp only
  rw [heq] at hok hres ⊢
  have h' := h.marked hg hd hok
  have hcov := h'.passed
  rw [hf] at hcov
  have hi : (s.segments.set i { g with durable := d, syncedPosition := p })[i]? =
      some { g with durable := d, syncedPosition := p } :=
    getElem?_set_self (List.getElem?_eq_some_iff.mp hg).1
  split
  · rename_i a' hr
    rw [hr] at hres
    refine h'.flusherAt haim ⟨hcov.1, fun k hk => ?_⟩
    exact Option.some.inj (hi.symm.trans hk) ▸ hres
  · rename_i hr
    rw [hr] at hres
    refine h'.flusherAt haim (hcov.1.succ fun k hk => ?_)
    exact Option.some.inj (hi.symm.trans hk) ▸ hres rfl
  · exact h'.flusherAt nofun trivial

/-- The flusher is about to capture the log end. -/
def Flusher.captures : Flusher → Bool
  | .recordsRead _ _ => true
  | _ => false

/-- The writer is in a truncation that has not stored the log end. -/
def Writer.cuts : Writer → Bool
  | .truncating _ | .cutDone _ => true
  | _ => false

theorem State.tail_of_not_cuts (h : s.writer.cuts = false) : s.tail = s.logEndOffset := by
  unfold State.tail
  cases hw : s.writer <;> rw [hw] at h <;> first | rfl | exact nomatch h

/-- **A step of the flusher** that does not capture the end of a log that is being cut. -/
theorem sound_flusherStep (ok : Bool) (now : Int) (h : Sound s)
    (hcap : s.flusher.captures = true → s.writer.cuts = false) : Sound (s.flusherStep ok now) := by
  have hpass := h.passed
  have haim := h.aimed
  unfold State.flusherStep
  cases hf : s.flusher with
  | idle =>
    dsimp only
    split
    · exact h
    · exact h.flusherAt nofun trivial
  | called => exact h.flusherAt nofun trivial
  | bytesRead bytes => exact h.flusherAt nofun trivial
  | recordsRead bytes records =>
    rw [hf] at hcap
    refine h.flusherAt (fun target ht => ?_) trivial
    rw [← Option.some.inj ht]
    exact le_of_eq (State.tail_of_not_cuts (hcap rfl)).symm
  | captured f =>
    rw [hf] at haim
    dsimp only
    split
    · exact h.flusherAt nofun trivial
    · exact h.flusherAt haim trivial
  | waiting f =>
    rw [hf] at haim
    dsimp only
    split
    · exact h
    · exact h.flusherAt haim nofun
  | scanning f i =>
    rw [hf] at hpass haim
    dsimp only
    split
    · rename_i hend
      -- the loop has passed every segment
      refine h.flusherAt haim fun k hk => ?_
      obtain ⟨j, hj⟩ := getElem?_of_mem hk
      have := (List.getElem?_eq_some_iff.mp hj).1
      exact hpass j (lt_of_lt_of_le this (List.getElem?_eq_none_iff.mp hend)) k hj
    · rename_i g hg
      refine h.flusherAt haim ⟨hpass, fun k hk => ?_⟩
      exact Option.some.inj (hg.symm.trans hk) ▸ (h.ok g (mem_of_getElem? hg)).synced
  | comparing f i syncedBytes =>
    rw [hf] at hpass haim
    dsimp only
    split
    · exact h
    rename_i g hg
    split
    · exact h.flusherAt haim ⟨hpass.1, fun _ _ => trivial⟩
    · rename_i hle
      have hends := (h.ok g (mem_of_getElem? hg)).reaches.mono (haim _ rfl)
      refine h.flusherAt haim (hpass.1.succ fun k hk => ?_)
      rw [← Option.some.inj (hg.symm.trans hk)]
      exact (hpass.2 g hg).covers hends (Nat.le_of_not_lt hle)
  | syncing f i a => exact sound_syncAt ok h hf
  | covered f =>
    rw [hf] at hpass haim
    exact ⟨h.ok, h.listed, h.active, hpass, haim _ rfl, nofun, trivial⟩
  | published | bytesTaken | recordsTaken =>
    exact ⟨h.ok, h.listed, h.active, h.covered, h.flushed_le, nofun, trivial⟩

end Flusher

/-! ## 5. A step of the writer -/

section Writer

variable {s : State} {offset : Nat} {g : Seg}

/-- A step of an append on the active segment. -/
theorem Sound.onActive {f : Seg → Seg} {w : Writer} (h : Sound s)
    (htail : State.tail { s with writer := w } = s.tail) (hg : s.segments.getLast? = some g)
    (hgrow : g.Grows s.tail (f g)) (hok : (f g).Ok s.tail) (hnext : s.tail ≤ (f g).nextOffset)
    (hholds : w.Holds s.logEndOffset (f g)) : Sound { s.onActive f with writer := w } := by
  obtain ⟨front, hsplit, hset⟩ := set_last hg (f g)
  have hmod : (s.onActive f).segments = s.segments.set (s.segments.length - 1) (f g) := by
    rw [hset, State.onActive, hsplit, length_append, length_singleton, Nat.add_sub_cancel,
      modify_concat]
  have hlisted := h.listed
  rw [hsplit] at hlisted
  show Sound { s with segments := (s.onActive f).segments, writer := w }
  rw [hmod]
  refine h.grown (getElem?_of_getLast? hg) hgrow hok ?_ htail ⟨f g, ?_, hnext, hholds⟩
  · rw [hset]
    exact hlisted.last hgrow.base
  · rw [hset, getLast?_concat]

theorem sound_cut (h : Sound s) (hw : s.writer = .truncating offset)
    (hf : s.flusher.locked = false) :
    Sound { s with segments := cut offset s.segments, writer := .cutDone offset } := by
  have htail : s.tail = offset := by rw [State.tail, hw]
  obtain ⟨hok, hlisted, ⟨b, hb, hnext, hholds⟩, hcovered, hflushed, haimed, hpassed⟩ := h
  rw [hw] at hholds
  rw [htail] at hok hnext hflushed haimed
  have hfull := hlisted.full hb hholds.1
  have hne : s.segments ≠ [] := by
    intro h0
    rw [h0] at hb
    cases hb
  obtain ⟨front, g, back, hsplit, hcut, hafter⟩ := cut_eq offset hne
  have hg : g ∈ s.segments := by simp [hsplit]
  have hfront : ∀ k ∈ front, k ∈ s.segments := fun k hk => by simp [hsplit, hk]
  -- the segment that is cut reaches the offset
  have hreach : offset ≤ g.nextOffset ∧ Listed (front ++ [g]) := by
    rw [hsplit, Listed, append_cons, isChain_append] at hlisted
    refine ⟨?_, hlisted.1⟩
    cases back with
    | nil =>
      rw [hsplit, getLast?_concat] at hb
      exact Option.some.inj hb ▸ hnext
    | cons g' back =>
      rw [← (hlisted.2.2 g getLast?_concat g' rfl).2]
      exact hafter g' rfl
  have hcov : ∀ y, AllCovered s.segments y → AllCovered (cut offset s.segments) y := by
    intro y hy k hk
    rw [hcut] at hk
    rcases mem_append.mp hk with hk | hk
    · exact hy k (hfront k hk)
    · rw [mem_singleton.mp hk]
      exact (hy g hg).truncateFrom offset
  refine ⟨fun k hk => ?_, ?_, ⟨g.truncateFrom offset, ?_, Seg.le_truncateFrom_next hreach.1,
    (hfull g hg).truncateFrom offset, hholds.2⟩, hcov _ hcovered, hflushed, haimed,
    hpassed.relisted hf hcov⟩
  · rw [hcut] at hk
    rcases mem_append.mp hk with hk | hk
    · exact hok k (hfront k hk)
    · rw [mem_singleton.mp hk]
      exact ((hfull g hg).truncateFrom offset).ok ((hok g hg).synced.truncateFrom offset) _
  · rw [hcut]
    exact hreach.2.last (g.truncateFrom_base offset)
  · rw [hcut, getLast?_concat]

theorem sound_push (h : Sound s) (hw : s.writer = .rollPush) (hf : s.flusher.locked = false) :
    Sound s.push := by
  have htail : s.tail = s.logEndOffset := by rw [State.tail, hw]
  obtain ⟨hok, hlisted, ⟨g, hg, hnext, hholds⟩, hcovered, hflushed, haimed, hpassed⟩ := h
  rw [hw] at hholds
  rw [htail] at hok hnext hflushed haimed
  have hnew : (Seg.fresh g.nextOffset).Full := ⟨rfl, rfl⟩
  have hcov : ∀ y, AllCovered s.segments y →
      AllCovered (s.segments ++ [Seg.fresh g.nextOffset]) y := by
    intro y hy k hk
    rcases mem_append.mp hk with hk | hk
    · exact hy k hk
    · rw [mem_singleton.mp hk]
      exact Nat.min_le_left _ _
  unfold State.push
  rw [hg]
  refine ⟨fun k hk => ?_, isChain_append.mpr ⟨hlisted, .singleton _, fun k hk y hy => ?_⟩,
    ⟨_, getLast?_concat, hnext, hnew⟩, hcov _ hcovered, hflushed, haimed,
    hpassed.relisted hf hcov⟩
  · rcases mem_append.mp hk with hk | hk
    · exact hok k hk
    · rw [mem_singleton.mp hk]
      exact hnew.ok (Nat.zero_le _) _
  · obtain rfl := Option.some.inj hy
    obtain rfl := Option.some.inj (hg.symm.trans hk)
    exact ⟨hholds, rfl⟩

theorem sound_rollAt {a : SyncAt} (ok : Bool) (h : Sound s) (hw : s.writer = .rollSync a) :
    Sound (s.rollAt a ok) := by
  obtain ⟨policy, segments, start, logEnd, flushed, bytes, records, last, f, w, finished⟩ := s
  obtain rfl : w = _ := hw
  obtain ⟨g, hg, hnext, hfull, ha⟩ := h.active
  have hi := getElem?_of_getLast? hg
  obtain ⟨d, p, heq, hd, hok, hres⟩ := Seg.syncStep_spec ok (h.ok g (mem_of_getElem? hi))
    (Nat.zero_le _) ha
  unfold State.rollAt
  rw [hg]
  dsimp only
  rw [heq] at hok hres ⊢
  have h' := h.marked hi hd hok
  obtain ⟨front, -, hset⟩ := set_last hg { g with durable := d, syncedPosition := p }
  have hlast := congrArg List.getLast? hset
  rw [getLast?_concat] at hlast
  split
  · rename_i a' hr
    rw [hr] at hres
    exact ⟨h'.ok, h'.listed, ⟨_, hlast, hnext, hfull, hres⟩, h'.covered, h'.flushed_le, h'.aimed,
      h'.passed⟩
  · exact ⟨h'.ok, h'.listed, ⟨_, hlast, hnext, hfull⟩, h'.covered, h'.flushed_le, h'.aimed,
      h'.passed⟩
  · exact ⟨h'.ok, h'.listed, ⟨_, hlast, hnext, hfull⟩, h'.covered, h'.flushed_le, h'.aimed,
      h'.passed⟩

theorem sound_writerStep (ok : Bool) (h : Sound s) : Sound (s.writerStep ok) := by
  obtain ⟨policy, segments, start, logEnd, flushed, bytes, records, last, f, w, finished⟩ := s
  obtain ⟨g, hg, hnext, hholds⟩ := h.active
  have hok := h.ok g (mem_of_getLast? hg)
  cases w with
  | idle => exact h
  | written a =>
    obtain ⟨hb, hc, he⟩ := hholds
    exact h.onActive rfl hg ⟨rfl, ⟨[], by simp⟩, le_rfl⟩
      ⟨le_of_le_of_eq (g.position_le _) he.symm, le_of_eq he, hok.synced⟩ hnext ⟨hb, hc, he⟩
  | endStored a =>
    obtain ⟨hb, hc, he⟩ := hholds
    refine h.onActive rfl hg ⟨rfl, ⟨[], by simp⟩, le_rfl⟩ ⟨hok.reaches, hok.ends, hok.synced⟩ ?_
      ⟨⟨he, hc⟩, rfl⟩
    exact le_trans hnext (by dsimp only; omega)
  | nextStored a =>
    have hall := h.listed.full hg hholds.1
    have hle : logEnd ≤ a.base + a.count := le_of_le_of_eq hnext hholds.2.symm
    exact ⟨fun k hk => (hall k hk).ok (h.ok k hk).synced _, h.listed,
      ⟨g, hg, le_of_eq hholds.2, hholds.1⟩, h.covered, le_trans h.flushed_le hle,
      fun t ht => le_trans (h.aimed t ht) hle, h.passed⟩
  | logEndStored a | lowered | bytesZeroed =>
    exact ⟨h.ok, h.listed, h.active, h.covered, h.flushed_le, h.aimed, h.passed⟩
  | bytesAdded a =>
    simp only [State.writerStep]
    split
    · exact ⟨h.ok, h.listed, h.active, h.covered, h.flushed_le, nofun, trivial⟩
    · exact ⟨h.ok, h.listed, h.active, h.covered, h.flushed_le, h.aimed, h.passed⟩
  | flushing a =>
    simp only [State.writerStep]
    split
    · exact ⟨h.ok, h.listed, h.active, h.covered, h.flushed_le, h.aimed, h.passed⟩
    · exact h
  | rollSync a => exact sound_rollAt ok h rfl
  | rollPush =>
    simp only [State.writerStep]
    split
    · exact h
    · rename_i hf
      exact sound_push h rfl (by simpa using hf)
  | truncating offset =>
    simp only [State.writerStep]
    split
    · exact h
    · rename_i hf
      exact sound_cut h rfl (by simpa using hf)
  | cutDone offset =>
    exact ⟨h.ok, h.listed, ⟨g, hg, hnext, hholds.1, rfl⟩, h.covered, h.flushed_le, h.aimed,
      h.passed⟩
  | logEndLowered offset =>
    obtain ⟨hfull, rfl⟩ := hholds
    -- `flushed_offset` is not above the offset
    have hflushed : ¬ flushed > offset := Nat.not_lt.mpr h.flushed_le
    simp only [State.writerStep, if_neg hflushed]
    exact ⟨h.ok, h.listed, ⟨g, hg, hnext, hfull⟩, h.covered, h.flushed_le, h.aimed, h.passed⟩
  | lowering offset => exact hholds.elim

theorem sound_beginAppend (sizes : List ℕ+) (h : Sound s) (hw : s.writer = .idle) :
    Sound (s.beginAppend sizes) := by
  obtain ⟨g, hg, hnext, hholds⟩ := h.active
  rw [hw] at hholds
  have hfull : g.Full := hholds
  unfold State.beginAppend
  rw [hg]
  dsimp only
  split
  · exact h
  have hgrow : g.Grows s.tail { g with sizes := g.sizes ++ sizes } :=
    ⟨rfl, ⟨sizes, rfl, .inr (by rw [← hfull.2]; exact hnext)⟩, le_rfl⟩
  have hok := h.ok g (mem_of_getLast? hg)
  have htail : s.tail = s.logEndOffset := by rw [State.tail, hw]
  have hbytes : bytesOf (g.sizes ++ sizes) = g.endPosition + bytesOf sizes := by
    rw [bytesOf_append, hfull.1]
  refine h.onActive htail.symm hg hgrow
    ⟨hgrow.reaches le_rfl hok.reaches, ?_, hgrow.synced hok.synced⟩ hnext ⟨rfl, ?_, hbytes.symm⟩
  · exact hbytes ▸ Nat.le_add_right _ _
  · rw [hfull.2, length_append, Nat.add_assoc]

/-- **The beginning of a truncation** that goes below no target and not below `flushed_offset`. -/
theorem sound_beginTruncate (h : Sound s) (hw : s.writer = .idle)
    (haim : ∀ target ∈ s.flusher.aim, target ≤ offset) (hkept : s.flushedOffset ≤ offset) :
    Sound (s.beginTruncate offset) := by
  unfold State.beginTruncate
  split
  · exact h
  have htail : s.tail = s.logEndOffset := by rw [State.tail, hw]
  have hle : offset ≤ s.tail := by omega
  obtain ⟨g, hg, hnext, hholds⟩ := h.active
  rw [hw] at hholds
  refine ⟨fun k hk => ?_, h.listed, ⟨g, hg, le_trans hle hnext, hholds, htail ▸ hle⟩,
    h.covered, hkept, haim, h.passed⟩
  have hok := h.ok k hk
  exact ⟨hok.reaches.mono hle, hok.ends, hok.synced⟩

end Writer

/-! ## 6. Every run -/

/-- Nothing is truncated below a captured target, and the log end is not captured while a truncation
    has not stored it. -/
def Unraced (s : State) : Event → Prop
  | .flusher _ _ => s.flusher.captures = true → s.writer.cuts = false
  | .truncateTo offset => s.writer = .idle → ∀ target ∈ s.flusher.aim, target ≤ offset
  | _ => True

/-- Nothing is truncated below `flushed_offset`. -/
def KeepsFlushed (s : State) : Event → Prop
  | .truncateTo offset => s.writer = .idle → s.flushedOffset ≤ offset
  | _ => True

/-- **The step of a run without the race.** `TruncateTo` stores the log end before it lowers
    `flushed_offset`, so it must not have to. -/
def Careful (s : State) (e : Event) : Prop := Unraced s e ∧ KeepsFlushed s e

/-- The records below `flushed_offset` are covered by a sync that began after they were written. -/
def FlushedCovered (s : State) : Prop :=
  ∀ g ∈ s.segments, ∀ i < g.sizes.length, g.baseOffset + i < s.flushedOffset → i < g.durable

instance (s : State) : DecidablePred (Careful s)
  | .flusher _ _ =>
    inferInstanceAs (Decidable ((s.flusher.captures = true → s.writer.cuts = false) ∧ True))
  | .truncateTo offset =>
    inferInstanceAs (Decidable ((s.writer = .idle → ∀ target ∈ s.flusher.aim, target ≤ offset) ∧
      (s.writer = .idle → s.flushedOffset ≤ offset)))
  | .writer _ | .append _ | .roll => inferInstanceAs (Decidable (True ∧ True))

instance (s : State) : Decidable (FlushedCovered s) := by
  unfold FlushedCovered
  infer_instance

section Runs

variable {s s₀ : State} {es : List Event}

theorem sound_fresh (h : Fresh s) : Sound s := by
  have htail : s.tail = s.logEndOffset := by rw [State.tail, h.writer]
  have hfull : ∀ g ∈ s.segments, g.Full :=
    fun g hg => ⟨(h.segments g hg).ends, (h.segments g hg).next⟩
  have hdurable : ∀ g ∈ s.segments, g.durable = g.sizes.length :=
    fun g hg => (h.segments g hg).durable
  obtain ⟨g, hg, hnext⟩ := Option.map_eq_some_iff.mp h.active
  refine ⟨fun k hk => (hfull k hk).ok ?_ _, ?_, ⟨g, hg, ?_, ?_⟩, fun k hk => ?_, ?_, ?_, ?_⟩
  · rw [Seg.Synced, Seg.position, hdurable k hk, take_length, (h.segments k hk).synced]
    exact le_of_eq (hfull k hk).1
  · exact h.chain.imp_of_mem_imp fun k _ hk _ hlink => ⟨hfull k hk, hlink⟩
  · rw [htail, hnext]
  · rw [h.writer]
    exact hfull g (mem_of_getLast? hg)
  · rw [Seg.CoveredTo, hdurable k hk]
    exact Nat.min_le_left _ _
  · rw [htail]
    exact le_of_eq h.flushed
  · rw [h.flusher]
    exact nofun
  · rw [h.flusher]
    trivial

theorem sound_next (s : State) (e : Event) (h : Sound s) (hc : Careful s e) : Sound (next s e) := by
  obtain ⟨hu, hk⟩ := hc
  cases e with
  | flusher ok now => exact sound_flusherStep ok now h hu
  | writer ok => exact sound_writerStep ok h
  | append sizes =>
    simp only [next]
    split
    · rename_i hw
      exact sound_beginAppend sizes h hw
    · exact h
  | roll =>
    simp only [next]
    split
    · rename_i hw
      have htail : s.tail = s.logEndOffset := by rw [State.tail, hw]
      obtain ⟨hok, hlisted, ⟨g, hg, hnext, hholds⟩, hcovered, hflushed, haimed, hpassed⟩ := h
      rw [hw] at hholds
      rw [htail] at hok hnext hflushed haimed
      exact ⟨hok, hlisted, ⟨g, hg, hnext, hholds, trivial⟩, hcovered, hflushed, haimed, hpassed⟩
    · exact h
  | truncateTo offset =>
    simp only [next]
    split
    · rename_i hw
      exact sound_beginTruncate h hw (hu hw) (hk hw)
    · exact h

/-- **No record counts as flushed too early**, in a run whose truncations go below no captured
    target and not below `flushed_offset`, and in which the log end is not captured while it is
    being lowered. -/
theorem flush_race_safe (h₀ : Fresh s₀) (h : Along next Careful s₀ es) :
    (run s₀ es).flushedOffset ≤ (run s₀ es).logEndOffset ∧ FlushedCovered (run s₀ es) := by
  have hs : Sound (run s₀ es) := Along.foldl sound_next h (sound_fresh h₀)
  exact ⟨le_trans hs.flushed_le hs.tail_le, fun g hg => Seg.coveredTo_iff.mp (hs.covered g hg)⟩

end Runs

/-- A flush up to where the lock is released. -/
def syncedFlush : List Event := List.replicate 13 (.flusher true 0)

/-- A truncation after its call. -/
def wholeTruncation (offset : Nat) : List Event :=
  .truncateTo offset :: List.replicate 5 (.writer true)

/-- A record is flushed while another one is appended, which is then cut off. -/
def cutBehind : List Event :=
  oneAppend ++ syncedFlush ++ oneAppend ++ wholeTruncation 1 ++ [.flusher true 0] ++ oneAppend

theorem cutBehind_safe : (run (emptyLog false) cutBehind).flushedOffset = 1 ∧
    (run (emptyLog false) cutBehind).flushedOffset ≤ (run (emptyLog false) cutBehind).logEndOffset ∧
    FlushedCovered (run (emptyLog false) cutBehind) :=
  ⟨by decide +kernel, flush_race_safe (fresh_emptyLog false) (by decide +kernel)⟩

/-- A truncation comes between the sync of a flush and its publication. -/
def truncatedFlush : List Event :=
  oneAppend ++ syncedFlush ++ wholeTruncation 0 ++ [.flusher true 0]

/-- **A record that was cut off counts as flushed.** `flushed_offset` is above the log end, and the
    next record is below it without a sync. -/
theorem truncated_flush : Fresh (emptyLog false) ∧
    ¬ (run (emptyLog false) truncatedFlush).flushedOffset ≤
      (run (emptyLog false) truncatedFlush).logEndOffset ∧
    ¬ FlushedCovered (run (emptyLog false) (truncatedFlush ++ oneAppend)) :=
  ⟨fresh_emptyLog false, by decide +kernel, by decide +kernel⟩

end FlushThreads

end PulseLog

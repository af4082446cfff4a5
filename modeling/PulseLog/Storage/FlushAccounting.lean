/-
  Subject:   `unflushed_bytes` while a flush runs beside the appends.

  A flush reads the counter before it captures the log end, and takes off what it has read after it
  has published `flushed_offset`. What an append adds in between stays.

  * `unflushed_counted` -- the counter is never below the bytes of the finished appends at or above
    `flushed_offset`, so `NeedsFlush` answers true in the end; with `sync_on_append` it never does,
    even if the flush of the append has failed (`inline_flush_failed`).
-/
import Mathlib.Algebra.Order.BigOperators.Group.List
import PulseLog.Storage.FlushThreads

namespace PulseLog

open List

namespace FlushThreads

/-! ## 1. The appends and their bytes -/

/-- The append in progress, once its log end is stored. -/
def Writer.published : Writer → List Append
  | .logEndStored a | .bytesAdded a | .flushing a => [a]
  | _ => []

/-- The append in progress, once its bytes are counted. -/
def Writer.counted : Writer → List Append
  | .bytesAdded a | .flushing a => [a]
  | _ => []

/-- An append is in progress. -/
def Writer.appending : Writer → Bool
  | .written _ | .endStored _ | .nextStored _ | .logEndStored _ | .bytesAdded _
  | .flushing _ => true
  | _ => false

def State.published (s : State) : List Append := s.finished ++ s.writer.published

def State.counted (s : State) : List Append := s.finished ++ s.writer.counted

def totalBytes (as : List Append) : Int := (as.map fun a => (a.bytes : Int)).sum

/-- The bytes of the appends that lie at or above an offset. -/
def bytesAbove (offset : Nat) (as : List Append) : Int :=
  totalBytes (as.filter fun a => decide (offset ≤ a.base))

section Bytes

variable {x y : Nat} {a : Append} {as bs : List Append}

theorem totalBytes_append : totalBytes (as ++ bs) = totalBytes as + totalBytes bs := by
  simp [totalBytes]

theorem totalBytes_singleton : totalBytes [a] = a.bytes := by
  simp [totalBytes]

theorem totalBytes_le (h : as.Sublist bs) : totalBytes as ≤ totalBytes bs :=
  (h.map _).sum_le_sum (by simp)

theorem bytesAbove_append : bytesAbove x (as ++ bs) = bytesAbove x as + bytesAbove x bs := by
  rw [bytesAbove, filter_append, totalBytes_append]
  rfl

theorem bytesAbove_nonneg (x : Nat) (as : List Append) : 0 ≤ bytesAbove x as :=
  (totalBytes_le (nil_sublist _))

theorem bytesAbove_le_total (x : Nat) (as : List Append) : bytesAbove x as ≤ totalBytes as :=
  totalBytes_le filter_sublist

theorem bytesAbove_of_below (h : ∀ a ∈ as, a.base < x) : bytesAbove x as = 0 := by
  have : as.filter (fun a => decide (x ≤ a.base)) = [] := by simpa using h
  rw [bytesAbove, this]
  rfl

/-- A larger offset has fewer bytes above it. -/
theorem bytesAbove_anti (hxy : x ≤ y) (as : List Append) : bytesAbove y as ≤ bytesAbove x as :=
  totalBytes_le (monotone_filter_right as fun a ha => by
    rw [decide_eq_true_eq] at ha ⊢
    exact le_trans hxy ha)

theorem bytesAbove_pos (ha : a ∈ as) (hx : x ≤ a.base) (hb : 0 < a.bytes) :
    0 < bytesAbove x as := by
  have hle : totalBytes [a] ≤ bytesAbove x as :=
    totalBytes_le (singleton_sublist.mpr (mem_filter.mpr ⟨ha, decide_eq_true hx⟩))
  rw [totalBytes_singleton] at hle
  omega

end Bytes

/-! ## 2. What a step of the writer does -/

/-- Where the active segment ends, and what the writer knows of it. No truncation is in progress. -/
def Placed (s : State) : Prop :=
  ∃ n, s.segments.getLast?.map Seg.nextOffset = some n ∧
    match s.writer with
    | .written a | .endStored a =>
      n = s.logEndOffset ∧ a.base = s.logEndOffset ∧ 0 < a.count ∧ 0 < a.bytes
    | .nextStored a => n = a.base + a.count ∧ a.base = s.logEndOffset ∧ 0 < a.count ∧ 0 < a.bytes
    | .truncating _ | .cutDone _ | .logEndLowered _ | .lowering _ | .lowered | .bytesZeroed => False
    | _ => n = s.logEndOffset

/-- Appends are published from the log end on, and the bytes of appends added to the counter. -/
structure Effect (s s' : State) : Prop where
  end_le : s.logEndOffset ≤ s'.logEndOffset
  published : ∃ as, s'.published = s.published ++ as ∧
    (∀ a ∈ as, a.base < s'.logEndOffset ∧ 0 < a.bytes) ∧
    (s'.logEndOffset = s.logEndOffset ∨ ∃ a ∈ as, a.base = s.logEndOffset)
  counted : ∃ as, s'.counted = s.counted ++ as ∧
    s'.unflushedBytes = s.unflushedBytes + totalBytes as
  flushed : s'.flushedOffset = s.flushedOffset

/-- A step of the writer. With `sync_on_append` it may begin a flush. -/
structure Moves (s s' : State) : Prop where
  effect : Effect s s'
  placed : Placed s'
  flusher : s'.flusher = s.flusher ∨ s'.flusher = .called

section Writer

variable {s : State}

/-- A step that neither publishes nor counts an append. -/
theorem Effect.quiet {s' : State} (hpub : s'.published = s.published)
    (hcount : s'.counted = s.counted) (hend : s'.logEndOffset = s.logEndOffset)
    (hbytes : s'.unflushedBytes = s.unflushedBytes)
    (hflushed : s'.flushedOffset = s.flushedOffset) :
    Effect s s' :=
  ⟨le_of_eq hend.symm, ⟨[], by rw [hpub, append_nil], nofun, .inl hend⟩,
    ⟨[], by rw [hcount, append_nil], hbytes.trans (add_zero _).symm⟩, hflushed⟩

theorem Moves.refl (h : Placed s) : Moves s s := ⟨.quiet rfl rfl rfl rfl rfl, h, .inl rfl⟩

theorem moves_rollAt {a : SyncAt} (hw : s.writer = .rollSync a) (ok : Bool) (h : Placed s) :
    Moves s (s.rollAt a ok) := by
  obtain ⟨policy, segments, start, logEnd, flushed, bytes, records, last, f, w, finished⟩ := s
  obtain rfl : w = _ := hw
  obtain ⟨n, hn, hplace⟩ := h
  unfold State.rollAt
  rcases hlast : segments.getLast? with _ | g
  · rw [hlast] at hn
    exact nomatch hn
  have hn' := (getLast?_set Seg.nextOffset (getElem?_of_getLast? hlast)
    (g.syncStep_nextOffset ok a)).trans hn
  dsimp only
  split <;> exact ⟨.quiet rfl rfl rfl rfl rfl, ⟨n, hn', hplace⟩, .inl rfl⟩

theorem moves_writerStep (ok : Bool) (h : Placed s) : Moves s (s.writerStep ok) := by
  have hplaced := h
  obtain ⟨policy, segments, start, logEnd, flushed, bytes, records, last, f, w, finished⟩ := s
  obtain ⟨n, hn, hplace⟩ := h
  cases w with
  | idle => exact .refl hplaced
  | written a =>
    refine ⟨.quiet rfl rfl rfl rfl rfl, ⟨n, ?_, hplace⟩, .inl rfl⟩
    rw [← hn]
    exact (congrArg _ getLast?_active).trans (Option.map_map ..)
  | endStored a =>
    refine ⟨.quiet rfl rfl rfl rfl rfl, ⟨a.base + a.count, ?_, rfl, hplace.2⟩, .inl rfl⟩
    obtain ⟨g, hlast, -⟩ := Option.map_eq_some_iff.mp hn
    exact (congrArg _ getLast?_active).trans (by rw [hlast]; rfl)
  | nextStored a =>
    obtain ⟨hn', rfl, hc, hne⟩ := hplace
    refine ⟨⟨Nat.le_add_right _ _, ⟨[a], ?_, fun b hb => ?_, .inr ⟨a, by simp, rfl⟩⟩,
      ⟨[], (append_nil _).symm, (add_zero _).symm⟩, rfl⟩, ⟨n, hn, hn'⟩, .inl rfl⟩
    · simp [State.writerStep, State.published, Writer.published]
    · rw [mem_singleton.mp hb]
      exact ⟨Nat.lt_add_of_pos_right hc, hne⟩
  | logEndStored a =>
    refine ⟨⟨le_rfl, ⟨[], (append_nil _).symm, nofun, .inl rfl⟩, ⟨[a], ?_, ?_⟩, rfl⟩,
      ⟨n, hn, hplace⟩, .inl rfl⟩
    · simp [State.writerStep, State.counted, Writer.counted]
    · rfl
  | bytesAdded a =>
    simp only [State.writerStep]
    split
    · exact ⟨.quiet rfl rfl rfl rfl rfl, ⟨n, hn, hplace⟩, .inr rfl⟩
    · exact ⟨.quiet (append_nil _) (append_nil _) rfl rfl rfl, ⟨n, hn, hplace⟩, .inl rfl⟩
  | flushing a =>
    simp only [State.writerStep]
    split
    · exact ⟨.quiet (append_nil _) (append_nil _) rfl rfl rfl, ⟨n, hn, hplace⟩, .inl rfl⟩
    · exact .refl hplaced
  | rollSync a => exact moves_rollAt rfl ok hplaced
  | rollPush =>
    simp only [State.writerStep]
    split
    · exact .refl hplaced
    unfold State.push
    rcases hlast : segments.getLast? with _ | g
    · exact .refl hplaced
    refine ⟨.quiet rfl rfl rfl rfl rfl, ⟨n, ?_, hplace⟩, .inl rfl⟩
    rw [← hn, hlast]
    exact (congrArg _ getLast?_concat).trans rfl
  | truncating | cutDone | logEndLowered | lowering | lowered | bytesZeroed => exact hplace.elim

theorem moves_beginAppend (sizes : List ℕ+) (hw : s.writer = .idle) (h : Placed s) :
    Moves s (s.beginAppend sizes) := by
  have hplaced := h
  obtain ⟨policy, segments, start, logEnd, flushed, bytes, records, last, f, w, finished⟩ := s
  obtain rfl : w = _ := hw
  obtain ⟨n, hn, hplace⟩ := h
  obtain ⟨g, hlast, hnext⟩ := Option.map_eq_some_iff.mp hn
  unfold State.beginAppend
  rw [hlast]
  dsimp only
  split
  · exact .refl hplaced
  rename_i hne
  refine ⟨.quiet rfl rfl rfl rfl rfl, ⟨n, ?_, hplace, hnext.trans hplace, length_pos_iff.mpr hne,
    bytesOf_pos hne⟩, .inl rfl⟩
  rw [← hn]
  exact (congrArg _ getLast?_active).trans (Option.map_map ..)

end Writer

/-! ## 3. The invariant -/

/-- An offset where an append begins, or the log end. -/
def Boundary (s : State) (x : Nat) : Prop := x = s.logEndOffset ∨ ∃ a ∈ s.published, a.base = x

/-- Of the counter, `bytes` belong to appends below `x`; the rest covers all others. -/
def Since (s : State) (bytes : Int) (x : Nat) : Prop :=
  ∃ old new, s.counted = old ++ new ∧ (∀ a ∈ old, a.base < x) ∧
    totalBytes new ≤ s.unflushedBytes - bytes

/-- A captured target: a boundary between `flushed_offset` and the log end. -/
structure Aimed (s : State) (f : Covers) : Prop where
  since : Since s f.bytes f.target
  flushed_le : s.flushedOffset ≤ f.target
  le_end : f.target ≤ s.logEndOffset
  boundary : Boundary s f.target

/-- What the flusher's locals say about the counter. -/
def Flusher.Knows (s : State) : Flusher → Prop
  | .idle | .called | .bytesTaken _ | .recordsTaken => True
  | .bytesRead bytes | .recordsRead bytes _ => Since s bytes s.logEndOffset
  | .captured f | .waiting f | .scanning f _ | .comparing f _ _ | .syncing f _ _ | .covered f =>
    Aimed s f
  | .published f => Since s f.bytes s.flushedOffset

/-- **The invariant of the accounts.** -/
structure Accounts (s : State) : Prop where
  placed : Placed s
  below : ∀ a ∈ s.published, a.base < s.logEndOffset ∧ 0 < a.bytes
  flushed_le : s.flushedOffset ≤ s.logEndOffset
  boundary : Boundary s s.flushedOffset
  enough : bytesAbove s.flushedOffset s.counted ≤ s.unflushedBytes
  knows : s.flusher.Knows s

section Writer

variable {s s' : State} {x : Nat} {bytes : Int}

theorem counted_subset_published (s : State) : s.counted ⊆ s.published := by
  refine append_subset.mpr ⟨subset_append_left _ _, fun a ha => mem_append_right _ ?_⟩
  cases hw : s.writer <;> rw [hw] at ha <;> first | exact ha | exact nomatch ha

theorem Effect.boundary (h : Effect s s') (hx : Boundary s x) : Boundary s' x := by
  obtain ⟨as, hpub, -, hend⟩ := h.published
  unfold Boundary
  rw [hpub]
  rcases hx with rfl | ⟨b, hb, hbx⟩
  · -- the old log end is where a new append begins
    rcases hend with hend | ⟨a, ha, hbase⟩
    · exact .inl hend.symm
    · exact .inr ⟨a, mem_append_right _ ha, hbase⟩
  · exact .inr ⟨b, mem_append_left _ hb, hbx⟩

theorem Effect.since (h : Effect s s') (hx : Since s bytes x) : Since s' bytes x := by
  obtain ⟨old, new, hsplit, hold, hnew⟩ := hx
  obtain ⟨as, hcount, hbytes⟩ := h.counted
  refine ⟨old, new ++ as, by rw [hcount, hsplit, append_assoc], hold, ?_⟩
  rw [totalBytes_append]
  omega

theorem Since.mono {y : Nat} (h : Since s bytes x) (hxy : x ≤ y) : Since s bytes y := by
  obtain ⟨old, new, hsplit, hold, hnew⟩ := h
  exact ⟨old, new, hsplit, fun a ha => lt_of_lt_of_le (hold a ha) hxy, hnew⟩

/-- A step that leaves `flushed_offset` alone keeps what the flusher knows. -/
theorem Effect.knows {f : Flusher} (h : Effect s s') (hk : f.Knows s) : f.Knows s' := by
  have hfl := h.flushed
  cases f with
  | idle | called | bytesTaken | recordsTaken => trivial
  | bytesRead | recordsRead => exact (h.since hk).mono h.end_le
  | captured | waiting | scanning | comparing | syncing | covered =>
    exact ⟨h.since hk.since, by rw [hfl]; exact hk.flushed_le, le_trans hk.le_end h.end_le,
      h.boundary hk.boundary⟩
  | published f =>
    show Since s' f.bytes s'.flushedOffset
    rw [hfl]
    exact h.since hk

theorem Moves.accounts (hm : Moves s s') (h : Accounts s) : Accounts s' := by
  obtain ⟨as, hpub, hnew, -⟩ := hm.effect.published
  obtain ⟨bs, hcount, hbytes⟩ := hm.effect.counted
  refine ⟨hm.placed, fun b hb => ?_, ?_, ?_, ?_, ?_⟩
  · rw [hpub] at hb
    rcases mem_append.mp hb with hb | hb
    · exact ⟨lt_of_lt_of_le (h.below b hb).1 hm.effect.end_le, (h.below b hb).2⟩
    · exact hnew b hb
  · rw [hm.effect.flushed]
    exact le_trans h.flushed_le hm.effect.end_le
  · rw [hm.effect.flushed]
    exact hm.effect.boundary h.boundary
  · rw [hm.effect.flushed, hcount, bytesAbove_append, hbytes]
    exact add_le_add h.enough (bytesAbove_le_total _ _)
  · rcases hm.flusher with hf | hf
    · rw [hf]
      exact hm.effect.knows h.knows
    · rw [hf]
      trivial

end Writer

/-! ## 4. What a step of the flusher does -/

section Flusher

variable {s : State}

/-- A step of the flusher that leaves the counters and the offsets alone. -/
theorem Accounts.moved {f : Flusher} {segments : List Seg} (h : Accounts s)
    (hsegs : segments.getLast?.map Seg.nextOffset = s.segments.getLast?.map Seg.nextOffset)
    (hf : f.Knows s) : Accounts { s with segments := segments, flusher := f } := by
  obtain ⟨n, hn, hplace⟩ := h.placed
  have hquiet : Effect s { s with segments := segments, flusher := f } := .quiet rfl rfl rfl rfl rfl
  exact ⟨⟨n, hsegs.trans hn, hplace⟩, h.below, h.flushed_le, h.boundary, h.enough, hquiet.knows hf⟩

theorem accounts_syncAt {f : Covers} {i : Nat} {a : SyncAt} (ok : Bool) (h : Accounts s)
    (hf : Aimed s f) : Accounts (s.syncAt f i a ok) := by
  unfold State.syncAt
  rcases hg : s.segments[i]? with _ | g
  · exact h
  have hsegs := getLast?_set Seg.nextOffset hg (g.syncStep_nextOffset ok a)
  dsimp only
  split
  · exact h.moved hsegs hf
  · exact h.moved hsegs hf
  · exact h.moved hsegs trivial

theorem accounts_flusherStep (ok : Bool) (now : Int) (h : Accounts s) :
    Accounts (s.flusherStep ok now) := by
  have hk := h.knows
  unfold State.flusherStep
  cases hf : s.flusher with
  | idle =>
    dsimp only
    split
    · exact h
    · exact h.moved rfl trivial
  | called =>
    -- everything that is counted now lies below the log end
    refine h.moved rfl ⟨s.counted, [], by simp, fun a ha => ?_, by simp [totalBytes]⟩
    exact (h.below a (counted_subset_published s ha)).1
  | bytesRead bytes =>
    rw [hf] at hk
    exact h.moved rfl hk
  | recordsRead bytes records =>
    rw [hf] at hk
    exact h.moved rfl ⟨hk, h.flushed_le, le_rfl, .inl rfl⟩
  | captured f =>
    rw [hf] at hk
    dsimp only
    split
    · exact h.moved rfl trivial
    · exact h.moved rfl hk
  | waiting f =>
    rw [hf] at hk
    dsimp only
    split
    · exact h
    · exact h.moved rfl hk
  | scanning f i =>
    rw [hf] at hk
    dsimp only
    split
    · exact h.moved rfl hk
    · exact h.moved rfl hk
  | comparing f i syncedBytes =>
    rw [hf] at hk
    dsimp only
    split
    · exact h
    split
    · exact h.moved rfl hk
    · exact h.moved rfl hk
  | syncing f i a =>
    rw [hf] at hk
    exact accounts_syncAt ok h hk
  | covered f =>
    rw [hf] at hk
    exact ⟨h.placed, h.below, hk.le_end, hk.boundary,
      le_trans (bytesAbove_anti hk.flushed_le _) h.enough, hk.since⟩
  | published f =>
    rw [hf] at hk
    obtain ⟨old, new, hsplit, hold, hnew⟩ := hk
    refine ⟨h.placed, h.below, h.flushed_le, h.boundary, ?_, trivial⟩
    -- what lies above was added since
    have hsum : bytesAbove s.flushedOffset s.counted ≤ totalBytes new := by
      rw [hsplit, bytesAbove_append, bytesAbove_of_below hold]
      have := bytesAbove_le_total s.flushedOffset new
      omega
    exact le_trans hsum hnew
  | bytesTaken | recordsTaken =>
    exact ⟨h.placed, h.below, h.flushed_le, h.boundary, h.enough, trivial⟩

end Flusher

/-! ## 5. Every run -/

/-- No truncation. -/
def Event.Appends : Event → Prop
  | .truncateTo _ => False
  | _ => True

instance : DecidablePred Event.Appends := fun e => by
  cases e <;> unfold Event.Appends <;> infer_instance

theorem accounts_fresh {s : State} (h : Fresh s) : Accounts s := by
  have hpub : s.published = [] := by simp [State.published, h.finished, h.writer, Writer.published]
  have hcount : s.counted = [] := by simp [State.counted, h.finished, h.writer, Writer.counted]
  refine ⟨⟨s.logEndOffset, h.active, by rw [h.writer]⟩, ?_, le_of_eq h.flushed,
    .inl h.flushed, ?_, ?_⟩
  · rw [hpub]
    exact fun a ha => nomatch ha
  · rw [hcount, h.unflushedBytes]
    exact le_rfl
  · rw [h.flusher]
    trivial

theorem accounts_next {s : State} (e : Event) (h : Accounts s) (he : e.Appends) :
    Accounts (next s e) := by
  cases e with
  | flusher ok now => exact accounts_flusherStep ok now h
  | writer ok => exact (moves_writerStep ok h.placed).accounts h
  | append sizes =>
    simp only [next]
    split
    · rename_i hw
      exact (moves_beginAppend sizes hw h.placed).accounts h
    · exact h
  | roll =>
    simp only [next]
    split
    · rename_i hw
      obtain ⟨n, hn, hplace⟩ := h.placed
      rw [hw] at hplace
      have hm : Moves s { s with writer := .rollSync .enter } :=
        ⟨.quiet (by simp [State.published, hw, Writer.published])
          (by simp [State.counted, hw, Writer.counted]) rfl rfl rfl, ⟨n, hn, hplace⟩, .inl rfl⟩
      exact hm.accounts h
    · exact h
  | truncateTo => exact he.elim

theorem Accounts.finished_le {s : State} (h : Accounts s) :
    bytesAbove s.flushedOffset s.finished ≤ s.unflushedBytes := by
  have henough := h.enough
  rw [State.counted, bytesAbove_append] at henough
  have hrest := bytesAbove_nonneg s.flushedOffset s.writer.counted
  omega

/-- Between two appends the counter is not zero while there is something to flush. -/
theorem Accounts.unflushed_pos {s : State} (h : Accounts s) (hw : s.writer.appending = false)
    (hlt : s.flushedOffset < s.logEndOffset) : 0 < s.unflushedBytes := by
  have hpub : s.writer.published = [] := by
    cases hs : s.writer <;> rw [hs] at hw <;> first | rfl | exact nomatch hw
  rcases h.boundary with heq | ⟨a, ha, hbase⟩
  · omega
  · have hbytes := (h.below a ha).2
    rw [State.published, hpub, append_nil] at ha
    exact lt_of_lt_of_le (bytesAbove_pos ha (le_of_eq hbase.symm) hbytes) h.finished_le

/-- **The counter covers what is not flushed**, at every moment of every interleaving without a
    truncation. So if no append is in progress and something is left to flush, `NeedsFlush` answers
    true from some time on, unless appends flush themselves. -/
theorem unflushed_counted {s₀ : State} {es : List Event} (h₀ : Fresh s₀)
    (hes : ∀ e ∈ es, e.Appends) :
    bytesAbove (run s₀ es).flushedOffset (run s₀ es).finished ≤ (run s₀ es).unflushedBytes ∧
    ((run s₀ es).writer.appending = false →
      (run s₀ es).flushedOffset < (run s₀ es).logEndOffset → 0 < (run s₀ es).policy.intervalMs →
      (run s₀ es).policy.syncOnAppend = false →
      ∃ t₀, ∀ now ≥ t₀, (run s₀ es).needsFlush now = true) := by
  have h : Accounts (run s₀ es) := List.foldlRecOn es next (accounts_fresh h₀)
    fun s hs e he => accounts_next e hs (hes e he)
  generalize run s₀ es = s at h ⊢
  refine ⟨h.finished_le, fun hw hlt hinterval hinline => ?_⟩
  refine ⟨s.lastFlushMs + s.policy.intervalMs, fun now hnow => ?_⟩
  have hpos := h.unflushed_pos hw hlt
  have hbytes : (s.unflushedBytes != 0) = true := bne_iff_ne.mpr (by omega)
  have htime : s.policy.intervalMs > 0 ∧ now - s.lastFlushMs ≥ s.policy.intervalMs :=
    ⟨hinterval, by omega⟩
  rw [State.needsFlush, hinline, hbytes, decide_eq_true htime]
  simp

/-- The flusher has read the counter when an append comes and finishes; the flush covers it and
    takes nothing off. Then there is one more append. -/
def lateAppends : List Event :=
  List.replicate 2 (.flusher true 0) ++ oneAppend ++ List.replicate 15 (.flusher true 0) ++
    oneAppend

theorem lateAppends_needsFlush : (run (emptyLog false) lateAppends).unflushedBytes = 54 ∧
    ∃ t₀, ∀ now ≥ t₀, (run (emptyLog false) lateAppends).needsFlush now = true :=
  ⟨by decide +kernel, (unflushed_counted (fresh_emptyLog false) (by decide +kernel)).2
    (by decide +kernel) (by decide +kernel) (by decide +kernel) (by decide +kernel)⟩

/-- **A flush of an append that failed.** With `sync_on_append` the flush runs inside the append.
    Its `fsync` fails, the append ends with an error, and `NeedsFlush` never answers true. -/
theorem inline_flush_failed : ∃ s, s = run (emptyLog true) (oneAppend ++
      List.replicate 9 (.flusher true 0) ++ [.flusher false 0, .writer true]) ∧
    s.writer = .idle ∧ s.flusher = .idle ∧ s.flushedOffset < s.logEndOffset ∧
      s.unflushedBytes = 27 ∧
    0 < s.policy.intervalMs ∧ ∀ now, s.needsFlush now = false := by
  refine ⟨_, rfl, by decide +kernel, by decide +kernel, by decide +kernel, by decide +kernel,
    by decide +kernel, fun now => ?_⟩
  rfl

end FlushThreads

end PulseLog

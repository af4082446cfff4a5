/-
  Subject:   What a log holds after process crashes.

  The runs are appends on the three paths with the rolls they make, flushes, retention passes,
  kills between two calls, deaths at any file operation or part-way through a write, and reopens,
  which may themselves die. Two ghosts go along: the history of all records from offset 0 on, and
  the batch whose append was in flight when the process died.

  * **`recovered_run`** -- each open that returns finds the history and a whole-record prefix of
    the batch in flight, if every stored record parses on its own with a valid checksum;
  * **`record_kept`** -- and a record that was read once is found again at its offset, in any later
    process;
  * `unchecked_record_lost` -- the vectored path stores records that fail this, and they are lost.
-/
import PulseLog.Storage.LogRun

namespace PulseLog

open List

namespace CrashRecovery

open LogRun

/-! ## 1. Runs and their ghosts -/

structure State where
  process : Process
  history : List Bytes
  inFlight : Option Batch

/-- The records of all segments, from first to last. -/
def recordsOf (l : PartitionLog) (w : World) : List Bytes :=
  (l.segments.map fun s => splitRecords (s.nextOffset - s.baseOffset) (w.bytes s.logPath)).flatten

/-- The ghosts after an event. An append adds its records to the history; an open adds what it found
    of the batch in flight. -/
def absorb (s : State) : Process × Report → State
  | (p, .quiet) => { s with process := p }
  | (p, .appended b r) => ⟨p, s.history ++ b.stored r, none⟩
  | (p, .died (.append b)) => ⟨p, s.history, some b⟩
  | (p, .died _) => ⟨p, s.history, none⟩
  | (p, .opened) =>
    match p.log with
    | none => ⟨p, s.history, none⟩
    | some l => ⟨p, s.history ++
        (recordsOf l p.world).drop (s.history.length - l.logStartOffset), none⟩

def next (options : LogOptions) (s : State) (ev : Event) : State :=
  absorb s (step options s.process ev)

def start : State := ⟨init, [], none⟩

/-- **The log holds the history** from its start on, each record at its offset. -/
structure Holding (history : List Bytes) (l : PartitionLog) (w : World) : Prop where
  start : l.logStartOffset ≤ history.length
  ends : l.logEndOffset = history.length
  records : recordsOf l w = history.drop l.logStartOffset
  offsets : RunOf (fun o r => recordOffset r = o) l.logStartOffset (recordsOf l w)

/-- Some of the records of the batch in flight, from its first one on. -/
def Begun (b : Option Batch) (o : Nat) (rs : List Bytes) : Prop :=
  rs = [] ∨ ∃ batch t whole, b = some batch ∧ batch.Stores o t whole ∧ rs <+: whole

/-- An open that returns finds the history, and whole records of the batch in flight. -/
def Survives (options : LogOptions) (s : State) : Event → Prop
  | .reopen env => s.process.log = none → ∀ l report w,
      PartitionLog.openLog options (s.process.world.under env) = (.ok (l, report), w) →
      ∃ rs, Begun s.inFlight s.history.length rs ∧ Holding (s.history ++ rs) l w
  | _ => True

/-- Whatever record with a valid checksum a torn `r` with zeros behind it reads as is `r` itself. -/
def TornFails (r : Bytes) : Prop :=
  ∀ k n e y, k < r.length → r.take k ++ zeros n = e ++ y → Framed e → ChecksumOk e → e = r

/-- The events of a run. What an append stores parses on its own and carries valid checksums; with
    preallocation, a torn record fails its own. -/
def EventOk (pre : Bool) : Event → Prop
  | .call (.append b) env => env.Calm ∧ b.bytes.length < 2 ^ 32 ∧ ∀ o t rs, b.Stores o t rs →
      RunOf Good o rs ∧ (pre = true → ∀ r ∈ rs, TornFails r)
  | .call .flush env => env.Calm
  | .call .enforceRetention env => env.Calm
  | .kill => True
  | .reopen env => env.Calm
  | _ => False

/-! ## 2. Torn records -/

/-- **Of the torn bytes of a batch a scan accepts whole records of the batch only.** -/
theorem torn_prefix {ex : List Bytes} : ∀ {rs : List Bytes} {o k n : Nat} {rest : Bytes},
    RunOf Good o rs → (n = 0 ∨ ∀ r ∈ rs, TornFails r) →
    rs.flatten.take k ++ zeros n = ex.flatten ++ rest → RunOf RecordOk o ex → ex <+: rs := by
  induction ex with
  | nil => exact fun _ _ _ _ => nil_prefix
  | cons e ex ih =>
    intro rs o k n rest hg ht h hex
    rw [flatten_cons, append_assoc] at h
    cases rs with
    | nil =>
      rw [flatten_nil, take_nil] at h
      exact absurd hex.1 (noRecord_zeros o n e _ h)
    | cons r rs =>
      have hr := hg.1.alone.framed
      have he := hex.1.framed
      rw [flatten_cons] at h
      by_cases hk : r.length ≤ k
      · rw [take_append, take_of_length_le hk, append_assoc] at h
        obtain ⟨rfl, h'⟩ := framed_append_inj hr he h
        have := ih hg.2 (ht.imp id (fun h x hx => h x (mem_cons_of_mem _ hx))) h' hex.2
        exact cons_prefix_cons.mpr ⟨rfl, this⟩
      · have hlt : k < r.length := by omega
        rw [take_append_of_le_length (le_of_lt hlt)] at h
        rcases ht with rfl | ht
        · -- the record does not fit in front of its own end
          have hsplit : e ++ (ex.flatten ++ rest ++ r.drop k) = r ++ [] := by
            rw [← append_assoc, ← h]
            simp [zeros]
          obtain ⟨rfl, -⟩ := framed_append_inj he hr hsplit
          have := congrArg List.length h
          simp only [length_append, length_take, length_zeros] at this
          omega
        · obtain rfl := ht r mem_cons_self k n e _ hlt h he hex.1.checksum
          -- what follows the record is unwritten
          have hy := congrArg (List.drop e.length) h
          rw [drop_left, drop_append, drop_of_length_le (by simp), drop_zeros] at hy
          cases ex with
          | nil => exact cons_prefix_cons.mpr ⟨rfl, nil_prefix⟩
          | cons e' ex =>
            rw [flatten_cons, append_assoc] at hy
            exact absurd hex.2.1 (noRecord_zeros _ _ e' _ hy)

/-! ## 3. Open logs -/

/-- The promises of such a run. -/
def mode (pre : Bool) : LogMode := exactMode Good (fun _ _ h => h) pre False

/-- An open log that shows the history. -/
def Up (pre : Bool) (history : List Bytes) (l : PartitionLog) (w : World) : Prop :=
  ∃ e segs g, LogInv (mode pre) e segs g l w ∧ Slices (segs ++ [g]) history ∧
    g.1 + g.2.length = history.length

section Open

variable {pre : Bool} {history : List Bytes} {l : PartitionLog} {w : World} {e : Nat}
  {segs : List SegView} {g : SegView}

theorem recordsOf_eq (h : LogInv (mode pre) e segs g l w) :
    recordsOf l w = ((segs ++ [g]).map Prod.snd).flatten := by
  have hall := h.all_objects id
  have heq : (segs ++ [g]).map Prod.snd =
      l.segments.map (fun s => splitRecords (s.nextOffset - s.baseOffset) (w.bytes s.logPath)) := by
    refine forall₂_map_eq hall (fun x s hx => ?_)
    obtain ⟨f, tail, hf, hd, -⟩ := hx.holds.log
    rw [hx.holds.next, Nat.add_sub_cancel_left, IndexFormat.bytes_of_file hf, hd]
    exact (splitRecords_append (hx.holds.run.framed (fun _ _ hr => hr.alone.framed)) _).symm
  rw [recordsOf, heq]

/-- The segments together are one run. -/
theorem runOf_flatten {P : Nat → Bytes → Prop} {views : List SegView} (hr : ∀ x ∈ views,
    RunOf P x.1 x.2) (hc : views.IsChain (fun x y => y.1 = x.1 + x.2.length)) :
    RunOf P (viewStart views) (views.map Prod.snd).flatten := by
  induction views with
  | nil => trivial
  | cons x xs ih =>
    have ht := ih (fun y hy => hr y (mem_cons_of_mem _ hy)) (isChain_cons.mp hc).2
    refine runOf_append.mpr ⟨hr x mem_cons_self, ?_⟩
    cases xs with
    | nil => trivial
    | cons y ys =>
      have hy : y.1 = x.1 + x.2.length := (isChain_cons.mp hc).1 y rfl
      have hv : viewStart (y :: ys) = viewStart (x :: y :: ys) + x.2.length := hy
      rw [← hv]
      exact ht

/-- **An open log that shows the history holds it.** -/
theorem Up.holding (h : Up pre history l w) : Holding history l w := by
  obtain ⟨e, segs, g, h, hs, he⟩ := h
  have hrec := recordsOf_eq h
  have hrun : ∀ x ∈ segs ++ [g], RunOf (fun o r => recordOffset r = o) x.1 x.2 := by
    intro x hx
    obtain ⟨s, -, hs⟩ := forall₂_exists_right (h.all_objects id) hx
    rw [← hs.base_eq]
    exact hs.holds.run.mono (fun _ _ hr => hr.offset)
  refine ⟨?_, by rw [h.ends, he], ?_, ?_⟩
  · have := viewStart_le h.listing.sorted
    rw [h.start]
    omega
  · rw [hrec, h.start]
    exact hs.flatten h.listing.chain he
  · rw [hrec, h.start]
    exact runOf_flatten hrun h.listing.chain

end Open

/-! ## 4. Directories of dead processes -/

/-- What may follow the records of a segment: unwritten space, and behind those of the segment based
    at `base` first a prefix of the bytes of the records that follow in `whole`. -/
def Ahead (pre : Bool) (whole : List Bytes) (base : Nat) (x : SegView) (tail : Bytes) : Prop :=
  (mode pre).tail tail ∨ x.1 = base ∧ ∃ k t, (mode pre).tail t ∧
    tail = (whole.drop (x.1 + x.2.length)).flatten.take k ++ t

/-- The records of the batch in flight. -/
def Wanted (pre : Bool) (b : Option Batch) (o : Nat) (rs : List Bytes) : Prop :=
  rs = [] ∨ RunOf Good o rs ∧ (pre = true → ∀ r ∈ rs, TornFails r) ∧
    ∃ batch t, b = some batch ∧ batch.Stores o t rs

/-- A directory that shows the history and `rs` behind it, perhaps not to the end. -/
structure Left (pre : Bool) (history rs : List Bytes) (views : List SegView) (g : SegView)
    (w : World) : Prop where
  disk : DiskLog (mode pre) False (Ahead pre (history ++ rs) g.1) (views ++ [g]) w
  slices : Slices (views ++ [g]) (history ++ rs)
  base_le : g.1 ≤ history.length
  reached : history.length ≤ g.1 + g.2.length
  within : g.1 + g.2.length ≤ (history ++ rs).length

/-- **What a process that died leaves**: nothing at all, or the history and some of the batch in
    flight. -/
def Down (pre : Bool) (history : List Bytes) (b : Option Batch) (w : World) : Prop :=
  history = [] ∧ DiskLog (mode pre) False (Ahead pre [] 0) [] w ∨
    ∃ rs views g, Wanted pre b history.length rs ∧ Left pre history rs views g w

section Dead

variable {pre : Bool} {history rs : List Bytes} {b : Option Batch} {l : PartitionLog} {w : World}
  {e : Nat} {segs views : List SegView} {g : SegView}

theorem Wanted.good (h : Wanted pre b history.length rs) : RunOf Good history.length rs := by
  rcases h with rfl | h
  · trivial
  · exact h.1

section

variable (h : Left pre history rs views g w)
include h

/-- The records still to come are the end of the batch. -/
theorem Left.drop_eq :
    (history ++ rs).drop (g.1 + g.2.length) = rs.drop (g.1 + g.2.length - history.length) := by
  rw [drop_append, drop_of_length_le h.reached, nil_append]

theorem Left.good_ahead (hw : Wanted pre b history.length rs) :
    RunOf Good (g.1 + g.2.length) ((history ++ rs).drop (g.1 + g.2.length)) := by
  have hle := h.within
  have hre := h.reached
  rw [length_append] at hle
  have := hw.good.drop (g.1 + g.2.length - history.length) (by omega)
  rw [h.drop_eq]
  rwa [show history.length + (g.1 + g.2.length - history.length) = g.1 +
    g.2.length by omega] at this

theorem Left.good : ∀ x ∈ views ++ [g], RunOf Good x.1 x.2 := by
  intro x hx
  obtain ⟨tail, -, hd⟩ := h.disk.files x hx
  exact hd.run

/-- What recovery finds in such a directory. -/
theorem Left.found (hw : Wanted pre b history.length rs)
    {views' : List SegView} (hf : Forall₂
      (fun x x' => x' = x ∨ Found (Ahead pre (history ++ rs) g.1) x x') (views ++ [g]) views') :
    ∃ ex, views' = views ++ [(g.1, g.2 ++ ex)] ∧
      ex <+: (history ++ rs).drop (g.1 + g.2.length) := by
  obtain ⟨vs, g', rfl, hvs, hg⟩ := forall₂_concat_left hf
  -- the sealed segments come back as they were
  have hsealed : views = vs := by
    refine forall₂_eq_eq_eq ▸ forall₂_imp_left hvs (fun x y hx hxy => ?_)
    rcases hxy with rfl | hxy
    · rfl
    · refine (hxy.eq (h.good x (mem_append_left _ hx)) (fun tail ht => ?_)).symm
      rcases ht with ⟨n, rfl, -⟩ | ⟨hb, -⟩
      · exact noRecord_zeros _ n
      · have := h.disk.listing.lt_last x hx
        omega
  subst hsealed
  rcases hg with rfl | ⟨hb, tail, rest, ht, hr⟩
  · exact ⟨[], by rw [append_nil], nil_prefix⟩
  obtain ⟨ex, hex, htail, hscan⟩ := hr.covers (h.good g (by simp))
  have hok : RunOf RecordOk (g.1 + g.2.length) ex := hscan.mono (fun _ _ hx => hx.ok)
  refine ⟨ex, ?_, ?_⟩
  · rw [← hex, ← hb]
  have htorn : pre = true → ∀ r ∈ (history ++ rs).drop (g.1 + g.2.length), TornFails r := by
    intro hp r hr
    rw [h.drop_eq] at hr
    rcases hw with rfl | hw
    · simp at hr
    · exact hw.2.1 hp r (mem_of_mem_drop hr)
  have hspace : ∀ n, (pre = false → n = 0) →
      n = 0 ∨ ∀ r ∈ (history ++ rs).drop (g.1 + g.2.length), TornFails r := by
    intro n hn
    cases hpre : pre with
    | false => exact .inl (hn hpre)
    | true => exact .inr (htorn hpre)
  rcases ht with ⟨n, rfl, hn⟩ | ⟨-, k, t, ⟨n, rfl, hn⟩, rfl⟩
  · have h0 : ((history ++ rs).drop (g.1 + g.2.length)).flatten.take 0 ++ zeros n =
        ex.flatten ++ rest := by rw [take_zero, nil_append, htail]
    exact torn_prefix (h.good_ahead hw) (hspace n hn) h0 hok
  · exact torn_prefix (h.good_ahead hw) (hspace n hn) htail hok

theorem Left.openable (hw : Wanted pre b history.length rs)
    (hc : ¬ MayFail w) : Openable (mode pre) (Ahead pre (history ++ rs) g.1) (views ++ [g]) w := by
  refine ⟨h.disk, fun x hx tail ht recs' rest hr => ⟨?_, False.elim⟩, fun views' hf => ?_,
    fun hd => hd.elim, fun hm => absurd hm hc⟩
  · -- if recovery makes `recs'` of this segment, it is one of those found
    obtain ⟨front, back, hsplit⟩ := append_of_mem hx
    have hF : Found (Ahead pre (history ++ rs) g.1) x (x.1, recs') := ⟨rfl, tail, rest, ht, hr⟩
    have hall : Forall₂ (fun x x' => x' = x ∨ Found (Ahead pre (history ++ rs) g.1) x x')
        (views ++ [g]) (front ++ (x.1, recs') :: back) := by
      rw [hsplit]
      exact rel_append (forall₂_same.mpr (fun _ _ => .inl rfl))
        (.cons (.inr hF) (forall₂_same.mpr (fun _ _ => .inl rfl)))
    obtain ⟨ex, heq, hex⟩ := h.found hw hall
    have hmem : (x.1, recs') ∈ views ++ [(g.1, g.2 ++ ex)] := by
      rw [← heq]
      simp
    rcases mem_append.mp hmem with hm | hm
    · exact h.good _ (mem_append_left _ hm)
    · rw [mem_singleton, Prod.mk.injEq] at hm
      rw [hm.1, hm.2]
      obtain ⟨t, ht⟩ := hex
      have hahead := h.good_ahead hw
      rw [← ht, runOf_append] at hahead
      exact runOf_append.mpr ⟨h.good g (by simp), hahead.1⟩
  · obtain ⟨ex, rfl, -⟩ := h.found hw hf
    have hb : ((g.1, g.2 ++ ex)).1 = g.1 := rfl
    exact (h.disk.listing.regrow hb).chain

/-- The same directory after recovery went on in the last segment. -/
theorem Left.regrow {w' : World} {ex : List Bytes}
    (hex : ex <+: (history ++ rs).drop (g.1 + g.2.length))
    (hd : DiskLog (mode pre) False (Ahead pre (history ++ rs) g.1)
    (views ++ [(g.1, g.2 ++ ex)]) w') :
    Left pre history rs views (g.1, g.2 ++ ex) w' := by
  have hlen := hex.length_le
  have hre := h.reached
  have hwi := h.within
  rw [length_drop] at hlen
  refine ⟨hd, h.slices.grow hex, h.base_le, ?_, ?_⟩
  · rw [length_append]
    omega
  · rw [length_append]
    omega

end

theorem down_empty : Down pre [] b ⟨∅, [], [], [], []⟩ := .inl ⟨rfl, diskLog_empty ⟨[], [], []⟩⟩

/-- **A process dies** with a prefix of the batch in flight written. -/
theorem down_of_fallen {written : Bytes}
    (h : Fallen (mode pre) history.length segs g written w) (hw : Wanted pre b history.length rs)
    (hs : Slices (segs ++ [g]) (history ++ rs)) (hb : g.1 ≤ history.length)
    (hre : history.length ≤ g.1 + g.2.length) (hwi : g.1 + g.2.length ≤ (history ++ rs).length)
    (hk : ∃ k, written = ((history ++ rs).drop (g.1 + g.2.length)).flatten.take k) :
    Down pre history b w := by
  obtain ⟨k, hk⟩ := hk
  rcases h.diskLog id with hd | ⟨he, hd⟩
  · refine .inr ⟨rs, segs, g, hw, hd.mono (fun x _ tail ht => ?_), hs, hb, hre, hwi⟩
    rcases ht with ht | ⟨rfl, t, ht, rfl⟩
    · exact .inl ht
    · exact .inr ⟨rfl, k, t, ht, by rw [hk]⟩
  · -- a roll was in flight, so nothing of the batch is written
    have hcut := hs.cut h.listing.chain
    rw [← he, take_left] at hcut
    refine .inr ⟨[], segs ++ [g], (g.1 + g.2.length, []), .inl rfl,
      hd.mono (fun x _ tail ht => .inl ht), fun x hx => ?_, ?_, ?_, ?_⟩
    · rw [append_nil]
      rcases mem_append.mp hx with hx | hx
      · exact hcut x hx
      · rw [mem_singleton.mp hx]
        exact nil_prefix
    all_goals simp [he]

/-- An open that did not return leaves such a directory again. -/
theorem down_of_interrupted (h : Left pre history rs views g w)
    (hw : Wanted pre b history.length rs) {w' : World}
    (hi : Interrupted (mode pre) (Ahead pre (history ++ rs) g.1) (views ++ [g]) w') :
    Down pre history b w' := by
  obtain ⟨views', hv, hd⟩ := hi.diskLog (fun _ _ ht => .inl ht)
  rcases hv with hv | ⟨h0, -⟩
  · obtain ⟨ex, rfl, hex⟩ := h.found hw hv
    exact .inr ⟨rs, views, _, hw, h.regrow hex hd⟩
  · simp at h0

theorem down_of_interrupted_empty {w' : World}
    (hi : Interrupted (mode pre) (Ahead pre [] 0) [] w') : Down pre [] b w' := by
  obtain ⟨views', hv, hd⟩ := hi.diskLog (fun _ _ ht => .inl ht)
  rcases hv with hv | ⟨-, rfl⟩
  · rw [forall₂_nil_left_iff.mp hv] at hd
    exact .inl ⟨rfl, hd⟩
  · exact .inr ⟨[], [], (0, []), .inl rfl, hd, by simp [Slices], by simp, by simp, by simp⟩

/-- **An open that returns** shows the history and a part of the batch in flight. -/
theorem up_of_openLog (h : Left pre history rs views g w) (hw : Wanted pre b history.length rs)
    {w' : World} {vs : List SegView} {g' : SegView}
    (hO : OpenLog (mode pre) (Ahead pre (history ++ rs) g.1) (views ++ [g]) vs g' l w') :
    ∃ rs', Begun b history.length rs' ∧ Up pre (history ++ rs') l w' ∧
      l.logStartOffset ≤ history.length ∧ l.flushedOffset = l.logEndOffset := by
  have hfound : Forall₂ (fun x x' => x' = x ∨ Found (Ahead pre (history ++ rs) g.1) x x')
      (views ++ [g]) (vs ++ [g']) := by
    rcases hO.found with ⟨h0, -⟩ | hF
    · simp at h0
    · exact hF.imp (fun _ _ hx => .inr hx)
  obtain ⟨ex, heq, hex⟩ := h.found hw hfound
  obtain ⟨rfl, hg⟩ := append_inj' heq rfl
  obtain rfl : g' = (g.1, g.2 ++ ex) := by simpa using hg
  have hinv := hO.inv 0
  have hslices := h.slices.grow hex
  have hlen := hex.length_le
  have hre := h.reached
  have hwi := h.within
  rw [length_drop] at hlen
  have hcut := hslices.cut hinv.listing.chain
  have hend : g.1 + (g.2 ++ ex).length = g.1 + g.2.length + ex.length := by
    rw [length_append, Nat.add_assoc]
  have htake : (history ++ rs).take (g.1 + (g.2 ++ ex).length) =
      history ++ rs.take (g.1 + (g.2 ++ ex).length - history.length) := by
    rw [take_append, take_of_length_le (by omega)]
  rw [htake] at hcut
  refine ⟨rs.take (g.1 + (g.2 ++ ex).length - history.length), ?_, ⟨0, vs, _, hinv, hcut, ?_⟩, ?_,
    hO.flushed⟩
  · rcases hw with rfl | ⟨-, -, batch, t, hb, hst⟩
    · exact .inl (by simp)
    · exact .inr ⟨batch, t, rs, hb, hst, take_prefix _ _⟩
  · rw [← htake, length_take]
    show g.1 + (g.2 ++ ex).length = _
    omega
  · rw [hinv.start]
    exact le_trans (viewStart_le hinv.listing.sorted) h.base_le

/-- **Reopening the directory of a dead process.** -/
theorem sat_reopen {options : LogOptions} {env : Env} (h : Down options.preallocate history b w)
    (hc : env.Calm) :
    Sat (fun r w' => ∃ rs, Begun b history.length rs ∧
        Up options.preallocate (history ++ rs) r.1 w' ∧
        r.1.logStartOffset ≤ history.length ∧ r.1.flushedOffset = r.1.logEndOffset)
      (fun _ w' => Down options.preallocate history b w')
      (fun w' => Down options.preallocate history b w')
      (PartitionLog.openLog options (w.under env)) := by
  rcases h with ⟨rfl, hd⟩ | ⟨rs, views, g, hw, hleft⟩
  · have hopen : Openable (mode options.preallocate) (Ahead options.preallocate [] 0) []
        (w.under env) :=
      ⟨hd.of_dir rfl, by simp, fun views hv => by
        rw [forall₂_nil_left_iff.mp hv]
        exact isChain_nil, by simp, fun hm => absurd hm (hc.not_mayFail w)⟩
    refine sat_mono (sat_openLog hopen (exactMode_spare options)) (fun r w' hr => ?_)
      (fun _ w' hr => down_of_interrupted_empty hr.1) (fun w' hr => down_of_interrupted_empty hr.1)
    obtain ⟨-, ⟨vs, g, hO⟩, -⟩ := hr
    have hinv := hO.inv 0
    rcases hO.found with ⟨-, rfl, rfl⟩ | hF
    · refine ⟨[], .inl rfl, ⟨0, [], _, hinv, by simp [Slices], by simp⟩, ?_, hO.flushed⟩
      rw [hinv.start]
      exact le_rfl
    · have := hF.length_eq
      simp at this
  · have hleft' : Left options.preallocate history rs views g (w.under env) :=
      ⟨hleft.disk.of_dir rfl, hleft.slices, hleft.base_le, hleft.reached, hleft.within⟩
    refine sat_mono (sat_openLog (hleft'.openable hw (hc.not_mayFail w)) (exactMode_spare options))
      (fun r w' hr => ?_) (fun _ w' hr => down_of_interrupted hleft' hw hr.1)
      (fun w' hr => down_of_interrupted hleft' hw hr.1)
    obtain ⟨-, ⟨vs, g', hO⟩, -⟩ := hr
    exact up_of_openLog hleft' hw hO

end Dead

/-! ## 5. Every run -/

/-- The open log shows the history, or the directory holds it. -/
def Inv (pre : Bool) (s : State) : Prop :=
  match s.process.log with
  | some l => Up pre s.history l s.process.world
  | none => Down pre s.history s.inFlight s.process.world

section Steps

variable {history : List Bytes} {b : Option Batch} {l : PartitionLog} {w : World}
  {e : Nat} {segs segs' : List SegView} {g g' : SegView} {options : LogOptions} {env : Env}

/-- A process that had nothing in flight dies. -/
theorem down_of_idle {pre : Bool} (h : Fallen (mode pre) history.length segs g [] w)
    (hs : Slices (segs ++ [g]) history) (he : g.1 + g.2.length = history.length) :
    Down pre history b w := by
  have hw : Wanted pre b history.length [] := .inl rfl
  exact down_of_fallen h hw (by rwa [append_nil]) (by omega) (by omega)
    (by rw [append_nil]; omega) ⟨0, rfl⟩

/-- **A process dies in an append.** -/
theorem down_of_halfway {pre : Bool} {batch : Batch} (h : Halfway (mode pre) batch segs g w)
    (hs : Slices (segs ++ [g]) history) (he : g.1 + g.2.length = history.length)
    (hst : ∀ o t rs, batch.Stores o t rs → RunOf Good o rs ∧ (pre = true → ∀ r ∈ rs, TornFails r)) :
    Down pre history (some batch) w := by
  obtain ⟨segs', g', hroll, h⟩ := h
  have he' := hroll.ends.trans he
  have hs' := hroll.slices hs
  rw [he] at h
  rcases h with h | ⟨time, rs, hb, h⟩
  · exact down_of_idle h hs' he'
  have hw : Wanted pre (some batch) history.length rs :=
    .inr ⟨(hst _ _ _ hb).1, (hst _ _ _ hb).2, batch, time, rfl, hb⟩
  rcases h with ⟨k, h⟩ | h
  · refine down_of_fallen h hw (hs'.extend (prefix_append _ rs)) (by omega) (by omega) ?_ ⟨k, ?_⟩
    · rw [length_append]
      omega
    · rw [he', drop_left]
  · obtain ⟨hpush, hlen⟩ := hs'.push he' rs
    refine down_of_fallen h hw hpush (show g'.1 ≤ _ by omega) ?_ (le_of_eq hlen)
      ⟨0, by rw [take_zero]⟩
    rw [length_append]
    omega

theorem inv_append {batch : Batch} (s : State) (hs : s.process = ⟨some l, w⟩)
    (h : Up options.preallocate s.history l w)
    (hc : EventOk options.preallocate (.call (.append batch) env)) :
    Inv options.preallocate (next options s (.call (.append batch) env)) := by
  obtain ⟨e, segs, g, h, hsl, he⟩ := h
  obtain ⟨hcalm, hlt, hst⟩ := hc
  have hsize : batch.bytes.length ≤ uint32Max := by
    unfold uint32Max
    omega
  have h0 : LogInv (mode options.preallocate) (g.1 + g.2.length) segs g l (w.under env) :=
    (h.under (hcalm.not_mayFail w)).retarget (fun hf => hf.elim)
  unfold next
  rw [hs]
  refine step_call (P := fun r => Inv options.preallocate (absorb s r)) (sat_mono
    (sat_map (sat_append h0 False.elim (fun o t rs hb => (hst o t rs hb).1) (.inl hsize)))
    (fun _ t ht => ?_) (fun _ t ht => ?_) (fun t ht => down_of_halfway ht hsl he hst))
  · obtain ⟨r, rfl, rs, hrep, segs', g', hroll, hl⟩ := ht
    obtain ⟨hpush, hlen⟩ := (hroll.slices hsl).push (hroll.ends.trans he) rs
    show Up options.preallocate (s.history ++ batch.stored r) t.1 t.2
    rw [hrep.stored]
    exact ⟨_, segs', _, hl, hpush, hlen⟩
  · rcases ht with ⟨segs', g', hroll, hl⟩ | ⟨hf, -⟩
    · exact ⟨_, segs', g', hl, hroll.slices hsl, hroll.ends.trans he⟩
    · exact hf.elim

theorem inv_quiet {c : LogCall} (s : State) (hs : s.process = ⟨some l, w⟩)
    (h : Up options.preallocate s.history l w) (hc : EventOk options.preallocate (.call c env))
    (hcall : c = .flush ∨ c = .enforceRetention) :
    Inv options.preallocate (next options s (.call c env)) := by
  obtain ⟨e, segs, g, h, hsl, he⟩ := h
  have hcalm : env.Calm := by rcases hcall with rfl | rfl <;> exact hc
  have h0 : LogInv (mode options.preallocate) s.history.length segs g l (w.under env) :=
    (h.under (hcalm.not_mayFail w)).retarget (fun hf => hf.elim)
  unfold next
  rw [hs]
  rcases hcall with rfl | rfl
  · refine step_call (P := fun r => Inv options.preallocate (absorb s r)) (sat_mono
      (sat_map (sat_flush h0)) (fun _ t ht => ?_) (fun _ t ht => ⟨_, _, _, ht.1, hsl, he⟩)
      (fun t ht => ?_))
    · obtain ⟨-, rfl, hl⟩ := ht
      exact ⟨_, _, _, hl, hsl, he⟩
    · exact down_of_idle ht hsl he
  · have hsub : ∀ {segs'}, segs' <:+ segs → Slices (segs' ++ [g]) s.history := by
      intro segs' hsuf x hx
      refine hsl x ?_
      rcases mem_append.mp hx with hx | hx
      · exact mem_append_left _ (hsuf.subset hx)
      · exact mem_append_right _ hx
    refine step_call (P := fun r => Inv options.preallocate (absorb s r)) (sat_mono
      (sat_map (sat_enforceRetention id id h0)) (fun _ t ht => ?_) (fun _ _ ht => ht.elim)
      (fun t ht => ?_))
    · obtain ⟨-, rfl, segs', hsuf, hl⟩ := ht
      exact ⟨_, _, _, hl, hsub hsuf, he⟩
    · obtain ⟨segs', hsuf, hl⟩ := ht
      exact down_of_idle hl (hsub hsuf) he

theorem inv_reopen (s : State) (hs : s.process = ⟨none, w⟩)
    (h : Down options.preallocate s.history s.inFlight w) (hc : env.Calm) :
    Inv options.preallocate (next options s (.reopen env)) := by
  unfold next
  rw [hs]
  refine step_reopen (P := fun r => Inv options.preallocate (absorb s r)) (sat_imp (sat_reopen h hc)
    (fun r w' hr => ?_))
  obtain ⟨rs, -, hup, hle, -⟩ := hr
  show Up options.preallocate (s.history ++
    (recordsOf r.1 w').drop (s.history.length - r.1.logStartOffset)) r.1 w'
  have hrec := hup.holding.records
  rw [hrec, drop_drop, Nat.add_sub_cancel' hle, drop_left]
  exact hup

theorem inv_step (options : LogOptions) (s : State) (ev : Event) (h : Inv options.preallocate s)
    (hev : EventOk options.preallocate ev) : Inv options.preallocate (next options s ev) := by
  obtain ⟨⟨log, w⟩, history, b⟩ := s
  cases ev with
  | call c env =>
    cases log with
    | none => exact h
    | some l =>
      cases c with
      | append batch => exact inv_append _ rfl h hev
      | truncateTo => exact hev.elim
      | enforceRetention => exact inv_quiet _ rfl h hev (.inr rfl)
      | flush => exact inv_quiet _ rfl h hev (.inl rfl)
  | close => exact hev.elim
  | kill =>
    cases log with
    | none => exact h
    | some l =>
      obtain ⟨e, segs, g, h, hsl, he⟩ := h
      have h0 : LogInv (mode options.preallocate) history.length segs g l w :=
        h.retarget (fun hf => hf.elim)
      exact down_of_idle h0.killed hsl he
  | reopen env =>
    cases log with
    | none => exact inv_reopen _ rfl h hev
    | some l => exact h

/-- **Every open that returns finds the history and whole records of the batch in flight.** -/
theorem recovered_run {es : List Event}
    (h : Along (next options) (fun _ ev => EventOk options.preallocate ev) start es) :
    Along (next options) (Survives options) start es := by
  refine (Along.strengthen (inv_step options) h down_empty).mono (fun s ev hs => ?_)
  obtain ⟨hinv, hev⟩ := hs
  cases ev with
  | reopen env =>
    intro hlog l report w hopen
    rw [Inv, hlog] at hinv
    have hsat := sat_reopen hinv hev
    rw [hopen] at hsat
    obtain ⟨rs, hb, hup, -, -⟩ := hsat
    exact ⟨rs, hb, hup.holding⟩
  | call | close | kill => trivial

/-- The history only grows. -/
theorem history_next (options : LogOptions) (s : State) (ev : Event) :
    s.history <+: (next options s ev).history := by
  unfold next absorb
  split
  · exact prefix_rfl
  · exact prefix_append _ _
  · exact prefix_rfl
  · exact prefix_rfl
  · split
    · exact prefix_rfl
    · exact prefix_append _ _

/-- The record at an offset of the open log. -/
def State.recordAt (s : State) (o : Nat) : Option Bytes :=
  s.process.log.bind fun l =>
    if l.logStartOffset ≤ o then (recordsOf l s.process.world)[o - l.logStartOffset]? else none

theorem recordAt_eq {s : State} {o : Nat} {pre : Bool} (hs : Inv pre s)
    (hlog : s.process.log = some l) (ho : l.logStartOffset ≤ o) : s.recordAt o = s.history[o]? := by
  rw [Inv, hlog] at hs
  rw [State.recordAt, hlog, Option.bind_some, if_pos ho, hs.holding.records, getElem?_drop,
    Nat.add_sub_cancel' ho]

/-- **A record at its offset stays there**, in every run with process crashes: whenever the log is
    open again and retention has not deleted the offset, it holds the same bytes. -/
theorem record_kept (es fs : List Event)
    (h : Along (next options) (fun _ ev => EventOk options.preallocate ev) start (es ++ fs))
    {o : Nat} {r : Bytes} (hr : (es.foldl (next options) start).recordAt o = some r) :
    let s := (es ++ fs).foldl (next options) start
    ∀ l ∈ s.process.log, l.logStartOffset ≤ o → s.recordAt o = some r := by
  intro s l hlog ho
  obtain ⟨hes, hfs⟩ := (along_append es _).mp h
  have hinv := hes.foldl (inv_step options) down_empty
  obtain ⟨hs, t, ht⟩ := hfs.foldl (I := fun t => Inv options.preallocate t ∧
      (es.foldl (next options) start).history <+: t.history)
    (fun t ev hI hev => ⟨inv_step options t ev hI.1 hev, hI.2.trans (history_next options t ev)⟩)
    ⟨hinv, prefix_rfl⟩
  obtain ⟨l₀, hl₀, hr₀⟩ := Option.bind_eq_some_iff.mp hr
  split at hr₀
  · rw [recordAt_eq hinv hl₀ ‹_›] at hr
    rw [← foldl_append] at hs ht
    rw [recordAt_eq hs hlog ho, ← ht, getElem?_append_left (List.getElem?_eq_some_iff.mp hr).1, hr]
  · cases hr₀

end Steps

/-- One segment of 1024 bytes, without preallocation. -/
def oneSegment : LogOptions := ⟨1024, 0, 4096, 0, 0, 0, false, ⟨false, 0, 0, 0⟩⟩

/-- The second append dies when 30 bytes of its two records are written. -/
def tornAppend : List Event :=
  [.reopen ⟨[], [], []⟩, .call (.append (.assign [bareRecord].flatten 1)) ⟨[], [], []⟩,
    .call (.append (.assign [bareRecord, bareRecord].flatten 2)) ⟨[.crash 30], [], []⟩,
    .reopen ⟨[], [], []⟩]

theorem tornAppend_recovered : (tornAppend.foldl (next oneSegment) start).history.length = 2 ∧
    Along (next oneSegment) (Survives oneSegment) start tornAppend := by
  refine ⟨by decide +kernel, recovered_run (along_of_forall (fun ev hev => ?_))⟩
  simp only [tornAppend, mem_cons, not_mem_nil, or_false] at hev
  rcases hev with rfl | rfl | rfl | rfl
  · exact calm_nil _ _
  · refine ⟨calm_nil _ _, by decide +kernel, fun o t rs h => ⟨?_, fun hp => nomatch hp⟩⟩
    exact Batch.good_assign (by simpa using bareRecord_alone) h
  · refine ⟨fun n e h => ?_, by decide +kernel, fun o t rs h => ⟨?_, fun hp => nomatch hp⟩⟩
    · simp at h
    · exact Batch.good_assign (by simpa using bareRecord_alone) h
  · exact calm_nil _ _

/-- A record is appended. -/
def oneAppended : List Event :=
  [.reopen ⟨[], [], []⟩, .call (.append (.assign [bareRecord].flatten 1)) ⟨[], [], []⟩]

theorem oneAppended_ok :
    Along (next oneSegment) (fun _ ev => EventOk false ev) start oneAppended := by
  refine ⟨calm_nil _ _, ⟨calm_nil _ _, by decide +kernel, fun o t rs h => ⟨?_, nofun⟩⟩, trivial⟩
  exact Batch.good_assign (by simpa using bareRecord_alone) h

theorem kept_after_kill :
    let s := (oneAppended ++ [Event.kill, .reopen ⟨[], [], []⟩]).foldl (next oneSegment) start
    ∃ r, ∀ l ∈ s.process.log, l.logStartOffset ≤ 0 → s.recordAt 0 = some r := by
  have hsome : ((oneAppended.foldl (next oneSegment) start).recordAt 0).isSome := by decide +kernel
  obtain ⟨r, hr⟩ := Option.isSome_iff_exists.mp hsome
  exact ⟨r, record_kept oneAppended [.kill, .reopen ⟨[], [], []⟩]
    ((along_append _ _).mpr ⟨oneAppended_ok, trivial, calm_nil _ _, trivial⟩) hr⟩

/-- A vectored append stores a record whose checksum is wrong, and the process is killed. -/
def uncheckedAppend : List Event :=
  [.reopen ⟨[], [], []⟩, .call (.append (.vectored [bareRecord] 1)) ⟨[], [], []⟩, .kill,
    .reopen ⟨[], [], []⟩]

/-- **A completed append is lost.** -/
theorem unchecked_record_lost :
    ¬ Along (next oneSegment) (Survives oneSegment) start uncheckedAppend := by
  intro h
  have hs := h.get (n := 3) rfl
  have hlog :
      ((uncheckedAppend.take 3).foldl (next oneSegment) start).process.log.isNone = true := by
    decide +kernel
  have hhist : ((uncheckedAppend.take 3).foldl (next oneSegment) start).history.length = 1 := by
    decide +kernel
  have hopen : (PartitionLog.openLog oneSegment (((uncheckedAppend.take 3).foldl
      (next oneSegment) start).process.world.under ⟨[], [], []⟩)).1.value?.map
        (fun r => r.1.logEndOffset) = some 0 := by decide +kernel
  generalize (uncheckedAppend.take 3).foldl (next oneSegment) start = s at hs hlog hhist hopen
  obtain ⟨r, hr, hend⟩ := Option.map_eq_some_iff.mp hopen
  obtain ⟨rs, -, hold⟩ := hs (Option.isNone_iff_eq_none.mp hlog) r.1 r.2 _
    (Prod.ext (Outcome.value?_eq_some hr) rfl)
  have := hold.ends
  rw [length_append] at this
  omega

end CrashRecovery

end PulseLog

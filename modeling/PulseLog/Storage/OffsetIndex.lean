/-
  Subject:   The sparse index files (include/pulselog/storage/offset_index.h,
             src/storage/offset_index.cc).

  `OffsetIndex` and `TimeIndex` are two files of fixed-size entries with the same life: opening
  drops a partial entry at the end and everything from the first entry that does not grow on,
  appending writes behind the last entry, truncating searches by halving. They differ in the
  entry, in what has to grow and in the checks of an append. `IndexFormat` holds the
  differences.

  * `kept fmt raw` -- the entries opening a file of bytes `raw` keeps;
  * `sat_openIndex` -- an opened index holds `kept`, and an open that is cut short leaves a file
    from which the next one keeps the same entries;
  * `HoldsEntries` -- the file behind an index in memory: its entries, then less than one entry
    of junk from an append that did not finish.
-/
import PulseLog.General.Search
import PulseLog.Storage.FileUtil

namespace PulseLog

open List

/-! ## 1. The two formats -/

/-- `OffsetIndexEntry`. -/
structure OffsetIndexEntry where
  relativeOffset : Nat
  filePosition : Nat
  deriving Repr, DecidableEq

/-- `TimeIndexEntry`. -/
structure TimeIndexEntry where
  timestamp : Int
  relativeOffset : Nat
  deriving Repr, DecidableEq

/-- What tells one index file from the other. -/
structure IndexFormat (α : Type) where
  kind : FileKind
  size : Nat
  encode : α → Bytes
  decode : Bytes → α
  relative : α → Nat
  key : α → Int
  grows : Int → Int → Bool

def offsetFormat : IndexFormat OffsetIndexEntry where
  kind := .index
  size := 8
  encode e := storeLe 4 e.relativeOffset ++ storeLe 4 e.filePosition
  decode raw := ⟨loadLe 4 raw 0, loadLe 4 raw 4⟩
  relative e := e.relativeOffset
  key e := e.relativeOffset
  -- an entry whose relative offset is not above the previous one is corrupt
  grows previous k := previous < k

def timeFormat : IndexFormat TimeIndexEntry where
  kind := .tindex
  size := 12
  encode e := storeLe 8 (ofI64 e.timestamp) ++ storeLe 4 e.relativeOffset
  decode raw := ⟨toI64 (loadLe 8 raw 0), loadLe 4 raw 8⟩
  relative e := e.relativeOffset
  key e := e.timestamp
  grows previous k := previous ≤ k

/-- An index in memory. -/
structure Index (α : Type) where
  baseOffset : Nat
  entries : List α
  deriving Repr, DecidableEq

abbrev OffsetIndex := Index OffsetIndexEntry
abbrev TimeIndex := Index TimeIndexEntry

namespace IndexFormat

variable {α : Type} (fmt : IndexFormat α)

def path (base : Nat) : Path := ⟨base, fmt.kind⟩

/-- The entries of `n` slots. -/
def slots : Nat → Bytes → List α
  | 0, _ => []
  | n + 1, raw => fmt.decode raw :: slots n (raw.drop fmt.size)

/-- The longest prefix that grows from `previous` on. -/
def growing : Int → List α → List α
  | _, [] => []
  | previous, e :: es =>
    if fmt.grows previous (fmt.key e) then e :: growing (fmt.key e) es else []

/-- The entries opening the file keeps. -/
def kept (raw : Bytes) : List α := fmt.growing (-1) (fmt.slots (raw.length / fmt.size) raw)

/-- The file of a list of entries. -/
def encodeAll (es : List α) : Bytes := es.flatMap fmt.encode

/-! ## 2. The shared methods -/

/-- `OffsetIndex::Open`, `TimeIndex::Open`. -/
def openIndex (base : Nat) : Prog Status World (Index α) := do
  openFile (fmt.path base)
  let w ← Prog.get
  let whole := w.size (fmt.path base) - w.size (fmt.path base) % fmt.size
  Prog.when (whole ≠ w.size (fmt.path base)) (truncateFile (fmt.path base) whole)
  let w ← Prog.get
  let raw := w.readAt (fmt.path base) whole 0
  let all := fmt.slots (whole / fmt.size) raw
  let entries := fmt.growing (-1) all
  Prog.when (entries.length < all.length) (truncateFile (fmt.path base) (entries.length * fmt.size))
  return ⟨base, entries⟩

/-- `OffsetIndex::TruncateFrom`, `TimeIndex::TruncateFrom`: drop the entries from `offset` on. -/
def truncateFrom (offset : Nat) : Prog Status (Index α × World) Unit := do
  let s ← Prog.get
  let relative : Int := (offset : Int) - s.1.baseOffset
  let keep := lowerBound (fun e => (fmt.relative e : Int) < relative) s.1.entries
  if keep = s.1.entries.length then return ()
  else do
    Prog.modify (fun s => ({ s.1 with entries := s.1.entries.take keep }, s.2))
    Prog.onSnd (truncateFile (fmt.path s.1.baseOffset) (keep * fmt.size))

/-- `OffsetIndex::Sync`, `TimeIndex::Sync`. -/
def sync : Prog Status (Index α × World) Unit := do
  let s ← Prog.get
  Prog.onSnd (syncFile (fmt.path s.1.baseOffset))

/-- The write both appends end with: one slot behind the last entry. -/
def pushEntry (e : α) : Prog Status (Index α × World) Unit := do
  let s ← Prog.get
  Prog.onSnd (writeAllAt (fmt.path s.1.baseOffset) (fmt.encode e) (s.1.entries.length * fmt.size))
  Prog.modify (fun s => ({ s.1 with entries := s.1.entries ++ [e] }, s.2))

end IndexFormat

/-! ## 3. What differs -/

/-- `UINT32_MAX`. -/
def uint32Max : Nat := 0xFFFFFFFF

namespace OffsetIndex

/-- `OffsetIndex::Append`. -/
def append (offset position : Nat) : Prog Status (OffsetIndex × World) Unit := do
  let s ← Prog.get
  let relative : Int := (offset : Int) - s.1.baseOffset
  if relative < 0 ∨ relative > uint32Max then
    Prog.fail (.invalidArgument s!"offset {offset} is outside segment based at {s.1.baseOffset}")
  else if position > uint32Max then
    Prog.fail (.invalidArgument s!"segment position {position} exceeds the 4 GiB segment limit")
  else if s.1.entries.getLast?.any (fun e => relative.toNat ≤ e.relativeOffset) then
    Prog.fail (.invalidArgument "index entries must strictly increase")
  else offsetFormat.pushEntry ⟨relative.toNat, position⟩

/-- `OffsetIndex::LookupFloor`: the largest entry at or below `target`. -/
def lookupFloor (ix : OffsetIndex) (target : Nat) : Option OffsetIndexEntry :=
  if ix.entries = [] ∨ target < ix.baseOffset then none
  else if target - ix.baseOffset > uint32Max then ix.entries.getLast?
  else
    let it := lowerBound (fun e => ¬ target - ix.baseOffset < e.relativeOffset) ix.entries
    if it = 0 then none else ix.entries[it - 1]?

/-- `OffsetIndex::LastIndexedPosition`. -/
def lastIndexedPosition (ix : OffsetIndex) : Nat :=
  match ix.entries.getLast? with
  | none => 0
  | some e => e.filePosition

/-- `OffsetIndex::LastIndexedOffset`. -/
def lastIndexedOffset (ix : OffsetIndex) : Nat :=
  match ix.entries.getLast? with
  | none => ix.baseOffset
  | some e => ix.baseOffset + e.relativeOffset

end OffsetIndex

namespace TimeIndex

/-- `TimeIndex::Append`: a timestamp that goes back is not indexed. -/
def append (timestamp : Int) (offset : Nat) : Prog Status (TimeIndex × World) Unit := do
  let s ← Prog.get
  let relative : Int := (offset : Int) - s.1.baseOffset
  if s.1.entries.getLast?.any (fun e => timestamp < e.timestamp) then return ()
  else if relative < 0 ∨ relative > uint32Max then
    Prog.fail (.invalidArgument "offset outside segment for time index")
  else timeFormat.pushEntry ⟨timestamp, relative.toNat⟩

/-- `TimeIndex::LookupCeiling`. -/
def lookupCeiling (ix : TimeIndex) (timestamp : Int) : Option Nat :=
  (ix.entries[lowerBound (fun e => e.timestamp < timestamp) ix.entries]?).map
    (fun e => ix.baseOffset + e.relativeOffset)

/-- `TimeIndex::MaxTimestamp`. -/
def maxTimestamp (ix : TimeIndex) : Int :=
  match ix.entries.getLast? with
  | none => -1
  | some e => e.timestamp

end TimeIndex

/-! ## 4. Files and entries -/

/-- A format whose entries are told apart by their first `size` bytes. `Valid` are the entries
    that fit the fields. -/
structure IndexFormat.Lawful {α : Type} (fmt : IndexFormat α) (Valid : α → Prop) : Prop where
  pos : 0 < fmt.size
  length : ∀ e, (fmt.encode e).length = fmt.size
  decode_append : ∀ raw x, fmt.size ≤ raw.length → fmt.decode (raw ++ x) = fmt.decode raw
  decode_encode : ∀ e, Valid e → fmt.decode (fmt.encode e) = e
  encode_decode : ∀ raw, fmt.size ≤ raw.length → fmt.encode (fmt.decode raw) = raw.take fmt.size

theorem loadLe_append {n k : Nat} (raw x : Bytes) (h : k + n ≤ raw.length) :
    loadLe n (raw ++ x) k = loadLe n raw k := by
  have h1 := loadLe_mid [] raw x k n h
  simpa using h1

/-- Two integers side by side, read back. -/
theorem loadLe_storeLe_append (m n a b : Nat) :
    loadLe m (storeLe m a ++ storeLe n b) 0 = a % 256 ^ m ∧
      loadLe n (storeLe m a ++ storeLe n b) m = b % 256 ^ n := by
  have h1 : slice (storeLe m a ++ storeLe n b) 0 m = storeLe m a := by
    rw [slice_zero, take_append_of_le_length (by simp), take_of_length_le (by simp)]
  have h2 : slice (storeLe m a ++ storeLe n b) m n = storeLe n b := by
    have h3 := slice_append_right (storeLe m a) (storeLe n b) n
    rw [length_storeLe] at h3
    rw [h3, take_of_length_le (by simp)]
  exact ⟨by rw [loadLe, h1, leNat_storeLe], by rw [loadLe, h2, leNat_storeLe]⟩

/-- Two neighbouring integers, written back. -/
theorem storeLe_loadLe_append (m n : Nat) (raw : Bytes) (h : m + n ≤ raw.length) :
    storeLe m (loadLe m raw 0) ++ storeLe n (loadLe n raw m) = raw.take (m + n) := by
  have h1 : (slice raw 0 m).length = m := by
    rw [length_slice]
    omega
  have h2 : (slice raw m n).length = n := by
    rw [length_slice]
    omega
  have e1 := storeLe_leNat (slice raw 0 m)
  have e2 := storeLe_leNat (slice raw m n)
  rw [h1] at e1
  rw [h2] at e2
  rw [loadLe, loadLe, e1, e2, slice, slice, drop_zero, take_add]

theorem offsetFormat_lawful :
    offsetFormat.Lawful (fun e => e.relativeOffset ≤ uint32Max ∧ e.filePosition ≤ uint32Max) where
  pos := by decide
  length e := by simp [offsetFormat]
  decode_append raw x h := by
    simp only [offsetFormat] at h ⊢
    rw [loadLe_append raw x (by omega), loadLe_append raw x (by omega)]
  decode_encode e he := by
    simp only [uint32Max] at he
    obtain ⟨h1, h2⟩ := loadLe_storeLe_append 4 4 e.relativeOffset e.filePosition
    simp only [offsetFormat, h1, h2]
    rw [Nat.mod_eq_of_lt (by omega), Nat.mod_eq_of_lt (by omega)]
  encode_decode raw h := by
    exact storeLe_loadLe_append 4 4 raw h

theorem ofI64_toI64 {v : Nat} (h : v < 2 ^ 64) : ofI64 (toI64 v) = v := by
  unfold toI64 ofI64
  split <;> omega

theorem timeFormat_lawful :
    timeFormat.Lawful (fun e => toI64 (ofI64 e.timestamp) = e.timestamp ∧
      e.relativeOffset ≤ uint32Max) where
  pos := by decide
  length e := by simp [timeFormat]
  decode_append raw x h := by
    simp only [timeFormat] at h ⊢
    rw [loadLe_append raw x (by omega), loadLe_append raw x (by omega)]
  decode_encode e he := by
    simp only [uint32Max] at he
    obtain ⟨h1, h2⟩ := loadLe_storeLe_append 8 4 (ofI64 e.timestamp) e.relativeOffset
    simp only [timeFormat, h1, h2]
    rw [Nat.mod_eq_of_lt (ofI64_lt _), Nat.mod_eq_of_lt (by omega), he.1]
  encode_decode raw h := by
    simp only [timeFormat] at h ⊢
    have h1 := loadLe_lt 8 raw 0
    rw [ofI64_toI64 (by omega)]
    exact storeLe_loadLe_append 8 4 raw h

namespace IndexFormat

section Files

variable {α : Type} {fmt : IndexFormat α} {Valid : α → Prop}

@[simp] theorem length_slots : ∀ (n : Nat) (raw : Bytes), (fmt.slots n raw).length = n
  | 0, _ => rfl
  | n + 1, raw => by simp [slots, length_slots n]

theorem slots_take : ∀ (n m : Nat) (raw : Bytes), n ≤ m →
    (fmt.slots m raw).take n = fmt.slots n raw
  | 0, _, _, _ => rfl
  | n + 1, 0, _, h => by omega
  | n + 1, m + 1, raw, h => by
    simp only [slots, take_succ_cons]
    rw [slots_take n m _ (by omega)]

theorem length_encodeAll (hl : fmt.Lawful Valid) : ∀ es : List α,
    (fmt.encodeAll es).length = es.length * fmt.size
  | [] => by simp [encodeAll]
  | e :: es => by
    have ih := length_encodeAll hl es
    simp only [encodeAll, flatMap_cons, length_append, length_cons] at ih ⊢
    rw [ih, hl.length, Nat.add_mul, Nat.one_mul, Nat.add_comm]

theorem encodeAll_append (es fs : List α) :
    fmt.encodeAll (es ++ fs) = fmt.encodeAll es ++ fmt.encodeAll fs := by
  simp [encodeAll]

/-- Slots depend on the bytes they cover only. -/
theorem slots_append (hl : fmt.Lawful Valid) : ∀ (n : Nat) (raw x : Bytes),
    n * fmt.size ≤ raw.length → fmt.slots n (raw ++ x) = fmt.slots n raw
  | 0, _, _, _ => rfl
  | n + 1, raw, x, h => by
    rw [Nat.add_mul] at h
    simp only [slots]
    rw [hl.decode_append raw x (by omega), drop_append_of_le_length (by omega),
      slots_append hl n _ x (by rw [length_drop]; omega)]

theorem slots_encodeAll (hl : fmt.Lawful Valid) : ∀ (es : List α) (x : Bytes),
    (∀ e ∈ es, Valid e) → fmt.slots es.length (fmt.encodeAll es ++ x) = es
  | [], _, _ => rfl
  | e :: es, x, hv => by
    have h1 : fmt.encodeAll (e :: es) = fmt.encode e ++ fmt.encodeAll es := rfl
    have h2 := hl.decode_append (fmt.encode e) (fmt.encodeAll es ++ x) (hl.length e).ge
    have h3 : (fmt.encode e ++ (fmt.encodeAll es ++ x)).drop fmt.size = fmt.encodeAll es ++ x := by
      rw [← hl.length e, drop_left]
    simp only [length_cons, slots]
    rw [h1, append_assoc, h2, hl.decode_encode e (hv e (by simp)), h3,
      slots_encodeAll hl es x (fun f hf => hv f (by simp [hf]))]

theorem encodeAll_slots (hl : fmt.Lawful Valid) : ∀ (n : Nat) (raw : Bytes),
    n * fmt.size ≤ raw.length → fmt.encodeAll (fmt.slots n raw) = raw.take (n * fmt.size)
  | 0, raw, _ => by simp [slots, encodeAll]
  | n + 1, raw, h => by
    rw [Nat.add_mul] at h
    have h1 : fmt.encodeAll (fmt.slots (n + 1) raw) =
        fmt.encode (fmt.decode raw) ++ fmt.encodeAll (fmt.slots n (raw.drop fmt.size)) := rfl
    rw [h1, hl.encode_decode raw (by omega),
      encodeAll_slots hl n _ (by rw [length_drop]; omega), Nat.add_mul, Nat.one_mul,
      Nat.add_comm, take_add]

theorem growing_prefix : ∀ (p : Int) (es : List α), fmt.growing p es <+: es
  | _, [] => prefix_refl _
  | p, e :: es => by
    unfold growing
    split
    · exact cons_prefix_cons.mpr ⟨rfl, growing_prefix (fmt.key e) es⟩
    · exact nil_prefix

theorem growing_take : ∀ (p : Int) (es : List α) (k : Nat), (fmt.growing p es).length ≤ k →
    fmt.growing p (es.take k) = fmt.growing p es
  | _, [], k, _ => by simp [growing]
  | p, e :: es, 0, h => by
    unfold growing at h ⊢
    split at h
    · simp at h
    · rename_i hg
      simp [hg]
  | p, e :: es, k + 1, h => by
    simp only [take_succ_cons, growing] at h ⊢
    split
    · rename_i hg
      rw [if_pos hg, length_cons] at h
      rw [growing_take (fmt.key e) es k (by omega)]
    · rfl

theorem length_kept_le (raw : Bytes) : (fmt.kept raw).length ≤ raw.length / fmt.size := by
  have h := (fmt.growing_prefix (-1) (fmt.slots (raw.length / fmt.size) raw)).length_le
  rwa [length_slots] at h

theorem kept_nil : fmt.kept [] = [] := by
  have h : (fmt.kept []).length ≤ _ := length_kept_le []
  rw [length_nil, Nat.zero_div] at h
  exact eq_nil_of_length_eq_zero (Nat.le_zero.mp h)

theorem kept_bytes_le (raw : Bytes) : (fmt.kept raw).length * fmt.size ≤ raw.length :=
  le_trans (Nat.mul_le_mul_right _ (length_kept_le raw)) (Nat.div_mul_le_self _ _)

/-- **Cutting a file behind its kept entries changes nothing for the next open.** -/
theorem kept_take (hl : fmt.Lawful Valid) (raw : Bytes) (m : Nat) (hm : m ≤ raw.length)
    (h : (fmt.kept raw).length * fmt.size ≤ m) : fmt.kept (raw.take m) = fmt.kept raw := by
  have hlen : (raw.take m).length = m := by
    rw [length_take]
    omega
  have hdiv : m / fmt.size ≤ raw.length / fmt.size := Nat.div_le_div_right hm
  have h1 : fmt.slots (m / fmt.size) (raw.take m) =
      (fmt.slots (raw.length / fmt.size) raw).take (m / fmt.size) := by
    have h2 := slots_append hl (m / fmt.size) (raw.take m) (raw.drop m)
      (by rw [hlen]; exact Nat.div_mul_le_self _ _)
    rw [take_append_drop] at h2
    rw [← h2, slots_take _ _ _ hdiv]
  unfold kept at h ⊢
  rw [hlen, h1]
  exact growing_take _ _ _ ((Nat.le_div_iff_mul_le hl.pos).mpr h)

/-- The kept entries are the first slots of the file. -/
theorem kept_take_eq_slots (raw : Bytes) (k : Nat) :
    (fmt.kept raw).take k = fmt.slots (min k (fmt.kept raw).length) raw := by
  have h : fmt.kept raw = (fmt.slots (raw.length / fmt.size) raw).take (fmt.kept raw).length :=
    prefix_iff_eq_take.mp (fmt.growing_prefix (-1) _)
  rw [← slots_take _ _ raw (le_trans (Nat.min_le_right _ _) (length_kept_le raw)), ← take_take, ← h]

/-- The kept entries are the head of the file. -/
theorem encodeAll_kept_take (hl : fmt.Lawful Valid) (raw : Bytes) (k : Nat) :
    fmt.encodeAll ((fmt.kept raw).take k) = raw.take (min k (fmt.kept raw).length * fmt.size) := by
  rw [kept_take_eq_slots, encodeAll_slots hl _ raw
    (le_trans (Nat.mul_le_mul_right _ (Nat.min_le_right _ _)) (kept_bytes_le raw))]

theorem encodeAll_kept (hl : fmt.Lawful Valid) (raw : Bytes) :
    fmt.encodeAll (fmt.kept raw) = raw.take ((fmt.kept raw).length * fmt.size) := by
  have h := encodeAll_kept_take hl raw (fmt.kept raw).length
  rwa [take_length, Nat.min_self] at h

/-- **A file of entries and less than one entry of junk keeps exactly the entries.** -/
theorem kept_encodeAll (hl : fmt.Lawful Valid) (es : List α) (junk : Bytes)
    (hv : ∀ e ∈ es, Valid e) (hg : fmt.growing (-1) es = es) (hj : junk.length < fmt.size) :
    fmt.kept (fmt.encodeAll es ++ junk) = es := by
  have hn : (fmt.encodeAll es ++ junk).length / fmt.size = es.length := by
    rw [length_append, length_encodeAll hl, Nat.mul_comm, Nat.mul_add_div hl.pos,
      Nat.div_eq_of_lt hj, Nat.add_zero]
  unfold kept
  rw [hn, slots_encodeAll hl es junk hv, hg]

end Files

/-! ## 5. What the methods do -/

section Methods

variable {α : Type} {fmt : IndexFormat α} {Valid : α → Prop} {ix : Index α} {es : List α} {e : α}
  {p : Path} {w w' : World} {offset : Nat} {Q : Unit → Index α × World → Prop}
  {E : Status → Index α × World → Prop} {H : Index α × World → Prop}

theorem bytes_of_file {f : File} (h : w.file p = some f) : w.bytes p = f.data := by
  rw [World.bytes, h]
  rfl

theorem bytes_congr (h : w'.file p = w.file p) : w'.bytes p = w.bytes p := by
  rw [World.bytes, World.bytes, h]

theorem truncate_data {f : File} {n : Nat} (h : n ≤ f.data.length) :
    (File.truncate n f).data = f.data.take n := by
  rw [File.truncate, Nat.sub_eq_zero_of_le h]
  exact append_nil _

/-- The file behind an index in memory: its entries, then less than one entry of junk. -/
def HoldsEntries (fmt : IndexFormat α) (es : List α) (p : Path) (w : World) : Prop :=
  ∃ f junk, w.file p = some f ∧ f.data = fmt.encodeAll es ++ junk ∧ junk.length < fmt.size

theorem HoldsEntries.kept (hl : fmt.Lawful Valid) (h : HoldsEntries fmt es p w)
    (hv : ∀ e ∈ es, Valid e) (hg : fmt.growing (-1) es = es) : fmt.kept (w.bytes p) = es := by
  obtain ⟨f, junk, hf, hd, hj⟩ := h
  rw [bytes_of_file hf, hd, kept_encodeAll hl es junk hv hg hj]

theorem HoldsEntries.congr (h : HoldsEntries fmt es p w) (hw : w'.file p = w.file p) :
    HoldsEntries fmt es p w' := by
  obtain ⟨f, junk, hf, hd, hj⟩ := h
  exact ⟨f, junk, by rw [hw, hf], hd, hj⟩

/-- The file at `p` keeps the same entries, and holds them if it held them. -/
structure SameEntries (fmt : IndexFormat α) (p : Path) (w w' : World) : Prop where
  kept : fmt.kept (w'.bytes p) = fmt.kept (w.bytes p)
  holds : HoldsEntries fmt (fmt.kept (w.bytes p)) p w → HoldsEntries fmt (fmt.kept (w.bytes p)) p w'

theorem SameEntries.congr (h : w'.file p = w.file p) : SameEntries fmt p w w' :=
  ⟨by rw [bytes_congr h], fun hh => hh.congr h⟩

theorem SameEntries.trans {w'' : World} (h : SameEntries fmt p w w')
    (h' : SameEntries fmt p w' w'') : SameEntries fmt p w w'' := by
  refine ⟨h'.kept.trans h.kept, fun hh => ?_⟩
  have hh' := h'.holds
  rw [h.kept] at hh'
  exact hh' (h.holds hh)

section

variable (hl : fmt.Lawful Valid)
include hl

/-- A file cut behind its kept entries. -/
theorem sameEntries_of_cut {u : List (Nat × Nat)}
    (h : w'.file p = some ⟨fmt.encodeAll (fmt.kept (w.bytes p)), u⟩) : SameEntries fmt p w w' := by
  refine ⟨?_, fun _ => ⟨_, [], h, by simp, hl.pos⟩⟩
  rw [bytes_of_file h, encodeAll_kept hl, kept_take hl _ _ (kept_bytes_le _) le_rfl]

/-- **Opening**: the index holds the kept entries and the file is cut behind them; an open that
    does not finish leaves a file that keeps the same entries. -/
theorem sat_openIndex {base : Nat} {Q : Index α → World → Prop}
    {E : Status → World → Prop} {H : World → Prop}
    (hok : ∀ w' u, Frame (· = fmt.path base) w w' → w'.file (fmt.path base) =
        some ⟨fmt.encodeAll (fmt.kept (w.bytes (fmt.path base))), u⟩ →
      Q ⟨base, fmt.kept (w.bytes (fmt.path base))⟩ w')
    (hstop : ∀ w', Frame (· = fmt.path base) w w' → SameEntries fmt (fmt.path base) w w' →
      Stops E H w w') : Sat Q E H (fmt.openIndex base w) := by
  set p := fmt.path base with hp
  set raw := w.bytes p with hraw
  set whole := raw.length - raw.length % fmt.size with hwhole
  have hslots : whole = raw.length / fmt.size * fmt.size := Nat.div_mul_self_eq_mod_sub_self.symm
  have hwle : whole ≤ raw.length := Nat.sub_le _ _
  have hwdiv : whole / fmt.size = raw.length / fmt.size := by rw [hslots,
    Nat.mul_div_cancel _ hl.pos]
  have hwkept : (fmt.kept raw).length * fmt.size ≤ whole :=
    hslots ▸ Nat.mul_le_mul_right _ (length_kept_le raw)
  -- a world with `p` as it was, or cut behind its last whole slot, keeps the same entries
  have hsame : ∀ w' f, w'.file p = some f → f.data = raw →
      SameEntries fmt p w w' := by
    intro w' f hf hd
    refine ⟨by rw [bytes_of_file hf, hd], fun ⟨f0, junk, hf0, hd0, hj⟩ => ⟨f, junk, hf, ?_, hj⟩⟩
    rw [hd, ← hd0, hraw, bytes_of_file hf0]
  have hcut : ∀ w' f, w'.file p = some f → f.data = raw.take whole →
      SameEntries fmt p w w' := by
    intro w' f hf hd
    refine ⟨by rw [bytes_of_file hf, hd, kept_take hl raw whole hwle hwkept], fun hh => ?_⟩
    obtain ⟨f0, junk, hf0, hd0, hj⟩ := hh
    refine ⟨f, [], hf, ?_, hl.pos⟩
    have hr : raw = fmt.encodeAll (fmt.kept raw) ++ junk := by
      rw [← hd0, hraw, bytes_of_file hf0]
    have hlen : raw.length = (fmt.kept raw).length * fmt.size + junk.length := by
      conv_lhs => rw [hr]
      rw [length_append, length_encodeAll hl]
    have hw : whole = (fmt.encodeAll (fmt.kept raw)).length := by
      rw [length_encodeAll hl, hwhole, hlen, Nat.mul_add_mod_self_right, Nat.mod_eq_of_lt hj]
      omega
    rw [hd, append_nil, congrArg (List.take whole) hr, take_left' hw.symm]
  unfold openIndex
  rw [← hp]
  refine sat_then (sat_openFile (fun w1 hf1 h1 => ?_)
    (fun w1 hf => hstop w1 hf.widen (.congr (hf.same p))))
  set f1 := (w.file p).getD ⟨[], []⟩ with hf1'
  have hd1 : f1.data = raw := by
    rw [hraw, World.bytes, hf1']
    cases w.file p <;> rfl
  rw [bind_get]
  have hsize : w1.size p = raw.length := by rw [World.size, bytes_of_file h1, hd1]
  simp only [hsize]
  rw [← hwhole]
  refine sat_bind (R := fun _ w2 => Frame (· = p) w w2 ∧
    ∃ f, w2.file p = some f ∧ f.data = raw.take whole) ?_ ?_
  · refine sat_when (fun _ => sat_truncateFile
        (fun w2 hu => ⟨hf1.trans hu.frame, File.truncate whole f1, ?_, ?_⟩)
      (fun w2 hf => (hstop w2 (hf1.trans hf.widen) ?_).later hf1)) (fun hn => ⟨hf1, f1, h1, ?_⟩)
    · rw [hu.file, h1, Option.map_some]
    · rw [truncate_data (by rw [hd1]; exact hwle), hd1]
    · exact hsame w2 f1 (by rw [hf.same p, h1]) hd1
    · rw [not_not, hsize, ← hwhole] at hn
      rw [hd1, hn, take_length]
  rintro _ w2 ⟨hf2, f2, h2, hd2⟩
  rw [bind_get]
  have hall : fmt.slots (whole / fmt.size) (w2.readAt p whole 0) =
      fmt.slots (raw.length / fmt.size) raw := by
    rw [World.readAt, bytes_of_file h2, hd2, slice_zero, take_take, Nat.min_self, hwdiv]
    have h3 := slots_append hl (raw.length / fmt.size) (raw.take whole) (raw.drop whole) (by
      rw [length_take, Nat.min_eq_left hwle, ← hwdiv]
      exact Nat.div_mul_le_self _ _)
    rw [take_append_drop] at h3
    exact h3.symm
  simp only [hall]
  rw [show fmt.growing (-1) (fmt.slots (raw.length / fmt.size) raw) = fmt.kept raw from rfl]
  refine sat_bind (R := fun _ w3 => Frame (· = p) w w3 ∧
    ∃ u, w3.file p = some ⟨fmt.encodeAll (fmt.kept raw), u⟩) ?_ ?_
  · refine sat_when (fun _ => sat_truncateFile (fun w3 hu => ⟨hf2.trans hu.frame, ?_⟩)
      (fun w3 hf => (hstop w3 (hf2.trans hf.widen) ?_).later hf2))
        (fun hn => ⟨hf2, f2.unsynced, ?_⟩)
    · refine ⟨(File.truncate ((fmt.kept raw).length * fmt.size) f2).unsynced, ?_⟩
      rw [hu.file, h2, Option.map_some, encodeAll_kept hl]
      have h4 := truncate_data (n := (fmt.kept raw).length * fmt.size)
        (by rw [hd2, length_take]; omega)
      rw [hd2, take_take, Nat.min_eq_left hwkept] at h4
      rw [← h4]
    · exact hcut w3 f2 (by rw [hf.same p, h2]) hd2
    · have h4 : (fmt.kept raw).length = raw.length / fmt.size :=
        le_antisymm (length_kept_le raw) (by
          rw [hsize, hall, length_slots] at hn
          exact Nat.le_of_not_lt hn)
      rw [h2, encodeAll_kept hl, h4, ← hslots, ← hd2]
  rintro _ w3 ⟨hf3, u, h3⟩
  exact hok w3 u hf3 h3

/-- **Appending an entry** writes its bytes behind the others, or a front part of them. -/
theorem sat_pushEntry_write (hok : ∀ w', Updated (fmt.path ix.baseOffset)
        (File.write (ix.entries.length * fmt.size) (fmt.encode e)) w w' →
      Q () (⟨ix.baseOffset, ix.entries ++ [e]⟩, w'))
    (hpart : ∀ k w', k < (fmt.encode e).length → Updated (fmt.path ix.baseOffset)
        (File.write (ix.entries.length * fmt.size) ((fmt.encode e).take k)) w w' →
      Stops E H w (ix, w')) : Sat Q E H (fmt.pushEntry e (ix, w)) := by
  have hne : fmt.encode e ≠ [] := by
    intro h0
    have h1 := hl.length e
    have h2 := hl.pos
    rw [h0, length_nil] at h1
    omega
  unfold pushEntry
  rw [bind_get]
  exact sat_then (sat_onSnd (sat_writeAllAt hne (fun w' hu => hok w' hu) hpart))

/-- The entry is written whole, or the file still holds the old ones. -/
theorem sat_pushEntry (h : HoldsEntries fmt ix.entries (fmt.path ix.baseOffset) w)
    (hok : ∀ w', Frame (· = fmt.path ix.baseOffset) w w' →
      HoldsEntries fmt (ix.entries ++ [e]) (fmt.path ix.baseOffset) w' →
      Q () (⟨ix.baseOffset, ix.entries ++ [e]⟩, w'))
    (hpart : ∀ w', Frame (· = fmt.path ix.baseOffset) w w' →
      HoldsEntries fmt ix.entries (fmt.path ix.baseOffset) w' → Stops E H w (ix, w')) :
    Sat Q E H (fmt.pushEntry e (ix, w)) := by
  obtain ⟨f, junk, hf, hd, hj⟩ := h
  have hsize := hl.length e
  have hpos := hl.pos
  have hlen : ix.entries.length * fmt.size = (fmt.encodeAll ix.entries).length :=
    (length_encodeAll hl ix.entries).symm
  refine sat_pushEntry_write hl (fun w' hu => hok w' hu.frame ?_)
    (fun k w' hk hu => hpart w' hu.frame ?_) <;> rw [hlen] at hu
  · refine ⟨_, [], by rw [hu.file, hf, Option.map_some], ?_, hpos⟩
    have hjd : junk.drop (fmt.encode e).length = [] := drop_eq_nil_of_le (by omega)
    rw [File.write, if_neg (ne_nil_of_length_pos (by omega))]
    simp only [hd, splice_append, hjd]
    simp [encodeAll]
  · -- what a write of the first `k` bytes of the entry leaves
    by_cases h0 : (fmt.encode e).take k = []
    · refine ⟨f, junk, ?_, hd, hj⟩
      rw [hu.file, hf, Option.map_some, File.write, if_pos h0]
    · refine ⟨_, (fmt.encode e).take k ++ junk.drop ((fmt.encode e).take k).length,
        by rw [hu.file, hf, Option.map_some], ?_, ?_⟩
      · rw [File.write, if_neg h0]
        simp only [hd, splice_append, append_assoc]
      · simp only [length_append, length_take, length_drop]
        omega

end

/-- How many entries `TruncateFrom` keeps. -/
def keepCount (fmt : IndexFormat α) (ix : Index α) (offset : Nat) : Nat :=
  lowerBound (fun e => decide ((fmt.relative e : Int) < (offset : Int) - ix.baseOffset)) ix.entries

theorem keepCount_le (ix : Index α) (offset : Nat) :
    fmt.keepCount ix offset ≤ ix.entries.length := lowerBound_le _ _

/-- **Truncating** cuts the file behind the entries that are kept, if there are more. -/
theorem sat_truncateFrom_file (hok : ∀ w', w' = w ∧ fmt.keepCount ix offset = ix.entries.length ∨
        Updated (fmt.path ix.baseOffset) (File.truncate (fmt.keepCount ix offset * fmt.size)) w w' →
      Q () (⟨ix.baseOffset, ix.entries.take (fmt.keepCount ix offset)⟩, w'))
    (hstop : ∀ ix' w', Steady w w' → Stops E H w (ix', w')) :
    Sat Q E H (fmt.truncateFrom offset (ix, w)) := by
  unfold truncateFrom
  rw [bind_get]
  simp only [show lowerBound (fun e => decide ((fmt.relative e : Int) < offset -
    ix.baseOffset)) ix.entries = fmt.keepCount ix offset from rfl]
  split
  · rename_i hk
    have hall := hok w (.inl ⟨rfl, hk⟩)
    rw [hk, take_length] at hall
    exact hall
  · exact sat_onSnd (sat_truncateFile (fun w' hu => hok w' (.inr hu)) (hstop _))

/-- The file stays as it is, or holds exactly the entries that are kept. -/
theorem sat_truncateFrom_cut (hl : fmt.Lawful Valid)
    (h : HoldsEntries fmt ix.entries (fmt.path ix.baseOffset) w)
    (hok : ∀ w', Frame (· = fmt.path ix.baseOffset) w w' →
      (w'.file (fmt.path ix.baseOffset) = w.file (fmt.path ix.baseOffset) ∧
          ix.entries.take (fmt.keepCount ix offset) = ix.entries ∨
        ∃ u, w'.file (fmt.path ix.baseOffset) =
          some ⟨fmt.encodeAll (ix.entries.take (fmt.keepCount ix offset)), u⟩) →
      Q () (⟨ix.baseOffset, ix.entries.take (fmt.keepCount ix offset)⟩, w'))
    (hstop : ∀ ix' w', Steady w w' → Stops E H w (ix', w')) :
    Sat Q E H (fmt.truncateFrom offset (ix, w)) := by
  refine sat_truncateFrom_file (fun w' hcut => ?_) hstop
  rcases hcut with ⟨rfl, hk⟩ | hu
  · exact hok w' (Frame.refl _ _) (.inl ⟨rfl, by rw [hk, take_length]⟩)
  refine hok w' hu.frame (.inr ?_)
  obtain ⟨f, junk, hf, hd, hj⟩ := h
  have hkle : fmt.keepCount ix offset ≤ ix.entries.length := keepCount_le ix offset
  have hsz : fmt.keepCount ix offset * fmt.size ≤ ix.entries.length * fmt.size :=
    Nat.mul_le_mul_right _ hkle
  have hlen := length_encodeAll hl ix.entries
  have hcut : (File.truncate (fmt.keepCount ix offset * fmt.size) f).data =
      fmt.encodeAll (ix.entries.take (fmt.keepCount ix offset)) := by
    have hsplit : fmt.encodeAll _ = _ := encodeAll_append
      (ix.entries.take (fmt.keepCount ix offset)) (ix.entries.drop (fmt.keepCount ix offset))
    have hlen' := length_encodeAll hl (ix.entries.take (fmt.keepCount ix offset))
    rw [take_append_drop] at hsplit
    rw [length_take, Nat.min_eq_left hkle] at hlen'
    rw [truncate_data (by rw [hd, length_append]; omega), hd,
      take_append_of_le_length (by omega), hsplit, ← hlen', take_left]
  rw [hu.file, hf, ← hcut]
  exact ⟨_, rfl⟩

theorem sat_truncateFrom (hl : fmt.Lawful Valid)
    (h : HoldsEntries fmt ix.entries (fmt.path ix.baseOffset) w)
    (hok : ∀ w', Frame (· = fmt.path ix.baseOffset) w w' →
      HoldsEntries fmt (ix.entries.take (fmt.keepCount ix offset)) (fmt.path ix.baseOffset) w' →
      Q () (⟨ix.baseOffset, ix.entries.take (fmt.keepCount ix offset)⟩, w'))
    (hstop : ∀ ix' w', Steady w w' → Stops E H w (ix', w')) :
    Sat Q E H (fmt.truncateFrom offset (ix, w)) := by
  refine sat_truncateFrom_cut hl h (fun w' hf hcut => hok w' hf ?_) hstop
  rcases hcut with ⟨hsame, hall⟩ | ⟨u, hu⟩
  · rw [hall]
    exact h.congr hsame
  · exact ⟨_, [], hu, by simp, hl.pos⟩

theorem sat_syncIndex (hok : ∀ w', Updated (fmt.path ix.baseOffset) File.sync w w' → Q () (ix, w'))
    (hstop : ∀ w', Steady w w' → Stops E H w (ix, w')) : Sat Q E H (fmt.sync (ix, w)) := by
  exact sat_onSnd (sat_syncFile (fun w' hu => hok w' hu) hstop)

theorem HoldsEntries.sync {q : Path} (h : HoldsEntries fmt es p w) (hu : Updated q File.sync w w') :
    HoldsEntries fmt es p w' := by
  obtain ⟨f, junk, hf, hd, hj⟩ := h
  by_cases hpq : p = q
  · subst hpq
    exact ⟨File.sync f, junk, by rw [hu.file, hf, Option.map_some], hd, hj⟩
  · exact ⟨f, junk, by rw [hu.frame.others p hpq, hf], hd, hj⟩

end Methods

end IndexFormat

end PulseLog

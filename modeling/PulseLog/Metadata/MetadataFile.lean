/-
  Subject:   The metadata file (`ClusterMetadata::SaveTo`, `ClusterMetadata::LoadFrom` of
             src/metadata/cluster_metadata.cc).

  One line per topic and one per partition, the fields separated by tabs. Texts are byte strings,
  and the numbers have the widths of the source; a compression is its byte, since the file may hold
  any. What `SaveTo` puts in place of the old file is the rendered text; a file that cannot be
  opened is `none`.

  * `saved_metadata_loaded` -- loading what was saved restores every topic, and a load that fails
    leaves the topics as they were.
-/
import PulseLog.Base.Status
import PulseLog.General.Decimal
import PulseLog.General.SortedMap
import Mathlib.Data.List.Sort

namespace PulseLog

open List

namespace MetadataFile

/-! ## 1. Topics -/

/-- `TopicConfig`. -/
structure TopicConfig where
  name : Bytes
  partitionCount : Int32
  replicationFactor : Int16
  retentionMs : Int64
  segmentBytes : Int64
  compression : UInt8
  deriving Repr, DecidableEq

/-- `PartitionAssignment`. -/
structure PartitionAssignment where
  index : Int32
  leader : Int32
  leaderEpoch : Int64
  replicas : List Int32
  inSyncReplicas : List Int32
  deriving Repr, DecidableEq

/-- `TopicDescriptor`. -/
structure TopicDescriptor where
  config : TopicConfig
  partitions : List PartitionAssignment
  deriving Repr, DecidableEq

def TopicDescriptor.name (d : TopicDescriptor) : Bytes := d.config.name

/-- `topics_`: the topics in the order of their names. -/
structure Topics where
  list : List TopicDescriptor
  sorted : Sorted TopicDescriptor.name list

namespace Topics

def empty : Topics := ⟨[], List.Pairwise.nil⟩

/-- `topics[name] = descriptor`. -/
def put (t : Topics) (d : TopicDescriptor) : Topics :=
  ⟨putSorted TopicDescriptor.name t.list d, t.sorted.putSorted d⟩

def has (t : Topics) (name : Bytes) : Bool := t.list.any fun d => d.name = name

/-- A change of the topics that keeps their names. -/
def map (t : Topics) (f : TopicDescriptor → TopicDescriptor) (hf : ∀ d, (f d).name = d.name) :
    Topics :=
  ⟨t.list.map f, by
    have h := t.sorted
    unfold Sorted at h ⊢
    rw [pairwise_map]
    simpa only [hf] using h⟩

/-- One more partition at the topic of that name. -/
def addPartition (t : Topics) (name : Bytes) (p : PartitionAssignment) : Topics :=
  t.map (fun d => if d.name = name then { d with partitions := d.partitions ++ [p] } else d) (by
    intro d
    split <;> rfl)

theorem list_addPartition (t : Topics) (name : Bytes) (p : PartitionAssignment) :
    (t.addPartition name p).list = t.list.map
      fun d => if d.name = name then { d with partitions := d.partitions ++ [p] } else d := rfl

theorem ext {t t' : Topics} (h : t.list = t'.list) : t = t' := by
  cases t
  cases h
  rfl

end Topics

/-- `kMaxTopicNameLength` and `IsValidTopicName`, on the bytes of the name. -/
def isValidTopicName (name : Bytes) : Bool :=
  name ≠ [] && name.length ≤ 200 && name ≠ [46] && name ≠ [46, 46] &&
    name.all fun c => (97 ≤ c && c ≤ 122) || (65 ≤ c && c ≤ 90) || (48 ≤ c && c ≤ 57) || c = 46 ||
      c = 95 || c = 45

/-! ## 2. Saving -/

/-- The bytes of a text. -/
def text (s : String) : Bytes := s.toList.map fun c => UInt8.ofNat c.toNat

def tab : UInt8 := 9

def newline : UInt8 := 10

def comma : UInt8 := 44

/-- `kFileHeader`. -/
def fileHeader : Bytes := text "pulselog-metadata v1"

def topicFields (c : TopicConfig) : List Bytes :=
  [text "topic", c.name, printInt c.partitionCount.toInt, printInt c.replicationFactor.toInt,
    printInt c.retentionMs.toInt, printInt c.segmentBytes.toInt, printInt c.compression.toNat]

def partitionFields (name : Bytes) (p : PartitionAssignment) : List Bytes :=
  [text "partition", name, printInt p.index.toInt, printInt p.leader.toInt,
    printInt p.leaderEpoch.toInt, [comma].intercalate (p.replicas.map fun r => printInt r.toInt)]

/-- The fields of a line, separated by tabs. -/
def line (fields : List Bytes) : Bytes := [tab].intercalate fields

/-- The lines of a topic. -/
def topicLines (d : TopicDescriptor) : List Bytes :=
  line (topicFields d.config) :: d.partitions.map fun p => line (partitionFields d.config.name p)

/-- `SaveTo`. -/
def saveTo (t : Topics) : Bytes :=
  (fileHeader :: t.list.flatMap topicLines).flatMap fun l => l ++ [newline]

/-! ## 3. Loading -/

/-- A byte string inside a message. -/
def shown (b : Bytes) : String := String.ofList (b.map fun c => Char.ofNat c.toNat)

/-- What `std::getline` finds: a newline at the end of the file begins no line. -/
def getLines (content : Bytes) : List Bytes :=
  let parts := content.splitOn newline
  if parts.getLast? = some [] then parts.dropLast else parts

/-- `ParseNumber` for the types of the fields. -/
def parseI32 (s : Bytes) : Option Int32 := (parseInt (-2 ^ 31) (2 ^ 31 - 1) s).map Int32.ofInt

def parseI16 (s : Bytes) : Option Int16 := (parseInt (-2 ^ 15) (2 ^ 15 - 1) s).map Int16.ofInt

def parseI64 (s : Bytes) : Option Int64 := (parseInt (-2 ^ 63) (2 ^ 63 - 1) s).map Int64.ofInt

/-- The compression is parsed as an `int` and cut to a byte. -/
def parseCompression (s : Bytes) : Option UInt8 :=
  (parseInt (-2 ^ 31) (2 ^ 31 - 1) s).map fun v => UInt8.ofNat (v % 256).toNat

def parseConfig (name count factor retention segment compression : Bytes) : Option TopicConfig := do
  pure ⟨name, ← parseI32 count, ← parseI16 factor, ← parseI64 retention, ← parseI64 segment,
    ← parseCompression compression⟩

/-- Replica ids that are empty or no number are dropped. -/
def parseReplicas (s : Bytes) : List Int32 :=
  (s.splitOn comma).filterMap fun id => if id = [] then none else parseI32 id

def parsePartition (index leader epoch replicas : Bytes) : Option PartitionAssignment := do
  pure ⟨← parseI32 index, ← parseI32 leader, ← parseI64 epoch, parseReplicas replicas,
    parseReplicas replicas⟩

/-- An error in a line of the file. -/
def lineError (path : String) (lineNumber : Nat) (what : String) : Status :=
  .corruption (path ++ ":" ++ toString lineNumber ++ ": " ++ what)

/-- One round of the loop in `LoadFrom`. -/
def parseLine (path : String) (lineNumber : Nat) (loaded : Topics) (l : Bytes) :
    Except Status Topics :=
  if l = [] then .ok loaded
  else
    let fields := l.splitOn tab
    if fields.head? = some (text "topic") then
      match fields with
      | _ :: name :: count :: factor :: retention :: segment :: compression :: _ =>
        match parseConfig name count factor retention segment compression with
        | none => .error (lineError path lineNumber "unparseable topic fields")
        | some config => .ok (loaded.put ⟨config, []⟩)
      | _ => .error (lineError path lineNumber "malformed topic line")
    else if fields.head? = some (text "partition") then
      match fields with
      | _ :: name :: index :: leader :: epoch :: replicas :: _ =>
        if loaded.has name then
          match parsePartition index leader epoch replicas with
          | none => .error (lineError path lineNumber "unparseable partition fields")
          | some p => .ok (loaded.addPartition name p)
        else
          .error (lineError path lineNumber s!"partition for unknown topic '{shown name}'")
      | _ => .error (lineError path lineNumber "malformed partition line")
    -- other lines are left to a newer broker
    else .ok loaded

def parseLines (path : String) : Nat → Topics → List Bytes → Except Status Topics
  | _, loaded, [] => .ok loaded
  | lineNumber, loaded, l :: ls =>
    match parseLine path lineNumber loaded l with
    | .error e => .error e
    | .ok loaded => parseLines path (lineNumber + 1) loaded ls

/-- The first place at which the partition with the index of the place is missing. -/
def firstGap : Nat → List PartitionAssignment → Option Nat
  | _, [] => none
  | i, p :: ps => if p.index ≠ Int32.ofNat i then some i else firstGap (i + 1) ps

/-- The partitions in the order of their indexes. -/
def sortPartitions (ps : List PartitionAssignment) : List PartitionAssignment :=
  ps.insertionSort fun p q => p.index ≤ q.index

/-- The gap that the check of a topic finds. -/
def gapError (d : TopicDescriptor) : Option Status :=
  (firstGap 0 (sortPartitions d.partitions)).map fun i =>
    .corruption s!"topic '{shown d.name}' has a gap at partition index {i}"

def checkPartitions (loaded : Topics) : Except Status Topics :=
  match loaded.list.findSome? gapError with
  | some e => .error e
  | none =>
    .ok (loaded.map (fun d => { d with partitions := sortPartitions d.partitions }) fun _ => rfl)

/-- What `LoadFrom` makes of a file, before it takes it over. -/
def parseFile (path : String) (content : Option Bytes) : Except Status Topics :=
  match content with
  | none => .error ⟨.notFound, "metadata file not found: " ++ path⟩
  | some content =>
    match getLines content with
    | [] => .error (.corruption "metadata file has an unrecognised header: ''")
    | header :: lines =>
      if header ≠ fileHeader then
        .error (.corruption s!"metadata file has an unrecognised header: '{shown header}'")
      else
        match parseLines path 2 .empty lines with
        | .error e => .error e
        | .ok loaded => checkPartitions loaded

/-- `LoadFrom`: the status and the topics held in memory. -/
def loadFrom (current : Topics) (path : String) (content : Option Bytes) : Option Status × Topics :=
  match parseFile path content with
  | .error e => (some e, current)
  | .ok loaded => (none, loaded)

/-! ## 4. Lines and fields are cut where they were joined -/

theorem mem_intercalate {x c : UInt8} {ls : List Bytes} (h : c ∈ [x].intercalate ls) :
    c = x ∨ ∃ l ∈ ls, c ∈ l := by
  induction ls with
  | nil => simp [List.intercalate] at h
  | cons l ls ih =>
    cases ls with
    | nil =>
      simp [List.intercalate] at h
      exact .inr ⟨l, mem_cons_self, h⟩
    | cons l' ls =>
      rcases mem_append.mp h with h | h
      · exact .inr ⟨l, mem_cons_self, h⟩
      rcases mem_append.mp h with h | h
      · exact .inl (mem_singleton.mp h)
      · exact (ih h).imp_right fun ⟨k, hk, hc⟩ => ⟨k, mem_cons_of_mem l hk, hc⟩

/-- Lines, each with its newline, are found again. -/
theorem getLines_lines {ls : List Bytes} (h : ∀ l ∈ ls, newline ∉ l) :
    getLines (ls.flatMap fun l => l ++ [newline]) = ls := by
  have hjoin : ∀ ls : List Bytes,
      (ls.flatMap fun l => l ++ [newline]) = [newline].intercalate (ls ++ [[]]) := by
    intro ls
    induction ls with
    | nil => simp [List.intercalate]
    | cons l ls ih =>
      rw [flatMap_cons, ih]
      cases ls <;> simp [List.intercalate]
  have hsplit : (ls.flatMap fun l => l ++ [newline]).splitOn newline = ls ++ [[]] := by
    rw [hjoin]
    refine splitOn_intercalate newline (fun l hl => ?_) (by simp)
    rcases mem_append.mp hl with hl | hl
    · exact h l hl
    · rw [mem_singleton.mp hl]
      exact not_mem_nil
  unfold getLines
  rw [hsplit]
  simp

/-- Bytes that separate nothing. -/
def Plain (b : Bytes) : Prop := tab ∉ b ∧ newline ∉ b

theorem not_mem_printInt {c : UInt8} (hsign : c ≠ minusSign) (hdigit : isDigit c = false)
    (v : Int) : c ∉ printInt v := by
  intro h
  rcases mem_printInt h with h | h
  · exact hsign h
  · rw [hdigit] at h
    simp at h

theorem plain_printInt (v : Int) : Plain (printInt v) :=
  ⟨not_mem_printInt (by decide) (by decide) v, not_mem_printInt (by decide) (by decide) v⟩

theorem plain_text_topic : Plain (text "topic") := by
  constructor <;> decide +kernel

theorem plain_text_partition : Plain (text "partition") := by
  constructor <;> decide +kernel

variable {name : Bytes} {fields : List Bytes} {c : TopicConfig} {d : TopicDescriptor}
  {ps : List PartitionAssignment}

/-- A valid name has no separators in it. -/
theorem plain_of_valid (h : isValidTopicName name = true) : Plain name := by
  unfold isValidTopicName at h
  rw [Bool.and_eq_true] at h
  have hall := all_eq_true.mp h.2
  constructor
  · intro hmem
    exact absurd (hall tab hmem) (by decide)
  · intro hmem
    exact absurd (hall newline hmem) (by decide)

theorem plain_replicas (rs : List Int32) :
    Plain ([comma].intercalate (rs.map fun r => printInt r.toInt)) := by
  have hnot : ∀ c : UInt8, c ≠ comma → (∀ v, c ∉ printInt v) →
      c ∉ [comma].intercalate (rs.map fun r => printInt r.toInt) := by
    intro c hc hprint hmem
    rcases mem_intercalate hmem with h | ⟨l, hl, h⟩
    · exact hc h
    · obtain ⟨r, -, rfl⟩ := mem_map.mp hl
      exact hprint _ h
  exact ⟨hnot tab (by decide) fun v => (plain_printInt v).1,
    hnot newline (by decide) fun v => (plain_printInt v).2⟩

/-- The fields of a line are found again. -/
theorem splitOn_line (h : ∀ f ∈ fields, Plain f) (hne : fields ≠ []) :
    (line fields).splitOn tab = fields :=
  splitOn_intercalate tab (fun f hf => (h f hf).1) hne

theorem newline_not_mem_line (h : ∀ f ∈ fields, Plain f) : newline ∉ line fields := by
  intro hmem
  rcases mem_intercalate hmem with hc | ⟨f, hf, hc⟩
  · exact absurd hc (by decide)
  · exact (h f hf).2 hc

/-! ## 5. Numbers -/

theorem parseI32_print (v : Int32) : parseI32 (printInt v.toInt) = some v := by
  unfold parseI32
  rw [parseInt_print v.le_toInt (by have := v.toInt_lt; omega), Option.map_some, Int32.ofInt_toInt]

theorem parseI16_print (v : Int16) : parseI16 (printInt v.toInt) = some v := by
  unfold parseI16
  rw [parseInt_print v.le_toInt (by have := v.toInt_lt; omega), Option.map_some, Int16.ofInt_toInt]

theorem parseI64_print (v : Int64) : parseI64 (printInt v.toInt) = some v := by
  unfold parseI64
  rw [parseInt_print v.le_toInt (by have := v.toInt_lt; omega), Option.map_some, Int64.ofInt_toInt]

theorem parseCompression_print (v : UInt8) : parseCompression (printInt v.toNat) = some v := by
  have hv := v.toNat_lt
  have hcut : ((v.toNat : Int) % 256).toNat = v.toNat := by omega
  unfold parseCompression
  rw [parseInt_print (by omega) (by omega), Option.map_some, hcut, UInt8.ofNat_toNat]

theorem parseReplicas_print (rs : List Int32) :
    parseReplicas ([comma].intercalate (rs.map fun r => printInt r.toInt)) = rs := by
  unfold parseReplicas
  cases rs with
  | nil => simp [List.intercalate]
  | cons r rs =>
    have hcomma : ∀ l ∈ (r :: rs).map fun r => printInt r.toInt, comma ∉ l := by
      intro l hl
      obtain ⟨s, -, rfl⟩ := mem_map.mp hl
      exact not_mem_printInt (by decide) (by decide) _
    rw [splitOn_intercalate comma hcomma (by simp), filterMap_map]
    have hid : ((fun id => if id = [] then none else parseI32 id) ∘ fun r : Int32 =>
        printInt r.toInt) = some := by
      funext s
      simp only [Function.comp_apply, if_neg (printInt_ne_nil _), parseI32_print]
    rw [hid, filterMap_some]

/-! ## 6. The lines of a topic -/

/-- The in-sync set is not saved: it starts again as the replica list. -/
def PartitionAssignment.reset (p : PartitionAssignment) : PartitionAssignment :=
  { p with inSyncReplicas := p.replicas }

def TopicDescriptor.reset (d : TopicDescriptor) : TopicDescriptor :=
  { d with partitions := d.partitions.map PartitionAssignment.reset }

variable {path : String} {n : Nat} {loaded : Topics}

theorem topicFields_plain (h : Plain c.name) : ∀ f ∈ topicFields c, Plain f := by
  unfold topicFields
  simp only [forall_mem_cons, not_mem_nil, false_implies, implies_true, and_true]
  exact ⟨plain_text_topic, h, plain_printInt _, plain_printInt _, plain_printInt _,
    plain_printInt _, plain_printInt _⟩

theorem partitionFields_plain (h : Plain name) (p : PartitionAssignment) :
    ∀ f ∈ partitionFields name p, Plain f := by
  unfold partitionFields
  simp only [forall_mem_cons, not_mem_nil, false_implies, implies_true, and_true]
  exact ⟨plain_text_partition, h, plain_printInt _, plain_printInt _, plain_printInt _,
    plain_replicas _⟩

theorem line_ne_nil {f g : Bytes} {fs : List Bytes} : line (f :: g :: fs) ≠ [] := by
  simp [line]

theorem parseLine_topic (h : Plain c.name) :
    parseLine path n loaded (line (topicFields c)) = .ok (loaded.put ⟨c, []⟩) := by
  have hsplit := splitOn_line (topicFields_plain h) (by simp [topicFields])
  have hconfig : parseConfig c.name (printInt c.partitionCount.toInt)
      (printInt c.replicationFactor.toInt) (printInt c.retentionMs.toInt)
      (printInt c.segmentBytes.toInt) (printInt c.compression.toNat) = some c := by
    unfold parseConfig
    simp only [parseI32_print, parseI16_print, parseI64_print, parseCompression_print]
    rfl
  unfold parseLine
  rw [if_neg (by exact line_ne_nil)]
  simp only [hsplit]
  rw [topicFields, head?_cons, if_pos rfl]
  simp only [hconfig]

theorem parseLine_partition (h : Plain name) (p : PartitionAssignment)
    (hhas : loaded.has name = true) :
    parseLine path n loaded (line (partitionFields name p)) =
      .ok (loaded.addPartition name p.reset) := by
  have hsplit := splitOn_line (partitionFields_plain h p) (by simp [partitionFields])
  have hpartition : parsePartition (printInt p.index.toInt) (printInt p.leader.toInt)
      (printInt p.leaderEpoch.toInt)
      ([comma].intercalate (p.replicas.map fun r => printInt r.toInt)) = some p.reset := by
    unfold parsePartition
    simp only [parseI32_print, parseI64_print, parseReplicas_print]
    rfl
  unfold parseLine
  rw [if_neg (by exact line_ne_nil)]
  simp only [hsplit]
  rw [partitionFields, head?_cons, if_neg (by decide +kernel)]
  simp only [hhas, hpartition, if_true]

theorem parseLines_append (ls ms : List Bytes) {loaded' : Topics}
    (h : parseLines path n loaded ls = .ok loaded') :
    parseLines path n loaded (ls ++ ms) = parseLines path (n + ls.length) loaded' ms := by
  induction ls generalizing n loaded with
  | nil =>
    rw [← Except.ok.inj h]
    rfl
  | cons l ls ih =>
    rw [parseLines] at h
    rw [cons_append, parseLines]
    cases hl : parseLine path n loaded l with
    | error e => simp [hl] at h
    | ok loaded1 =>
      simp only [hl] at h ⊢
      rw [ih h, length_cons, Nat.add_right_comm, Nat.add_assoc]

variable (path n) in
theorem parseLines_partitions {before : List TopicDescriptor}
    (hname : Plain d.name) (ps : List PartitionAssignment) (hloaded : loaded.list = before ++ [d]) :
    ∃ loaded', parseLines path n loaded (ps.map fun p => line (partitionFields d.name p)) =
      .ok loaded' ∧
      loaded'.list = before ++
        [{ d with partitions := d.partitions ++ ps.map PartitionAssignment.reset }] := by
  induction ps generalizing n loaded d with
  | nil =>
    refine ⟨loaded, rfl, ?_⟩
    rw [hloaded, map_nil, append_nil]
  | cons p ps ih =>
    have hhas : loaded.has d.name = true := by
      unfold Topics.has
      rw [hloaded]
      simp
    -- the names before are smaller, so only the last topic gets the partition
    have hothers : ∀ b ∈ before, b.name ≠ d.name := by
      intro b hb he
      have hsorted := loaded.sorted
      rw [hloaded] at hsorted
      have hlt := (pairwise_append.mp hsorted).2.2 b hb d (mem_singleton.mpr rfl)
      rw [he] at hlt
      exact List.lt_irrefl _ hlt
    have hadd : (loaded.addPartition d.name p.reset).list =
        before ++ [{ d with partitions := d.partitions ++ [p.reset] }] := by
      rw [Topics.list_addPartition, hloaded, map_append, map_congr_left fun b hb => if_neg
        (hothers b hb), map_id']
      simp
    obtain ⟨loaded', hparse, hlist⟩ := ih (n + 1)
      (d := { d with partitions := d.partitions ++ [p.reset] }) hname hadd
    refine ⟨loaded', ?_, ?_⟩
    · rw [map_cons, parseLines, parseLine_partition hname p hhas]
      exact hparse
    · rw [hlist]
      simp

variable (path n loaded) in
/-- **The lines of the topics put them back**, behind those that are there. -/
theorem parseLines_topics {ds : List TopicDescriptor} (hnames : ∀ d ∈ ds, Plain d.name)
    (hsorted : Sorted TopicDescriptor.name (loaded.list ++ ds)) :
    ∃ loaded', parseLines path n loaded (ds.flatMap topicLines) = .ok loaded' ∧
      loaded'.list = loaded.list ++ ds.map TopicDescriptor.reset := by
  induction ds generalizing n loaded with
  | nil => exact ⟨loaded, rfl, by rw [map_nil, append_nil]⟩
  | cons d ds ih =>
    have hname := hnames d mem_cons_self
    have hlast : (loaded.put ⟨d.config, []⟩).list = loaded.list ++ [⟨d.config, []⟩] :=
      putSorted_last fun b hb => (pairwise_append.mp hsorted).2.2 b hb d mem_cons_self
    obtain ⟨loaded1, hparse1, hlist1⟩ := parseLines_partitions path (n + 1)
      (d := ⟨d.config, []⟩) hname d.partitions hlast
    have hreset : loaded1.list = loaded.list ++ [d.reset] := hlist1
    have htopic : parseLines path n loaded (topicLines d) = .ok loaded1 := by
      rw [topicLines, parseLines, parseLine_topic hname]
      exact hparse1
    have hsorted1 : Sorted TopicDescriptor.name (loaded1.list ++ ds) := by
      rw [hreset, append_assoc]
      have hmap : (loaded.list ++ d :: ds).map TopicDescriptor.name =
          (loaded.list ++ ([d.reset] ++ ds)).map TopicDescriptor.name := by
        simp [TopicDescriptor.reset, TopicDescriptor.name]
      have h := hsorted
      unfold Sorted at h ⊢
      rw [← pairwise_map (R := (· < ·))] at h ⊢
      rw [← hmap]
      exact h
    obtain ⟨loaded2, hparse2, hlist2⟩ := ih (n + (topicLines d).length) loaded1
      (fun e he => hnames e (mem_cons_of_mem d he)) hsorted1
    refine ⟨loaded2, ?_, ?_⟩
    · rw [flatMap_cons, parseLines_append _ _ htopic]
      exact hparse2
    · rw [hlist2, hreset, map_cons, append_assoc, singleton_append]

/-! ## 7. Dense partitions -/

/-- The partition at place `i` has index `i`. -/
def Dense (ps : List PartitionAssignment) : Prop :=
  ∀ (i : Nat) (p : PartitionAssignment), ps[i]? = some p → p.index.toInt = i

theorem Dense.reset (h : Dense ps) : Dense (ps.map PartitionAssignment.reset) := by
  intro i p hp
  rw [getElem?_map] at hp
  obtain ⟨q, hq, rfl⟩ := Option.map_eq_some_iff.mp hp
  exact h i q hq

theorem Dense.sortPartitions_eq (h : Dense ps) : sortPartitions ps = ps := by
  refine List.Pairwise.insertionSort_eq (pairwise_iff_getElem.mpr fun i j hi hj hij => ?_)
  have h1 := h i ps[i] (getElem?_eq_getElem hi)
  have h2 := h j ps[j] (getElem?_eq_getElem hj)
  rw [Int32.le_iff_toInt_le]
  omega

theorem firstGap_none : ∀ (ps : List PartitionAssignment) (i : Nat),
    (∀ (k : Nat) (p : PartitionAssignment), ps[k]? = some p → p.index.toInt = (i + k : Nat)) →
    firstGap i ps = none := by
  intro ps
  induction ps with
  | nil => exact fun _ _ => rfl
  | cons p ps ih =>
    intro i h
    have hp : p.index = Int32.ofNat i := by
      have h0 := h 0 p rfl
      rw [← Int32.ofInt_toInt p.index, h0]
      exact Int32.ofInt_eq_ofNat
    rw [firstGap, if_neg (fun hne => hne hp)]
    refine ih (i + 1) fun k q hq => ?_
    rw [h (k + 1) q hq]
    omega

theorem Dense.gapError_none (h : Dense d.partitions) : gapError d = none := by
  unfold gapError
  rw [h.sortPartitions_eq,
    firstGap_none d.partitions 0 fun k p hp => by rw [h k p hp, Nat.zero_add]]
  rfl

theorem checkPartitions_dense (h : ∀ d ∈ loaded.list, Dense d.partitions) :
    checkPartitions loaded = .ok loaded := by
  have hgap : loaded.list.findSome? gapError = none :=
    findSome?_eq_none_iff.mpr fun d hd => (h d hd).gapError_none
  unfold checkPartitions
  rw [hgap]
  refine congrArg Except.ok (Topics.ext ?_)
  conv_rhs => rw [← map_id loaded.list]
  refine map_congr_left fun d hd => ?_
  rw [(h d hd).sortPartitions_eq]
  rfl

/-! ## 8. Saving and loading -/

/-- The topics as they come back: every in-sync set is its replica list. -/
def Topics.reset (t : Topics) : Topics := t.map TopicDescriptor.reset fun _ => rfl

theorem newline_not_mem_topicLines (h : Plain d.name) : ∀ l ∈ topicLines d, newline ∉ l := by
  intro l hl
  rcases mem_cons.mp hl with rfl | hl
  · exact newline_not_mem_line (topicFields_plain h)
  · obtain ⟨p, -, rfl⟩ := mem_map.mp hl
    exact newline_not_mem_line (partitionFields_plain h p)

theorem parseFile_saveTo {t : Topics} (hnames : ∀ d ∈ t.list, Plain d.name)
    (hdense : ∀ d ∈ t.list, Dense d.partitions) : parseFile path (some (saveTo t)) =
      .ok t.reset := by
  have hlines : getLines (saveTo t) = fileHeader :: t.list.flatMap topicLines := by
    refine getLines_lines fun l hl => ?_
    rcases mem_cons.mp hl with rfl | hl
    · decide +kernel
    · obtain ⟨d, hd, hl⟩ := mem_flatMap.mp hl
      exact newline_not_mem_topicLines (hnames d hd) l hl
  obtain ⟨loaded, hparse, hlist⟩ := parseLines_topics path 2 .empty hnames t.sorted
  have hsame : loaded = t.reset := Topics.ext hlist
  have hcheck : checkPartitions t.reset = .ok t.reset := by
    refine checkPartitions_dense fun d hd => ?_
    obtain ⟨e, he, rfl⟩ := mem_map.mp hd
    exact (hdense e he).reset
  unfold parseFile
  simp only [hlines, hparse, hsame, hcheck, ne_eq, not_true_eq_false, if_false]

/-- **What is saved is loaded**: every topic comes back with its configuration and the indexes,
    leaders, epochs and replicas of its partitions, and the in-sync sets as the replica lists; and
    **a load that fails changes nothing**. -/
theorem saved_metadata_loaded :
    (∀ (t current : Topics) (path : String), (∀ d ∈ t.list, isValidTopicName d.name = true) →
      (∀ d ∈ t.list, Dense d.partitions) →
        loadFrom current path (some (saveTo t)) = (none, t.reset)) ∧
    ∀ (current after : Topics) (path : String) (content : Option Bytes) (e : Status),
      loadFrom current path content = (some e, after) → after = current := by
  constructor
  · intro t current path hnames hdense
    unfold loadFrom
    rw [parseFile_saveTo (fun d hd => plain_of_valid (hnames d hd)) hdense]
  · intro current after path content e h
    unfold loadFrom at h
    split at h
    · exact (Prod.mk.inj h).2.symm
    · simp at h

/-- One topic whose partition is led by broker 1. -/
def oneTopic : Topics := .put .empty ⟨⟨[97], 1, 2, -1, -1, 0⟩, [⟨0, 1, 3, [1, 2], [1]⟩]⟩

theorem oneTopic_loaded :
    loadFrom .empty "m" (some (saveTo oneTopic)) = (none, oneTopic.reset) ∧
      ∃ e, (loadFrom oneTopic "m" (some [120])).1 = some e ∧
        (loadFrom oneTopic "m" (some [120])).2 = oneTopic := by
  obtain ⟨e, he⟩ : ∃ e, (loadFrom oneTopic "m" (some [120])).1 = some e :=
    Option.isSome_iff_exists.mp (by decide +kernel)
  refine ⟨saved_metadata_loaded.1 oneTopic .empty "m" (by decide +kernel) ?_, e, he,
    saved_metadata_loaded.2 oneTopic _ "m" (some [120]) e (Prod.ext he rfl)⟩
  intro d hd i p hp
  rw [mem_singleton.mp hd] at hp
  cases i with
  | zero => rw [← Option.some.inj hp]; rfl
  | succ i => simp at hp

end MetadataFile

end PulseLog

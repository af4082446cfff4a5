/-
  Subject:   Concurrent calls of `ClusterMetadata::SaveTo` on one path
             (src/metadata/cluster_metadata.cc, `Broker::PersistMetadata` of src/broker/broker.cc).

  A call holds the metadata's lock shared: the topics stay as they are until it returns, but other
  calls may run beside it. All of them open, fill and rename the same temporary file. A file is
  known by its number, which an open stream keeps when the name moves; a stream writes at its own
  position. No file operation fails here, except the rename of a name that is gone.

  * **`final_file_loads`** -- if calls do not overlap, the file is absent or loads as topics that
    existed;
    `renamed_truncated_file` -- a call that begins before another has renamed leaves it empty.
-/
import PulseLog.General.Run
import PulseLog.Metadata.MetadataFile

namespace PulseLog

open List

namespace MetadataFile

/-! ## 1. The calls -/

/-- A call of `SaveTo` behind its open: the stream's file and position, and what it has to write. -/
structure Saver where
  id : Nat
  file : Nat
  text : Bytes
  written : Nat
  closed : Bool

/-- The files by their numbers, the two names, the topics in memory with all that there were, and
    the calls under way. -/
structure SaveRun where
  files : List Bytes
  temp : Option Nat
  final : Option Nat
  topics : Topics
  seen : List Topics
  savers : List Saver

inductive SaveEvent where
  /-- the call takes the lock and opens the temporary file, which is cut to nothing -/
  | begin (id : Nat)
  | write (id n : Nat)
  | close (id : Nat)
  | rename (id : Nat)
  /-- a method of the metadata changes the topics -/
  | change (topics : Topics)
  /-- the process dies, and a new one loads the file -/
  | crash

/-- Topics as the methods of the metadata make them: names are checked, and partitions stand at
    their indexes. -/
def Topics.Proper (t : Topics) : Prop :=
  ∀ d ∈ t.list, isValidTopicName d.name = true ∧ Dense d.partitions

namespace SaveRun

def start : SaveRun := ⟨[], none, none, .empty, [.empty], []⟩

/-- The content of the file at the final path. -/
def content (s : SaveRun) : Option Bytes := s.final.bind fun n => s.files[n]?

def saver (s : SaveRun) (id : Nat) : Option Saver := s.savers.find? fun v => v.id = id

def setSaver (s : SaveRun) (v : Saver) : SaveRun :=
  { s with savers := s.savers.map fun u => if u.id = v.id then v else u }

/-- The topics of a new process. -/
def reloaded (s : SaveRun) : Topics := (loadFrom .empty "metadata.tsv" s.content).2

def step (s : SaveRun) : SaveEvent → SaveRun
  | .begin id =>
    if (s.saver id).isSome then s
    else
      match s.temp with
      | some n => { s with
          files := s.files.set n []
          savers := s.savers ++ [⟨id, n, saveTo s.topics, 0, false⟩] }
      | none => { s with
          files := s.files ++ [[]]
          temp := some s.files.length
          savers := s.savers ++ [⟨id, s.files.length, saveTo s.topics, 0, false⟩] }
  | .write id n =>
    match s.saver id with
    | none => s
    | some v =>
      let chunk := (v.text.drop v.written).take n
      if chunk = [] then s
      else
        { s with files := s.files.modify v.file fun data => splice data v.written chunk }.setSaver
          { v with written := v.written + chunk.length }
  | .close id =>
    match s.saver id with
    | none => s
    | some v => if v.written = v.text.length then s.setSaver { v with closed := true } else s
  | .rename id =>
    match s.saver id with
    | none => s
    | some v =>
      if v.closed then
        match s.temp with
        | none => { s with savers := s.savers.filter fun u => u.id ≠ id }
        | some n => { s with
            final := some n
            temp := none
            savers := s.savers.filter fun u => u.id ≠ id }
      else s
  | .change t =>
    -- the lock is taken alone
    if s.savers.isEmpty then { s with topics := t, seen := s.seen ++ [t] } else s
  | .crash => { s with savers := [], topics := s.reloaded, seen := s.seen ++ [s.reloaded] }

def run (s : SaveRun) (es : List SaveEvent) : SaveRun := es.foldl step s

/-- The file is absent, or `LoadFrom` makes topics of it that existed; the file has no in-sync
    sets. -/
def Sane (s : SaveRun) : Prop :=
  s.content = none ∨ ∃ t ∈ s.seen, ∀ current path, loadFrom current path s.content = (none, t.reset)

/-! ## 2. Calls that do not overlap -/

/-- A call begins when no other is under way; and the topics are such as the methods of the metadata
    make them. -/
def Apart (s : SaveRun) : SaveEvent → Prop
  | .begin _ => s.savers = []
  | .change t => t.Proper
  | _ => True

/-- The only call under way: the temporary file holds what it has written. -/
structure Writing (s : SaveRun) (v : Saver) : Prop where
  savers : s.savers = [v]
  temp : s.temp = some v.file
  text : v.text = saveTo s.topics
  data : s.files[v.file]? = some (v.text.take v.written)
  written : v.written ≤ v.text.length
  closed : v.closed = true → v.written = v.text.length

/-- The invariant. -/
structure Inv (s : SaveRun) : Prop where
  alone : s.savers = [] ∨ ∃ v, s.Writing v
  temp : ∀ n, s.temp = some n → n < s.files.length ∧ s.final ≠ some n
  saved : ∀ n, s.final = some n → ∃ t ∈ s.seen, s.files[n]? = some (saveTo t)
  topics : s.topics ∈ s.seen
  proper : ∀ t ∈ s.seen, t.Proper

section Steps

variable {s : SaveRun} {v : Saver} {id : Nat}

theorem Writing.saver_cases (h : s.Writing v) (id : Nat) :
    s.saver id = none ∨ v.id = id ∧ s.saver id = some v := by
  unfold saver
  rw [h.savers]
  by_cases hid : v.id = id <;> simp [hid]

theorem saver_nil (h : s.savers = []) (id : Nat) : s.saver id = none := by
  unfold saver
  rw [h]
  rfl

theorem loads {t : Topics} (h : t.Proper) (current : Topics) (path : String) :
    loadFrom current path (some (saveTo t)) = (none, t.reset) := by
  unfold loadFrom
  rw [parseFile_saveTo (fun d hd => plain_of_valid (h d hd).1) fun d hd => (h d hd).2]

theorem proper_reset {t : Topics} (h : t.Proper) : t.reset.Proper := by
  intro d hd
  obtain ⟨e, he, rfl⟩ := mem_map.mp hd
  exact ⟨(h e he).1, (h e he).2.reset⟩

theorem Inv.sane (h : s.Inv) : s.Sane := by
  unfold Sane content
  cases hf : s.final with
  | none => exact .inl rfl
  | some n =>
    obtain ⟨t, ht, hdata⟩ := h.saved n hf
    refine .inr ⟨t, ht, fun current path => ?_⟩
    rw [Option.bind_some, hdata]
    exact loads (h.proper t ht) current path

theorem Inv.reloaded (h : s.Inv) : s.reloaded.Proper := by
  unfold SaveRun.reloaded
  rcases h.sane with hnone | ⟨t, ht, hload⟩
  · rw [hnone]
    exact fun d hd => absurd hd not_mem_nil
  · rw [hload]
    exact proper_reset (h.proper t ht)

theorem Inv.append (h : s.Inv) {vs : List Saver} (hvs : vs = []) {t : Topics} (ht : t.Proper) :
    Inv { s with savers := vs, topics := t, seen := s.seen ++ [t] } := by
  refine ⟨.inl hvs, h.temp, fun m hm => ?_, by simp, fun t' ht' => ?_⟩
  · obtain ⟨t', ht', hdata⟩ := h.saved m hm
    exact ⟨t', mem_append_left _ ht', hdata⟩
  · rcases mem_append.mp ht' with ht' | ht'
    · exact h.proper t' ht'
    · exact mem_singleton.mp ht' ▸ ht

theorem Inv.saved_of (h : s.Inv) {files : List Bytes}
    (hf : ∀ n, s.final = some n → files[n]? = s.files[n]?) :
    ∀ n, s.final = some n → ∃ t ∈ s.seen, files[n]? = some (saveTo t) := by
  intro n hn
  rw [hf n hn]
  exact h.saved n hn

theorem inv_begin (h : s.Inv) (hs : s.savers = []) : (s.step (.begin id)).Inv := by
  have hgone := saver_nil hs id
  unfold step
  simp only [hgone, Option.isSome_none, Bool.false_eq_true, if_false, hs]
  cases ht : s.temp with
  | some n =>
    obtain ⟨hlt, hne⟩ := h.temp n ht
    have hother : ∀ m, s.final = some m → (s.files.set n [])[m]? = s.files[m]? := fun m hm =>
      getElem?_set_ne fun he => hne (hm.trans (congrArg some he.symm))
    refine ⟨.inr ⟨_, rfl, rfl, rfl, ?_, Nat.zero_le _, Bool.false_ne_true.elim⟩, fun m hm => ?_,
      h.saved_of hother, h.topics, h.proper⟩
    · exact getElem?_set_self hlt
    · cases hm
      rw [length_set]
      exact ⟨hlt, hne⟩
  | none =>
    have hold : ∀ m, s.final = some m → m < s.files.length := fun m hm => by
      obtain ⟨t, -, hdata⟩ := h.saved m hm
      exact (List.getElem?_eq_some_iff.mp hdata).1
    refine ⟨.inr ⟨_, rfl, rfl, rfl, ?_, Nat.zero_le _, Bool.false_ne_true.elim⟩, fun m hm => ?_,
      h.saved_of fun m hm => getElem?_append_left (hold m hm), h.topics, h.proper⟩
    · exact getElem?_concat_length
    · cases hm
      exact ⟨by simp, fun he => Nat.lt_irrefl _ (hold _ he)⟩

theorem setSaver_savers (h : s.savers = [v]) {v' : Saver} (hid : v'.id = v.id) :
    (s.setSaver v').savers = [v'] := by
  simp [setSaver, h, hid]

theorem inv_write (h : s.Inv) (hv : s.Writing v) (n : Nat) : (s.step (.write v.id n)).Inv := by
  have hfind : s.saver v.id = some v := by
    simp [saver, hv.savers]
  unfold step
  simp only [hfind]
  split
  · exact h
  obtain ⟨hlt, hne⟩ := h.temp _ hv.temp
  have hlen : (v.text.take v.written).length = v.written :=
    length_take_of_le hv.written
  refine ⟨.inr ⟨_, setSaver_savers hv.savers rfl, hv.temp, hv.text, ?_, ?_, fun hc => ?_⟩,
    fun m hm => ?_, h.saved_of fun m hm => ?_, h.topics, h.proper⟩
  · -- the position is the end of the file
    have hsplice := splice_append (v.text.take v.written) [] ((v.text.drop v.written).take n)
    rw [append_nil, hlen, drop_nil, append_nil] at hsplice
    show (s.files.modify v.file _)[v.file]? = _
    rw [getElem?_modify_eq, hv.data, Option.map_eq_map, Option.map_some, hsplice, take_add,
      length_take, ← take_eq_take_min]
  · simp only [length_take, length_drop]
    have := hv.written
    omega
  · have := hv.closed hc
    simp only [length_take, length_drop]
    omega
  · show m < (s.files.modify v.file _).length ∧ _
    rw [length_modify]
    exact h.temp m hm
  · exact getElem?_modify_ne _ _ fun he => hne (hm.trans (congrArg some he.symm))

theorem inv_step (s : SaveRun) (e : SaveEvent) (h : s.Inv) (he : s.Apart e) : (s.step e).Inv := by
  -- a step of a call that is not under way changes nothing
  have hcall : ∀ id, s.saver id = none ∨ ∃ v, s.Writing v ∧ v.id = id ∧ s.saver id = some v := by
    intro id
    rcases h.alone with hs | ⟨v, hv⟩
    · exact .inl (saver_nil hs id)
    · exact (hv.saver_cases id).imp_right fun hid => ⟨v, hv, hid⟩
  cases e with
  | begin id => exact inv_begin h he
  | write id n =>
    rcases hcall id with hnone | ⟨v, hv, rfl, -⟩
    · simpa only [step, hnone] using h
    · exact inv_write h hv n
  | close id =>
    rcases hcall id with hnone | ⟨v, hv, rfl, hfind⟩
    · simpa only [step, hnone] using h
    · simp only [step, hfind]
      split
      · rename_i hend
        exact ⟨.inr ⟨_, setSaver_savers hv.savers rfl, hv.temp, hv.text, hv.data, hv.written,
          fun _ => hend⟩, h.temp, h.saved, h.topics, h.proper⟩
      · exact h
  | rename id =>
    rcases hcall id with hnone | ⟨v, hv, rfl, hfind⟩
    · simpa only [step, hnone] using h
    · simp only [step, hfind, hv.temp]
      split
      · rename_i hclosed
        have hdata := hv.data
        rw [hv.closed hclosed, take_length, hv.text] at hdata
        refine ⟨.inl (by simp [hv.savers]), fun m hm => ?_, fun m hm => ?_, h.topics, h.proper⟩
        · cases hm
        · cases hm
          exact ⟨s.topics, h.topics, hdata⟩
      · exact h
  | change t =>
    simp only [step]
    split
    · rename_i hs
      exact h.append (List.isEmpty_iff.mp hs) he
    · exact h
  | crash =>
    exact h.append rfl h.reloaded

end Steps

/-- **The file at the final path is absent or loads as topics that existed**, in every run in which
    no call begins while another is under way. -/
theorem final_file_loads (es : List SaveEvent) (hes : Along step Apart start es) :
    (start.run es).Sane := by
  refine (hes.foldl inv_step ?_).sane
  refine ⟨.inl rfl, ?_, ?_, mem_singleton_self _, fun t ht d hd => ?_⟩
  · intro n hn
    cases hn
  · intro n hn
    cases hn
  rw [mem_singleton.mp ht] at hd
  exact absurd hd not_mem_nil

/-- The second call begins behind the close of the first and before its rename. -/
def overlapping : List SaveEvent := [.begin 1, .write 1 100, .close 1, .begin 2, .rename 1]

/-- **Two calls that overlap leave an empty file**: the one has truncated what the other renames. A
    process that dies now cannot start again. -/
theorem renamed_truncated_file :
    (start.run overlapping).content = some [] ∧
      (∀ current path, (loadFrom current path (some [])).1 =
        some (.corruption "metadata file has an unrecognised header: ''")) ∧
      ¬ (start.run overlapping).Sane := by
  have hcontent : (start.run overlapping).content = some [] := by decide +kernel
  refine ⟨hcontent, fun _ _ => rfl, fun h => ?_⟩
  rcases h with h | ⟨t, -, h⟩
  · cases h
  · have hstatus : (loadFrom .empty "" (some [])).1 = none := congrArg Prod.fst (h .empty "")
    cases hstatus

/-- One call after the other, with a crash in the second. -/
theorem calls_in_turn : (start.run [.begin 1, .write 1 10, .write 1 90, .close 1, .rename 1,
    .begin 2, .write 2 5, .crash, .begin 3, .write 3 9]).Sane :=
  final_file_loads _ ⟨rfl, trivial, trivial, trivial, trivial, by unfold Apart; decide +kernel,
    trivial, trivial, by unfold Apart; decide +kernel, trivial, trivial⟩

end SaveRun

end MetadataFile

end PulseLog

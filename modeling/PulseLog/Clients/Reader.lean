/-
  Subject:   A reader of one partition (`Consumer::Fetch`, `Consumer::FetchInto` of
             clients/cpp/src/consumer.cc) beside a broker that dies and comes back.

  The reader asks for the records at its position, and moves behind the last one it was sent. The
  log goes on meanwhile: appends, rolls, flushes, retention, kills and reopens, as in
  CrashRecovery.lean.

  * `fetchInto` -- the records of an answer, and the position behind them;
  * **`received_history`** -- what the reader has got is the history from where it started up to its
    position: nothing is missing, and nothing comes twice.
-/
import PulseLog.Broker.Fetch
import PulseLog.Storage.CrashRecovery

namespace PulseLog

open List

namespace Reader

/-- `FetchInto` behind the answer of the broker: the records, and the next position. -/
def fetchInto (offset : Int) (records : Bytes) : Except Status (List RecordView × Int) :=
  let (views, it) := iterateRecords records true
  match it.status with
  | some e => .error (e.withContext "decoding fetched records")
  | none => .ok (views, (views.getLast?.map (·.offset + 1)).getD offset)

/-- The log, the reader's position, and the bytes of the records it was given. -/
structure State where
  log : CrashRecovery.State
  position : Int
  received : Bytes

inductive Event where
  | log (ev : LogRun.Event)
  | fetch (highWaterMark : Int) (name : String) (request : Protocol.FetchRequest)

def step (options : LogOptions) (s : State) : Event → State
  | .log ev => { s with log := CrashRecovery.next options s.log ev }
  | .fetch mark name request =>
    match s.log.process.log with
    | none => s
    | some l =>
      match Broker.executeFetch l s.log.process.world mark name request with
      | .ok answer =>
        match fetchInto s.position answer.records with
        | .ok (_, next) => { s with position := next, received := s.received ++ answer.records }
        | .error _ => s
      | _ => s

/-- A fetch asks for the position, and the high-water mark is not beyond the log. -/
def Admits (pre : Bool) (s : State) : Event → Prop
  | .log ev => CrashRecovery.EventOk pre ev
  | .fetch mark _ request => request.fetchOffset.toInt = s.position ∧
      ∀ l ∈ s.log.process.log, mark ≤ l.logEndOffset

/-! ## 1. One fetch -/

variable {rs : List Bytes} {n : Nat} {l : PartitionLog}

/-- The iterator goes through a run of good records, and ends behind the last one. -/
theorem collect_good {o : Nat} (hg : RunOf Good o rs) {x data : Bytes}
    (hdata : data = x ++ rs.flatten) (hlen : data.length < 2 ^ 64) (c fuel : Nat)
    (hfuel : rs.flatten.length < fuel) :
    let r := RecordIterator.collect fuel ⟨data, true, x.length, c, none⟩
    r.2.status = none ∧ (r.1.getLast?.map (·.offset + 1)).getD (o : Int) = o + rs.length := by
  obtain ⟨fuel, rfl⟩ := Nat.exists_eq_add_one_of_ne_zero (Nat.ne_zero_of_lt hfuel)
  induction rs generalizing o x c fuel with
  | nil =>
    rw [RecordIterator.collect, RecordIterator.next_end rfl (by simp [hdata])]
    simp
  | cons r rs ih =>
    have hpos := hg.1.alone.framed.pos
    have hparts : data = x ++ r ++ rs.flatten := by rw [hdata, flatten_cons, append_assoc]
    rw [flatten_cons, length_append] at hfuel
    obtain ⟨view, hparse, hoff, -⟩ := parseRecord_of_parsesAlone (x := x) (y := rs.flatten)
      hg.1.alone (fun _ => hg.1.checksum) (by rw [hparts] at hlen; simp at hlen ⊢; omega)
    rw [← hparts] at hparse
    obtain ⟨fuel, rfl⟩ : ∃ k, fuel = k + 1 := Nat.exists_eq_add_one_of_ne_zero (by omega)
    obtain ⟨hs, hl⟩ := ih hg.2 (x := x ++ r) hparts (c + 1) fuel (by omega)
    have hmore : x.length < data.length := by
      rw [hparts]
      simp
      omega
    rw [RecordIterator.collect, RecordIterator.next_of_parse rfl hmore hparse]
    rw [length_append] at hs hl
    refine ⟨hs, ?_⟩
    dsimp only at hl ⊢
    rw [getLast?_cons, Option.map_some, Option.getD_some, length_cons]
    have hview : view.offset = o := hoff.trans hg.1.offset
    cases hlast : (RecordIterator.collect (fuel + 1) _).1.getLast? with
    | none =>
      rw [hlast] at hl
      simp only [Option.map_none, Option.getD_none] at hl ⊢
      omega
    | some v =>
      rw [hlast] at hl
      simp only [Option.map_some, Option.getD_some] at hl ⊢
      omega

theorem fetchInto_good (hg : RunOf Good n rs)
    (hlen : rs.flatten.length < 2 ^ 64) : fetchInto n rs.flatten =
      .ok ((iterateRecords rs.flatten true).1, (n + rs.length : Nat)) := by
  obtain ⟨hstatus, hnext⟩ := collect_good hg (nil_append _).symm hlen 0 _ (Nat.lt_succ_self _)
  unfold fetchInto iterateRecords RecordIterator.make
  dsimp only [length_nil] at hstatus hnext ⊢
  rw [hstatus, hnext, Nat.cast_add]

/-- What a fetch answers with is a run of the log's records from its offset on. -/
theorem fetched_run {P : Nat → Bytes → Prop} {segs : List SegView} {w : World}
    (hlog : LogReadable P segs l w) (hmeet : segs.IsChain Adjacent)
    (halone : ∀ o r, P o r → ParsesAlone r) {mark : Int} (hmark : mark ≤ l.logEndOffset)
    {name : String} {request : Protocol.FetchRequest} {answer : Broker.FetchAnswer}
    (hn : request.fetchOffset.toInt = n)
    (h : Broker.executeFetch l w mark name request = .ok answer) :
    ∃ rs, RunOf P n rs ∧ answer.records = rs.flatten ∧ rs.flatten.length < 2 ^ 64 := by
  have hstart : Broker.fetchStart l mark request = n := by
    unfold Broker.fetchStart Broker.earliestOffset Broker.latestOffset
    rw [hn, if_neg (by omega), if_neg (by omega)]
  have hvis := Broker.visibleEnd_le hmark request.isolation
  unfold Broker.executeFetch at h
  rw [hstart] at h
  dsimp only at h
  split at h
  · cases h
  split at h
  · cases h
  split at h
  · rename_i hlt
    cases hread : l.read w n request.maxBytes.toNat with
    | ok read =>
      obtain ⟨rs, hrun, rfl, -⟩ := read_run hlog hmeet (by omega) (by omega) hread
      have hlen : rs.flatten.length ≤ readBound request.maxBytes.toNat := length_log_read hread
      have hmax := request.maxBytes.toNat_lt
      have hbound : rs.flatten.length < 2 ^ 64 := lt_of_le_of_lt hlen (by unfold readBound; omega)
      have hrun := hrun.mono fun _ _ hr => hr.1
      have hall : ∀ r ∈ rs, ParsesAlone r := fun r hr => (hrun.mem r hr).elim (halone · r)
      rw [Int.toNat_natCast, hread] at h
      dsimp only at h
      split at h
      · rw [(Broker.take_trimLoop_iff (fun r hr => (hall r hr).framed) (by omega)).mpr
          (Broker.inPlace_of_alone hall hbound (by omega))] at h
        cases h
        exact ⟨_, hrun.take _, rfl,
          lt_of_le_of_lt (IsPrefix.flatten <| take_prefix _ rs).length_le hbound⟩
      · cases h
        exact ⟨rs, hrun, rfl, hbound⟩
    | error e => rw [Int.toNat_natCast, hread] at h; cases h
    | halted => rw [Int.toNat_natCast, hread] at h; cases h
  · cases h
    exact ⟨[], trivial, rfl, by decide⟩

/-! ## 2. Every run -/

/-- The reader has the records of the history from `o` up to its position. -/
def Got (o : Nat) (s : State) : Prop := ∃ n : Nat, s.position = n ∧ o ≤ n ∧
  n ≤ s.log.history.length ∧ s.received = ((s.log.history.take n).drop o).flatten

/-- A log that shows a history can be read, and gives its records. -/
theorem readable_up {pre : Bool} {history : List Bytes} {w : World}
    (h : CrashRecovery.Up pre history l w) : ∃ segs, segs.IsChain Adjacent ∧
      LogReadable (fun o r => Good o r ∧ history[o]? = some r) segs l w := by
  obtain ⟨e, segs, g, h, hs, -⟩ := h
  exact ⟨segs ++ [g], h.listing.chain,
    { h.readable id (fun _ _ hx => le_of_eq hx) with
      run := fun x hx => runOf_of_get fun _ _ hri => ⟨(h.run id x hx).get hri, hs.get hx hri⟩ }⟩

variable {options : LogOptions} {o : Nat}

theorem Got.more {s : State} (h : Got o s) (hn : s.position = n)
    (hrs : rs <+: s.log.history.drop n) :
    Got o { s with position := (n + rs.length : Nat), received := s.received ++ rs.flatten } := by
  obtain ⟨m, hm, hom, hle, hgot⟩ := h
  obtain rfl : m = n := by omega
  have hlen := hrs.length_le
  rw [length_drop] at hlen
  refine ⟨m + rs.length, rfl, by omega, by dsimp only; omega, ?_⟩
  have ho : o ≤ (s.log.history.take m).length := by rw [length_take]; omega
  rw [take_add, ← prefix_iff_eq_take.mp hrs, drop_append_of_le_length ho, flatten_append, hgot]

theorem got_step (s : State) (e : Event) (h : CrashRecovery.Inv options.preallocate s.log ∧ Got o s)
    (he : Admits options.preallocate s e) :
    CrashRecovery.Inv options.preallocate (step options s e).log ∧ Got o (step options s e) := by
  obtain ⟨hinv, hgot⟩ := h
  obtain ⟨n, hp, hon, hn, hrec⟩ := id hgot
  cases e with
  | log ev =>
    obtain ⟨t, ht⟩ := CrashRecovery.history_next options s.log ev
    refine ⟨CrashRecovery.inv_step options s.log ev hinv he, n, hp, hon, ?_⟩
    show n ≤ (CrashRecovery.next options s.log ev).history.length ∧
      s.received = (((CrashRecovery.next options s.log ev).history.take n).drop o).flatten
    rw [← ht, length_append, take_append_of_le_length hn]
    exact ⟨by omega, hrec⟩
  | fetch mark name request =>
    unfold step
    dsimp only
    split
    · exact ⟨hinv, hgot⟩
    rename_i l hl
    split
    swap
    · exact ⟨hinv, hgot⟩
    rename_i answer hanswer
    have hup := hinv
    rw [CrashRecovery.Inv, hl] at hup
    obtain ⟨segs, hmeet, hread⟩ := readable_up hup
    obtain ⟨rs, hrun, hrs, hlen⟩ := fetched_run hread hmeet (fun _ _ hr => hr.1.alone) (he.2 l hl)
      (he.1.trans hp) hanswer
    rw [hrs, hp, fetchInto_good (hrun.mono fun _ _ hr => hr.1) hlen]
    exact ⟨hinv, hgot.more hp (prefix_of_runOf (hrun.mono fun _ _ hr => hr.2))⟩

/-- A reader that starts at `o`, behind a run of the log. -/
def startAt (options : LogOptions) (before : List LogRun.Event) (o : Nat) : State :=
  ⟨before.foldl (CrashRecovery.next options) CrashRecovery.start, o, []⟩

/-- **A reader gets the history**, in every run of the log and of its fetches, wherever it starts:
    the bytes it was given are the records from there up to its position, each once and in order. -/
theorem received_history {before : List LogRun.Event} (hb : Along (CrashRecovery.next options)
      (fun _ ev => CrashRecovery.EventOk options.preallocate ev) CrashRecovery.start before)
    (ho : o ≤ (startAt options before o).log.history.length) (es : List Event)
    (hes : Along (step options) (Admits options.preallocate) (startAt options before o) es) :
    Got o (es.foldl (step options) (startAt options before o)) := by
  have hinv := hb.foldl (CrashRecovery.inv_step options) CrashRecovery.down_empty
  refine (hes.foldl got_step ⟨hinv, o, rfl, le_rfl, ho, ?_⟩).2
  simp [startAt]

theorem one_received :
    let options := CrashRecovery.oneSegment
    let s := [Event.fetch 1 "t-0" (Broker.fetchReplicated 0)].foldl (step options)
      (startAt options CrashRecovery.oneAppended 0)
    s.position = 1 ∧ Got 0 s :=
  ⟨by decide +kernel, received_history CrashRecovery.oneAppended_ok (Nat.zero_le _) _
    ⟨⟨by decide +kernel, by decide +kernel⟩, trivial⟩⟩

end Reader
end PulseLog

/-
  Subject:   When a FETCH is answered (Broker::ExecuteFetch in src/broker/request_handler.cc,
             against `min_bytes` and `max_wait_ms` of docs/PROTOCOL.md).

  A partition's life is a row of moments: time passes, the partition changes, requests arrive. The
  handler answers a request in the moment in which it takes it up; it reads neither of the two
  fields.

  * **`timely_iff`** -- in every run an answer is timely if and only if enough was visible when the
    request was received.
-/
import PulseLog.Broker.Fetch

namespace PulseLog

open List

namespace Broker

/-- A partition at a time in milliseconds: its log, which shows the segments `segs`, and its
    high-water mark. -/
structure Moment where
  ms : Int
  log : PartitionLog
  world : World
  highWaterMark : Int
  segs : List SegView
  readable : ∃ P, LogReadable P segs log world

/-- The bytes of the records from `start` on that are visible. -/
def Moment.available (m : Moment) (start : Int) (isolation : IsolationLevel) : Nat :=
  ((range (visibleEnd m.log m.highWaterMark isolation - start).toNat).map fun k =>
    ((contents m.segs (start.toNat + k)).getD []).length).sum

/-- What happens next: time passes, the partition is changed, a request is received. -/
inductive Happening where
  | passes (ms : Nat)
  | becomes (next : Moment)
  | fetch (name : String) (request : Protocol.FetchRequest)

/-- A request that was answered, and the places of the moments in which it was received and sent. -/
structure Answered where
  request : Protocol.FetchRequest
  received : Nat
  sent : Nat
  answer : PulseLog.Outcome Status FetchAnswer

/-- The moments that are over, the present one, and the answers. -/
structure Timeline where
  past : List Moment
  now : Moment
  answers : List Answered

namespace Timeline

def moments (s : Timeline) : List Moment := s.past ++ [s.now]

/-- A change takes no time. -/
def step (s : Timeline) : Happening → Timeline
  | .passes ms => { s with past := s.moments, now := { s.now with ms := s.now.ms + ms } }
  | .becomes next => { s with past := s.moments, now := { next with ms := s.now.ms } }
  | .fetch name request =>
    { s with answers := s.answers ++ [⟨request, s.past.length, s.past.length,
        executeFetch s.now.log s.now.world s.now.highWaterMark name request⟩] }

/-- At moment `k` enough is visible from the position of the request, or its time is up. -/
def Due (s : Timeline) (a : Answered) (k : Nat) : Prop :=
  ∃ m₀ m, s.moments[a.received]? = some m₀ ∧ s.moments[k]? = some m ∧
    (a.request.minBytes.toNat ≤ m.available (fetchStart m₀.log m₀.highWaterMark a.request)
      a.request.isolation ∨ m₀.ms + a.request.maxWaitMs.toInt ≤ m.ms)

/-- The answer is sent at the first moment that is due. -/
def Timely (s : Timeline) (a : Answered) : Prop :=
  s.Due a a.sent ∧ ∀ k, a.received ≤ k → k < a.sent → ¬ s.Due a k

/-- Enough was visible when the request was received. -/
def Ready (s : Timeline) (a : Answered) : Prop :=
  ∃ m, s.moments[a.received]? = some m ∧ a.request.minBytes.toNat ≤
    m.available (fetchStart m.log m.highWaterMark a.request) a.request.isolation

/-- Nothing waits. -/
theorem sent_received (first : Moment) (es : List Happening) :
    ∀ a ∈ (es.foldl step ⟨[], first, []⟩).answers, a.sent = a.received := by
  refine List.foldlRecOn (motive := fun s : Timeline => ∀ a ∈ s.answers, a.sent = a.received) es
    step (by simp) fun s h e _ => ?_
  cases e with
  | passes ms => exact h
  | becomes next => exact h
  | fetch name request => simpa [step, or_imp, forall_and] using h

/-- **When a FETCH that may wait is answered in time.** -/
theorem timely_iff (first : Moment) (es : List Happening) {a : Answered}
    (ha : a ∈ (es.foldl step ⟨[], first, []⟩).answers) (hwait : 0 < a.request.maxWaitMs.toInt) :
    (es.foldl step ⟨[], first, []⟩).Timely a ↔ (es.foldl step ⟨[], first, []⟩).Ready a := by
  have hsent := sent_received first es a ha
  unfold Timely
  rw [hsent]
  constructor
  · rintro ⟨⟨m₀, m, hm₀, hm, hdue⟩, -⟩
    obtain rfl : m₀ = m := Option.some.inj (hm₀.symm.trans hm)
    exact ⟨m₀, hm, hdue.resolve_right (by omega)⟩
  · rintro ⟨m, hm, henough⟩
    exact ⟨⟨m, m, hm, hm, .inl henough⟩, fun k hle hlt => absurd hle (by omega)⟩

/-- A FETCH that is to wait 100 ms for one byte. -/
def waiting (offset : Int64) : Protocol.FetchRequest :=
  ⟨[116], 0, offset, 1000, 1, 100, .readReplicated⟩

/-- A partition with three records, all of them replicated; a fetch at its end is answered OK. -/
theorem exists_replicated : ∃ m : Moment,
    (executeFetch m.log m.world m.highWaterMark "t-0" (waiting (-1))).value?.isSome := by
  have hrun : (LogShape.run (smallSegments false) ⟨[], [], []⟩ threeRecords).map
      (fun t => (executeFetch t.1 t.2 3 "t-0" (waiting (-1))).value?.isSome) = some true := by
    decide +kernel
  obtain ⟨⟨l, w⟩, hl, hfetch⟩ := Option.map_eq_some_iff.mp hrun
  obtain ⟨e, segs, g, hinv⟩ := LogShape.promised_run rfl threeRecords_ok hl
  exact ⟨⟨0, l, w, 3, segs ++ [g], _, hinv.readable id (fun _ _ hx => le_of_eq hx)⟩, hfetch⟩

theorem fetch_timely_iff : ∃ m : Moment,
    let s := [.passes 5, .fetch "t-0" (waiting 0)].foldl step ⟨[], m, []⟩
    ∃ a ∈ s.answers, s.Timely a ↔ s.Ready a := by
  obtain ⟨m, -⟩ := exists_replicated
  exact ⟨m, _, mem_cons_self,
    timely_iff m [.passes 5, .fetch "t-0" (waiting 0)] mem_cons_self
      (show 0 < (waiting 0).maxWaitMs.toInt by decide)⟩

/-- **A FETCH is answered before its time**: it is to wait for a byte, finds none, and is answered
    without records in the moment in which it is received. -/
theorem fetch_unwaited : ∃ m : Moment,
    let s := [.fetch "t-0" (waiting (-1))].foldl step ⟨[], m, []⟩
    ∃ a ∈ s.answers, a.answer.value?.isSome ∧ ¬ s.Timely a := by
  obtain ⟨m, hok⟩ := exists_replicated
  refine ⟨m, _, mem_cons_self, hok, ?_⟩
  rintro ⟨⟨m₀, m', hm₀, hm, hdue⟩, -⟩
  obtain rfl : m = m₀ := Option.some.inj hm₀
  obtain rfl : m = m' := Option.some.inj hm
  rcases hdue with henough | htime
  · have hnone : m.available m.highWaterMark .readReplicated = 0 := by
      simp [Moment.available, visibleEnd]
    exact absurd (henough.trans_eq hnone) (show ¬ (waiting (-1)).minBytes.toNat ≤ 0 by decide)
  · exact absurd htime (show ¬ m.ms + 100 ≤ m.ms by omega)

end Timeline
end Broker
end PulseLog

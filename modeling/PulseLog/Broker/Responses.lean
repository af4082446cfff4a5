/-
  Subject:   Every request is answered exactly once.

  A run is infinite and fair: every worker, every io loop and the maintenance loop at every replica
  go on for ever, and the clock passes every deadline.

  * `answered_once` -- on a connection that stays open every request is answered exactly once, in
    every fair run of smooth steps; `dropped_response` -- a fair run with a full task queue never
    answers.
-/
import PulseLog.Broker.DispatchSteps
import PulseLog.General.Fair
import Mathlib.Data.Nat.Pairing

namespace PulseLog

open List

namespace Dispatch

variable (cap : Capacities)

/-! ## 1. Runs -/

/-- Workers, io loops and the maintenance loop keep running, and time goes on. -/
structure FairRun (e : Nat → DispatchEvent) : Prop where
  workers : ∀ w n, ∃ m, n ≤ m ∧ ∃ executed satisfied, e m = .work w executed satisfied
  loops : ∀ l n, ∃ m, n ≤ m ∧ e m = .drain l
  maintenance : ∀ replica (t : Int) n, ∃ m, n ≤ m ∧ ∃ now, t ≤ now ∧ e m = .expire replica now

/-- The responses on the connections to the request with the serial. -/
def responsesTo (s : Dispatch) (k : Nat) : List Response :=
  s.sent.filter (fun resp => resp.serial = k)

/-- The run under the events. -/
def run (e : Nat → DispatchEvent) : Nat → Dispatch := trace (step cap) start e

/-! ## 2. To the connection -/

section Run

variable {cap} {e : Nat → DispatchEvent} {r : Request}

theorem run_succ (n : Nat) : run cap e (n + 1) = step cap (run cap e n) (e n) := rfl

/-- **From a task queue to the connection.** -/
theorem task_leadsTo (hfair : FairRun e) (hopen : ∀ n, r.connection ∉ (run cap e n).closed) :
    LeadsTo (run cap e) (InTasks r) (IsSent r) := by
  refine leadsTo_of_rank (taskRank r) (fun n => e n = .drain r.loop)
    (fun n => hfair.loops r.loop n) (fun n h => ?_) (fun n hdrain h => ?_)
  · rw [run_succ]
    by_cases hdrain : ∃ l, e n = .drain l
    · obtain ⟨l, hl⟩ := hdrain
      rw [hl]
      refine (drain_task l (hopen n) h).imp_right (fun h' => ⟨h'.1, ?_⟩)
      exact le_trans (Nat.le_add_right _ _) h'.2
    · obtain ⟨ts, hts⟩ := (keeps_step cap (run cap e n) (e n)).tasks (fun l hl => hdrain ⟨l, hl⟩)
      right
      unfold InTasks taskRank at *
      rw [← hts, queueOf_append]
      exact ⟨mem_append_left _ h, by rw [idxOf_append_of_mem h]⟩
  · rw [run_succ, hdrain]
    refine (drain_task r.loop (hopen n) h).imp_right (fun h' => ⟨h'.1, ?_⟩)
    have hlt := h'.2
    rw [if_pos rfl] at hlt
    exact hlt

section Smooth

variable (hfair : FairRun e) (hsmooth : ∀ n, Smooth cap (run cap e n) (e n))

include hsmooth in
theorem waiting_run (n : Nat) : Waiting (run cap e n) := by
  refine trace_invariant ?_ (fun n h => h.step (hsmooth n)) n
  exact ⟨by simp [start], by simp [start]⟩

include hfair

/-- What a step of worker `w` brings nearer and every other step keeps. -/
theorem worker_leadsTo (w : Nat) {P Q : Dispatch → Prop} (rank : Dispatch → Nat)
    (hwork : ∀ n x sat, e n = .work w x sat → P (run cap e n) → Q (run cap e (n + 1)) ∨
      P (run cap e (n + 1)) ∧ rank (run cap e (n + 1)) < rank (run cap e n))
    (hkeep : ∀ n, (∀ x sat, e n ≠ .work w x sat) → P (run cap e n) →
      P (run cap e (n + 1)) ∧ rank (run cap e (n + 1)) ≤ rank (run cap e n)) :
    LeadsTo (run cap e) P Q := by
  refine leadsTo_of_rank rank (fun n => ∃ x sat, e n = .work w x sat)
    (fun n => hfair.workers w n) (fun n hP => ?_) (fun n hw hP => ?_)
  · by_cases hw : ∃ x sat, e n = .work w x sat
    · obtain ⟨x, sat, he⟩ := hw
      exact (hwork n x sat he hP).imp_right (fun h => ⟨h.1, le_of_lt h.2⟩)
    · exact .inr (hkeep n (fun x sat he => hw ⟨x, sat, he⟩) hP)
  · obtain ⟨x, sat, he⟩ := hw
    exact hwork n x sat he hP

include hsmooth

/-- **From a waiter to a task queue**, at its deadline if not before. -/
theorem waiter_leadsTo : LeadsTo (run cap e) (InWaiters r) (InTasks r) := by
  intro n h
  obtain ⟨p, d, hw⟩ := h
  refine leadsTo_of_rank (P := fun s => (p, ⟨r, d⟩) ∈ s.waiters) (fun _ => 0)
    (fun n => ∃ now, d ≤ now ∧ e n = .expire p now) (fun n => hfair.maintenance p d n)
    (fun n hw => ?_) (fun n hexpire hw => ?_) n hw
  · exact (waiter_step (waiting_run hsmooth n) (hsmooth n) hw).imp_right (fun h => ⟨h, le_rfl⟩)
  · obtain ⟨now, hnow, he⟩ := hexpire
    have hs := hsmooth n
    rw [he] at hs
    rw [run_succ, he]
    exact .inl (expire_waiter (waiting_run hsmooth n) hs hw hnow)

/-- **From an append to a waiter or a task queue.** -/
theorem adding_leadsTo (w : Nat) :
    LeadsTo (run cap e) (fun s => ∃ a, a.request = r ∧ a ∈ queueOf w s.adding)
      (fun s => InWaiters r s ∨ InTasks r s) := by
  intro n h
  obtain ⟨a, rfl, ha⟩ := h
  refine worker_leadsTo hfair w (P := fun s : Dispatch => a ∈ queueOf w s.adding)
    (Q := fun s => InWaiters a.request s ∨ InTasks a.request s)
    (fun s => (queueOf w s.adding).idxOf a) (fun n x sat he ha => ?_) (fun n hw ha => ?_) n ha
  · have hs := hsmooth n
    rw [he] at hs
    rw [run_succ, he]
    refine (work_adding (waiting_run hsmooth n) hs ha).imp_right (fun h => ⟨h.1, ?_⟩)
    omega
  · rw [run_succ, (keeps_step cap (run cap e n) (e n)).adding w hw]
    exact ⟨ha, le_rfl⟩

/-- **From a worker queue to its turn.** -/
theorem queue_leadsTo (w : Nat) :
    LeadsTo (run cap e) (fun s => r ∈ queueOf w s.queues)
      (fun s => (∃ a, a.request = r ∧ a ∈ queueOf w s.adding) ∨ InTasks r s) := by
  refine worker_leadsTo hfair w (queueRank w r) (fun n x sat he hr => ?_) (fun n hw hr => ?_)
  · have hs := hsmooth n
    rw [he] at hs
    rw [run_succ, he]
    exact work_queue hs hr
  · have hkeeps := keeps_step cap (run cap e n) (e n)
    obtain ⟨xs, hqueues⟩ := hkeeps.queues w hw
    unfold queueRank
    rw [run_succ, hkeeps.adding w hw, ← hqueues, idxOf_append_of_mem hr]
    exact ⟨mem_append_left _ hr, le_rfl⟩

/-- A request in a worker queue is answered on its connection. -/
theorem queue_leadsTo_sent (hopen : ∀ n, r.connection ∉ (run cap e n).closed) (w : Nat) :
    LeadsTo (run cap e) (fun s => r ∈ queueOf w s.queues) (IsSent r) := by
  have htask := task_leadsTo hfair hopen
  have hwaiter := (waiter_leadsTo hfair hsmooth).trans htask
  have hadding := (adding_leadsTo hfair hsmooth w).trans (hwaiter.or htask)
  exact (queue_leadsTo hfair hsmooth w).trans (hadding.or htask)

end Smooth

end Run

/-! ## 3. Exactly one response -/

section Answers

variable {cap} {s : Dispatch} {e : Nat → DispatchEvent}

theorem counted_run (cap : Capacities) (e : Nat → DispatchEvent) (n : Nat) :
    Counted (run cap e n) := by
  refine trace_invariant ?_ (fun n h => h.step (e n)) n
  intro k
  simp [places, start]

theorem length_responsesTo (s : Dispatch) (k : Nat) :
    (s.responsesTo k).length = (s.sent.map Response.serial).count k := by
  unfold responsesTo
  rw [← countP_eq_length_filter, List.count, countP_map]
  refine countP_congr (fun resp _ => ?_)
  simp

/-- No request is ever answered twice. -/
theorem responsesTo_le_one (cap : Capacities) (e : Nat → DispatchEvent) (n k : Nat) :
    ((run cap e n).responsesTo k).length ≤ 1 := by
  have hplaces := counted_run cap e n k
  rw [length_responsesTo]
  unfold places at hplaces
  split at hplaces <;> omega

theorem isSent_stable {r : Request} {n m : Nat} (hnm : n ≤ m) (h : IsSent r (run cap e n)) :
    IsSent r (run cap e m) := by
  refine stable (fun n h => ?_) hnm h
  exact (keeps_step _ _ _).sent.subset h

theorem open_run (cap : Capacities) {c : Nat} (hopen : ∀ n, e n ≠ .close c) (n : Nat) :
    c ∉ (run cap e n).closed := by
  refine trace_invariant (P := fun s : Dispatch => c ∉ s.closed) (by simp [start])
    (fun n h hc => ?_) n
  rcases (keeps_step cap (run cap e n) (e n)).closed c hc with he | hc
  · exact hopen n he
  · exact h hc

/-- **Every request frame on a connection that stays open is answered by exactly one response frame
    on it, with its request id and its opcode**: never by more than one, and in a fair run in which
    every step is smooth, from some time on by one. -/
theorem answered_once (cap : Capacities) (e : Nat → DispatchEvent) (hfair : FairRun e)
    (hsmooth : ∀ n, Smooth cap (run cap e n) (e n)) (c : Nat) (hopen : ∀ n, e n ≠ .close c)
    (n loop : Nat) (opcode : OpCode) (id : Nat) (peeked : Option Nat)
    (he : e n = .frame c loop opcode id peeked) :
    (∀ m, ((run cap e m).responsesTo (run cap e n).frames).length ≤ 1) ∧
    ∃ m, n < m ∧ ∀ k, m ≤ k → ∃ resp, (run cap e k).responsesTo (run cap e n).frames = [resp] ∧
      resp.connection = c ∧ resp.requestId = id ∧ resp.opcode = opcode := by
  refine ⟨fun m => responsesTo_le_one cap e m _, ?_⟩
  have hclosed := open_run cap hopen
  -- the frame is answered inline, or goes to a worker
  have hframe : IsSent ⟨(run cap e n).frames, c, loop, opcode, id⟩ (run cap e (n + 1)) ∨
      ∃ w, (⟨(run cap e n).frames, c, loop, opcode, id⟩) ∈
        queueOf w (run cap e (n + 1)).queues := by
    rw [run_succ, he]
    simp only [step, if_neg (hclosed n), onFrame]
    split
    · exact .inl (mem_append_right _ (mem_singleton.mpr rfl))
    · rename_i w _
      split
      · refine .inr ⟨w, ?_⟩
        rw [queueOf_append]
        exact mem_append_right _ (mem_queueOf.mpr (mem_singleton.mpr rfl))
      · exact .inl (mem_append_right _ (mem_singleton.mpr rfl))
  have hsent : ∃ m, n + 1 ≤ m ∧
      IsSent ⟨(run cap e n).frames, c, loop, opcode, id⟩ (run cap e m) := by
    rcases hframe with h | ⟨w, h⟩
    · exact ⟨n + 1, le_rfl, h⟩
    · exact queue_leadsTo_sent hfair hsmooth hclosed w (n + 1) h
  obtain ⟨m, hnm, hm⟩ := hsent
  refine ⟨m, by omega, fun k hk => ?_⟩
  have hmem : (⟨(run cap e n).frames, c, loop, opcode, id⟩ : Request).answer opcode ∈
      (run cap e k).responsesTo (run cap e n).frames :=
    mem_filter.mpr ⟨isSent_stable hk hm, by simp [Request.answer]⟩
  have hone := responsesTo_le_one cap e k (run cap e n).frames
  obtain ⟨resp, hresp⟩ := length_eq_one_iff.mp (Nat.le_antisymm hone (length_pos_of_mem hmem))
  refine ⟨resp, hresp, ?_⟩
  rw [hresp, mem_singleton] at hmem
  rw [← hmem]
  exact ⟨rfl, rfl, rfl⟩

end Answers

/-! ## 4. A fair schedule -/

/-- Workers, io loops and maintenance in turn, each again and again. -/
def turn (a : Nat) : DispatchEvent :=
  match a % 3 with
  | 0 => .work (a / 3) .answered (fun _ => false)
  | 1 => .drain (a / 3)
  | _ => .expire (a / 3).unpair.1 (a / 3).unpair.2

/-- The given events first, then the turns. -/
def schedule (first : List DispatchEvent) (n : Nat) : DispatchEvent :=
  first[n]?.getD (turn n.unpair.1)

theorem schedule_turn (first : List DispatchEvent) (a n : Nat) :
    ∃ m, n ≤ m ∧ schedule first m = turn a := by
  refine ⟨Nat.pair a (n + first.length), ?_, ?_⟩
  · exact le_trans (Nat.le_add_right _ _) (Nat.right_le_pair _ _)
  · unfold schedule
    rw [getElem?_eq_none (le_trans (Nat.le_add_left _ _) (Nat.right_le_pair _ _)),
      Option.getD_none, Nat.unpair_pair]

theorem schedule_fair (first : List DispatchEvent) : FairRun (schedule first) where
  workers w n := by
    obtain ⟨m, hnm, hm⟩ := schedule_turn first (3 * w) n
    refine ⟨m, hnm, .answered, fun _ => false, ?_⟩
    simp only [hm, turn, Nat.mul_mod_right, Nat.mul_div_cancel_left w (show 0 < 3 by omega)]
  loops l n := by
    obtain ⟨m, hnm, hm⟩ := schedule_turn first (3 * l + 1) n
    refine ⟨m, hnm, ?_⟩
    have hmod : (3 * l + 1) % 3 = 1 := by omega
    have hdiv : (3 * l + 1) / 3 = l := by omega
    simp only [hm, turn, hmod, hdiv]
  maintenance replica t n := by
    obtain ⟨m, hnm, hm⟩ := schedule_turn first (3 * Nat.pair replica t.toNat + 2) n
    refine ⟨m, hnm, t.toNat, Int.self_le_toNat t, ?_⟩
    have hmod : (3 * Nat.pair replica t.toNat + 2) % 3 = 2 := by omega
    have hdiv : (3 * Nat.pair replica t.toNat + 2) / 3 = Nat.pair replica t.toNat := by omega
    simp only [hm, turn, hmod, hdiv, Nat.unpair_pair]

/-- A turn is neither a close nor a deletion. -/
theorem turn_ne (a : Nat) : (∀ c, turn a ≠ .close c) ∧ ∀ p, turn a ≠ .delete p := by
  unfold turn
  split <;> exact ⟨fun _ h => (by cases h), fun _ h => (by cases h)⟩

/-- Three requests on connection 7, whose worker answers them before the io loop runs a task. -/
def burst : List DispatchEvent :=
  [.frame 7 0 .fetch 1 (some 0), .frame 7 0 .fetch 2 (some 0), .frame 7 0 .fetch 3 (some 0),
    .work 0 .answered (fun _ => false), .work 0 .answered (fun _ => false),
    .work 0 .answered (fun _ => false)]

theorem schedule_forall {first : List DispatchEvent} {P : DispatchEvent → Prop}
    (hfirst : ∀ ev ∈ first, P ev) (hturn : ∀ a, P (turn a)) (n : Nat) : P (schedule first n) := by
  unfold schedule
  cases h : first[n]? with
  | none => exact hturn _
  | some ev => exact hfirst ev (mem_of_getElem? h)

/-- With task queues of two places the response to the third request is dropped, and the request is
    never answered, however fairly the run goes on. -/
theorem dropped_response :
    FairRun (schedule burst) ∧ (∀ c n, schedule burst n ≠ .close c) ∧
      (∀ p n, schedule burst n ≠ .delete p) ∧
      schedule burst 2 = .frame 7 0 .fetch 3 (some 0) ∧ (run ⟨4, 2⟩ (schedule burst) 2).frames = 2 ∧
      ∀ n, (run ⟨4, 2⟩ (schedule burst) n).responsesTo 2 = [] := by
  refine ⟨schedule_fair burst, fun c => ?_, fun p => ?_, rfl, by decide +kernel, fun n => ?_⟩
  · exact schedule_forall (P := fun ev => ev ≠ .close c) (by simp [burst])
      (fun a => (turn_ne a).1 c)
  · exact schedule_forall (P := fun ev => ev ≠ .delete p) (by simp [burst])
      (fun a => (turn_ne a).2 p)
  -- from the sixth step on the request is among the dropped ones, so it is nowhere else
  have hgone : ∀ m, 6 ≤ m → 2 ∈ (run ⟨4, 2⟩ (schedule burst) m).dropped.map Response.serial := by
    intro m hm
    refine stable (P := fun s : Dispatch => 2 ∈ s.dropped.map Response.serial) (fun m h => ?_) hm
      (by decide +kernel)
    exact map_subset _ (keeps_step _ _ _).dropped.subset h
  have hnever : ∀ m, 6 ≤ m → (run ⟨4, 2⟩ (schedule burst) m).responsesTo 2 = [] := by
    intro m hm
    have hplaces := counted_run ⟨4, 2⟩ (schedule burst) m 2
    have hdropped := count_pos_iff.mpr (hgone m hm)
    unfold places at hplaces
    rw [← length_eq_zero_iff, length_responsesTo]
    split at hplaces <;> omega
  by_cases hn : 6 ≤ n
  · exact hnever n hn
  · -- what is sent stays
    refine eq_nil_iff_forall_not_mem.mpr (fun resp hresp => ?_)
    have hlate : resp ∈ (run ⟨4, 2⟩ (schedule burst) 6).sent := by
      refine stable (P := fun s : Dispatch => resp ∈ s.sent) (fun m h => ?_) (by omega)
        (mem_filter.mp hresp).1
      exact (keeps_step _ _ _).sent.subset h
    have hsix : resp ∈ (run ⟨4, 2⟩ (schedule burst) 6).responsesTo 2 :=
      mem_filter.mpr ⟨hlate, (mem_filter.mp hresp).2⟩
    rw [hnever 6 le_rfl] at hsix
    simp at hsix

/-- One request, answered by its worker and sent by its io loop. -/
def single : List DispatchEvent :=
  [.frame 7 0 .fetch 1 (some 0), .work 0 .answered (fun _ => false), .drain 0]

/-- Nothing is under way. -/
structure Idle (s : Dispatch) : Prop where
  queues : s.queues = []
  adding : s.adding = []
  waiters : s.waiters = []
  tasks : s.tasks = []

/-- In an idle broker the turns change nothing. -/
theorem Idle.turn {s : Dispatch} (h : Idle s) (cap : Capacities) (a : Nat) :
    step cap s (turn a) = s := by
  obtain ⟨frames, queues, adding, waiters, tasks, sent, dropped, unsent, deleted, closed⟩ := s
  obtain ⟨rfl, rfl, rfl, rfl⟩ := h
  unfold Dispatch.turn
  split
  · rfl
  · rfl
  · simp only [step]
    split <;> rfl

theorem schedule_late {first : List DispatchEvent} {n : Nat} (h : first.length ≤ n) :
    schedule first n = turn n.unpair.1 := by
  unfold schedule
  rw [getElem?_eq_none h, Option.getD_none]

theorem single_idle {n : Nat} (hn : 3 ≤ n) : Idle (run ⟨4, 2⟩ (schedule single) n) := by
  induction n, hn using Nat.le_induction with
  | base => exact ⟨by decide +kernel, by decide +kernel, by decide +kernel, by decide +kernel⟩
  | succ n hn ih =>
    rw [run_succ, schedule_late hn, ih.turn]
    exact ih

theorem single_no (p c : Nat) (n : Nat) :
    schedule single n ≠ .delete p ∧ schedule single n ≠ .close c :=
  schedule_forall (P := fun ev => ev ≠ .delete p ∧ ev ≠ .close c) (by simp [single])
    (fun a => ⟨(turn_ne a).2 p, (turn_ne a).1 c⟩) n

theorem single_smooth (n : Nat) :
    Smooth ⟨4, 2⟩ (run ⟨4, 2⟩ (schedule single) n) (schedule single n) := by
  refine ⟨?_, fun p hp => absurd hp (single_no p 0 n).1⟩
  by_cases hn : 3 ≤ n
  · rw [schedule_late hn, (single_idle hn).turn]
  · have hcases : n = 0 ∨ n = 1 ∨ n = 2 := by omega
    rcases hcases with rfl | rfl | rfl <;> decide +kernel

/-- The one request is answered once. -/
theorem single_answered :
    ∃ m, 0 < m ∧ ∀ k, m ≤ k → ∃ resp, (run ⟨4, 2⟩ (schedule single) k).responsesTo 0 = [resp] ∧
      resp.connection = 7 ∧ resp.requestId = 1 ∧ resp.opcode = .fetch :=
  (answered_once ⟨4, 2⟩ (schedule single) (schedule_fair single) single_smooth 7
    (fun n => (single_no 0 7 n).2) 0 0 .fetch 1 (some 0) rfl).2

end Dispatch

end PulseLog

/-
  Subject:   Waking the event loop (PostTask, Wake, DrainWakeup, DrainTasks and Run in
             src/net/event_loop.cc).

  A thread pushes its task in two steps, a ticket and the item, and then wakes the loop: the flag
  says that a write to the wake descriptor is under way or was not yet read. The loop clears the
  flag behind the read and before it drains the queue; a pop fails at a ticket whose item is not
  there yet. The atomics are sequentially consistent, and what other descriptors and timers do to
  the loop is that the wait may return at any time.

  * **`tasks_wake`** -- a loop that waits while tasks are there is woken by the descriptor.
-/
import Mathlib.Logic.Function.Basic
import PulseLog.General.Run

namespace PulseLog

open List

/-- Where a thread stands in `PostTask`. -/
inductive Posting where
  | idle
  /-- it has the ticket, the item is not there yet -/
  | claimed (ticket : Nat)
  /-- in front of the exchange of the flag -/
  | pushed
  | write
  deriving DecidableEq

/-- Where the loop stands in `Run`. -/
inductive Looping where
  | wait
  /-- the wait reported the wake descriptor -/
  | woken
  /-- in front of the clearing of the flag -/
  | clear
  /-- so many tasks may still be popped -/
  | drain (n : Nat)
  deriving DecidableEq

/-- The tickets popped and given, the items that are there, `wake_pending_`, and whether the wake
    descriptor is readable. -/
structure EventLoop where
  capacity : Nat
  head : Nat
  tail : Nat
  published : Nat → Bool
  wakePending : Bool
  readable : Bool
  posting : Nat → Posting
  looping : Looping

inductive LoopEvent where
  | post (t : Nat)
  /-- the loop goes on; a wait reports the wake descriptor, if it is readable and `reported` -/
  | loop (reported : Bool)

namespace EventLoop

def start (capacity : Nat) : EventLoop :=
  ⟨capacity, 0, 0, fun _ => false, false, false, fun _ => .idle, .wait⟩

/-- The next step of thread `t` in `PostTask`; a full queue refuses the task. -/
def post (s : EventLoop) (t : Nat) : EventLoop :=
  let goes (p : Posting) := Function.update s.posting t p
  match s.posting t with
  | .idle =>
    if s.tail < s.head + s.capacity then
      { s with tail := s.tail + 1, posting := goes (.claimed s.tail) }
    else s
  | .claimed ticket =>
    { s with published := Function.update s.published ticket true, posting := goes .pushed }
  | .pushed =>
    { s with wakePending := true, posting := goes (if s.wakePending then .idle else .write) }
  | .write => { s with readable := true, posting := goes .idle }

/-- The next step of the loop. -/
def loop (s : EventLoop) (reported : Bool) : EventLoop :=
  match s.looping with
  | .wait =>
    { s with looping := if s.readable && reported then .woken else .drain s.capacity }
  | .woken => { s with readable := false, looping := .clear }
  | .clear => { s with wakePending := false, looping := .drain s.capacity }
  | .drain 0 => { s with looping := .wait }
  | .drain (n + 1) =>
    if s.head < s.tail ∧ s.published s.head = true then
      { s with head := s.head + 1, looping := .drain n }
    else { s with looping := .wait }

def step (s : EventLoop) : LoopEvent → EventLoop
  | .post t => s.post t
  | .loop reported => s.loop reported

/-- Somebody is still posting. -/
def Busy (s : EventLoop) : Prop := ∃ t, s.posting t ≠ .idle

structure Inv (s : EventLoop) : Prop where
  room : s.tail ≤ s.head + s.capacity
  items : ∀ k, s.head ≤ k → k < s.tail → s.published k = false → ∃ t, s.posting t = .claimed k
  /-- a set flag means a wake-up on its way -/
  flag : s.wakePending = true → s.readable = true ∨ s.looping = .clear ∨ ∃ t, s.posting t = .write
  /-- somebody looks after the tasks -/
  tasks : s.head < s.tail → s.Busy ∨ s.readable = true ∨ s.looping = .clear ∨
    ∃ n, s.looping = .drain n ∧ s.tail ≤ s.head + n

variable {s : EventLoop} {t : Nat}

/-- The flag and the tasks need the loop only while it clears or drains. -/
theorem Inv.flag_of (h : Inv s) (hat : s.looping ≠ .clear) (hf : s.wakePending = true) :
    s.readable = true ∨ ∃ t, s.posting t = .write := by
  rcases h.flag hf with hread | hloop | hwrite
  · exact .inl hread
  · exact absurd hloop hat
  · exact .inr hwrite

/-- The loop goes on, and leaves no task to itself. -/
theorem Inv.go (h : Inv s) (hat : s.looping ≠ .clear)
    (htasks : s.head < s.tail → s.Busy ∨ s.readable = true) (next : Looping) :
    Inv { s with looping := next } := by
  refine ⟨h.room, h.items, fun hf => ?_, fun hlt => ?_⟩
  · rcases h.flag_of hat hf with hread | hwrite
    · exact .inl hread
    · exact .inr (.inr hwrite)
  · rcases htasks hlt with hbusy | hread
    · exact .inl hbusy
    · exact .inr (.inl hread)

theorem Inv.loop (h : Inv s) (reported : Bool) : Inv (s.loop reported) := by
  have hroom := h.room
  unfold EventLoop.loop
  split
  · rename_i hat
    refine h.go (by simp [hat]) (fun hlt => ?_) _
    rcases h.tasks hlt with hbusy | hread | hloop | ⟨n, hloop, -⟩
    · exact .inl hbusy
    · exact .inr hread
    · exact absurd hloop (by simp [hat])
    · exact absurd hloop (by simp [hat])
  · exact ⟨hroom, h.items, fun _ => .inr (.inl rfl), fun _ => .inr (.inr (.inl rfl))⟩
  · exact ⟨hroom, h.items, by simp, fun _ => .inr (.inr (.inr ⟨_, rfl, hroom⟩))⟩
  · rename_i hat
    refine h.go (by simp [hat]) (fun hlt => ?_) _
    rcases h.tasks hlt with hbusy | hread | hloop | ⟨n, hloop, hle⟩
    · exact .inl hbusy
    · exact .inr hread
    · exact absurd hloop (by simp [hat])
    · rw [hat] at hloop
      cases hloop
      omega
  · rename_i n hat
    split
    · rename_i hpop
      refine ⟨by dsimp only; omega, fun k hk => h.items k (by dsimp only at hk; omega),
        fun hf => ?_, fun hlt => ?_⟩
      · rcases h.flag_of (by simp [hat]) hf with hread | hwrite
        · exact .inl hread
        · exact .inr (.inr hwrite)
      · rcases h.tasks hpop.1 with hbusy | hread | hloop | ⟨m, hloop, hle⟩
        · exact .inl hbusy
        · exact .inr (.inl hread)
        · exact absurd hloop (by simp [hat])
        · rw [hat] at hloop
          cases hloop
          exact .inr (.inr (.inr ⟨n, rfl, by dsimp only; omega⟩))
    · rename_i hfail
      -- the pop failed at a ticket whose thread has yet to wake the loop
      refine h.go (by simp [hat]) (fun hlt => .inl ?_) _
      obtain ⟨t, ht⟩ := h.items s.head (Nat.le_refl _) hlt (by simpa [hlt] using hfail)
      exact ⟨t, by simp [ht]⟩

/-- A thread other than the one that goes on stays where it is. -/
theorem update_stays {f : Nat → Posting} {p : Posting} (h : ∃ t', f t' = p) (hne : f t ≠ p)
    (q : Posting) : ∃ t', Function.update f t q t' = p := by
  obtain ⟨t', ht'⟩ := h
  refine ⟨t', ?_⟩
  rw [Function.update_of_ne]
  · exact ht'
  · rintro rfl
    exact hne ht'

theorem Inv.post (h : Inv s) (t : Nat) : Inv (s.post t) := by
  have hroom := h.room
  have hbusy : ∀ {s' : EventLoop} {p}, s'.posting = Function.update s.posting t p →
      p ≠ .idle → s'.Busy := by
    intro s' p hs' hp
    exact ⟨t, by rw [hs', Function.update_self]; exact hp⟩
  unfold EventLoop.post
  split
  · rename_i hat
    split
    · rename_i hlt
      refine ⟨hlt, fun k hlo hhi hk => ?_, fun hf => ?_, fun _ => .inl (hbusy rfl (by simp))⟩
      · rcases Nat.lt_succ_iff_lt_or_eq.mp hhi with hhi | rfl
        · exact update_stays (h.items k hlo hhi hk) (by simp [hat]) _
        · exact ⟨t, Function.update_self ..⟩
      · rcases h.flag hf with hread | hloop | hwrite
        · exact .inl hread
        · exact .inr (.inl hloop)
        · exact .inr (.inr (update_stays hwrite (by simp [hat]) _))
    · exact h
  · rename_i ticket hat
    refine ⟨hroom, fun k hlo hhi hk => ?_, fun hf => ?_, fun _ => .inl (hbusy rfl (by simp))⟩
    · dsimp only at hk
      rcases eq_or_ne k ticket with rfl | hne
      · simp at hk
      · rw [Function.update_of_ne hne] at hk
        exact update_stays (h.items k hlo hhi hk) (by simpa [hat] using hne.symm) _
    · rcases h.flag hf with hread | hloop | hwrite
      · exact .inl hread
      · exact .inr (.inl hloop)
      · exact .inr (.inr (update_stays hwrite (by simp [hat]) _))
  · rename_i hat
    have hflag : s.readable = true ∨ s.looping = .clear ∨ ∃ t',
        Function.update s.posting t (if s.wakePending then .idle else .write) t' = .write := by
      split
      · rename_i hset
        rcases h.flag hset with hread | hloop | hwrite
        · exact .inl hread
        · exact .inr (.inl hloop)
        · exact .inr (.inr (update_stays hwrite (by simp [hat]) _))
      · exact .inr (.inr ⟨t, Function.update_self ..⟩)
    refine ⟨hroom, fun k hlo hhi hk => ?_, fun _ => hflag, fun _ => ?_⟩
    · exact update_stays (h.items k hlo hhi hk) (by simp [hat]) _
    · rcases hflag with hread | hloop | ⟨t', hwrite⟩
      · exact .inr (.inl hread)
      · exact .inr (.inr (.inl hloop))
      · exact .inl ⟨t', by simp [hwrite]⟩
  · rename_i hat
    refine ⟨hroom, fun k hlo hhi hk => ?_, fun hf => .inl rfl, fun _ => .inr (.inl rfl)⟩
    exact update_stays (h.items k hlo hhi hk) (by simp [hat]) _

theorem inv_run (capacity : Nat) (es : List LoopEvent) : Inv (es.foldl step (start capacity)) := by
  refine List.foldlRecOn es step ?_ fun s h e _ => ?_
  · exact ⟨Nat.zero_le _, by simp [start], by simp [start], by simp [start]⟩
  · cases e with
    | post t => exact h.post t
    | loop reported => exact h.loop reported

/-- **A loop that waits while tasks are there is woken.** In every run, of any number of posting
    threads and the loop, once each `PostTask` has returned the wake descriptor is readable whenever
    the loop is in front of its wait and a task has not run. -/
theorem tasks_wake (capacity : Nat) (es : List LoopEvent) {s : EventLoop}
    (hs : es.foldl step (start capacity) = s) (hposted : ∀ t, s.posting t = .idle)
    (hwait : s.looping = .wait) (htask : s.head < s.tail) : s.readable = true := by
  have h : Inv s := hs ▸ inv_run capacity es
  rcases h.tasks htask with ⟨t, hbusy⟩ | hread | hloop | ⟨n, hloop, -⟩
  · exact absurd (hposted t) hbusy
  · exact hread
  · exact absurd hloop (by simp [hwait])
  · exact absurd hloop (by simp [hwait])

/-- A second thread posts while the loop drains what a first one left, and finds the flag
    cleared. -/
theorem wakes_again : ∃ s : EventLoop,
    [.post 0, .post 0, .post 0, .post 0, .loop true, .loop true, .loop true, .loop true, .loop true,
      .post 1, .post 1, .post 1, .post 1].foldl step (start 8) = s ∧ s.readable = true := by
  refine ⟨_, rfl, tasks_wake 8 _ rfl (fun t => ?_) rfl (by decide)⟩
  match t with
  | 0 => rfl
  | 1 => rfl
  | t + 2 => rfl

end EventLoop
end PulseLog

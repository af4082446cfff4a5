/-
  Subject:   What one step of the dispatch does to a request.

  * `Smooth` -- the step finds room in the task queue for every response it makes, and deletes no
    replica to which a worker has appended a produce request and not yet added its waiter;
  * `Waiting.step` -- in smooth steps only produce requests wait, and none on a deleted replica;
  * `drain_task`, `waiter_step`, `work_adding`, `work_queue` -- in its place a request waits, comes
    nearer to its turn, or goes on to the next place.
-/
import PulseLog.Broker.Dispatch

namespace PulseLog

open List

namespace Dispatch

variable (cap : Capacities)

/-- Every response the step makes is posted, and no replica is deleted under a produce request that
    is about to wait on it. -/
def Smooth (s : Dispatch) (e : DispatchEvent) : Prop :=
  (step cap s e).dropped = s.dropped ∧
    ∀ replica, e = .delete replica → ∀ x ∈ s.adding, x.2.replica ≠ replica

/-! ## 1. The invariant of the waiters -/

section Steps

variable {cap} {s : Dispatch} {r : Request} {e : DispatchEvent} {ts : List (Nat × Response)}
  {ds : List Response} {w : ProduceWaiter} {sat : ProduceWaiter → Bool}

/-- Only produce requests wait, and none on a deleted replica. -/
structure Waiting (s : Dispatch) : Prop where
  adding : ∀ x ∈ s.adding, x.2.request.opcode = .produce ∧ x.2.replica ∉ s.deleted
  waiters : ∀ x ∈ s.waiters, x.2.request.opcode = .produce ∧ x.1 ∉ s.deleted

theorem Waiting.step (h : Waiting s) (hsmooth : Smooth cap s e) : Waiting (step cap s e) := by
  have hdoes := does_step cap s e
  generalize Dispatch.step cap s e = s' at hdoes
  cases hdoes with
  | ignored | inline | queued | idle | responded | empty | sent | unsent | closed =>
    exact ⟨h.adding, h.waiters⟩
  | @added w _ _ a rest hpop ws hws =>
    have hperm := pop_perm hpop
    refine ⟨fun y hy => h.adding y (hperm.mem_iff.mpr (mem_cons_of_mem _ hy)), fun y hy => ?_⟩
    have hy := (mem_filter.mp hy).1
    rw [hws] at hy
    rcases mem_append.mp hy with hy | hy
    · exact h.waiters y hy
    · rw [mem_singleton.mp hy]
      exact h.adding (w, a) (hperm.mem_iff.mpr mem_cons_self)
  | appended hadding hpop hproduce hreplica =>
    refine ⟨fun y hy => ?_, h.waiters⟩
    rcases mem_append.mp hy with hy | hy
    · exact h.adding y hy
    · rw [mem_singleton.mp hy]
      exact ⟨hproduce, hreplica⟩
  | completed he hgone =>
    rcases hgone with rfl | ⟨rfl, rfl, rfl⟩
    · exact ⟨h.adding, fun x hx => h.waiters x (mem_filter.mp hx).1⟩
    -- all waiters of the replica are answered, and no request is about to wait on it
    refine ⟨fun x hx => ⟨(h.adding x hx).1, fun hd => ?_⟩, fun x hx => ?_⟩
    · rcases mem_cons.mp hd with hd | hd
      · exact hsmooth.2 _ rfl x hx hd
      · exact (h.adding x hx).2 hd
    · obtain ⟨hx, hne⟩ := mem_filter.mp hx
      refine ⟨(h.waiters x hx).1, fun hd => ?_⟩
      rcases mem_cons.mp hd with hd | hd
      · simp [chosen, hd] at hne
      · exact (h.waiters x hx).2 hd

/-! ## 2. From place to place -/

/-- The response is in the task queue of its io loop. -/
def InTasks (r : Request) (s : Dispatch) : Prop := r.answer r.opcode ∈ queueOf r.loop s.tasks

/-- The response is on its connection. -/
def IsSent (r : Request) (s : Dispatch) : Prop := r.answer r.opcode ∈ s.sent

/-- The produce request waits for durability. -/
def InWaiters (r : Request) (s : Dispatch) : Prop := ∃ p d, (p, ⟨r, d⟩) ∈ s.waiters

/-- What a step leaves alone: only an io loop takes something out of the task queues, nothing but
    its worker takes a request out of a worker's hands, what is on a connection stays, and nothing
    but a close closes one. -/
structure Keeps (s : Dispatch) (e : DispatchEvent) (s' : Dispatch) : Prop where
  tasks : (∀ l, e ≠ .drain l) → s.tasks <+: s'.tasks
  sent : s.sent <+: s'.sent
  dropped : s.dropped <+: s'.dropped
  closed : ∀ c ∈ s'.closed, e = .close c ∨ c ∈ s.closed
  adding : ∀ w, (∀ x sat, e ≠ .work w x sat) → queueOf w s'.adding = queueOf w s.adding
  queues : ∀ w, (∀ x sat, e ≠ .work w x sat) → queueOf w s.queues <+: queueOf w s'.queues

theorem keeps_step (cap : Capacities) (s : Dispatch) (e : DispatchEvent) :
    Keeps s e (step cap s e) := by
  have hdoes := does_step cap s e
  generalize Dispatch.step cap s e = s' at hdoes
  have hsame : Keeps s e s :=
    ⟨fun _ => prefix_rfl, prefix_rfl, prefix_rfl, fun _ => .inr, fun _ _ => rfl,
      fun _ _ => prefix_rfl⟩
  have hother : ∀ {w x sat v}, (∀ x' sat', DispatchEvent.work w x sat ≠ .work v x' sat') → v ≠ w :=
    fun hv he => hv _ _ (congrArg (DispatchEvent.work · _ _) he.symm)
  cases hdoes with
  | ignored | idle | empty => exact hsame
  | inline => exact { hsame with sent := prefix_append _ _ }
  | queued =>
    refine { hsame with queues := fun v _ => ?_ }
    rw [queueOf_append]
    exact prefix_append _ _
  | added hpop =>
    exact { hsame with
      tasks := fun _ => prefix_append _ _
      dropped := prefix_append _ _
      adding := fun v hv => queueOf_pop_of_ne hpop (hother hv) }
  | @appended w _ _ _ _ _ _ hadding hpop =>
    refine { hsame with
      adding := fun v hv => ?_
      queues := fun v hv => queueOf_pop_of_ne hpop (hother hv) ▸ prefix_rfl }
    rw [queueOf_append, show queueOf v [(w, _)] = [] by simp [queueOf, (hother hv).symm],
      append_nil]
  | responded hadding hpop =>
    exact { hsame with
      tasks := fun _ => prefix_append _ _
      dropped := prefix_append _ _
      queues := fun v hv => queueOf_pop_of_ne hpop (hother hv) ▸ prefix_rfl }
  | completed =>
    exact { hsame with
      tasks := fun _ => prefix_append _ _
      dropped := prefix_append _ _ }
  | sent => exact { hsame with tasks := fun h => absurd rfl (h _), sent := prefix_append _ _ }
  | unsent => exact { hsame with tasks := fun h => absurd rfl (h _) }
  | closed =>
    exact { hsame with
      closed := fun c hc => (mem_cons.mp hc).imp_left (congrArg DispatchEvent.close ·.symm) }

/-- How many responses are ahead of it. -/
def taskRank (r : Request) (s : Dispatch) : Nat :=
  (queueOf r.loop s.tasks).idxOf (r.answer r.opcode)

/-- A posted response is sent when its turn comes. -/
theorem drain_task (l : Nat) (hopen : r.connection ∉ s.closed) (h : InTasks r s) :
    IsSent r (step cap s (.drain l)) ∨ InTasks r (step cap s (.drain l)) ∧
      taskRank r (step cap s (.drain l)) + (if l = r.loop then 1 else 0) ≤ taskRank r s := by
  have hdoes := does_step cap s (.drain l)
  generalize step cap s (.drain l) = s' at hdoes
  -- the first response of the loop goes: it is this one, or this one moves up
  have hturn : ∀ {resp rest}, pop l s.tasks = some (resp, rest) → resp = r.answer r.opcode ∨
      r.answer r.opcode ∈ queueOf r.loop rest ∧
        (queueOf r.loop rest).idxOf (r.answer r.opcode) + (if l = r.loop then 1 else 0) ≤
          taskRank r s := by
    intro resp rest hpop
    by_cases hl : l = r.loop
    · subst hl
      rw [if_pos rfl]
      exact (pop_idxOf hpop h).imp Eq.symm (fun hnear => ⟨hnear.1, Nat.le_of_eq hnear.2⟩)
    · rw [queueOf_pop_of_ne hpop (Ne.symm hl), if_neg hl]
      exact .inr ⟨h, Nat.le_refl _⟩
  cases hdoes with
  | ignored he | completed he => cases he
  | empty hpop =>
    refine .inr ⟨h, ?_⟩
    rw [if_neg]
    · exact Nat.le_refl _
    · intro hl
      rw [InTasks, ← hl, pop_none hpop] at h
      simp at h
  | sent hpop =>
    refine (hturn hpop).imp_left (fun hresp => ?_)
    rw [hresp]
    exact mem_append_right _ (mem_singleton.mpr rfl)
  | unsent hpop hclosed =>
    refine .inr ((hturn hpop).resolve_left (fun hresp => hopen ?_))
    rw [hresp] at hclosed
    exact hclosed

/-- If none is dropped, all are posted. -/
theorem mem_of_posted {resps : List Response}
    (h : Posted resps ts ds) (hdrop : s.dropped ++ ds = s.dropped) {resp : Response}
    (hresp : resp ∈ resps) : (resp.loop, resp) ∈ s.tasks ++ ts := by
  have hd : ds = [] := by simpa using hdrop
  have hmem := h.perm.mem_iff.mpr hresp
  rw [hd, append_nil] at hmem
  obtain ⟨x, hx, rfl⟩ := mem_map.mp hmem
  refine mem_append_right _ ?_
  rw [← h.loop x hx]
  exact hx

/-- A waiter stays, or its response is posted. -/
theorem answered_waiter {ws : List (Nat × ProduceWaiter)} {p replica : Nat}
    {sel : ProduceWaiter → Bool}
    (h : Posted (answers ws replica sel) ts ds) (hdrop : s.dropped ++ ds = s.dropped)
    (hw : (p, w) ∈ ws) (hproduce : w.request.opcode = .produce) :
    InTasks w.request (answered s ws replica sel ts ds) ∨
      (p, w) ∈ (answered s ws replica sel ts ds).waiters ∧ chosen replica sel (p, w) = false := by
  cases hsel : chosen replica sel (p, w) with
  | false => exact .inr ⟨mem_filter.mpr ⟨hw, by rw [hsel]; rfl⟩, rfl⟩
  | true =>
    left
    unfold InTasks
    rw [hproduce]
    refine mem_queueOf.mpr (mem_of_posted h hdrop (mem_map.mpr ⟨(p, w), ?_, rfl⟩))
    exact mem_filter.mpr ⟨hw, hsel⟩

/-- A waiting request goes on waiting, or its response is posted. -/
theorem waiter_step {p : Nat} (hs : Waiting s)
    (hsmooth : Smooth cap s e) (hw : (p, w) ∈ s.waiters) :
    InTasks w.request (step cap s e) ∨ (p, w) ∈ (step cap s e).waiters := by
  have hproduce := (hs.waiters _ hw).1
  have hdrop := hsmooth.1
  have hdoes := does_step cap s e
  generalize step cap s e = s' at hdoes hdrop
  cases hdoes with
  | ignored | inline | queued | idle | appended | responded | empty | sent | unsent | closed =>
    exact .inr hw
  | added hpop hws hpost =>
    refine (answered_waiter hpost hdrop ?_ hproduce).imp_right And.left
    rw [hws]
    exact mem_append_left _ hw
  | completed he hgone hpost => exact (answered_waiter hpost hdrop hw hproduce).imp_right And.left

/-- Past the deadline the maintenance loop answers. -/
theorem expire_waiter {p : Nat} {now : Int} (hs : Waiting s)
    (hsmooth : Smooth cap s (.expire p now)) (hw : (p, w) ∈ s.waiters) (hnow : w.deadlineMs ≤ now) :
    InTasks w.request (step cap s (.expire p now)) := by
  obtain ⟨hproduce, hthere⟩ := hs.waiters _ hw
  obtain ⟨ts, ds, hpost, heq⟩ := complete_eq cap s p (fun w => decide (w.deadlineMs ≤ now))
  have hdrop := hsmooth.1
  simp only [step, if_neg hthere, heq] at hdrop ⊢
  refine (answered_waiter hpost hdrop hw hproduce).resolve_right (fun hkept => ?_)
  simp [chosen, hnow] at hkept

/-- A worker that owes a waiter adds it: the request waits, or is answered at once. -/
theorem work_adding {w : Nat} {x : Executed} {a : Adding}
    (hs : Waiting s) (hsmooth : Smooth cap s (.work w x sat)) (ha : a ∈ queueOf w s.adding) :
    (InWaiters a.request (step cap s (.work w x sat)) ∨
      InTasks a.request (step cap s (.work w x sat))) ∨
    a ∈ queueOf w (step cap s (.work w x sat)).adding ∧
      (queueOf w (step cap s (.work w x sat)).adding).idxOf a + 1 =
        (queueOf w s.adding).idxOf a := by
  have hproduce := (hs.adding _ (mem_queueOf.mp ha)).1
  have hdrop := hsmooth.1
  have hdoes := does_step cap s (.work w x sat)
  generalize step cap s (.work w x sat) = s' at hdoes hdrop
  cases hdoes with
  | ignored he | completed he => cases he
  | added hpop hws hpost =>
    rcases pop_idxOf hpop ha with rfl | hnear
    · left
      have hmem := mem_append_right s.waiters
        (mem_singleton.mpr (rfl : (a.replica, ⟨a.request, a.deadlineMs⟩) = _))
      rcases answered_waiter hpost hdrop (hws ▸ hmem) hproduce with h | h
      · exact .inr h
      · exact .inl ⟨_, _, h.1⟩
    · exact .inr hnear
  | idle hnone | appended hnone | responded hnone =>
    rw [pop_none hnone] at ha
    simp at ha

/-- How long until the worker takes the request: two steps for each one ahead of it, and one if the
    worker still owes a waiter. -/
def queueRank (w : Nat) (r : Request) (s : Dispatch) : Nat :=
  2 * (queueOf w s.queues).idxOf r + (queueOf w s.adding).length

/-- A worker's step brings a request in its queue nearer to its turn, or it is its turn: the request
    is answered, or its waiter is owed. -/
theorem work_queue {w : Nat} {x : Executed}
    (hsmooth : Smooth cap s (.work w x sat)) (hr : r ∈ queueOf w s.queues) :
    ((∃ a, a.request = r ∧ a ∈ queueOf w (step cap s (.work w x sat)).adding) ∨
      InTasks r (step cap s (.work w x sat))) ∨
    r ∈ queueOf w (step cap s (.work w x sat)).queues ∧
      queueRank w r (step cap s (.work w x sat)) < queueRank w r s := by
  have hdrop := hsmooth.1
  have hdoes := does_step cap s (.work w x sat)
  generalize step cap s (.work w x sat) = s' at hdoes hdrop
  unfold queueRank
  cases hdoes with
  | ignored he | completed he => cases he
  | idle hnone hpop =>
    rw [pop_none hpop] at hr
    simp at hr
  | added hpop =>
    refine .inr ⟨hr, ?_⟩
    rw [queueOf_pop hpop]
    simp only [answered, length_cons]
    omega
  | @appended _ _ _ b _ replica deadline hnone hpop =>
    have hempty := pop_none hnone
    have hadding : queueOf w (s.adding ++ [(w, ⟨b, replica, deadline⟩)]) =
        [⟨b, replica, deadline⟩] := by
      rw [queueOf_append, hempty]
      simp [queueOf]
    rcases pop_idxOf hpop hr with rfl | ⟨hmem, hidx⟩
    · exact .inl (.inl ⟨⟨r, replica, deadline⟩, rfl, by rw [hadding]; exact mem_cons_self⟩)
    · refine .inr ⟨hmem, ?_⟩
      rw [hadding, hempty]
      simp only [length_cons]
      omega
  | responded hnone hpop hpost =>
    rcases pop_idxOf hpop hr with rfl | ⟨hmem, hidx⟩
    · exact .inl (.inr (mem_queueOf.mpr (mem_of_posted hpost hdrop mem_cons_self)))
    · refine .inr ⟨hmem, ?_⟩
      dsimp only
      omega

end Steps

end Dispatch

end PulseLog

/-
  Subject:   A request from its frame to its response: io loops, partition workers, durability
             waiters and the io loops' task queues (src/broker/request_handler.cc,
             src/broker/worker.cc, src/net/event_loop.cc).

  A frame is answered inline, or goes through a bounded worker queue; the worker answers it, or
  leaves a waiter that a flush, a follower's report, the maintenance loop or a deletion completes.
  Every answer that does not come inline crosses the bounded task queue of the connection's io loop.

  * `onFrame`, `work`, `complete`, `failAllWaiters`, `respond`, `drainTask` -- the steps; what a
    worker finds out about a request and which waiters are satisfied is given with the step;
  * `Does` -- everything a step can do;
  * `Counted.step` -- every decoded request is in exactly one place: no step loses one or makes two
    of it.
-/
import PulseLog.General.Tagged
import PulseLog.Protocol.Frame

namespace PulseLog

open List

/-! ## 1. Requests and responses -/

/-- A decoded request frame; `serial` counts the frames. -/
structure Request where
  serial : Nat
  connection : Nat
  loop : Nat
  opcode : OpCode
  requestId : Nat
  deriving Repr, DecidableEq

/-- A response frame, with the serial of its request. -/
structure Response where
  serial : Nat
  connection : Nat
  loop : Nat
  opcode : OpCode
  requestId : Nat
  deriving Repr, DecidableEq

/-- The response to a request, under the opcode the handler names. -/
def Request.answer (r : Request) (opcode : OpCode) : Response :=
  ⟨r.serial, r.connection, r.loop, opcode, r.requestId⟩

/-- Where `OnFrame` sends a frame: inline (`none`) or to a worker. `peeked` is the worker of the
    topic and partition at the front of the payload, if they can be read. -/
def routeOf (opcode : OpCode) (peeked : Option Nat) : Option Nat :=
  match opcode with
  | .health | .metadata | .listTopics | .describeCluster | .joinGroup | .heartbeat | .leaveGroup
  | .commitOffset | .fetchOffset => none
  | .createTopic | .deleteTopic => some 0
  | _ => peeked

/-- The opcode under which `Execute` answers: each handler names its own, and the default branch
    repeats the request's. -/
def executeOpcode : OpCode → OpCode
  | .produce => .produce
  | .fetch => .fetch
  | .listOffsets => .listOffsets
  | .replicate => .replicate
  | .replicaFetch => .replicaFetch
  | .replicaAck => .replicaAck
  | .createTopic => .createTopic
  | .deleteTopic => .deleteTopic
  | other => other

theorem executeOpcode_eq (opcode : OpCode) : executeOpcode opcode = opcode := by
  cases opcode <;> rfl

/-- A produce request between its append and `AddWaiter`. -/
structure Adding where
  request : Request
  replica : Nat
  deadlineMs : Int
  deriving Repr, DecidableEq

/-- A `DurabilityWaiter`. -/
structure ProduceWaiter where
  request : Request
  deadlineMs : Int
  deriving Repr, DecidableEq

/-! ## 2. The broker -/

structure Capacities where
  workerQueue : Nat
  taskQueue : Nat

/-- The requests on their way. A queue is the part of a list with its tag: the worker's index, the
    replica, the io loop. `dropped` are the responses that found their task queue full, `unsent`
    those whose connection had closed. -/
structure Dispatch where
  frames : Nat
  queues : List (Nat × Request)
  adding : List (Nat × Adding)
  waiters : List (Nat × ProduceWaiter)
  tasks : List (Nat × Response)
  sent : List Response
  dropped : List Response
  unsent : List Response
  deleted : List Nat
  closed : List Nat

/-- What a worker finds for a produce request: it is answered at once, or appended to a replica. -/
inductive Executed where
  | answered
  | appended (replica : Nat) (deadlineMs : Int)
  deriving Repr, DecidableEq

inductive DispatchEvent where
  /-- a frame is decoded on an open connection -/
  | frame (connection loop : Nat) (opcode : OpCode) (requestId : Nat) (peeked : Option Nat)
  /-- worker `w` goes on; `satisfied` are the waiters that `AddWaiter` finds satisfied -/
  | work (w : Nat) (executed : Executed) (satisfied : ProduceWaiter → Bool)
  /-- a flush or a follower's report completes waiters of a replica -/
  | complete (replica : Nat) (satisfied : ProduceWaiter → Bool)
  /-- the maintenance loop at a replica -/
  | expire (replica : Nat) (nowMs : Int)
  /-- the deletion of a replica: out of the map, and `FailAllWaiters` -/
  | delete (replica : Nat)
  /-- io loop `l` runs its next task -/
  | drain (l : Nat)
  | close (connection : Nat)

namespace Dispatch

def start : Dispatch := ⟨0, [], [], [], [], [], [], [], [], []⟩

variable (cap : Capacities)

/-- `Respond`: the response is posted to the connection's io loop, and dropped if the task queue is
    full. -/
def respond (s : Dispatch) (resp : Response) : Dispatch :=
  if (queueOf resp.loop s.tasks).length < cap.taskQueue then
    { s with tasks := s.tasks ++ [(resp.loop, resp)] }
  else { s with dropped := s.dropped ++ [resp] }

def respondAll (s : Dispatch) (resps : List Response) : Dispatch := resps.foldl (respond cap) s

/-- The waiter is one of the replica and `sel` selects it. -/
def chosen (replica : Nat) (sel : ProduceWaiter → Bool) (x : Nat × ProduceWaiter) : Bool :=
  x.1 = replica && sel x.2

/-- The responses to the waiters that are selected. -/
def answers (ws : List (Nat × ProduceWaiter)) (replica : Nat) (sel : ProduceWaiter → Bool) :
    List Response :=
  (ws.filter (chosen replica sel)).map fun x => x.2.request.answer .produce

/-- The callbacks of the waiters of a replica that `sel` selects. -/
def complete (s : Dispatch) (replica : Nat) (sel : ProduceWaiter → Bool) : Dispatch :=
  respondAll cap { s with waiters := s.waiters.filter (fun x => !chosen replica sel x) }
    (answers s.waiters replica sel)

/-- `OnFrame` with `RouteToWorker`; a full worker queue is answered with BACKPRESSURE. -/
def onFrame (s : Dispatch) (r : Request) (peeked : Option Nat) : Dispatch :=
  match routeOf r.opcode peeked with
  | none => { s with sent := s.sent ++ [r.answer r.opcode] }
  | some w =>
    if (queueOf w s.queues).length < cap.workerQueue then
      { s with queues := s.queues ++ [(w, r)] }
    else { s with sent := s.sent ++ [r.answer r.opcode] }

/-- `AddWaiter`. -/
def addWaiter (s : Dispatch) (a : Adding) (satisfied : ProduceWaiter → Bool) : Dispatch :=
  complete cap { s with waiters := s.waiters ++ [(a.replica, ⟨a.request, a.deadlineMs⟩)] } a.replica
    satisfied

/-- `Execute`, for a produce request up to its append. -/
def execute (s : Dispatch) (w : Nat) (r : Request) (executed : Executed) : Dispatch :=
  match r.opcode, executed with
  | .produce, .appended replica deadlineMs =>
    -- a replica that is gone is not found
    if replica ∈ s.deleted then respond cap s (r.answer r.opcode)
    else { s with adding := s.adding ++ [(w, ⟨r, replica, deadlineMs⟩)] }
  | opcode, _ => respond cap s (r.answer (executeOpcode opcode))

/-- One step of worker `w`. -/
def work (s : Dispatch) (w : Nat) (executed : Executed) (satisfied : ProduceWaiter → Bool) :
    Dispatch :=
  match pop w s.adding with
  | some (a, rest) => addWaiter cap { s with adding := rest } a satisfied
  | none =>
    match pop w s.queues with
    | some (r, rest) => execute cap { s with queues := rest } w r executed
    | none => s

/-- One task of io loop `l`: `SendFrame` on the connection, if it is still there. -/
def drainTask (s : Dispatch) (l : Nat) : Dispatch :=
  match pop l s.tasks with
  | none => s
  | some (resp, rest) =>
    if resp.connection ∈ s.closed then
      { s with tasks := rest, unsent := s.unsent ++ [resp] }
    else { s with tasks := rest, sent := s.sent ++ [resp] }

def step (s : Dispatch) : DispatchEvent → Dispatch
  | .frame connection loop opcode requestId peeked =>
    if connection ∈ s.closed then s
    else
      onFrame cap { s with frames := s.frames + 1 }
        ⟨s.frames, connection, loop, opcode, requestId⟩ peeked
  | .work w executed satisfied => work cap s w executed satisfied
  | .complete replica satisfied =>
    if replica ∈ s.deleted then s else complete cap s replica satisfied
  | .expire replica nowMs =>
    if replica ∈ s.deleted then s
    else complete cap s replica (fun w => decide (w.deadlineMs ≤ nowMs))
  | .delete replica =>
    if replica ∈ s.deleted then s
    else complete cap { s with deleted := replica :: s.deleted } replica (fun _ => true)
  | .drain l => drainTask s l
  | .close connection => { s with closed := connection :: s.closed }

/-! ## 3. What a step does -/

/-- Every response is posted to the task queue of its io loop, or dropped. -/
structure Posted (resps : List Response) (ts : List (Nat × Response)) (ds : List Response) :
    Prop where
  perm : (ts.map Prod.snd ++ ds).Perm resps
  loop : ∀ x ∈ ts, x.1 = x.2.loop

theorem respondAll_eq (resps : List Response) (s : Dispatch) : ∃ ts ds, Posted resps ts ds ∧
    respondAll cap s resps = { s with tasks := s.tasks ++ ts, dropped := s.dropped ++ ds } := by
  induction resps generalizing s with
  | nil => exact ⟨[], [], ⟨.nil, nofun⟩, by simp [respondAll]⟩
  | cons resp resps ih =>
    obtain ⟨ts, ds, hpost, heq⟩ := ih (respond cap s resp)
    have hcons : respondAll cap s (resp :: resps) = respondAll cap (respond cap s resp) resps := rfl
    rw [hcons, heq]
    unfold respond
    split
    · exact ⟨(resp.loop, resp) :: ts, ds, ⟨hpost.perm.cons _, by simpa using hpost.loop⟩, by simp⟩
    · exact ⟨ts, resp :: ds, ⟨perm_middle.trans (hpost.perm.cons _), hpost.loop⟩, by simp⟩

/-- The waiters `ws`, with those of the replica that `sel` selects answered. -/
def answered (s : Dispatch) (ws : List (Nat × ProduceWaiter)) (replica : Nat)
    (sel : ProduceWaiter → Bool) (ts : List (Nat × Response)) (ds : List Response) : Dispatch :=
  { s with
    waiters := ws.filter fun x => !chosen replica sel x
    tasks := s.tasks ++ ts
    dropped := s.dropped ++ ds }

theorem complete_eq (s : Dispatch) (replica : Nat) (sel : ProduceWaiter → Bool) : ∃ ts ds,
    Posted (answers s.waiters replica sel) ts ds ∧
      complete cap s replica sel = answered s s.waiters replica sel ts ds :=
  respondAll_eq cap _ _

/-- The event is neither a worker's step nor an io loop's. -/
def outside : DispatchEvent → Bool
  | .work .. | .drain _ => false
  | _ => true

/-- What a step does. -/
inductive Does (s : Dispatch) : DispatchEvent → Dispatch → Prop
  | ignored {e : DispatchEvent} (he : outside e = true) : Does s e s
  | inline (c l : Nat) (opcode : OpCode) (id : Nat) (peeked : Option Nat) :
      Does s (.frame c l opcode id peeked) { s with
        frames := s.frames + 1
        sent := s.sent ++ [Request.answer ⟨s.frames, c, l, opcode, id⟩ opcode] }
  | queued (c l : Nat) (opcode : OpCode) (id : Nat) (peeked : Option Nat) (w : Nat) :
      Does s (.frame c l opcode id peeked) { s with
        frames := s.frames + 1
        queues := s.queues ++ [(w, ⟨s.frames, c, l, opcode, id⟩)] }
  | idle {w : Nat} {x : Executed} {sat : ProduceWaiter → Bool} (hadding : pop w s.adding = none)
      (hqueues : pop w s.queues = none) : Does s (.work w x sat) s
  | added {w : Nat} {x : Executed} {sat : ProduceWaiter → Bool} {a : Adding}
      {rest : List (Nat × Adding)} (hpop : pop w s.adding = some (a, rest))
      {ws : List (Nat × ProduceWaiter)}
      (hws : ws = s.waiters ++ [(a.replica, ⟨a.request, a.deadlineMs⟩)])
      {ts : List (Nat × Response)} {ds : List Response}
      (hpost : Posted (answers ws a.replica sat) ts ds) :
      Does s (.work w x sat) (answered { s with adding := rest } ws a.replica sat ts ds)
  | appended {w : Nat} {x : Executed} {sat : ProduceWaiter → Bool} {r : Request}
      {rest : List (Nat × Request)} {replica : Nat} {deadline : Int}
        (hadding : pop w s.adding = none)
      (hpop : pop w s.queues = some (r, rest)) (hproduce : r.opcode = .produce)
      (hreplica : replica ∉ s.deleted) :
      Does s (.work w x sat) { s with
        queues := rest
        adding := s.adding ++ [(w, ⟨r, replica, deadline⟩)] }
  | responded {w : Nat} {x : Executed} {sat : ProduceWaiter → Bool} {r : Request}
      {rest : List (Nat × Request)} (hadding : pop w s.adding = none)
      (hpop : pop w s.queues = some (r, rest)) {ts : List (Nat × Response)} {ds : List Response}
      (hpost : Posted [r.answer r.opcode] ts ds) :
      Does s (.work w x sat) { s with
        queues := rest
        tasks := s.tasks ++ ts
        dropped := s.dropped ++ ds }
  | completed {e : DispatchEvent} (he : outside e = true) {gone : List Nat} {replica : Nat}
      {sel : ProduceWaiter → Bool}
      (hgone : gone = s.deleted ∨
        e = .delete replica ∧ gone = replica :: s.deleted ∧ sel = fun _ => true)
      {ts : List (Nat × Response)} {ds : List Response}
      (hpost : Posted (answers s.waiters replica sel) ts ds) :
      Does s e (answered { s with deleted := gone } s.waiters replica sel ts ds)
  | empty {l : Nat} (htasks : pop l s.tasks = none) : Does s (.drain l) s
  | sent {l : Nat} {resp : Response} {rest : List (Nat × Response)}
      (hpop : pop l s.tasks = some (resp, rest)) :
      Does s (.drain l) { s with tasks := rest, sent := s.sent ++ [resp] }
  | unsent {l : Nat} {resp : Response} {rest : List (Nat × Response)}
      (hpop : pop l s.tasks = some (resp, rest)) (hclosed : resp.connection ∈ s.closed) :
      Does s (.drain l) { s with tasks := rest, unsent := s.unsent ++ [resp] }
  | closed (c : Nat) : Does s (.close c) { s with closed := c :: s.closed }

theorem does_execute {s : Dispatch} {w : Nat} {x : Executed} {sat : ProduceWaiter → Bool}
    {r : Request} {rest : List (Nat × Request)} (hadding : pop w s.adding = none)
    (hpop : pop w s.queues = some (r, rest)) :
    Does s (.work w x sat) (execute cap { s with queues := rest } w r x) := by
  have hrespond : Does s (.work w x sat)
      (respond cap { s with queues := rest } (r.answer r.opcode)) := by
    obtain ⟨ts, ds, hpost, heq⟩ := respondAll_eq cap [r.answer r.opcode] { s with queues := rest }
    rw [show respond cap _ _ = respondAll cap _ [_] from rfl, heq]
    exact .responded hadding hpop hpost
  unfold execute
  split
  · split
    · exact hrespond
    · exact .appended hadding hpop ‹_› ‹_›
  · rw [executeOpcode_eq]
    exact hrespond

theorem does_complete {s : Dispatch} {e : DispatchEvent} (he : outside e = true) (gone : List Nat)
    (replica : Nat) (sel : ProduceWaiter → Bool) (hgone : gone = s.deleted ∨
      e = .delete replica ∧ gone = replica :: s.deleted ∧ sel = fun _ => true) :
    Does s e (complete cap { s with deleted := gone } replica sel) := by
  obtain ⟨ts, ds, hpost, heq⟩ := complete_eq cap { s with deleted := gone } replica sel
  rw [heq]
  exact .completed he hgone hpost

/-- **Every step does one of these.** -/
theorem does_step (s : Dispatch) (e : DispatchEvent) : Does s e (step cap s e) := by
  cases e with
  | frame c l opcode id peeked =>
    simp only [step]
    split
    · exact .ignored rfl
    unfold onFrame
    split
    · exact .inline c l opcode id peeked
    split
    · exact .queued c l opcode id peeked _
    · exact .inline c l opcode id peeked
  | work w x sat =>
    simp only [step, work]
    split
    · rename_i a rest hpop
      obtain ⟨ts, ds, hpost, heq⟩ := complete_eq cap
        { s with adding := rest, waiters := s.waiters ++ [(a.replica, ⟨a.request, a.deadlineMs⟩)] }
        a.replica sat
      rw [addWaiter, heq]
      exact .added hpop rfl hpost
    split
    · exact does_execute cap ‹_› ‹_›
    · exact .idle ‹_› ‹_›
  | complete | expire =>
    simp only [step]
    split
    · exact .ignored rfl
    · exact does_complete cap rfl s.deleted _ _ (.inl rfl)
  | delete replica =>
    simp only [step]
    split
    · exact .ignored rfl
    · exact does_complete cap rfl _ replica _ (.inr ⟨rfl, rfl, rfl⟩)
  | drain l =>
    simp only [step, drainTask]
    split
    · exact .empty ‹_›
    split
    · exact .unsent ‹_› ‹_›
    · exact .sent ‹_›
  | close c => exact .closed c

/-! ## 4. Every request is in one place -/

/-- In how many places the request with the serial is. -/
def places (s : Dispatch) (k : Nat) : Nat :=
  (s.queues.map (fun x => x.2.serial)).count k +
    (s.adding.map (fun x => x.2.request.serial)).count k +
    (s.waiters.map (fun x => x.2.request.serial)).count k +
      (s.tasks.map (fun x => x.2.serial)).count k +
    (s.dropped.map Response.serial).count k + (s.unsent.map Response.serial).count k +
    (s.sent.map Response.serial).count k

section Conservation

variable {cap} {s : Dispatch}

theorem count_pop {α : Type} {t : Nat} {l l' : List (Nat × α)} {a : α} (f : α → Nat)
    (h : pop t l = some (a, l')) (k : Nat) :
    (l.map fun x => f x.2).count k = (l'.map fun x => f x.2).count k + [f a].count k := by
  rw [((pop_perm h).map fun x => f x.2).count_eq k, map_cons, ← singleton_append, count_append]
  exact Nat.add_comm _ _

theorem Posted.count {resps : List Response} {ts : List (Nat × Response)} {ds : List Response}
    (h : Posted resps ts ds) (k : Nat) :
    (ts.map fun x => x.2.serial).count k + (ds.map Response.serial).count k =
      (resps.map Response.serial).count k := by
  have hcount := (h.perm.map Response.serial).count_eq k
  rw [map_append, count_append, map_map] at hcount
  exact hcount

/-- Waiters that are completed become responses. -/
theorem places_answered (s : Dispatch) {ws : List (Nat × ProduceWaiter)} {replica : Nat}
    {sel : ProduceWaiter → Bool} {ts : List (Nat × Response)} {ds : List Response}
    (h : Posted (answers ws replica sel) ts ds) (k : Nat) :
    (answered s ws replica sel ts ds).places k =
      ({ s with waiters := ws } : Dispatch).places k := by
  have hsplit := ((filter_append_perm (chosen replica sel) ws).map
    fun x => x.2.request.serial).count_eq k
  have hcount := h.count k
  rw [answers, map_map] at hcount
  rw [map_append, count_append] at hsplit
  simp only [places, answered, map_append, count_append]
  have hsame : (Response.serial ∘ fun x : Nat × ProduceWaiter => x.2.request.answer .produce) =
      fun x => x.2.request.serial := rfl
  rw [hsame] at hcount
  omega

/-- Every decoded request is in exactly one place. -/
def Counted (s : Dispatch) : Prop := ∀ k, s.places k = if k < s.frames then 1 else 0

/-- **A step loses no request and doubles none.** -/
theorem Counted.step (h : Counted s) (e : DispatchEvent) : Counted (step cap s e) := by
  have hdoes := does_step cap s e
  generalize Dispatch.step cap s e = s' at hdoes
  intro k
  have hnew : (if k < s.frames + 1 then 1 else 0) = s.places k + [s.frames].count k := by
    rw [h k, count_singleton]
    simp only [beq_iff_eq]
    split_ifs <;> omega
  cases hdoes with
  | ignored | idle | empty | closed => exact h k
  | inline | queued =>
    refine Eq.trans ?_ hnew.symm
    simp only [places, map_append, map_cons, map_nil, count_append, Request.answer]
    omega
  | added hpop hws hpost =>
    refine (places_answered _ hpost k).trans (Eq.trans ?_ (h k))
    have hcount := count_pop (fun a => a.request.serial) hpop k
    simp only [places, hws, map_append, map_cons, map_nil, count_append]
    omega
  | appended hadding hpop =>
    refine Eq.trans ?_ (h k)
    have hcount := count_pop Request.serial hpop k
    simp only [places, map_append, map_cons, map_nil, count_append]
    omega
  | responded hadding hpop hpost =>
    refine Eq.trans ?_ (h k)
    have hcount := count_pop Request.serial hpop k
    have hposted := hpost.count k
    simp only [map_cons, map_nil, Request.answer] at hposted
    simp only [places, map_append, count_append]
    omega
  | completed he hgone hpost => exact (places_answered _ hpost k).trans (h k)
  | sent hpop | unsent hpop =>
    refine Eq.trans ?_ (h k)
    have hcount := count_pop Response.serial hpop k
    simp only [places, map_append, map_cons, map_nil, count_append]
    omega

end Conservation

end Dispatch

end PulseLog

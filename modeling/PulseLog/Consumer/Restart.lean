/-
  Subject:   The fence of `Commit` across restarts of the coordinator.

  The member counter and the generations live in memory: a new process starts both at 0 and has no
  group, while `OffsetStore::Open` replays the committed offsets. `Lives` is the coordinator of the
  process that runs now, with the pairs of member id and generation that joins have handed out in
  this process and in those before.

  * `earlier_pairs_refused` -- as long as no member gets a pair that was handed out before, a commit
    under a pair of an earlier process is refused; `earlier_pair_accepted` -- else it may set the
    group back.
-/
import PulseLog.Consumer.CommitFence

namespace PulseLog

open List

namespace GroupCoordinator

open ConsumerGroup

/-! ## 1. Processes -/

structure Lives where
  coordinator : GroupCoordinator
  /-- member id and generation of every join this process has answered -/
  handedOut : List (String × Int)
  /-- and of those that earlier processes answered -/
  earlier : List (String × Int)

/-- The pair a call hands out. -/
def handsOut (c : GroupCoordinator) : Call → List (String × Int)
  | .join lookup req now =>
    let response := (c.join lookup req now).1
    if response.error = none then [(response.memberId, response.generation)] else []
  | _ => []

namespace Lives

def start (defaultSessionTimeoutMs : Int) : Lives := ⟨make defaultSessionTimeoutMs, [], []⟩

inductive Event where
  | call (e : Call)
  /-- a new process; `offsets` is what the replay of the offset log gives -/
  | restart (defaultSessionTimeoutMs : Int) (offsets : List (OffsetKey × CommittedOffset))

def step (s : Lives) : Event → Lives
  | .call e => { s with
      coordinator := s.coordinator.call e
      handedOut := s.handedOut ++ s.coordinator.handsOut e }
  | .restart timeout offsets =>
    ⟨{ make timeout with offsets := offsets }, [], s.earlier ++ s.handedOut⟩

def run (s : Lives) (es : List Event) : Lives := es.foldl step s

/-- A commit under a pair that an earlier process handed out is answered with an error and changes
    nothing. -/
def Refuses (s : Lives) : Event → Prop
  | .call (.commit req io now) => (req.memberId, req.generation) ∈ s.earlier →
      ∃ e, s.coordinator.commit req io now = (some e, s.coordinator)
  | _ => True

/-- After the call a group has a member under a pair that an earlier process handed out. -/
def Reissues (s : Lives) : Event → Prop
  | .call e => ∃ g ∈ (s.coordinator.call e).groups, ∃ id ∈ g.ids, (id, g.generation) ∈ s.earlier
  | .restart _ _ => False

instance (s : Lives) (e : Event) : Decidable (s.Reissues e) :=
  match e with
  | .call e => inferInstanceAs (Decidable
      (∃ g ∈ (s.coordinator.call e).groups, ∃ id ∈ g.ids, (id, g.generation) ∈ s.earlier))
  | .restart _ _ => inferInstanceAs (Decidable False)

/-! ## 2. Without a reissued pair -/

section Fence

variable {c : GroupCoordinator} {s : Lives}

theorem joinId_ne_empty (req : JoinGroupRequest) : c.joinId req ≠ "" := by
  unfold joinId
  split
  · exact memberName_ne_empty _ _
  · rename_i hnew
    intro hempty
    simp [isNew, hempty] at hnew

theorem handsOut_ne_empty {e : Call} {p : String × Int} (h : p ∈ c.handsOut e) : p.1 ≠ "" := by
  cases e with
  | join lookup req now =>
    -- a refused join hands out nothing
    by_cases hgroup : req.groupId = ""
    · simp [handsOut, join, hgroup] at h
    by_cases htopics : req.topics = []
    · simp [handsOut, join, hgroup, htopics] at h
    simp only [handsOut, join, if_neg hgroup, if_neg htopics, if_true, mem_singleton] at h
    rw [h]
    exact joinId_ne_empty req
  | heartbeat | leave | commit | expireSessions => simp [handsOut] at h

/-- The invariant: no member of this process has a pair of an earlier one, and no id is empty (an
    empty one is not fenced). -/
structure Apart (s : Lives) : Prop where
  apart : ∀ g ∈ s.coordinator.groups, ∀ id ∈ g.ids, (id, g.generation) ∉ s.earlier
  named : ∀ p ∈ s.earlier ++ s.handedOut, p.1 ≠ ""

theorem Apart.step {e : Event} (h : Apart s) (hr : ¬ s.Reissues e) : Apart (s.step e) := by
  cases e with
  | call e =>
    refine ⟨fun g hg id hid hold => hr ⟨g, hg, id, hid, hold⟩, fun p hp => ?_⟩
    simp only [Lives.step, ← append_assoc] at hp
    rcases mem_append.mp hp with hp | hp
    · exact h.named p hp
    · exact handsOut_ne_empty hp
  | restart timeout offsets =>
    refine ⟨by simp [Lives.step, make], fun p hp => ?_⟩
    simp only [Lives.step, append_nil] at hp
    exact h.named p hp

theorem apart_start (timeout : Int) : Apart (start timeout) where
  apart := by simp [start, make]
  named := by simp [start]

theorem Apart.refuses (h : Apart s) (e : Event) : s.Refuses e := by
  cases e with
  | restart timeout offsets => trivial
  | call e =>
    cases e with
    | join | heartbeat | leave | expireSessions => trivial
    | commit req io now =>
      intro hold
      cases hf : s.coordinator.commitFence req with
      | some e => exact ⟨e, by rw [commit, hf]⟩
      | none =>
        -- what the fence lets through is a member of this process, and names its generation
        obtain ⟨g, m, hg, hm, hgen, -⟩ := Committing.current_of_fence hf
          (h.named _ (mem_append_left _ hold))
        have hid : req.memberId ∈ g.ids := findKey_isSome.mp (Option.isSome_of_eq_some hm)
        rw [hgen] at hold
        exact absurd hold (h.apart g (findKey_some hg).1 _ hid)

end Fence

/-- **Fencing survives restarts** as long as no group gets a member under a pair of member id and
    generation that an earlier process handed out: a commit under a pair of an earlier process is
    refused, in every run. -/
theorem earlier_pairs_refused (timeout : Int) (es : List Event)
    (hes : Along Lives.step (fun s e => ¬ s.Reissues e) (start timeout) es) :
    Along Lives.step Refuses (start timeout) es :=
  (hes.strengthen (fun _ _ hs hr => Apart.step hs hr) (apart_start timeout)).mono
    fun _ e h => h.1.refuses e

/-- The first process answers a join of group g. In the second one group h is joined first, so that
    g's next member is g-2; then the old member commits. -/
def otherOrder : List Event :=
  [.call (.join Committing.onePartition ⟨"g", "", ["t"], 0, .range⟩ 1), .restart 10 [],
    .call (.join Committing.onePartition ⟨"h", "", ["t"], 0, .range⟩ 2),
    .call (.join Committing.onePartition ⟨"g", "", ["t"], 0, .range⟩ 3),
    .call (.commit ⟨"g", "g-1", 1, "t", 0, 5, ""⟩ none 4)]

theorem otherOrder_refused :
    ((start 10).run otherOrder).coordinator.fetchOffset ⟨"g", "t", 0⟩ = ⟨-1, ""⟩ ∧
      Along Lives.step Refuses (start 10) otherOrder :=
  ⟨by decide +kernel, earlier_pairs_refused 10 otherOrder (by decide +kernel)⟩

/-! ## 3. With a reissued pair -/

/-- The first process answers a join of group g. In the second one another client joins g and
    commits offset 9. -/
def sameOrder : List Event :=
  [.call (.join Committing.onePartition ⟨"g", "", ["t"], 0, .range⟩ 1), .restart 10 [],
    .call (.join Committing.onePartition ⟨"g", "", ["t"], 0, .range⟩ 2),
    .call (.commit ⟨"g", "g-1", 1, "t", 0, 9, ""⟩ none 3)]

/-- **The counters start over**: both clients were given member id g-1 and generation 1, and the
    commit of the old one is accepted and replaces the offset of the new one. -/
theorem earlier_pair_accepted :
    let s := (start 10).run sameOrder
    let late : CommitOffsetRequest := ⟨"g", "g-1", 1, "t", 0, 5, ""⟩
    (late.memberId, late.generation) ∈ s.earlier ∧
      s.coordinator.fetchOffset ⟨"g", "t", 0⟩ = ⟨9, ""⟩ ∧
      (s.coordinator.commit late none 4).1 = none ∧
      (s.coordinator.commit late none 4).2.fetchOffset ⟨"g", "t", 0⟩ = ⟨5, ""⟩ := by
  decide +kernel

end Lives

end GroupCoordinator

end PulseLog

/-
  Subject:   When a broker and the controller agree on the topics after a reconciliation.

  Topics reach a broker along three paths (a broadcast, a forwarded creation, a reconciliation), and
  nothing but a deletion on the broker itself takes one away.

  * `reconciled_agree` -- a reconciliation that leaves nothing in flight ends in agreement, in every
    orderly run; `deleted_topic_stays` -- a topic deleted on the controller stays on the others.
-/
import PulseLog.Broker.Topics

namespace PulseLog

open ClusterMetadata List

namespace Directory

/-! ## 1. Orderly runs -/

/-- The message would tell broker `b` of the topic. -/
def mentions (b : Nat) (name : String) : Message → Prop
  | .push dst req => dst = b ∧ req.topic = name
  | .answer dst topics => dst = b ∧ name ∈ topics.map TopicMetadata.name
  | _ => False

instance (b : Nat) (name : String) (m : Message) : Decidable (mentions b name m) := by
  cases m <;> unfold mentions <;> infer_instance

/-- Broker `b` knows the topic or is about to learn of it. -/
def Reaches (s : Directory) (b : Nat) (name : String) : Prop :=
  name ∈ (s.topics b).map TopicDescriptor.name ∨ ∃ m ∈ s.inFlight, mentions b name m

instance (s : Directory) (b : Nat) (name : String) : Decidable (Reaches s b name) :=
  inferInstanceAs (Decidable (_ ∨ _))

def isAnswerTo (b : Nat) : Message → Bool
  | .answer dst _ => dst == b
  | _ => false

def isPushTo (b : Nat) : Message → Bool
  | .push dst _ => dst == b
  | _ => false

/-- Broker `b` is in the middle of a reconciliation: the controller has answered it. -/
def answering (s : Directory) (b : Nat) : Bool := s.inFlight.any (isAnswerTo b)

/-- The topic the event erases on broker `b`. -/
def erased (s : Directory) (b : Nat) : TopicEvent → Option String
  | .deliver i _ =>
    match s.inFlight[i]? with
    | some (.deleting b' name) => if b' = b then some name else none
    | _ => none
  | _ => none

/-- The event may keep the broadcast of a topic from broker `b`. -/
def withholds (s : Directory) (b : Nat) : TopicEvent → Bool
  | .lose i => (s.inFlight[i]?).any (isPushTo b)
  | .create _ _ _ _ opened => opened.isSome
  | .produce _ _ _ opened => opened.isSome
  | .deliver _ opened => opened.isSome
  | _ => false

/-- The controller `c` deletes a topic only when it does not reach `b`; and while `b` reconciles, it
    deletes no topic and misses no broadcast. -/
def Orderly (c b : Nat) (s : Directory) (e : TopicEvent) : Prop :=
  (∀ name ∈ s.erased c e, ¬ s.Reaches b name) ∧
    (s.answering b = true → s.erased b e = none ∧ s.withholds b e = false)

instance (c b : Nat) (s : Directory) (e : TopicEvent) : Decidable (Orderly c b s e) :=
  inferInstanceAs (Decidable (_ ∧ _))

/-! ## 2. What a step does -/

section Steps

variable {config} {s : Directory} {b c x : Nat} {topic name : String} {n r : Int} {here : Bool}
  {opened : Option Status} {d : TopicDescriptor}

section

variable (s : Directory)

theorem setTopics_self (b : Nat) : s.setTopics b (s.topics b) = s := by
  unfold setTopics
  rw [Function.update_eq_self]

theorem send_nil : s.send [] = s := by
  unfold send
  rw [append_nil]

theorem setTopics_stay (x : Nat) :
    (s.setTopics x (s.metadata x).topics).send (s.broadcast x none) = s := by
  rw [show (s.metadata x).topics = s.topics x from rfl, setTopics_self]
  exact send_nil s

@[simp] theorem setTopics_topics_same (b : Nat) (ts : List TopicDescriptor) :
    (s.setTopics b ts).topics b = ts := Function.update_self _ _ _

end

theorem setTopics_topics_of_ne (ts : List TopicDescriptor) (h : x ≠ b) :
    (s.setTopics b ts).topics x = s.topics x := Function.update_of_ne h _ _

@[simp] theorem send_inFlight (s : Directory) (ms : List Message) :
    (s.send ms).inFlight = s.inFlight ++ ms := rfl

/-- What `EnsureTopic` on broker `x` comes to. -/
inductive EnsureSpec (m : ClusterMetadata) (x : Nat) (topic : String) (n r : Int) (here : Bool)
    (opened : Option Status) : Ensured → Prop
  | same (result : Except Status TopicDescriptor) :
      EnsureSpec m x topic n r here opened (.answered result m none)
  | forwarded (req : CreateTopicRequest) (hx : m.brokers.head? ≠ some x)
      (hreq : req.fromController = false) :
      EnsureSpec m x topic n r here opened (.forwarded req)
  | created (result : Except Status TopicDescriptor) (d : TopicDescriptor)
      (hconfig : d.config = ⟨topic, n, r, {}⟩) (hplaced : Placed m.brokers d)
      (hfree : m.findTopic topic = none) (hx : m.brokers.head? = some x ∨ here = true) :
      EnsureSpec m x topic n r here opened
        (.answered result { m with topics := putKey TopicDescriptor.name m.topics d }
          (if here = false ∧ opened = none ∧ 1 < m.brokers.length then some d else none))

theorem ensureTopic_spec (m : ClusterMetadata) (x : Nat) (topic : String) (n r : Int) (here : Bool)
    (opened : Option Status) :
    EnsureSpec m x topic n r here opened (ensureTopic x m topic n r here opened) := by
  unfold ensureTopic
  cases hget : m.getTopic topic with
  | ok d => exact .same _
  | error e =>
    dsimp only
    split
    · rename_i hx
      cases hcreate : m.createTopic ⟨topic, n, r, {}⟩ with
      | error e' => exact .same _
      | ok t =>
        obtain ⟨d, created, m'⟩ := t
        rcases createTopic_ok rfl hcreate with ⟨rfl, rfl, -⟩ | ⟨rfl, hconfig, hplaced, hfree, rfl⟩
        · cases opened with
          | none => simpa using EnsureSpec.same _
          | some e' => exact .same _
        · have hnew : ∀ o result, EnsureSpec m x topic n r here o
              (.answered result { m with topics := putKey TopicDescriptor.name m.topics d }
                (if here = false ∧ o = none ∧ 1 < m.brokers.length then some d else none)) :=
            fun _ result => .created result d hconfig hplaced hfree hx
          cases opened with
          | none => simpa using hnew none (.ok d)
          | some e' => simpa using hnew (some e') (.error e')
    · rename_i hx
      split
      · exact .same _
      · exact .forwarded _ (fun h => hx (.inl h)) rfl

/-- What `EnsureTopic` on broker `x` does to the cluster. -/
inductive Ensures (s : Directory) (x : Nat) (topic : String) (n r : Int) (here : Bool)
    (opened : Option Status) : Directory → Prop
  | same : Ensures s x topic n r here opened s
  | forwarded (req : CreateTopicRequest) (hx : s.brokers.head? ≠ some x)
      (hreq : req.fromController = false) :
      Ensures s x topic n r here opened (s.send [.forward x req])
  | created (d : TopicDescriptor) (hconfig : d.config = ⟨topic, n, r, {}⟩)
      (hplaced : Placed s.brokers d) (hfree : (s.metadata x).findTopic topic = none)
      (hx : s.brokers.head? = some x ∨ here = true) :
      Ensures s x topic n r here opened
        ((s.setTopics x (putKey TopicDescriptor.name (s.topics x) d)).send
          (s.broadcast x
            (if here = false ∧ opened = none ∧ 1 < s.brokers.length then some d else none)))

theorem ensures_ensure (s : Directory) (x : Nat) (topic : String) (n r : Int) (here : Bool)
    (opened : Option Status) :
    Ensures s x topic n r here opened (s.ensure x topic n r here opened).1 := by
  have hspec := ensureTopic_spec (s.metadata x) x topic n r here opened
  unfold ensure
  generalize ensureTopic x (s.metadata x) topic n r here opened = o at hspec
  cases hspec with
  | same result =>
    dsimp only
    rw [setTopics_stay]
    exact .same
  | forwarded req hx hreq => exact .forwarded req hx hreq
  | created result d hconfig hplaced hfree hx => exact .created d hconfig hplaced hfree hx

/-- The controller exchanges messages with the others only, and no broker but the controller asks
    for a topic to be applied as it is. -/
def Lawful (c : Nat) : Message → Prop
  | .forward src req => src ≠ c ∧ req.fromController = false
  | .push dst _ => dst ≠ c
  | .pull src => src ≠ c
  | .answer dst _ => dst ≠ c
  | .deleting _ _ => True

/-- The invariant between the controller `c` and broker `b`, which know the topics `cs` and `bs`,
    over the messages `ms`: what `b` knows or is being told is what the controller knows, and a
    reconciliation under way misses nothing but what is being broadcast to `b`. -/
structure Consistent (c b : Nat) (brokers : List Nat) (cs bs : List TopicDescriptor)
    (ms : List Message) : Prop where
  ne : b ≠ c
  head : brokers.head? = some c
  member : b ∈ brokers
  lawful : ∀ m ∈ ms, Lawful c m
  placed : ∀ d ∈ cs, Placed brokers d
  distinct : (cs.map TopicDescriptor.name).Nodup
  distinctHere : (bs.map TopicDescriptor.name).Nodup
  known : ∀ d ∈ bs, ∃ d' ∈ cs, d'.name = d.name ∧ d'.layout = d.layout
  pushed : ∀ req, .push b req ∈ ms → ∃ d ∈ cs, req = broadcastRequest d
  answered : ∀ ts, .answer b ts ∈ ms → ∀ t ∈ ts, ∃ d ∈ cs, t = describe d
  covered : ∀ ts, .answer b ts ∈ ms → ∀ d ∈ cs, d.name ∈ bs.map TopicDescriptor.name ∨
    d.name ∈ ts.map TopicMetadata.name ∨ .push b (broadcastRequest d) ∈ ms

/-- The invariant in a state. -/
def Tracks (c b : Nat) (s : Directory) (ms : List Message) : Prop :=
  Consistent c b s.brokers (s.topics c) (s.topics b) ms

variable {l : List Nat} {cs bs : List TopicDescriptor} {ms ms' : List Message} {m : Message}
  {ts : List TopicMetadata} {i : Nat}

section

variable (h : Consistent c b l cs bs ms)
include h

/-- The messages change: nothing new is told to `b`, and what was being broadcast to it still is,
    unless `b` knows it. -/
theorem Consistent.frame (hlawful : ∀ m ∈ ms', Lawful c m)
    (hpush : ∀ req, .push b req ∈ ms' → .push b req ∈ ms)
    (hanswer : ∀ ts, .answer b ts ∈ ms' → .answer b ts ∈ ms)
    (hkept : ∀ ts, .answer b ts ∈ ms' → ∀ d, .push b (broadcastRequest d) ∈ ms →
      d.name ∈ bs.map TopicDescriptor.name ∨ .push b (broadcastRequest d) ∈ ms') :
    Consistent c b l cs bs ms' :=
  { h with
    lawful := hlawful
    pushed := fun req hreq => h.pushed req (hpush req hreq)
    answered := fun ts hts => h.answered ts (hanswer ts hts)
    covered := fun ts hts d hd => by
      rcases h.covered ts (hanswer ts hts) d hd with hk | hk | hk
      · exact .inl hk
      · exact .inr (.inl hk)
      · exact (hkept ts hts d hk).imp_right .inr }

theorem Consistent.congr (hm : ∀ m, m ∈ ms' ↔ m ∈ ms) :
    Consistent c b l cs bs ms' :=
  h.frame (fun m hm' => h.lawful m ((hm m).mp hm')) (fun _ hp => (hm _).mp hp)
    (fun _ ha => (hm _).mp ha) (fun _ _ _ hp => .inr ((hm _).mpr hp))

/-- A message that says nothing to `b` is sent. -/
theorem Consistent.add (hlawful : Lawful c m)
    (hpush : isPushTo b m = false) (hanswer : isAnswerTo b m = false) :
    Consistent c b l cs bs (ms ++ [m]) := by
  refine h.frame (fun m' hm' => ?_) (fun req hreq => ?_) (fun ts hts => ?_)
    (fun ts _ d hp => .inr (mem_append_left _ hp))
  · rcases mem_append.mp hm' with hm' | hm'
    · exact h.lawful m' hm'
    · rw [mem_singleton.mp hm']
      exact hlawful
  · rcases mem_append.mp hreq with hreq | hreq
    · exact hreq
    · rw [← mem_singleton.mp hreq] at hpush
      simp [isPushTo] at hpush
  · rcases mem_append.mp hts with hts | hts
    · exact hts
    · rw [← mem_singleton.mp hts] at hanswer
      simp [isAnswerTo] at hanswer

end

/-- A message is gone. A broadcast to `b` may only go when `b` knows the topic or has no
    reconciliation under way. -/
theorem Consistent.drop (h : Consistent c b l cs bs (m :: ms))
    (hm : ∀ ts d, .answer b ts ∈ ms → m = .push b (broadcastRequest d) →
      d.name ∈ bs.map TopicDescriptor.name) : Consistent c b l cs bs ms := by
  refine h.frame (fun m' hm' => h.lawful m' (mem_cons_of_mem _ hm'))
    (fun _ hp => mem_cons_of_mem _ hp) (fun _ ha => mem_cons_of_mem _ ha)
    (fun ts hts d hp => ?_)
  rcases mem_cons.mp hp with hp | hp
  · exact .inl (hm ts d hts hp.symm)
  · exact .inr hp

/-- The topics of other brokers do not matter. -/
theorem Tracks.other (h : Tracks c b s ms) (hxc : x ≠ c) (hxb : x ≠ b) (ts : List TopicDescriptor) :
    Tracks c b (s.setTopics x ts) ms := by
  rw [Tracks, setTopics_topics_of_ne _ hxc.symm, setTopics_topics_of_ne _ hxb.symm]
  exact h

theorem tracks_setTopics_controller (h : Consistent c b s.brokers cs (s.topics b) ms) :
    Tracks c b (s.setTopics c cs) ms := by
  rw [Tracks, setTopics_topics_same, setTopics_topics_of_ne _ h.ne]
  exact h

theorem tracks_setTopics_self (h : Consistent c b s.brokers (s.topics c) bs ms) :
    Tracks c b (s.setTopics b bs) ms := by
  rw [Tracks, setTopics_topics_same, setTopics_topics_of_ne _ h.ne.symm]
  exact h

theorem mem_broadcast {o : Option TopicDescriptor} :
    m ∈ s.broadcast x o ↔ ∃ d ∈ o, ∃ a ∈ s.brokers, a ≠ x ∧ m = .push a (broadcastRequest d) := by
  cases o with
  | none => simp [broadcast]
  | some d =>
    simp only [broadcast, mem_map, mem_filter, bne_iff_ne, Option.mem_some_iff,
      exists_eq_left', and_assoc]
    exact exists_congr fun a => and_congr_right' (and_congr_right' eq_comm)

/-- The controller creates a topic and broadcasts it, or `b` has no reconciliation under way. -/
theorem Consistent.created (h : Consistent c b s.brokers cs bs ms) (hplaced : Placed s.brokers d)
    (hfree : d.name ∉ cs.map TopicDescriptor.name) (o : Option TopicDescriptor)
    (ho : o = some d ∨ o = none ∧ ∀ ts, Message.answer b ts ∉ ms) :
    Consistent c b s.brokers (putKey TopicDescriptor.name cs d) bs (ms ++ s.broadcast c o) := by
  have hmem : ∀ d', d' ∈ putKey TopicDescriptor.name cs d ↔ d' = d ∨ d' ∈ cs := by
    intro d'
    rw [mem_putKey]
    refine or_congr_right ⟨fun hd' => hd'.1, fun hd' => ⟨hd', fun he => hfree ?_⟩⟩
    rw [← he]
    exact mem_map_of_mem hd'
  -- an answer to `b` is an old one
  have hold : ∀ ts, Message.answer b ts ∈ ms ++ s.broadcast c o → Message.answer b ts ∈ ms := by
    intro ts hts
    rcases mem_append.mp hts with hts | hts
    · exact hts
    · obtain ⟨_, -, _, -, -, he⟩ := mem_broadcast.mp hts
      cases he
  refine { h with
    lawful := fun m hm => ?_
    placed := fun d' hd' => ?_
    distinct := nodup_putKey h.distinct d
    known := fun d' hd' => ?_
    pushed := fun req hreq => ?_
    answered := fun ts hts t ht => ?_
    covered := fun ts hts d' hd' => ?_ }
  · rcases mem_append.mp hm with hm | hm
    · exact h.lawful m hm
    · obtain ⟨_, -, a, -, ha, rfl⟩ := mem_broadcast.mp hm
      exact ha
  · rcases (hmem d').mp hd' with rfl | hd'
    · exact hplaced
    · exact h.placed d' hd'
  · obtain ⟨d'', hd'', heq⟩ := h.known d' hd'
    exact ⟨d'', (hmem d'').mpr (.inr hd''), heq⟩
  · rcases mem_append.mp hreq with hreq | hreq
    · obtain ⟨d', hd', he⟩ := h.pushed req hreq
      exact ⟨d', (hmem d').mpr (.inr hd'), he⟩
    · obtain ⟨d', hd', _, -, -, he⟩ := mem_broadcast.mp hreq
      rcases ho with rfl | ⟨rfl, -⟩
      · cases Option.mem_some_iff.mp hd'
        cases he
        exact ⟨d, (hmem d).mpr (.inl rfl), rfl⟩
      · cases hd'
  · obtain ⟨d', hd', he⟩ := h.answered ts (hold ts hts) t ht
    exact ⟨d', (hmem d').mpr (.inr hd'), he⟩
  · rcases (hmem d').mp hd' with rfl | hd'
    · rcases ho with rfl | ⟨-, hno⟩
      · exact .inr (.inr (mem_append_right _ (mem_broadcast.mpr ⟨d', rfl, b, h.member, h.ne, rfl⟩)))
      · exact absurd (hold ts hts) (hno ts)
    · exact (h.covered ts (hold ts hts) d' hd').imp_right
        (fun hk => hk.imp_right (mem_append_left _))

section

variable (h : Consistent c b l cs bs ms)
include h

/-- Broker `b` learns of a topic the controller has. -/
theorem Consistent.learn {d' : TopicDescriptor} (hd' : d' ∈ cs)
    (hname : d'.name = d.name) (hlayout : d'.layout = d.layout) :
    Consistent c b l cs (putKey TopicDescriptor.name bs d) ms := by
  refine { h with
    distinctHere := nodup_putKey h.distinctHere d
    known := fun d'' hd'' => ?_
    covered := fun ts hts d'' hd'' => ?_ }
  · rcases mem_putKey.mp hd'' with rfl | ⟨hd'', -⟩
    · exact ⟨d', hd', hname, hlayout⟩
    · exact h.known d'' hd''
  · rw [map_key_putKey]
    refine (h.covered ts hts d'' hd'').imp_left (fun hk => ?_)
    split
    · exact hk
    · exact mem_append_left _ hk

/-- The controller deletes a topic that does not reach `b`. -/
theorem Consistent.controllerForgets
    (hfree : name ∉ bs.map TopicDescriptor.name) (hms : ∀ m ∈ ms, ¬ mentions b name m) :
    Consistent c b l (cs.filter (fun d => d.name != name)) bs ms := by
  have hmem : ∀ d, d ∈ cs → d.name ≠ name → d ∈ cs.filter (fun d => d.name != name) :=
    fun d hd hn => mem_filter.mpr ⟨hd, by simpa using hn⟩
  refine { h with
    placed := fun d hd => h.placed d (mem_filter.mp hd).1
    distinct := h.distinct.sublist (filter_sublist.map _)
    known := fun d hd => ?_
    pushed := fun req hreq => ?_
    answered := fun ts hts t ht => ?_
    covered := fun ts hts d hd => h.covered ts hts d (mem_filter.mp hd).1 }
  · obtain ⟨d', hd', hn, hl⟩ := h.known d hd
    refine ⟨d', hmem d' hd' (fun he => hfree ?_), hn, hl⟩
    rw [← he, hn]
    exact mem_map_of_mem hd
  · obtain ⟨d, hd, rfl⟩ := h.pushed req hreq
    exact ⟨d, hmem d hd (fun he => hms _ hreq ⟨rfl, he⟩), rfl⟩
  · obtain ⟨d, hd, rfl⟩ := h.answered ts hts t ht
    refine ⟨d, hmem d hd (fun he => hms _ hts ⟨rfl, ?_⟩), rfl⟩
    rw [← he]
    exact mem_map.mpr ⟨_, ht, rfl⟩

/-- Broker `b` deletes a topic while no reconciliation of it is under way. -/
theorem Consistent.forgets (hno : ∀ ts, Message.answer b ts ∉ ms) :
    Consistent c b l cs (bs.filter (fun d => d.name != name)) ms :=
  { h with
    distinctHere := h.distinctHere.sublist (filter_sublist.map _)
    known := fun d hd => h.known d (mem_filter.mp hd).1
    covered := fun ts hts => absurd hts (hno ts) }

end

/-! ## 3. Every step keeps the invariant -/

theorem not_mem_of_findTopic_none (h : (s.metadata x).findTopic name = none) :
    name ∉ (s.topics x).map TopicDescriptor.name := findKey_none.mp h

theorem not_answering (h : s.answering b = false) (ts : List TopicMetadata) :
    Message.answer b ts ∉ s.inFlight := by
  intro hts
  have := any_eq_false.mp h _ hts
  simp [isAnswerTo] at this

/-- `EnsureTopic` at a client's request anywhere, or at a broadcast on another broker than `b`. -/
theorem Tracks.ensure (h : Tracks c b s s.inFlight) (hx : here = true → x ≠ b ∧ x ≠ c)
    (hopened : s.answering b = true → opened = none) :
    Tracks c b (s.ensure x topic n r here opened).1
      (s.ensure x topic n r here opened).1.inFlight := by
  have hspec := ensures_ensure s x topic n r here opened
  generalize (s.ensure x topic n r here opened).1 = s' at hspec
  cases hspec with
  | same => exact h
  | forwarded req hhead hreq =>
    have hxc : x ≠ c := fun he => hhead (by rw [he]; exact h.head)
    exact h.add ⟨hxc, hreq⟩ rfl rfl
  | created d hconfig hplaced hfree hwhere =>
    cases here with
    | true =>
      -- another broker applies a broadcast: nothing that matters to `b` changes
      obtain ⟨hxb, hxc⟩ := hx rfl
      simp only [Bool.true_eq_false, false_and, if_false]
      have hms : (s.setTopics x (putKey TopicDescriptor.name (s.topics x) d)).inFlight ++
          s.broadcast x none = s.inFlight := append_nil _
      rw [send_inFlight, hms]
      exact h.other hxc hxb _
    | false =>
      have hxc : x = c := by
        rcases hwhere with hwhere | hwhere
        · rw [h.head] at hwhere
          exact (Option.some.inj hwhere).symm
        · simp at hwhere
      subst hxc
      have hlen : 1 < s.brokers.length := by
        have hhead := h.head
        have hb := h.member
        cases hl : s.brokers with
        | nil =>
          rw [hl] at hb
          simp at hb
        | cons a rest =>
          rw [hl] at hhead hb
          rw [Option.some.inj hhead] at hb
          have := length_pos_of_mem ((mem_cons.mp hb).resolve_left h.ne)
          simp only [length_cons]
          omega
      have hname : d.name ∉ (s.topics x).map TopicDescriptor.name := by
        rw [show d.name = topic from congrArg TopicConfig.name hconfig]
        exact not_mem_of_findTopic_none hfree
      have hkeep := Consistent.created h hplaced hname
      cases opened with
      | none =>
        rw [if_pos ⟨rfl, rfl, hlen⟩]
        exact tracks_setTopics_controller (hkeep (some d) (.inl rfl))
      | some e =>
        have hno : s.answering b = false := by
          cases hans : s.answering b with
          | false => rfl
          | true => simpa using hopened hans
        exact tracks_setTopics_controller (hkeep none (.inr ⟨rfl, not_answering hno⟩))

theorem hasTopic_iff : (s.metadata x).hasTopic name = true ↔
    name ∈ (s.topics x).map TopicDescriptor.name := findKey_isSome

/-- A broadcast handled by a broker that knows the topic changes nothing, and otherwise gives it the
    controller's descriptor. -/
theorem ensure_broadcast (hplaced : Placed s.brokers d) :
    (s.ensure x d.config.name d.config.partitionCount d.config.replicationFactor true opened).1 =
      if (s.metadata x).hasTopic d.name = true then s
      else s.setTopics x (putKey TopicDescriptor.name (s.topics x) d) := by
  unfold ensure ensureTopic getTopic hasTopic
  rw [show (s.metadata x).findTopic d.config.name = (s.metadata x).findTopic d.name from rfl]
  cases hfind : (s.metadata x).findTopic d.name with
  | some d' =>
    dsimp only
    rw [setTopics_stay, if_pos Option.isSome_some]
  | none =>
    rw [if_pos (.inr rfl), show ⟨d.config.name, d.config.partitionCount,
      d.config.replicationFactor, {}⟩ = d.config by rw [← hplaced.settings],
      createTopic_placed hplaced hfind]
    cases opened with
    | none => exact send_nil _
    | some e => exact send_nil _

theorem mem_names_putKey (ds : List TopicDescriptor) (d : TopicDescriptor) :
    d.name ∈ (putKey TopicDescriptor.name ds d).map TopicDescriptor.name :=
  mem_map_of_mem (mem_putKey.mpr (.inl rfl))

theorem Tracks.push {req : CreateTopicRequest} (h : Tracks c b s (.push b req :: s.inFlight)) :
    Tracks c b (s.executeCreateTopic config b req opened).1
      (s.executeCreateTopic config b req opened).1.inFlight := by
  obtain ⟨d, hd, rfl⟩ := h.pushed req mem_cons_self
  have hplaced := h.placed d hd
  have hstep : (s.executeCreateTopic config b (broadcastRequest d) opened).1 =
      (s.ensure b d.config.name d.config.partitionCount d.config.replicationFactor
        true opened).1 := by
    unfold executeCreateTopic broadcastRequest
    rw [if_pos hplaced.count, if_pos hplaced.factor]
  have hsame : ∀ d', Message.push b (broadcastRequest d) = .push b (broadcastRequest d') →
      d'.name = d.name :=
    fun d' he => (congrArg CreateTopicRequest.topic (Message.push.inj he).2).symm
  rw [hstep, ensure_broadcast hplaced]
  split
  · rename_i hhas
    refine h.drop (fun _ d' _ he => ?_)
    rw [hsame d' he]
    exact hasTopic_iff.mp hhas
  · refine tracks_setTopics_self ((h.learn hd rfl rfl).drop (fun _ d' _ he => ?_))
    rw [hsame d' he]
    exact mem_names_putKey _ d

/-- The controller answers the metadata request of `src`. -/
theorem Tracks.answer {src : Nat} (h : Tracks c b s s.inFlight) (hsrc : src ≠ c) :
    Tracks c b (s.send [.answer src ((s.metadata c).buildMetadataResponse [])])
      (s.inFlight ++ [.answer src ((s.metadata c).buildMetadataResponse [])]) := by
  by_cases hb : src = b
  · have hold : ∀ {m}, m ∈ s.inFlight ++ [.answer src ((s.topics c).map describe)] →
        m ∈ s.inFlight ∨ m = .answer src ((s.topics c).map describe) := by
      intro m hm
      exact (mem_append.mp hm).imp_right mem_singleton.mp
    refine { h with
      lawful := fun m hm => ?_
      pushed := fun req hreq => h.pushed req ((hold hreq).resolve_right (by simp))
      answered := fun ts hts t ht => ?_
      covered := fun ts hts d hd => ?_ }
    · rcases hold hm with hm | rfl
      · exact h.lawful m hm
      · exact hsrc
    · rcases hold hts with hts | hts
      · exact h.answered ts hts t ht
      · cases hts
        obtain ⟨d, hd, rfl⟩ := mem_map.mp ht
        exact ⟨d, hd, rfl⟩
    · rcases hold hts with hts | hts
      · exact (h.covered ts hts d hd).imp_right (fun hk => hk.imp_right (mem_append_left _))
      · cases hts
        exact .inr (.inl (mem_map.mpr ⟨describe d, mem_map_of_mem hd, rfl⟩))
  · exact h.add hsrc rfl (by simpa [isAnswerTo] using hb)

theorem layout_adopted (hplaced : Placed s.brokers d) :
    d.layout = (adoptedDescriptor (describe d)).layout := by
  unfold TopicDescriptor.layout adoptedDescriptor describe
  rw [hplaced.length]

/-- Broker `b` looks at the next topic of the answer. -/
theorem Tracks.adopt {t : TopicMetadata}
    (h : Tracks c b s (.answer b (t :: ts) :: s.inFlight)) {m : ClusterMetadata}
    (hm : adoptTopic (s.metadata b) t = .ok m) :
    Tracks c b ((s.setTopics b m.topics).send [.answer b ts]) (s.inFlight ++ [.answer b ts]) := by
  obtain ⟨d, hd, rfl⟩ := h.answered _ mem_cons_self t mem_cons_self
  -- after the adoption `b` knows the topic
  have hlearn : Consistent c b s.brokers (s.topics c) m.topics
        (.answer b (describe d :: ts) :: s.inFlight) ∧
      d.name ∈ m.topics.map TopicDescriptor.name := by
    unfold adoptTopic at hm
    split at hm
    · rename_i hhas
      cases hm
      exact ⟨h, hasTopic_iff.mp hhas⟩
    · unfold upsertTopic at hm
      split at hm
      · simp at hm
      · cases hm
        exact ⟨h.learn hd rfl (layout_adopted (h.placed d hd)), mem_names_putKey _ _⟩
  obtain ⟨h', hknown⟩ := hlearn
  have hold : ∀ {m'}, m' ∈ s.inFlight ++ [.answer b ts] →
      m' ∈ .answer b (describe d :: ts) :: s.inFlight ∨ m' = .answer b ts := by
    intro m' hm'
    exact (mem_append.mp hm').imp (mem_cons_of_mem _) mem_singleton.mp
  have hpush : ∀ req, Message.push b req ∈ .answer b (describe d :: ts) :: s.inFlight →
      Message.push b req ∈ s.inFlight ++ [.answer b ts] :=
    fun req hreq => mem_append_left _ ((mem_cons.mp hreq).resolve_left (by simp))
  refine tracks_setTopics_self { h' with
    lawful := fun m' hm' => ?_
    pushed := fun req hreq => h'.pushed req ((hold hreq).resolve_right (by simp))
    answered := fun ts' hts' t' ht' => ?_
    covered := fun ts' hts' d' hd' => ?_ }
  · rcases hold hm' with hm' | rfl
    · exact h'.lawful m' hm'
    · exact h.ne
  · rcases hold hts' with hts' | hts'
    · exact h'.answered ts' hts' t' ht'
    · cases hts'
      exact h'.answered _ mem_cons_self t' (mem_cons_of_mem _ ht')
  · rcases hold hts' with hts' | hts'
    · exact (h'.covered ts' hts' d' hd').imp_right (fun hk => hk.imp_right (hpush _))
    · cases hts'
      rcases h'.covered _ mem_cons_self d' hd' with hk | hk | hk
      · exact .inl hk
      · rcases mem_cons.mp hk with hk | hk
        · rw [hk]
          exact .inl hknown
        · exact .inr (.inl hk)
      · exact .inr (.inr (hpush _ hk))

theorem Tracks.handle (h : Tracks c b s (m :: s.inFlight)) (hdelete : ∀ name, m = .deleting c name →
      name ∉ (s.topics b).map TopicDescriptor.name ∧ ∀ m' ∈ s.inFlight, ¬ mentions b name m')
    (hdeleteHere : ∀ name, m = .deleting b name → s.answering b = false)
    (hopened : s.answering b = true → opened = none) :
    Tracks c b (s.handle config opened m) (s.handle config opened m).inFlight := by
  have hlawful := h.lawful m mem_cons_self
  have hrest : (∀ req, m ≠ .push b req) → Tracks c b s s.inFlight :=
    fun hm => h.drop (fun _ _ _ he => absurd he (hm _))
  cases m with
  | forward src req =>
    have hexec : Tracks c b (s.executeCreateTopic config c req opened).1
        (s.executeCreateTopic config c req opened).1.inFlight :=
      (hrest nofun).ensure (fun ht => by rw [hlawful.2] at ht; simp at ht) hopened
    simp only [Directory.handle, h.head]
    split
    · exact hexec.add hlawful.1 rfl rfl
    · exact hexec
  | push dst req =>
    by_cases hdst : dst = b
    · subst hdst
      exact h.push
    · exact (hrest fun _ he => hdst (Message.push.inj he).1).ensure
        (fun _ => ⟨hdst, hlawful⟩) hopened
  | pull src =>
    simp only [Directory.handle, h.head]
    exact (hrest nofun).answer hlawful
  | answer dst ts =>
    cases ts with
    | nil => exact hrest nofun
    | cons t ts =>
      simp only [Directory.handle]
      cases hadopt : adoptTopic (s.metadata dst) t with
      | error e => exact hrest nofun
      | ok m =>
        by_cases hdst : dst = b
        · subst hdst
          exact h.adopt hadopt
        · exact ((hrest nofun).other hlawful hdst m.topics).add
            hlawful rfl (by simpa [isAnswerTo] using hdst)
  | deleting x name =>
    simp only [Directory.handle, deleteTopic]
    by_cases hhas : (s.metadata x).hasTopic name = true
    · rw [if_pos hhas]
      by_cases hxc : x = c
      · subst hxc
        obtain ⟨hfree, hms⟩ := hdelete name rfl
        exact tracks_setTopics_controller (Consistent.controllerForgets (hrest nofun) hfree hms)
      by_cases hxb : x = b
      · subst hxb
        exact tracks_setTopics_self
          (Consistent.forgets (hrest nofun) (not_answering (hdeleteHere name rfl)))
      · exact (hrest nofun).other hxc hxb _
    · rw [if_neg hhas]
      exact hrest nofun

theorem mem_take (hi : s.inFlight[i]? = some m) (m' : Message) :
    m' ∈ m :: (s.take i).inFlight ↔ m' ∈ s.inFlight := by
  obtain ⟨hlt, rfl⟩ := List.getElem?_eq_some_iff.mp hi
  exact (getElem_cons_eraseIdx_perm hlt).mem_iff

theorem answering_take (h : (s.take i).answering b = true) : s.answering b = true := by
  obtain ⟨m, hm, hans⟩ := any_eq_true.mp h
  exact any_eq_true.mpr ⟨m, mem_of_mem_eraseIdx hm, hans⟩

/-- The message in place `i` is taken out of flight. -/
theorem Tracks.taken (h : Tracks c b s s.inFlight)
    (hi : s.inFlight[i]? = some m) : Tracks c b (s.take i) (m :: (s.take i).inFlight) :=
  h.congr (mem_take hi)

theorem answering_of_mem (h : Message.answer b ts ∈ s.inFlight) : s.answering b = true :=
  any_eq_true.mpr ⟨_, h, by simp [isAnswerTo]⟩

/-- **An orderly step keeps the invariant.** -/
theorem Tracks.step (config : Nat → TopicDefaults) (s : Directory) (e : TopicEvent)
    (h : Tracks c b s s.inFlight) (ho : Orderly c b s e) :
    Tracks c b (s.step config e) (s.step config e).inFlight := by
  obtain ⟨herase, hduring⟩ := ho
  cases e with
  | create x topic n r opened =>
    refine h.ensure (fun ht => by simp at ht) (fun ha => ?_)
    simpa [withholds] using (hduring ha).2
  | produce x topic p opened =>
    simp only [Directory.step, resolvePartition]
    split
    · exact h
    · refine h.ensure (fun ht => by simp at ht) (fun ha => ?_)
      simpa [withholds] using (hduring ha).2
  | delete x topic =>
    simp only [Directory.step]
    split
    · exact h.add trivial rfl rfl
    · exact h
  | reconcile x =>
    simp only [Directory.step]
    split
    · exact h
    · rename_i hx
      have hxc : x ≠ c := fun he => hx (.inl (by rw [he]; exact h.head))
      exact h.add hxc rfl rfl
  | lose i =>
    simp only [Directory.step]
    cases hi : s.inFlight[i]? with
    | none => exact h
    | some m =>
      dsimp only
      split
      · refine (h.taken hi).drop (fun ts d hts he => ?_)
        have ha := answering_of_mem (mem_of_mem_eraseIdx hts)
        have hno := (hduring ha).2
        simp [withholds, hi, he, isPushTo] at hno
      · exact h
  | deliver i opened =>
    simp only [Directory.step]
    cases hi : s.inFlight[i]? with
    | none => exact h
    | some m =>
      refine (h.taken hi).handle (fun name hm => ?_) (fun name hm => ?_) (fun ha => ?_)
      · have hreach := herase name (by simp [erased, hi, hm])
        exact ⟨fun hk => hreach (.inl hk),
          fun m' hm' hsays => hreach (.inr ⟨m', mem_of_mem_eraseIdx hm', hsays⟩)⟩
      · cases ha : (s.take i).answering b with
        | false => rfl
        | true =>
          have hno := (hduring (answering_take ha)).1
          simp [erased, hi, hm] at hno
      · simpa [withholds] using (hduring (answering_take ha)).2

/-- When an answer has been worked off and nothing is in flight, the two brokers agree. -/
theorem Tracks.agree (h : Tracks c b s [.answer b []]) : s.Agree b c := by
  intro name
  unfold metadata findTopic
  cases hb : findKey TopicDescriptor.name (s.topics b) name with
  | some d =>
    obtain ⟨hd, rfl⟩ := findKey_some hb
    obtain ⟨d', hd', hname, hlayout⟩ := h.known d hd
    have hc := (findKey_iff h.distinct).mpr ⟨hd', hname⟩
    simp only [hc, Option.map_some, hlayout]
  | none =>
    have hc : findKey TopicDescriptor.name (s.topics c) name = none := by
      rw [findKey_none] at hb ⊢
      intro hk
      obtain ⟨d, hd, rfl⟩ := mem_map.mp hk
      rcases h.covered [] mem_cons_self d hd with hk | hk | hk
      · exact hb hk
      · simp at hk
      · cases mem_singleton.mp hk
    simp only [hc]

end Steps

/-! ## 4. The cluster after a reconciliation -/

/-- **Whenever a reconciliation on a broker completes and leaves nothing in flight, the broker and
    the controller know the same topics with the same partitions, replicas and leaders**, in every
    orderly run. -/
theorem reconciled_agree (config : Nat → TopicDefaults) (c : Nat) (peers : List Nat)
    (es : List TopicEvent) (e : TopicEvent) (b : Nat) (hb : b ∈ c :: peers)
    (h : Along (step config) (Orderly c b) (start (c :: peers)) (es ++ [e]))
    (hdone : Completes b (run config (start (c :: peers)) es) e)
    (hquiet : (run config (start (c :: peers)) (es ++ [e])).inFlight = []) :
    (run config (start (c :: peers)) (es ++ [e])).Agree b c := by
  by_cases hne : b = c
  · subst hne
    exact fun _ => rfl
  have hstart : Tracks c b (start (c :: peers)) [] :=
    ⟨hne, rfl, hb, nofun, nofun, .nil, .nil, nofun, nofun, nofun, nofun⟩
  have hs := ((along_append _ _).mp h).1.foldl (Tracks.step config) hstart
  unfold run at hquiet ⊢
  rw [foldl_append, foldl_cons, foldl_nil] at hquiet ⊢
  unfold run at hdone
  generalize es.foldl (step config) (start (c :: peers)) = s at hs hdone hquiet ⊢
  cases e with
  | deliver i opened =>
    have hi : s.inFlight[i]? = some (.answer b []) := hdone
    have hstep : s.step config (.deliver i opened) = s.take i := by
      simp only [step, hi, handle]
    rw [hstep] at hquiet ⊢
    have hs' := hs.taken hi
    rw [hquiet] at hs'
    exact hs'.agree
  | create | produce | delete | reconcile | lose => exact hdone.elim

/-- The settings of the examples below. -/
def oneEach : Nat → TopicDefaults := fun _ => ⟨1, 1, true⟩

/-- Broker 1 creates a topic, the broadcast to broker 2 is lost, and broker 2 finds it. -/
theorem lost_broadcast_reconciled :
    (run oneEach (start [1, 2]) ([.create 1 "t" 2 1 none, .lose 0, .reconcile 2, .deliver 0 none,
      .deliver 0 none] ++ [.deliver 0 none])).Agree 2 1 :=
  reconciled_agree oneEach 1 [2] [.create 1 "t" 2 1 none, .lose 0, .reconcile 2, .deliver 0 none,
    .deliver 0 none] (.deliver 0 none) 2 (by decide) (by decide +kernel) (by decide +kernel)
    (by decide +kernel)

/-- The controller creates a topic, broker 2 learns of it, and a client deletes it on the
    controller. The next reconciliation of broker 2 leaves it there; and when the topic is created
    anew with two partitions, broker 2 keeps it with one. -/
theorem deleted_topic_stays :
    let gone : List TopicEvent := [.create 1 "t" 1 1 none, .deliver 0 none, .delete 1 "t",
      .deliver 0 none, .reconcile 2, .deliver 0 none]
    let again : List TopicEvent := [.create 1 "t" 1 1 none, .deliver 0 none, .delete 1 "t",
      .deliver 0 none, .create 1 "t" 2 1 none, .deliver 0 none, .reconcile 2, .deliver 0 none,
      .deliver 0 none]
    ∀ es ∈ [gone, again], Completes 2 (run oneEach (start [1, 2]) es) (.deliver 0 none) ∧
      (run oneEach (start [1, 2]) (es ++ [.deliver 0 none])).inFlight = [] ∧
      ¬ (run oneEach (start [1, 2]) (es ++ [.deliver 0 none])).Agree 2 1 := by
  intro gone again es hes
  have hdiffer : ∀ es ∈ [gone, again],
      Completes 2 (run oneEach (start [1, 2]) es) (.deliver 0 none) ∧
      (run oneEach (start [1, 2]) (es ++ [.deliver 0 none])).inFlight = [] ∧
      ¬ (((run oneEach (start [1, 2]) (es ++ [.deliver 0 none])).metadata 2).findTopic "t").map
          TopicDescriptor.layout =
        (((run oneEach (start [1, 2]) (es ++ [.deliver 0 none])).metadata 1).findTopic "t").map
          TopicDescriptor.layout := by
    decide +kernel
  obtain ⟨hdone, hquiet, hne⟩ := hdiffer es hes
  exact ⟨hdone, hquiet, fun hagree => hne (hagree "t")⟩

end Directory

end PulseLog

import Mathlib.Data.List.ReduceOption
import Vanguard.RingClones

/-! The ring answers as one queue. Every call takes effect at one of its own steps, and in the order
of the effects a bounded queue gives the answers that the calls return. -/
namespace RingLinearizability

open BoundedQueues StateMachines SharedIpc RingClones
open WrappingCounters (Shows)
open RingInterleaving (PushPoint)
open RingHandles (Call Reply SharedQueue queueStep)

def pushOf : Call → Option (ℕ × StrokeEvent)
  | .push handle event => some (handle, event)
  | _ => none

def pushResult : Reply → Option (Except String Unit)
  | .pushed result => some result
  | _ => none

def popResult : Reply → Option (Option StrokeEvent)
  | .popped event => some event
  | _ => none

/-- The one queue after the effects so far. -/
def queueOf (s : State) : SharedQueue :=
  run (fun q call => (queueStep q call).1) .initial s.effects

def answersOf (s : State) : List Reply := replies queueStep .initial s.effects

def unsettled (s : State) : List (ℕ × StrokeEvent) :=
  match s.ring.pushing with
  | .idle => []
  | .recheck event head =>
    if LooksFull head s.ring.producer.cachedTail then [] else [(s.pusher, event)]
  | .load event | .compare event _ | .reload event _ | .write event _ | .publish event _ =>
    [(s.pusher, event)]

/-- The answer of a running push that has had its effect. -/
def pushPending (s : State) : List (Except String Unit) :=
  match s.ring.pushing with
  | .recheck _ head => if LooksFull head s.ring.producer.cachedTail then [queueFull] else []
  | _ => []

def popPending (s : State) : List (Option StrokeEvent) :=
  match s.ring.popping with
  | .recheck tail => if LooksEmpty s.ring.consumer.cachedHead tail then [none] else []
  | _ => []

/-- The calls so far have had their effects on one queue. -/
structure Linear (s : State) : Prop where
  items : (queueOf s).queue.items = s.ring.events.drop s.ring.returned.length
  clones : (queueOf s).clones = s.clones.length
  accepted : (queueOf s).accepted = s.ring.published.length
  called : s.effects.filterMap pushOf ++ unsettled s = s.called
  pushed : (answersOf s).filterMap pushResult = s.pushed ++ pushPending s
  popped : (answersOf s).filterMap popResult = s.popped ++ popPending s
  returned : s.ring.returned = s.popped.reduceOption

variable {s : State}

theorem linear_opened : Linear opened := ⟨rfl, rfl, rfl, rfl, rfl, rfl, rfl⟩

section Effects

theorem Linear.length_items (h : Linear s) :
    (queueOf s).queue.items.length = s.ring.published.length - s.ring.returned.length := by
  rw [h.items, List.length_drop, RingInterleaving.events_length]

theorem Linear.push_full (h : Linear s) (hrun : s.pusher < s.clones.length)
    (hfull : RING_CAPACITY ≤ s.ring.published.length - s.ring.returned.length)
    (event : StrokeEvent) :
    queueStep (queueOf s) (.push s.pusher event) = (queueOf s, .pushed queueFull) := by
  have hbound := (queueOf s).queue.bounded
  have hlength := h.length_items
  have hq : (queueOf s).queue.push event = none := (push_eq_none_iff _ _).mpr (by omega)
  simp only [queueStep, h.clones, hrun, if_true, hq]

theorem Linear.push_room (h : Linear s) (hrun : s.pusher < s.clones.length)
    (hroom : s.ring.published.length < s.ring.returned.length + RING_CAPACITY)
    (hle : s.ring.returned.length ≤ s.ring.published.length) (event : StrokeEvent) :
    ∃ q, queueStep (queueOf s) (.push s.pusher event) = (q, .pushed (.ok ())) ∧
      q.queue.items = (queueOf s).queue.items ++ [event] ∧ q.clones = (queueOf s).clones ∧
      q.accepted = (queueOf s).accepted + 1 := by
  have hlength := h.length_items
  cases hq : (queueOf s).queue.push event with
  | none =>
    have := (push_eq_none_iff _ _).mp hq
    omega
  | some r =>
    refine ⟨{ queueOf s with queue := r, accepted := (queueOf s).accepted + 1 }, ?_⟩
    simp only [queueStep, h.clones, hrun, if_true, hq]
    exact ⟨trivial, push_items hq, trivial, trivial⟩

theorem Linear.pop_empty (h : Linear s)
    (hempty : s.ring.published.length = s.ring.returned.length) :
    queueStep (queueOf s) .pop = (queueOf s, .popped none) := by
  have hlength := h.length_items
  have hnil : (queueOf s).queue.items = [] := List.length_eq_zero_iff.mp (by omega)
  simp only [queueStep, (pop_eq_none_iff _).mpr hnil]

theorem Linear.pop_some (h : Linear s) {event : StrokeEvent}
    (hevent : s.ring.events[s.ring.returned.length]? = some event) :
    ∃ q, queueStep (queueOf s) .pop = (q, .popped (some event)) ∧
      q.queue.items = s.ring.events.drop (s.ring.returned.length + 1) ∧
      q.clones = (queueOf s).clones ∧ q.accepted = (queueOf s).accepted := by
  obtain ⟨hlt, hget⟩ := List.getElem?_eq_some_iff.mp hevent
  have hitems := h.items
  rw [List.drop_eq_getElem_cons hlt, hget] at hitems
  cases hq : (queueOf s).queue.pop with
  | none =>
    rw [(pop_eq_none_iff _).mp hq] at hitems
    cases hitems
  | some er =>
    obtain ⟨e, r⟩ := er
    have hpop := (pop_items hq).symm.trans hitems
    obtain ⟨rfl, hrest⟩ := List.cons.inj hpop
    refine ⟨{ queueOf s with queue := r }, ?_⟩
    simp only [queueStep, hq]
    exact ⟨trivial, hrest, trivial, trivial⟩

end Effects

theorem Linear.settle (h : Linear s) {s' : State} {call : Call} {q : SharedQueue} {reply : Reply}
    (heffects : s'.effects = s.effects ++ [call])
    (hstep : queueStep (queueOf s) call = (q, reply))
    (hqueue : q.queue.items = s'.ring.events.drop s'.ring.returned.length ∧
      q.clones = s'.clones.length ∧ q.accepted = s'.ring.published.length)
    (hcalled : s.effects.filterMap pushOf ++ (pushOf call).toList ++ unsettled s' = s'.called)
    (hpushed : s.pushed ++ pushPending s ++ (pushResult reply).toList =
      s'.pushed ++ pushPending s')
    (hpopped : s.popped ++ popPending s ++ (popResult reply).toList = s'.popped ++ popPending s')
    (hreturned : s'.ring.returned = s'.popped.reduceOption) : Linear s' := by
  have hq : queueOf s' = q := by
    rw [queueOf, heffects, run_append, run_cons, run_nil, ← queueOf, hstep]
  have hanswers : answersOf s' = answersOf s ++ [reply] := by
    rw [answersOf, heffects, replies_snoc, ← queueOf, hstep, answersOf]
  have hone : ∀ {α β : Type} (f : α → Option β) (a : α), [a].filterMap f = (f a).toList := by
    intro α β f a
    cases hf : f a <;> simp [hf]
  constructor
  · rw [hq]
    exact hqueue.1
  · rw [hq]
    exact hqueue.2.1
  · rw [hq]
    exact hqueue.2.2
  · rw [heffects, List.filterMap_append, hone]
    exact hcalled
  · rw [hanswers, List.filterMap_append, hone, h.pushed]
    exact hpushed
  · rw [hanswers, List.filterMap_append, hone, h.popped]
    exact hpopped
  · exact hreturned

theorem Linear.silent (h : Linear s)
    (hpublished : (RingInterleaving.producerTurn s.ring).published = s.ring.published)
    (heffect : pushEffect s = []) (hunsettled : unsettled (next s .producer) = unsettled s)
    (hpending : pushPending s = pushReturn s ++ pushPending (next s .producer)) :
    Linear (next s .producer) := by
  by_cases hidle : s.ring.pushing = .idle
  · simpa only [next, hidle, if_true] using h
  have hframe := producerTurn_frame s.ring
  have heffects : (next s .producer).effects = s.effects := by
    simp [next, hidle, heffect]
  have hring : (next s .producer).ring = RingInterleaving.producerTurn s.ring := by
    simp [next, hidle, RingInterleaving.next]
  have hevents : (RingInterleaving.producerTurn s.ring).events = s.ring.events :=
    congrArg (List.map Prod.snd) hpublished
  have hqueue : queueOf (next s .producer) = queueOf s := by rw [queueOf, heffects, queueOf]
  have hanswers : answersOf (next s .producer) = answersOf s := by
    rw [answersOf, heffects, answersOf]
  constructor
  · rw [hqueue, hring, hevents, hframe.1]
    exact h.items
  · rw [hqueue]
    simpa [next, hidle] using h.clones
  · rw [hqueue, hring, hpublished]
    exact h.accepted
  · rw [heffects, hunsettled]
    simpa [next, hidle] using h.called
  · have hpushed : (next s .producer).pushed = s.pushed ++ pushReturn s := by
      simp [next, hidle]
    rw [hanswers, hpushed, List.append_assoc, ← hpending]
    exact h.pushed
  · have hpopped : (next s .producer).popped ++ popPending (next s .producer) =
        s.popped ++ popPending s := by
      simp only [next, hidle, if_false, popPending, RingInterleaving.next, hframe.2.1,
        hframe.2.2.1]
    rw [hanswers, hpopped]
    exact h.popped
  · rw [hring, hframe.1]
    simpa [next, hidle] using h.returned

theorem Linear.full (h : Linear s) (hs : Sound s) {event : StrokeEvent} {head : Usize}
    (hp : s.ring.pushing = .reload event head) (hf : LooksFull head s.ring.ring.tail) :
    Linear (next s .producer) := by
  obtain ⟨c, k, hcounts⟩ := hs.counts
  obtain ⟨_, htail, hle, hroom⟩ := refreshed_spec hcounts
  have hrun : s.ring.pushing ≠ .idle := by simp [hp]
  have hhead : Shows head s.ring.published.length := by
    simpa [RingInterleaving.PushingAt, refreshed, hp] using hcounts.pushing
  have hword := capacity_lt_word
  have hfull := (SharedIpc.looksFull_iff hhead htail hle (by omega)).mp hf
  have hcalled := h.called
  simp only [unsettled, hp] at hcalled
  rw [next_producer hrun]
  refine h.settle ?_ (h.push_full (hs.running hrun) hfull event) ⟨?_, ?_, ?_⟩ ?_ ?_ ?_ ?_
  · simp [pushEffect, hp, hf]
  · simpa [RingInterleaving.producerTurn, hp, RingInterleaving.State.events] using h.items
  · simpa using h.clones
  · simpa [RingInterleaving.producerTurn, hp] using h.accepted
  · simpa [RingInterleaving.producerTurn, hp, unsettled, hf, pushOf] using hcalled
  · simp [RingInterleaving.producerTurn, hp, pushPending, pushReturn, pushResult, hf]
  · simp [RingInterleaving.producerTurn, hp, popPending, popResult]
  · simpa [RingInterleaving.producerTurn, hp] using h.returned

theorem Linear.publish (h : Linear s) (hs : Sound s) {event : StrokeEvent} {head : Usize}
    (hp : s.ring.pushing = .publish event head) : Linear (next s .producer) := by
  obtain ⟨c, k, hcounts⟩ := hs.counts
  obtain ⟨_, _, hle, _⟩ := refreshed_spec hcounts
  have hrun : s.ring.pushing ≠ .idle := by simp [hp]
  have hpushing := hcounts.pushing
  simp only [RingInterleaving.PushingAt, refreshed, hp] at hpushing
  have hfree : s.ring.published.length < s.ring.returned.length + RING_CAPACITY :=
    hpushing.2.1.trans_le (Nat.add_le_add_right hcounts.tail_old _)
  obtain ⟨q, hstep, hitems, hclones, haccepted⟩ := h.push_room (hs.running hrun) hfree hle event
  have hcalled := h.called
  simp only [unsettled, hp] at hcalled
  rw [next_producer hrun]
  refine h.settle ?_ hstep ⟨?_, ?_, ?_⟩ ?_ ?_ ?_ ?_
  · simp [pushEffect, hp]
  · rw [hitems, h.items]
    simp [RingInterleaving.producerTurn, hp, RingInterleaving.State.events,
      List.drop_append_of_le_length, hle]
  · simpa using hclones.trans h.clones
  · simpa [RingInterleaving.producerTurn, hp, h.accepted] using haccepted
  · simpa [RingInterleaving.producerTurn, hp, unsettled, pushOf] using hcalled
  · simp [RingInterleaving.producerTurn, hp, pushPending, pushReturn, pushResult]
  · simp [RingInterleaving.producerTurn, hp, popPending, popResult]
  · simpa [RingInterleaving.producerTurn, hp] using h.returned

theorem Linear.producer (h : Linear s) (hs : Sound s) : Linear (next s .producer) := by
  cases hp : s.ring.pushing with
  | idle => simpa only [next, hp, if_true] using h
  | load event =>
    apply h.silent
    all_goals simp [next, RingInterleaving.next, RingInterleaving.producerTurn, hp, pushEffect,
      pushReturn, unsettled, pushPending]
  | compare event head =>
    by_cases hf : LooksFull head s.ring.producer.cachedTail
    · apply h.silent
      all_goals simp [next, RingInterleaving.next, RingInterleaving.producerTurn, hp, hf,
        pushEffect, pushReturn, unsettled, pushPending]
    · apply h.silent
      all_goals simp [next, RingInterleaving.next, RingInterleaving.producerTurn, hp, hf,
        pushEffect, pushReturn, unsettled, pushPending]
  | reload event head =>
    by_cases hf : LooksFull head s.ring.ring.tail
    · exact h.full hs hp hf
    · apply h.silent
      all_goals simp [next, RingInterleaving.next, RingInterleaving.producerTurn, hp, hf,
        pushEffect, pushReturn, unsettled, pushPending]
  | recheck event head =>
    by_cases hf : LooksFull head s.ring.producer.cachedTail
    · apply h.silent
      all_goals simp [next, RingInterleaving.next, RingInterleaving.producerTurn, hp, hf,
        pushEffect, pushReturn, unsettled, pushPending]
    · apply h.silent
      all_goals simp [next, RingInterleaving.next, RingInterleaving.producerTurn, hp, hf,
        pushEffect, pushReturn, unsettled, pushPending]
  | write event head =>
    apply h.silent
    all_goals simp [next, RingInterleaving.next, RingInterleaving.producerTurn, hp, pushEffect,
      pushReturn, unsettled, pushPending]
  | publish event head => exact h.publish hs hp

theorem Linear.waiting (h : Linear s)
    (hreturned : (RingInterleaving.consumerTurn s.ring).returned = s.ring.returned)
    (heffect : popEffect s = [])
    (hpending : popPending s = popReturn s ++ popPending (next s .consumer))
    (hnone : (popReturn s).reduceOption = []) : Linear (next s .consumer) := by
  obtain ⟨hpushing, hproducer, hpublished, _⟩ := consumerTurn_frame s.ring
  have hevents : (RingInterleaving.consumerTurn s.ring).events = s.ring.events :=
    congrArg (List.map Prod.snd) hpublished
  have heffects : (next s .consumer).effects = s.effects := by simp [next, heffect]
  have hqueue : queueOf (next s .consumer) = queueOf s := by rw [queueOf, heffects, queueOf]
  have hanswers : answersOf (next s .consumer) = answersOf s := by
    rw [answersOf, heffects, answersOf]
  constructor
  · rw [hqueue]
    simpa only [next, RingInterleaving.next, hevents, hreturned] using h.items
  · rw [hqueue]
    exact h.clones
  · rw [hqueue]
    simpa only [next, RingInterleaving.next, hpublished] using h.accepted
  · rw [heffects]
    simpa only [next, RingInterleaving.next, unsettled, hpushing, hproducer] using h.called
  · rw [hanswers]
    simpa only [next, RingInterleaving.next, pushPending, hpushing, hproducer] using h.pushed
  · have hpopped : (next s .consumer).popped = s.popped ++ popReturn s := rfl
    rw [hanswers, hpopped, List.append_assoc, ← hpending]
    exact h.popped
  · simpa only [next, RingInterleaving.next, hreturned, List.reduceOption_append, hnone,
      List.append_nil] using h.returned

theorem Linear.empty (h : Linear s) (hs : Sound s) {tail : Usize}
    (hp : s.ring.popping = .reload tail) (he : LooksEmpty s.ring.ring.head tail) :
    Linear (next s .consumer) := by
  obtain ⟨c, k, hcounts⟩ := hs.counts
  obtain ⟨hhead, _, hle, hroom⟩ := refreshed_spec hcounts
  have htail : Shows tail s.ring.returned.length := by
    simpa [RingInterleaving.PoppingAt, refreshed, hp] using hcounts.popping
  have hword := capacity_lt_word
  have hsame := (SharedIpc.looksEmpty_iff hhead htail hle (by omega)).mp he
  refine h.settle ?_ (h.pop_empty hsame) ⟨?_, ?_, ?_⟩ ?_ ?_ ?_ ?_
  · simp [next, popEffect, hp, he]
  · simpa [next, RingInterleaving.next, RingInterleaving.consumerTurn, hp,
      RingInterleaving.State.events] using h.items
  · exact h.clones
  · simpa [next, RingInterleaving.next, RingInterleaving.consumerTurn, hp] using h.accepted
  · simpa [next, RingInterleaving.next, RingInterleaving.consumerTurn, hp, pushOf, unsettled]
      using h.called
  · simp [next, RingInterleaving.next, RingInterleaving.consumerTurn, hp, pushPending, pushResult]
  · simp [next, RingInterleaving.next, RingInterleaving.consumerTurn, hp, popPending, popReturn,
      popResult, he]
  · simpa [next, RingInterleaving.next, RingInterleaving.consumerTurn, hp, popReturn]
      using h.returned

theorem Linear.advance (h : Linear s) (hs : Sound s) {tail : Usize} {event : StrokeEvent}
    (hp : s.ring.popping = .advance tail event) : Linear (next s .consumer) := by
  obtain ⟨c, k, hcounts⟩ := hs.counts
  have hpopping := hcounts.popping
  simp only [RingInterleaving.PoppingAt, refreshed, hp] at hpopping
  have hevent : s.ring.events[s.ring.returned.length]? = some event := hpopping.2.2
  obtain ⟨q, hstep, hitems, hclones, haccepted⟩ := h.pop_some hevent
  refine h.settle ?_ hstep ⟨?_, ?_, ?_⟩ ?_ ?_ ?_ ?_
  · simp [next, popEffect, hp]
  · simpa [next, RingInterleaving.next, RingInterleaving.consumerTurn, hp,
      RingInterleaving.State.events] using hitems
  · exact hclones.trans h.clones
  · simpa [next, RingInterleaving.next, RingInterleaving.consumerTurn, hp, h.accepted]
      using haccepted
  · simpa [next, RingInterleaving.next, RingInterleaving.consumerTurn, hp, pushOf, unsettled]
      using h.called
  · simp [next, RingInterleaving.next, RingInterleaving.consumerTurn, hp, pushPending, pushResult]
  · simp [next, RingInterleaving.next, RingInterleaving.consumerTurn, hp, popPending, popReturn,
      popResult]
  · simp [next, RingInterleaving.next, RingInterleaving.consumerTurn, hp, popReturn, h.returned,
      List.reduceOption_append]

theorem Linear.consumer (h : Linear s) (hs : Sound s) : Linear (next s .consumer) := by
  cases hp : s.ring.popping with
  | idle | load | read tail =>
    apply h.waiting
    all_goals simp [next, RingInterleaving.next, RingInterleaving.consumerTurn, hp, popEffect,
      popReturn, popPending, List.reduceOption]
  | compare tail =>
    by_cases he : LooksEmpty s.ring.consumer.cachedHead tail
    · apply h.waiting
      all_goals simp [next, RingInterleaving.next, RingInterleaving.consumerTurn, hp, he,
        popEffect, popReturn, popPending, List.reduceOption]
    · apply h.waiting
      all_goals simp [next, RingInterleaving.next, RingInterleaving.consumerTurn, hp, he,
        popEffect, popReturn, popPending, List.reduceOption]
  | reload tail =>
    by_cases he : LooksEmpty s.ring.ring.head tail
    · exact h.empty hs hp he
    · apply h.waiting
      all_goals simp [next, RingInterleaving.next, RingInterleaving.consumerTurn, hp, he,
        popEffect, popReturn, popPending, List.reduceOption]
  | recheck tail =>
    by_cases he : LooksEmpty s.ring.consumer.cachedHead tail
    · apply h.waiting
      all_goals simp [next, RingInterleaving.next, RingInterleaving.consumerTurn, hp, he,
        popEffect, popReturn, popPending, List.reduceOption]
    · apply h.waiting
      all_goals simp [next, RingInterleaving.next, RingInterleaving.consumerTurn, hp, he,
        popEffect, popReturn, popPending, List.reduceOption]
  | advance tail event => exact h.advance hs hp

theorem Linear.add_clone (h : Linear s) (hidle : s.ring.pushing = .idle) {p : AegisProducer}
    {call : Call}
    (hstep : queueStep (queueOf s) call =
      ({ queueOf s with clones := (queueOf s).clones + 1 }, .none))
    (hcall : pushOf call = none) :
    Linear { s with clones := s.clones ++ [p], effects := s.effects ++ [call] } := by
  refine h.settle rfl hstep ⟨h.items, ?_, h.accepted⟩ ?_ ?_ ?_ h.returned
  · simp [h.clones]
  · simpa [hcall, unsettled, hidle] using h.called
  · simp [pushResult, pushPending, hidle]
  · simp [popResult, popPending]

theorem linear_next (h : Linear s) (hs : Sound s) (turn : Turn) : Linear (next s turn) := by
  cases turn with
  | cloneTemplate =>
    simp only [next]
    split
    · next hidle => exact h.add_clone hidle rfl rfl
    · exact h
  | clone source =>
    simp only [next]
    split
    · next p hidle hp =>
      refine h.add_clone hidle ?_ rfl
      have hlt : source < s.clones.length := (List.getElem?_eq_some_iff.mp hp).1
      simp only [queueStep, h.clones, hlt, if_true]
    · exact h
  | callPush handle event =>
    simp only [next]
    split
    · next p hidle hp =>
      have hcalled := h.called
      have hpushed := h.pushed
      simp only [unsettled, pushPending, hidle, List.append_nil] at hcalled hpushed
      simp only [RingInterleaving.next, hidle, if_true]
      constructor
      · exact h.items
      · exact h.clones
      · exact h.accepted
      · simpa [unsettled] using hcalled
      · simpa [pushPending, answersOf] using hpushed
      · exact h.popped
      · exact h.returned
    · exact h
  | producer => exact h.producer hs
  | callPop =>
    have hpopped := h.popped
    simp only [popPending] at hpopped
    by_cases hidle : s.ring.popping = .idle
    · simp only [next, RingInterleaving.next, hidle, if_true]
      simp only [hidle] at hpopped
      exact ⟨h.items, h.clones, h.accepted, h.called, h.pushed, hpopped, h.returned⟩
    · simpa only [next, RingInterleaving.next, hidle, if_false] using h
  | consumer => exact h.consumer hs

theorem run_linear {turns : List Turn} (few : turns.countP Turn.isCallPush < 2 ^ 64) :
    Sound (run next opened turns) ∧ Linear (run next opened turns) := by
  refine run_keeps (P := fun s => Sound s ∧ Linear s) ?_ ⟨sound_opened, linear_opened⟩ few
  intro s turn h hfew
  exact ⟨sound_next h.1 turn hfew, linear_next h.2 h.1 turn⟩

theorem Linear.idle_push (h : Linear s) (hidle : s.ring.pushing = .idle) :
    s.effects.filterMap pushOf = s.called ∧ (answersOf s).filterMap pushResult = s.pushed := by
  have hcalled := h.called
  have hpushed := h.pushed
  simp only [unsettled, pushPending, hidle, List.append_nil] at hcalled hpushed
  exact ⟨hcalled, hpushed⟩

theorem Linear.idle_pop (h : Linear s) (hidle : s.ring.popping = .idle) :
    (answersOf s).filterMap popResult = s.popped := by
  have hpopped := h.popped
  simpa only [popPending, hidle, List.append_nil] using hpopped

/-- The ring is linearizable, however stale the clones are and however the steps of a pop fall
between those of a push: in the order of their effects the calls are answered as by one bounded
queue, and whenever no call of a side runs, its calls so far have had their effects and no others
have. -/
theorem clones_linearizable (turns : List Turn) (few : turns.countP Turn.isCallPush < 2 ^ 64) :
    let s := run next opened turns
    let answers := replies queueStep .initial s.effects
    (s.ring.pushing = .idle →
      s.effects.filterMap pushOf = s.called ∧ answers.filterMap pushResult = s.pushed) ∧
    (s.ring.popping = .idle → answers.filterMap popResult = s.popped) ∧
    s.ring.returned = s.popped.reduceOption ∧ s.ring.returned <+: s.ring.events := by
  intro s answers
  obtain ⟨hs, h⟩ := run_linear few
  exact ⟨h.idle_push, h.idle_pop, h.returned, hs.in_order⟩

def firstTurns : List Turn :=
  [.cloneTemplate, .clone 0, .callPush 0 .zeroed, .producer, .producer, .producer, .producer,
    .callPop, .consumer, .consumer, .consumer]

def laterTurns : List Turn :=
  [.callPush 1 { StrokeEvent.zeroed with sessionId := 7 }, .producer, .consumer, .consumer,
    .producer, .consumer, .producer, .producer]

/-- The clone that has never been called meets a ring that has moved on, and a pop between two
steps of its push. -/
theorem clones_linearizable_stale_clone :
    let turns := firstTurns ++ laterTurns
    turns.countP Turn.isCallPush < 2 ^ 64 ∧
      let s := run next opened turns
      let answers := replies queueStep .initial s.effects
      (s.ring.pushing = .idle →
        s.effects.filterMap pushOf = s.called ∧ answers.filterMap pushResult = s.pushed) ∧
      (s.ring.popping = .idle → answers.filterMap popResult = s.popped) ∧
      s.ring.returned = s.popped.reduceOption ∧ s.ring.returned <+: s.ring.events :=
  ⟨by decide, clones_linearizable _ (by decide)⟩

end RingLinearizability

import Vanguard.StateMachines
import Vanguard.SharedIpc

/-! Handles that are created on a ring in use. Each starts with a cached index of zero. For a
producer that is only an old tail; a consumer takes it for the head. -/
namespace RingAttach

open WrappingCounters BoundedQueues StateMachines SharedIpc

/-- The ring with its one producer and its one consumer, all that was ever accepted and all that
was ever returned. -/
structure Attached where
  ring : SharedRing
  producer : AegisProducer
  consumer : CelerConsumer
  pushed : List StrokeEvent
  popped : List StrokeEvent

def opened : Attached := ⟨.zeroed, .new, .new, [], []⟩

/-- A new handle takes the place of the old one, which is dropped. -/
inductive Event where
  | push (event : StrokeEvent)
  | pop
  | newProducer
  | newConsumer
  deriving DecidableEq

def next (s : Attached) : Event → Attached
  | .push event =>
    match s.producer.push s.ring event with
    | (.ok (), producer, ring) =>
      { s with ring := ring, producer := producer, pushed := s.pushed ++ [event] }
    | (.error _, producer, ring) => { s with ring := ring, producer := producer }
  | .pop =>
    match s.consumer.pop s.ring with
    | (some event, consumer, ring) =>
      { s with ring := ring, consumer := consumer, popped := s.popped ++ [event] }
    | (none, consumer, ring) => { s with ring := ring, consumer := consumer }
  | .newProducer => { s with producer := .new }
  | .newConsumer => { s with consumer := .new }

/-- What was popped is a prefix of what was pushed, and the tail is not ahead of the head. -/
structure Fifo (s : Attached) : Prop where
  order : s.popped <+: s.pushed
  bounded : (s.ring.head - s.ring.tail).toNat ≤ RING_CAPACITY

/-- A pop from the empty ring is made with a cached head that shows the ring empty. -/
def Refreshed (s : Attached) : Event → Prop
  | .pop => s.ring.head = s.ring.tail → s.consumer.cachedHead = s.ring.tail
  | _ => True

instance (s : Attached) (e : Event) : Decidable (Refreshed s e) := by
  cases e
  · exact isTrue trivial
  · exact inferInstanceAs (Decidable (_ → _))
  · exact isTrue trivial
  · exact isTrue trivial

def Event.isPush : Event → Bool
  | .push _ => true
  | _ => false

structure Sound (s : Attached) (q : BoundedQueue StrokeEvent RING_CAPACITY) : Prop where
  stores : Stores s.ring s.popped.length q
  pushed : s.pushed = s.popped ++ q.items
  producer : ∃ c, Shows s.producer.cachedTail c ∧ c ≤ s.popped.length
  consumer : ∃ c, Shows s.consumer.cachedHead c ∧ c ≤ s.pushed.length

theorem sound_opened : Sound opened empty where
  stores := stores_zeroed
  pushed := rfl
  producer := ⟨0, shows_zero, le_rfl⟩
  consumer := ⟨0, shows_zero, le_rfl⟩

variable {s : Attached} {q : BoundedQueue StrokeEvent RING_CAPACITY}

theorem Sound.fifo (h : Sound s q) : Fifo s := by
  have hbound := q.bounded
  have hword := capacity_lt_word
  constructor
  · rw [h.pushed]
    exact List.prefix_append _ _
  · rw [h.stores.head.sub_toNat h.stores.tail (by omega) (by omega)]
    omega

theorem Sound.pushed_length (h : Sound s q) :
    s.pushed.length = s.popped.length + q.items.length := by
  rw [h.pushed, List.length_append]

theorem Sound.empty_iff (h : Sound s q) : s.ring.head = s.ring.tail ↔ q.items = [] := by
  have hbound := q.bounded
  have hword := capacity_lt_word
  have hcount := looksEmpty_iff h.stores.head h.stores.tail (by omega) (by omega)
  rw [LooksEmpty, sub_eq_zero] at hcount
  rw [hcount, ← List.length_eq_zero_iff]
  omega

theorem Sound.push (h : Sound s q) (hfew : s.pushed.length < 2 ^ 64) (event : StrokeEvent) :
    ∃ r, Sound (next s (.push event)) r := by
  have hcount := h.pushed_length
  obtain ⟨c, hc, hle⟩ := h.producer
  obtain ⟨⟨c', hc', _, hle'⟩, hans⟩ := push_spec h.stores hc hle (by omega) event
  rw [next]
  rcases hpush : s.producer.push s.ring event with ⟨result, producer, ring⟩
  rw [hpush] at hc' hans
  cases hq : q.push event with
  | none =>
    rw [hq] at hans
    obtain ⟨hresult, hring⟩ := hans
    dsimp only at hresult hring
    subst hresult hring
    exact ⟨q, h.stores, h.pushed, ⟨c', hc', hle'⟩, h.consumer⟩
  | some r =>
    rw [hq] at hans
    obtain ⟨hresult, hstores⟩ := hans
    dsimp only at hresult
    subst hresult
    obtain ⟨k, hk, hkle⟩ := h.consumer
    refine ⟨r, hstores, ?_, ⟨c', hc', hle'⟩, k, hk, ?_⟩
    · simp only [h.pushed, push_items hq, List.append_assoc]
    · simp only [List.length_append]
      omega

theorem pop_believes {c : CelerConsumer} {ring : SharedRing} (h : c.cachedHead ≠ ring.tail) :
    c.pop ring = (some (ring.read ring.tail), c, { ring with tail := ring.tail + 1 }) := by
  have hempty : ¬ LooksEmpty c.cachedHead ring.tail := fun hz => h (sub_eq_zero.mp hz)
  simp only [CelerConsumer.pop, hempty, if_false]

theorem Sound.pop_some (h : Sound s q) (hfew : s.pushed.length < 2 ^ 64) {event : StrokeEvent}
    {r : BoundedQueue StrokeEvent RING_CAPACITY} (hq : q.pop = some (event, r)) :
    Sound (next s .pop) r := by
  have hcount := h.pushed_length
  have hitems := pop_items hq
  have hlength : q.items.length = r.items.length + 1 := congrArg List.length hitems
  obtain ⟨c, hc, hle⟩ := h.consumer
  obtain ⟨d, hd, hdle⟩ := h.producer
  have hpop : ∃ k, (s.consumer.pop s.ring).1 = some event ∧
      Stores (s.consumer.pop s.ring).2.2 (s.popped.length + 1) r ∧
      Shows (s.consumer.pop s.ring).2.1.cachedHead k ∧ k ≤ s.pushed.length := by
    rcases Nat.lt_or_ge c s.popped.length with hbehind | hahead
    · have hne : s.consumer.cachedHead ≠ s.ring.tail := by
        intro he
        have hsame := (h.stores.tail.sub_eq_zero_iff hc hbehind.le (by omega)).mp
          (sub_eq_zero.mpr he.symm)
        omega
      obtain ⟨hread, hstores⟩ := h.stores.advance hq
      rw [pop_believes hne]
      exact ⟨c, congrArg some hread, hstores, hc, hle⟩
    · have hans := pop_spec h.stores hc hahead (by omega)
      rw [hq] at hans
      obtain ⟨hsome, hstores, k, hk, _, hkle⟩ := hans
      exact ⟨k, hsome, hstores, hk, by omega⟩
  obtain ⟨k, hsome, hstores, hk, hkle⟩ := hpop
  rw [next]
  rcases hcall : s.consumer.pop s.ring with ⟨result, consumer, ring⟩
  rw [hcall] at hsome hstores hk
  dsimp only at hsome
  subst hsome
  constructor
  · simpa using hstores
  · simp only [h.pushed, hitems, List.append_assoc, List.singleton_append]
  · exact ⟨d, hd, by simp only [List.length_append]; omega⟩
  · exact ⟨k, hk, hkle⟩

theorem Sound.pop_none (h : Sound s q) (hq : q.items = [])
    (hrefreshed : s.consumer.cachedHead = s.ring.tail) : Sound (next s .pop) q := by
  have hc : Shows s.consumer.cachedHead s.popped.length := by
    rw [hrefreshed]
    exact h.stores.tail
  have hans := pop_spec h.stores hc le_rfl (Nat.le_add_right _ _)
  rw [(pop_eq_none_iff q).mpr hq] at hans
  obtain ⟨hnone, hring, hcache⟩ := hans
  rw [next]
  rcases hcall : s.consumer.pop s.ring with ⟨result, consumer, ring⟩
  rw [hcall] at hnone hring hcache
  dsimp only at hnone hring
  subst hnone hring
  refine ⟨h.stores, h.pushed, h.producer, s.popped.length, hcache, ?_⟩
  rw [h.pushed_length]
  exact Nat.le_add_right _ _

theorem sound_next (hfew : s.pushed.length < 2 ^ 64) (h : ∃ q, Sound s q) {e : Event}
    (hc : Refreshed s e) : ∃ q, Sound (next s e) q := by
  obtain ⟨q, h⟩ := h
  cases e with
  | push event => exact h.push hfew event
  | pop =>
    cases hq : q.pop with
    | none =>
      have hnil := (pop_eq_none_iff q).mp hq
      exact ⟨q, h.pop_none hnil (hc (h.empty_iff.mpr hnil))⟩
    | some popped => exact ⟨popped.2, h.pop_some hfew hq⟩
  | newProducer => exact ⟨q, h.stores, h.pushed, ⟨0, shows_zero, Nat.zero_le _⟩, h.consumer⟩
  | newConsumer => exact ⟨q, h.stores, h.pushed, h.producer, 0, shows_zero, Nat.zero_le _⟩

theorem not_fifo_next (h : ∃ q, Sound s q) {e : Event} (hc : ¬ Refreshed s e) :
    ¬ Fifo (next s e) := by
  obtain ⟨q, h⟩ := h
  cases e with
  | pop =>
    simp only [Refreshed, Classical.not_imp] at hc
    obtain ⟨hempty, hne⟩ := hc
    have hnil := h.empty_iff.mp hempty
    intro hfifo
    have hlength := hfifo.order.length_le
    rw [next, pop_believes hne] at hlength
    simp only [List.length_append, List.length_singleton, h.pushed_length, hnil,
      List.length_nil] at hlength
    omega
  | push event => exact absurd trivial hc
  | newProducer => exact absurd trivial hc
  | newConsumer => exact absurd trivial hc

theorem pushed_next (s : Attached) (e : Event) :
    (next s e).pushed.length ≤ s.pushed.length + (if e.isPush then 1 else 0) := by
  cases e with
  | push event =>
    simp only [next, Event.isPush]
    split
    · simp
    · simp
  | pop =>
    simp only [next]
    split <;> simp
  | newProducer => simp [next]
  | newConsumer => simp [next]

theorem pushed_run (s : Attached) (es : List Event) :
    (run next s es).pushed.length ≤ s.pushed.length + es.countP Event.isPush := by
  induction es generalizing s with
  | nil => simp
  | cons e es ih =>
    have hrest := ih (next s e)
    have hfirst := pushed_next s e
    rw [run_cons, List.countP_cons]
    omega

/-- On one ring, with handles created at any time, first in is first out all along a run just if
no consumer pops from the empty ring before it has loaded the head. -/
theorem fifo_iff_refreshed (es : List Event) (few : es.countP Event.isPush < 2 ^ 64) :
    (∀ as, as <+: es → Fifo (run next opened as)) ↔ StepsMeet next Refreshed opened es := by
  have hkind : ∀ as, as <+: es → (run next opened as).pushed.length < 2 ^ 64 := by
    intro as has
    have hrun := pushed_run opened as
    have hpart : as.countP Event.isPush ≤ es.countP Event.isPush := has.sublist.countP_le
    have hnone : opened.pushed.length = 0 := rfl
    omega
  exact always_iff_stepsMeet (A := fun s => s.pushed.length < 2 ^ 64)
    (G := fun s => ∃ q, Sound s q) (P := Fifo) (fun _ h => h.elim fun _ h => h.fifo)
    (fun _ _ hfew h hc => sound_next hfew h hc) (fun _ _ _ h hc => not_fifo_next h hc) hkind
    ⟨empty, sound_opened⟩

theorem fifo_iff_refreshed_new_consumer :
    let es : List Event := [.push .zeroed, .pop, .push { StrokeEvent.zeroed with sessionId := 7 },
      .newProducer, .newConsumer, .pop]
    (∀ as, as <+: es → Fifo (run next opened as)) ↔ StepsMeet next Refreshed opened es :=
  fifo_iff_refreshed _ (by decide)

/-- The new consumer returns an event that was never pushed. -/
theorem new_consumer_pops_unpushed :
    let event := { StrokeEvent.zeroed with sessionId := 7 }
    let es : List Event := [.push event, .pop, .newConsumer, .pop]
    (run next opened es).pushed = [event] ∧ (run next opened es).popped = [event, .zeroed] ∧
      ¬ Fifo (run next opened es) := by
  intro event es
  have hpopped : (run next opened es).popped = [event, .zeroed] := by decide
  refine ⟨by decide, hpopped, ?_⟩
  intro hfifo
  have hlength := hfifo.order.length_le
  rw [hpopped] at hlength
  revert hlength
  decide

end RingAttach

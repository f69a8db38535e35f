import Vanguard.StateMachines
import Vanguard.SharedIpc

/-! One producer and one consumer on the ring, interleaved between any two accesses of shared
memory. `published` and `returned` are ghost observations that no step reads: each store of
`head` records its event and slot, each store of `tail` the event its pop returns. -/
namespace RingInterleaving

open WrappingCounters BoundedQueues StateMachines SharedIpc

/-- The next step of a running `push`, with the locals it needs. -/
inductive PushPoint where
  | idle
  | load (event : StrokeEvent)
  | compare (event : StrokeEvent) (head : Usize)
  | reload (event : StrokeEvent) (head : Usize)
  | recheck (event : StrokeEvent) (head : Usize)
  | write (event : StrokeEvent) (head : Usize)
  | publish (event : StrokeEvent) (head : Usize)
  deriving DecidableEq

inductive PopPoint where
  | idle
  | load
  | compare (tail : Usize)
  | reload (tail : Usize)
  | recheck (tail : Usize)
  | read (tail : Usize)
  | advance (tail : Usize) (event : StrokeEvent)
  deriving DecidableEq

structure State where
  ring : SharedRing
  producer : AegisProducer
  consumer : CelerConsumer
  pushing : PushPoint
  popping : PopPoint
  published : List (Fin RING_CAPACITY × StrokeEvent)
  returned : List StrokeEvent

def initial : State := ⟨.zeroed, .new, .new, .idle, .idle, [], []⟩

inductive Turn where
  | callPush (event : StrokeEvent)
  | producer
  | callPop
  | consumer

def producerTurn (s : State) : State :=
  match s.pushing with
  | .idle => s
  | .load event => { s with pushing := .compare event s.ring.head }
  | .compare event head =>
    { s with pushing := if LooksFull head s.producer.cachedTail then .reload event head
                        else .write event head }
  | .reload event head => { s with producer := ⟨s.ring.tail⟩, pushing := .recheck event head }
  | .recheck event head =>
    { s with pushing := if LooksFull head s.producer.cachedTail then .idle
                        else .write event head }
  | .write event head => { s with ring := s.ring.write head event, pushing := .publish event head }
  | .publish event head =>
    { s with ring := { s.ring with head := head + 1 }
             pushing := .idle
             published := s.published ++ [(index head, event)] }

def consumerTurn (s : State) : State :=
  match s.popping with
  | .idle => s
  | .load => { s with popping := .compare s.ring.tail }
  | .compare tail =>
    { s with popping := if LooksEmpty s.consumer.cachedHead tail then .reload tail
                        else .read tail }
  | .reload tail => { s with consumer := ⟨s.ring.head⟩, popping := .recheck tail }
  | .recheck tail =>
    { s with popping := if LooksEmpty s.consumer.cachedHead tail then .idle else .read tail }
  | .read tail => { s with popping := .advance tail (s.ring.read tail) }
  | .advance tail event =>
    { s with ring := { s.ring with tail := tail + 1 }
             popping := .idle
             returned := s.returned ++ [event] }

/-- A new call starts only when the handle's last one has returned (`&mut self`). -/
def next (s : State) : Turn → State
  | .callPush event => if s.pushing = .idle then { s with pushing := .load event } else s
  | .producer => producerTurn s
  | .callPop => if s.popping = .idle then { s with popping := .load } else s
  | .consumer => consumerTurn s

/-- A `push` that nobody interrupts does what the whole call does. -/
theorem push_uninterrupted (s : State) (event : StrokeEvent) (h : s.pushing = .idle) :
    let t := run next s (.callPush event :: List.replicate 6 .producer)
    t.pushing = .idle ∧ (t.producer, t.ring) = (s.producer.push s.ring event).2 := by
  simp only [List.replicate, run_cons, run_nil, next, h, if_true, producerTurn,
    AegisProducer.push]
  by_cases hf : LooksFull s.ring.head s.producer.cachedTail
  · by_cases hs : LooksFull s.ring.head s.ring.tail
    · simp only [hf, hs, if_true]
      exact ⟨trivial, trivial⟩
    · simp only [hf, hs, if_true, if_false]
      exact ⟨trivial, trivial⟩
  · simp only [hf, if_false]
    exact ⟨trivial, trivial⟩

theorem pop_uninterrupted (s : State) (h : s.popping = .idle) :
    let t := run next s (.callPop :: List.replicate 6 .consumer)
    t.popping = .idle ∧ (t.consumer, t.ring) = (s.consumer.pop s.ring).2 ∧
      t.returned = s.returned ++ (s.consumer.pop s.ring).1.toList := by
  simp only [List.replicate, run_cons, run_nil, next, h, if_true, consumerTurn,
    CelerConsumer.pop]
  by_cases he : LooksEmpty s.consumer.cachedHead s.ring.tail
  · by_cases hs : LooksEmpty s.ring.head s.ring.tail
    · simp [he, hs]
    · simp [he, hs]
  · simp [he]

def State.events (s : State) : List StrokeEvent := s.published.map Prod.snd

@[simp] theorem events_length (s : State) : s.events.length = s.published.length :=
  List.length_map _

/-- What the locals of a running `push` say, the cached tail showing the count `c`. -/
def PushingAt (s : State) (c : ℕ) : Prop :=
  match s.pushing with
  | .idle | .load _ => True
  | .compare _ head | .reload _ head | .recheck _ head => Shows head s.published.length
  | .write _ head => Shows head s.published.length ∧ s.published.length < c + RING_CAPACITY
  | .publish event head =>
    Shows head s.published.length ∧ s.published.length < c + RING_CAPACITY ∧
      s.ring.events (slot RING_CAPACITY s.published.length) = event

def PoppingAt (s : State) (k : ℕ) : Prop :=
  match s.popping with
  | .idle | .load => True
  | .compare tail | .reload tail | .recheck tail => Shows tail s.returned.length
  | .read tail => Shows tail s.returned.length ∧ s.returned.length < k
  | .advance tail event =>
    Shows tail s.returned.length ∧ s.returned.length < k ∧
      s.events[s.returned.length]? = some event

/-- The caches show counts that were true once: `c` of the tail, `k` of the head. -/
structure Counts (s : State) (c k : ℕ) : Prop where
  head : Shows s.ring.head s.published.length
  tail : Shows s.ring.tail s.returned.length
  cachedTail : Shows s.producer.cachedTail c
  cachedHead : Shows s.consumer.cachedHead k
  tail_old : c ≤ s.returned.length
  tail_near : s.published.length ≤ c + RING_CAPACITY
  head_seen : s.returned.length ≤ k
  head_old : k ≤ s.published.length
  in_order : s.returned = s.events.take s.returned.length
  slots : ∀ n (h : n < s.published.length), s.published[n].1 = slot RING_CAPACITY n
  window : Holds s.ring.events s.returned.length (s.events.drop s.returned.length)
  pushing : PushingAt s c
  popping : PoppingAt s k

theorem counts_initial : Counts initial 0 0 where
  head := shows_zero
  tail := shows_zero
  cachedTail := shows_zero
  cachedHead := shows_zero
  tail_old := le_rfl
  tail_near := Nat.zero_le _
  head_seen := le_rfl
  head_old := le_rfl
  in_order := rfl
  slots := by simp [initial]
  window := holds_nil _ _
  pushing := trivial
  popping := trivial

variable {s : State} {c k : ℕ}

theorem Counts.room (h : Counts s c k) :
    s.returned.length ≤ s.published.length ∧
      s.published.length ≤ s.returned.length + RING_CAPACITY := by
  have := h.tail_old
  have := h.tail_near
  have := h.head_seen
  have := h.head_old
  omega

theorem Counts.looksFull_iff (h : Counts s c k) {head : Usize}
    (hh : Shows head s.published.length) :
    LooksFull head s.producer.cachedTail ↔ RING_CAPACITY ≤ s.published.length - c := by
  have := h.room
  have := h.tail_old
  have := h.tail_near
  have := capacity_lt_word
  exact SharedIpc.looksFull_iff hh h.cachedTail (by omega) (by omega)

theorem Counts.looksEmpty_iff (h : Counts s c k) {tail : Usize}
    (ht : Shows tail s.returned.length) :
    LooksEmpty s.consumer.cachedHead tail ↔ k = s.returned.length := by
  have := h.room
  have := h.head_old
  have := capacity_lt_word
  exact SharedIpc.looksEmpty_iff h.cachedHead ht h.head_seen (by omega)

theorem Counts.write_slot (h : Counts s c k) (room : s.published.length < c + RING_CAPACITY) :
    ∀ p ∈ s.published.drop s.returned.length,
      p.1 ≠ slot RING_CAPACITY s.published.length := by
  intro p hp
  obtain ⟨i, hi, rfl⟩ := List.getElem_of_mem hp
  rw [List.length_drop] at hi
  rw [List.getElem_drop, h.slots]
  have hle := h.room.1
  have := h.tail_old
  have hfresh : slot RING_CAPACITY (s.returned.length + i) ≠ slot RING_CAPACITY
      (s.returned.length + (s.published.length - s.returned.length)) :=
    slot_end_fresh hi (by omega)
  rwa [Nat.add_sub_cancel' hle] at hfresh

theorem Counts.producer_turn (h : Counts s c k) : ∃ c', Counts (producerTurn s) c' k := by
  have hp := h.pushing
  have hroom := h.room
  unfold PushingAt at hp
  unfold producerTurn
  cases hpc : s.pushing with
  | idle => exact ⟨c, h⟩
  | load event =>
    exact ⟨c, { h with pushing := h.head, popping := h.popping }⟩
  | compare event head =>
    rw [hpc] at hp
    have hfull := h.looksFull_iff hp
    refine ⟨c, { h with pushing := ?_, popping := h.popping }⟩
    by_cases hf : LooksFull head s.producer.cachedTail
    · simp only [hf, if_true]
      exact hp
    · simp only [hf, if_false]
      exact ⟨hp, by have := hfull.not.mp hf; simp only; omega⟩
  | reload event head =>
    rw [hpc] at hp
    exact ⟨s.returned.length, { h with
      cachedTail := h.tail, tail_old := le_rfl, tail_near := hroom.2, pushing := hp,
      popping := h.popping }⟩
  | recheck event head =>
    rw [hpc] at hp
    have hfull := h.looksFull_iff hp
    refine ⟨c, { h with pushing := ?_, popping := h.popping }⟩
    by_cases hf : LooksFull head s.producer.cachedTail
    · simp only [hf, if_true]
      trivial
    · simp only [hf, if_false]
      exact ⟨hp, by have := hfull.not.mp hf; simp only; omega⟩
  | write event head =>
    rw [hpc] at hp
    obtain ⟨hhead, hfree⟩ := hp
    have hold := h.tail_old
    -- The slot written is the one after the window of live events.
    have hlen : (s.events.drop s.returned.length).length =
        s.published.length - s.returned.length := by simp
    have hend : s.returned.length + (s.events.drop s.returned.length).length =
        s.published.length := by omega
    have hwin := h.window.write_end (by omega) event
    rw [hend, ← index_of_shows hhead] at hwin
    refine ⟨c, { h with window := hwin, pushing := ⟨hhead, hfree, ?_⟩, popping := h.popping }⟩
    simp only [SharedRing.write, ← index_of_shows hhead]
    exact Function.update_self _ _ _
  | publish event head =>
    rw [hpc] at hp
    obtain ⟨hhead, hfree, hslot⟩ := hp
    have hevents : ((s.published ++ [(index head, event)]).map Prod.snd) = s.events ++ [event] := by
      simp [State.events]
    have hold := h.tail_old
    have hseen := h.head_old
    have hend : s.returned.length + (s.events.drop s.returned.length).length =
        s.published.length := by simp; omega
    refine ⟨c, ⟨?_, h.tail, h.cachedTail, h.cachedHead, hold, ?_, h.head_seen, ?_, ?_, ?_, ?_,
      trivial, ?_⟩⟩
    · simpa using hhead.add_one
    · simp; omega
    · simp; omega
    · simp only [State.events, hevents]
      rw [List.take_append_of_le_length (by simpa using hroom.1)]
      exact h.in_order
    · intro n hn
      simp only [List.length_append, List.length_singleton] at hn
      rcases Nat.lt_or_ge n s.published.length with hlt | hge
      · simp only [List.getElem_append_left hlt]
        exact h.slots n hlt
      · have hn' : n = s.published.length := by omega
        subst hn'
        simpa using index_of_shows hhead
    · simp only [State.events, hevents]
      rw [List.drop_append_of_le_length (by simpa using hroom.1)]
      exact h.window.append (by rw [hend]; exact hslot)
    · have hpop := h.popping
      unfold PoppingAt at hpop ⊢
      cases hpp : s.popping with
      | advance tail ev =>
        simp only [hpp] at hpop ⊢
        obtain ⟨ht, hk, hev⟩ := hpop
        refine ⟨ht, hk, ?_⟩
        simp only [State.events, hevents]
        rw [List.getElem?_append_left (by simp; omega)]
        exact hev
      | idle | load => trivial
      | compare tail | reload tail | recheck tail | read tail => simpa only [hpp] using hpop

theorem Counts.consumer_turn (h : Counts s c k) : ∃ k', Counts (consumerTurn s) c k' := by
  have hp := h.popping
  have hroom := h.room
  unfold PoppingAt at hp
  unfold consumerTurn
  cases hpc : s.popping with
  | idle => exact ⟨k, h⟩
  | load => exact ⟨k, { h with popping := h.tail, pushing := h.pushing }⟩
  | compare tail =>
    rw [hpc] at hp
    have hempty := h.looksEmpty_iff hp
    have hseen := h.head_seen
    refine ⟨k, { h with popping := ?_, pushing := h.pushing }⟩
    by_cases he : LooksEmpty s.consumer.cachedHead tail
    · simp only [he, if_true]
      exact hp
    · simp only [he, if_false]
      exact ⟨hp, by have := hempty.not.mp he; simp only; omega⟩
  | reload tail =>
    rw [hpc] at hp
    exact ⟨s.published.length, { h with
      cachedHead := h.head, head_seen := hroom.1, head_old := le_rfl, popping := hp,
      pushing := h.pushing }⟩
  | recheck tail =>
    rw [hpc] at hp
    have hempty := h.looksEmpty_iff hp
    have hseen := h.head_seen
    refine ⟨k, { h with popping := ?_, pushing := h.pushing }⟩
    by_cases he : LooksEmpty s.consumer.cachedHead tail
    · simp only [he, if_true]
      trivial
    · simp only [he, if_false]
      exact ⟨hp, by have := hempty.not.mp he; simp only; omega⟩
  | read tail =>
    rw [hpc] at hp
    obtain ⟨htail, hlive⟩ := hp
    have hold := h.head_old
    have hlt : s.returned.length < s.events.length := by simp; omega
    refine ⟨k, { h with popping := ⟨htail, hlive, ?_⟩, pushing := h.pushing }⟩
    have hwin := h.window
    rw [List.drop_eq_getElem_cons hlt] at hwin
    simp only [SharedRing.read, index_of_shows htail, hwin.head]
    exact List.getElem?_eq_getElem hlt
  | advance tail event =>
    rw [hpc] at hp
    obtain ⟨htail, hlive, hev⟩ := hp
    have hold := h.head_old
    have htold := h.tail_old
    obtain ⟨hlt, _⟩ := List.getElem?_eq_some_iff.mp hev
    have hdrop := List.drop_eq_getElem_cons hlt
    refine ⟨k, ⟨h.head, ?_, h.cachedTail, h.cachedHead, ?_, h.tail_near, ?_, hold, ?_, h.slots,
      ?_, h.pushing, trivial⟩⟩
    · simpa using htail.add_one
    · simp; omega
    · simp; omega
    · change s.returned ++ [event] = s.events.take (s.returned ++ [event]).length
      rw [List.length_append, List.length_singleton, List.take_add_one, hev, ← h.in_order]
      rfl
    · change Holds s.ring.events (s.returned ++ [event]).length
        (s.events.drop (s.returned ++ [event]).length)
      have hwin := h.window
      rw [hdrop] at hwin
      rw [List.length_append, List.length_singleton]
      exact hwin.tail

theorem counts_next (turn : Turn) (h : Counts s c k) : ∃ c' k', Counts (next s turn) c' k' := by
  cases turn with
  | callPush event =>
    refine ⟨c, k, ?_⟩
    by_cases hi : s.pushing = .idle
    · simp only [next, hi, if_true]
      exact { h with pushing := trivial, popping := h.popping }
    · simpa only [next, hi, if_false] using h
  | producer =>
    obtain ⟨c', hc⟩ := h.producer_turn
    exact ⟨c', k, hc⟩
  | callPop =>
    refine ⟨c, k, ?_⟩
    by_cases hi : s.popping = .idle
    · simp only [next, hi, if_true]
      exact { h with popping := trivial, pushing := h.pushing }
    · simpa only [next, hi, if_false] using h
  | consumer =>
    obtain ⟨k', hk⟩ := h.consumer_turn
    exact ⟨c, k', hk⟩

/-- A `push` that nobody interrupts puts its event into the ring just if there is room. -/
theorem Counts.push_outcome (h : Counts s c k) (hidle : s.pushing = .idle)
    (event : StrokeEvent) :
    let t := run next s (.callPush event :: List.replicate 6 .producer)
    t.pushing = .idle ∧ t.popping = s.popping ∧ t.returned = s.returned ∧
      t.events = if s.published.length < s.returned.length + RING_CAPACITY then s.events ++ [event]
        else s.events := by
  have hroom := h.room
  have hword := capacity_lt_word
  have hold := h.tail_old
  have hcached := h.looksFull_iff h.head
  have hfull := SharedIpc.looksFull_iff h.head h.tail hroom.1 (by omega)
  simp only [List.replicate, run_cons, run_nil, next, hidle, if_true, producerTurn]
  by_cases hf : LooksFull s.ring.head s.producer.cachedTail
  · by_cases hs : LooksFull s.ring.head s.ring.tail
    · have hno : ¬ s.published.length < s.returned.length + RING_CAPACITY := by
        have := hfull.mp hs
        omega
      simp only [hf, hs, if_true, hno, if_false]
      exact ⟨trivial, trivial, trivial, rfl⟩
    · have hyes : s.published.length < s.returned.length + RING_CAPACITY := by
        have := hfull.not.mp hs
        omega
      simp only [hf, hs, if_true, if_false, hyes]
      exact ⟨trivial, trivial, trivial, by simp [State.events]⟩
  · have hyes : s.published.length < s.returned.length + RING_CAPACITY := by
      have := hcached.not.mp hf
      omega
    simp only [hf, if_false, hyes, if_true]
    exact ⟨trivial, trivial, trivial, by simp [State.events]⟩

theorem Counts.pop_outcome (h : Counts s c k) (hidle : s.popping = .idle)
    (hsome : s.returned.length < s.published.length) :
    let t := run next s (.callPop :: List.replicate 6 .consumer)
    t.popping = .idle ∧ t.pushing = s.pushing ∧ t.published = s.published ∧
      t.returned.length = s.returned.length + 1 := by
  have hroom := h.room
  have hword := capacity_lt_word
  have hempty := SharedIpc.looksEmpty_iff h.head h.tail hroom.1 (by omega)
  have hs : ¬ LooksEmpty s.ring.head s.ring.tail := by
    intro he
    have := hempty.mp he
    omega
  simp only [List.replicate, run_cons, run_nil, next, hidle, if_true, consumerTurn]
  by_cases he : LooksEmpty s.consumer.cachedHead s.ring.tail
  · simp [he, hs]
  · simp [he]

theorem Counts.run (h : Counts s c k) (turns : List Turn) :
    ∃ c' k', Counts (StateMachines.run next s turns) c' k' := by
  induction turns generalizing s c k with
  | nil => exact ⟨c, k, h⟩
  | cons turn turns ih =>
    obtain ⟨_, _, hnext⟩ := counts_next turn h
    exact ih hnext

theorem run_counts (turns : List Turn) : ∃ c k, Counts (run next initial turns) c k :=
  Counts.run counts_initial turns

/-- Loss, duplication, reordering, overfilling and overwriting are all excluded, in runs of any
length, so also after `head` and `tail` have wrapped. -/
theorem spsc_safety (turns : List Turn) :
    let s := run next initial turns
    s.returned <+: s.events ∧
    (s.ring.head - s.ring.tail).toNat ≤ RING_CAPACITY ∧
    ∀ event head, s.pushing = .write event head →
      ∀ p ∈ s.published.drop s.returned.length, p.1 ≠ index head := by
  intro s
  obtain ⟨c, k, h⟩ := run_counts turns
  have hroom := h.room
  have hword := capacity_lt_word
  constructor
  · rw [h.in_order]
    exact List.take_prefix _ _
  constructor
  · rw [h.head.sub_toNat h.tail hroom.1 (by omega)]
    omega
  · intro event head hw
    have hp := h.pushing
    unfold PushingAt at hp
    rw [hw] at hp
    rw [index_of_shows hp.1]
    exact h.write_slot hp.2

end RingInterleaving

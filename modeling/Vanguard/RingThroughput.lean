import Mathlib.Algebra.BigOperators.Intervals
import Vanguard.AegisPayload
import Vanguard.RingInterleaving

/-! The microbenchmark of the ring: `n` numbered events go from one thread to another, and both
retry until they are through. -/
namespace RingThroughput

open StateMachines SharedIpc RingInterleaving

def makeEvent (i : UInt64) : StrokeEvent where
  sessionId := 1
  timestamp := i
  x := 0
  y := 0
  pressure := AegisPayload.one
  action := 1
  traceId := Vector.replicate 16 0
  parentSpanId := Vector.replicate 8 0

/-- The locals of the two threads of `bench_spsc`. -/
structure Bench where
  ring : RingInterleaving.State
  sent : UInt64
  received : UInt64
  checksum : UInt64

inductive Thread where
  | producer
  | consumer
  deriving DecidableEq

def opened : Bench := ⟨RingInterleaving.initial, 0, 0, 0⟩

/-- A push that failed is called again with the same event. -/
def producerStep (n : UInt64) (s : Bench) : Bench :=
  match s.ring.pushing with
  | .idle =>
    if s.sent < n then
      { s with ring := RingInterleaving.next s.ring (.callPush (makeEvent s.sent)) }
    else s
  | .publish _ _ => { s with ring := RingInterleaving.next s.ring .producer, sent := s.sent + 1 }
  | _ => { s with ring := RingInterleaving.next s.ring .producer }

def consumerStep (n : UInt64) (s : Bench) : Bench :=
  match s.ring.popping with
  | .idle =>
    if s.received < n then { s with ring := RingInterleaving.next s.ring .callPop } else s
  | .advance _ evt =>
    { s with
      ring := RingInterleaving.next s.ring .consumer
      checksum := s.checksum + evt.timestamp
      received := s.received + 1 }
  | _ => { s with ring := RingInterleaving.next s.ring .consumer }

def next (n : UInt64) (s : Bench) : Thread → Bench
  | .producer => producerStep n s
  | .consumer => consumerStep n s

def offered : PushPoint → Option StrokeEvent
  | .idle => none
  | .load event => some event
  | .compare event _ => some event
  | .reload event _ => some event
  | .recheck event _ => some event
  | .write event _ => some event
  | .publish event _ => some event

def numbered (count : ℕ) : List StrokeEvent :=
  (List.range count).map fun i => makeEvent (UInt64.ofNat i)

def checksumOf (events : List StrokeEvent) : UInt64 :=
  events.foldl (fun checksum evt => checksum + evt.timestamp) 0

/-- What the locals of the threads have to do with the ring. -/
structure Tallied (n : UInt64) (s : Bench) : Prop where
  counts : ∃ c k, Counts s.ring c k
  sent : s.sent = UInt64.ofNat s.ring.published.length
  received : s.received = UInt64.ofNat s.ring.returned.length
  bounded : s.ring.published.length ≤ n.toNat
  events : s.ring.events = numbered s.ring.published.length
  pushing : ∀ event, offered s.ring.pushing = some event →
    event = makeEvent s.sent ∧ s.ring.published.length < n.toNat
  popping : s.ring.popping ≠ .idle → s.ring.returned.length < n.toNat
  checksum : s.checksum = checksumOf s.ring.returned

variable {n : UInt64} {s : Bench}

theorem tallied_opened (n : UInt64) : Tallied n opened where
  counts := ⟨0, 0, counts_initial⟩
  sent := rfl
  received := rfl
  bounded := Nat.zero_le _
  events := rfl
  pushing := by simp [opened, initial, offered]
  popping := fun h => absurd rfl h
  checksum := rfl

theorem numbered_succ (count : ℕ) :
    numbered (count + 1) = numbered count ++ [makeEvent (UInt64.ofNat count)] := by
  rw [numbered, List.range_succ, List.map_append]
  rfl

theorem checksumOf_snoc (events : List StrokeEvent) (event : StrokeEvent) :
    checksumOf (events ++ [event]) = checksumOf events + event.timestamp := by
  simp [checksumOf, List.foldl_append]

theorem lt_iff_of_count {i : UInt64} {count : ℕ} (h : i = UInt64.ofNat count)
    (hcount : count ≤ n.toNat) : i < n ↔ count < n.toNat := by
  have hn := n.toNat_lt
  rw [UInt64.lt_iff_toNat_lt, h, UInt64.toNat_ofNat_of_lt' (hcount.trans_lt hn)]

theorem producerTurn_frame (ring : RingInterleaving.State)
    (h : ∀ event head, ring.pushing ≠ .publish event head) :
    (producerTurn ring).published = ring.published ∧
      (producerTurn ring).returned = ring.returned ∧
      (producerTurn ring).popping = ring.popping ∧
      (producerTurn ring).consumer = ring.consumer ∧
      ∀ event, offered (producerTurn ring).pushing = some event →
        offered ring.pushing = some event := by
  unfold producerTurn
  cases hpushing : ring.pushing with
  | publish event head => exact absurd hpushing (h event head)
  | idle => simp [hpushing]
  | load event => simp [offered]
  | compare event head =>
    refine ⟨rfl, rfl, rfl, rfl, fun other => ?_⟩
    dsimp only
    split <;> exact id
  | reload event head => simp [offered]
  | recheck event head =>
    refine ⟨rfl, rfl, rfl, rfl, fun other => ?_⟩
    dsimp only
    split
    · simp [offered]
    · exact id
  | write event head => simp [offered]

theorem consumerTurn_frame (ring : RingInterleaving.State)
    (h : ∀ tail event, ring.popping ≠ .advance tail event) :
    (RingInterleaving.consumerTurn ring).published = ring.published ∧
      (RingInterleaving.consumerTurn ring).returned = ring.returned ∧
      (RingInterleaving.consumerTurn ring).pushing = ring.pushing ∧
      (RingInterleaving.consumerTurn ring).producer = ring.producer := by
  unfold RingInterleaving.consumerTurn
  cases hpopping : ring.popping with
  | advance tail event => exact absurd hpopping (h tail event)
  | _ => exact ⟨rfl, rfl, rfl, rfl⟩

theorem Tallied.quiet (h : Tallied n s) {ring : RingInterleaving.State} {turn : Turn}
    (hring : ring = RingInterleaving.next s.ring turn)
    (hpublished : ring.published = s.ring.published) (hreturned : ring.returned = s.ring.returned)
    (hpushing : ∀ event, offered ring.pushing = some event →
      event = makeEvent s.sent ∧ s.ring.published.length < n.toNat)
    (hpopping : ring.popping ≠ .idle → s.ring.returned.length < n.toNat) :
    Tallied n { s with ring := ring } := by
  have hevents : ring.events = s.ring.events := by
    rw [RingInterleaving.State.events, hpublished]
    rfl
  constructor
  · obtain ⟨c, k, hcounts⟩ := h.counts
    obtain ⟨c', k', hnext⟩ := counts_next turn hcounts
    exact ⟨c', k', hring ▸ hnext⟩
  · simp only [hpublished]
    exact h.sent
  · simp only [hreturned]
    exact h.received
  · simp only [hpublished]
    exact h.bounded
  · simp only [hpublished, hevents]
    exact h.events
  · simp only [hpublished]
    exact hpushing
  · simp only [hreturned]
    exact hpopping
  · simp only [hreturned]
    exact h.checksum

theorem tallied_publish (h : Tallied n s) {event : StrokeEvent} {head : Usize}
    (hpushing : s.ring.pushing = .publish event head) :
    Tallied n { s with ring := RingInterleaving.next s.ring .producer, sent := s.sent + 1 } := by
  obtain ⟨c, k, hcounts⟩ := h.counts
  obtain ⟨rfl, hroom⟩ := h.pushing event (by rw [hpushing]; rfl)
  have hpublished : (RingInterleaving.next s.ring .producer).published =
      s.ring.published ++ [(index head, makeEvent s.sent)] := by
    simp only [RingInterleaving.next, producerTurn, hpushing]
  have hreturned : (RingInterleaving.next s.ring .producer).returned = s.ring.returned := by
    simp only [RingInterleaving.next, producerTurn, hpushing]
  have hlength : (RingInterleaving.next s.ring .producer).published.length =
      s.ring.published.length + 1 := by
    rw [hpublished, List.length_append, List.length_singleton]
  constructor
  · obtain ⟨c', k', hnext⟩ := counts_next .producer hcounts
    exact ⟨c', k', hnext⟩
  · rw [hlength, UInt64.ofNat_add, ← h.sent]
    rfl
  · rw [hreturned]
    exact h.received
  · rw [hlength]
    exact hroom
  · rw [hlength, numbered_succ, ← h.events, ← h.sent, RingInterleaving.State.events, hpublished,
      List.map_append]
    rfl
  · simp [RingInterleaving.next, producerTurn, hpushing, offered]
  · simp only [RingInterleaving.next, producerTurn, hpushing]
    exact h.popping
  · rw [hreturned]
    exact h.checksum

theorem tallied_producer (h : Tallied n s) : Tallied n (producerStep n s) := by
  unfold producerStep
  cases hpushing : s.ring.pushing with
  | idle =>
    dsimp only
    split
    · next hlt =>
      have hring : RingInterleaving.next s.ring (.callPush (makeEvent s.sent)) =
          { s.ring with pushing := .load (makeEvent s.sent) } := by
        simp only [RingInterleaving.next, hpushing, if_true]
      refine h.quiet rfl ?_ ?_ (fun event hevent => ?_) ?_
      · rw [hring]
      · rw [hring]
      · rw [hring] at hevent
        have hroom := (lt_iff_of_count h.sent h.bounded).1 hlt
        exact ⟨(Option.some.inj hevent).symm, hroom⟩
      · rw [hring]
        exact h.popping
    · exact h
  | publish event head => exact tallied_publish h hpushing
  | _ =>
    obtain ⟨hpublished, hreturned, hpopping, _, hoffered⟩ := producerTurn_frame s.ring
      (by simp [hpushing])
    refine h.quiet rfl hpublished hreturned (fun event hevent => ?_) (fun hne => ?_)
    · exact h.pushing event (hoffered event hevent)
    · exact h.popping (hpopping ▸ hne)

theorem tallied_advance (h : Tallied n s) {evt : StrokeEvent} {tail : Usize}
    (hpopping : s.ring.popping = .advance tail evt) :
    Tallied n { s with
      ring := RingInterleaving.next s.ring .consumer
      checksum := s.checksum + evt.timestamp
      received := s.received + 1 } := by
  obtain ⟨c, k, hcounts⟩ := h.counts
  have hreturned : (RingInterleaving.next s.ring .consumer).returned =
      s.ring.returned ++ [evt] := by
    simp only [RingInterleaving.next, RingInterleaving.consumerTurn, hpopping]
  have hpublished : (RingInterleaving.next s.ring .consumer).published = s.ring.published := by
    simp only [RingInterleaving.next, RingInterleaving.consumerTurn, hpopping]
  have hpushing : (RingInterleaving.next s.ring .consumer).pushing = s.ring.pushing := by
    simp only [RingInterleaving.next, RingInterleaving.consumerTurn, hpopping]
  have hevents : (RingInterleaving.next s.ring .consumer).events = s.ring.events := by
    rw [RingInterleaving.State.events, hpublished]
    rfl
  constructor
  · obtain ⟨c', k', hnext⟩ := counts_next .consumer hcounts
    exact ⟨c', k', hnext⟩
  · rw [hpublished]
    exact h.sent
  · rw [hreturned, List.length_append, List.length_singleton, UInt64.ofNat_add, ← h.received]
    rfl
  · rw [hpublished]
    exact h.bounded
  · rw [hpublished, hevents]
    exact h.events
  · rw [hpublished, hpushing]
    exact h.pushing
  · simp [RingInterleaving.next, RingInterleaving.consumerTurn, hpopping]
  · rw [hreturned, checksumOf_snoc, ← h.checksum]

theorem tallied_consumer (h : Tallied n s) : Tallied n (consumerStep n s) := by
  obtain ⟨c, k, hcounts⟩ := h.counts
  unfold consumerStep
  cases hpopping : s.ring.popping with
  | idle =>
    dsimp only
    split
    · next hlt =>
      have hring : RingInterleaving.next s.ring .callPop = { s.ring with popping := .load } := by
        simp only [RingInterleaving.next, hpopping, if_true]
      refine h.quiet rfl ?_ ?_ ?_ (fun _ => ?_)
      · rw [hring]
      · rw [hring]
      · rw [hring]
        exact h.pushing
      · exact (lt_iff_of_count h.received (hcounts.room.1.trans h.bounded)).1 hlt
    · exact h
  | advance tail evt => exact tallied_advance h hpopping
  | _ =>
    obtain ⟨hpublished, hreturned, hpushing, _⟩ := consumerTurn_frame s.ring
      (by simp [hpopping])
    refine h.quiet rfl hpublished hreturned (fun event hevent => ?_) (fun _ => ?_)
    · exact h.pushing event (hpushing ▸ hevent)
    · exact h.popping (by simp [hpopping])

theorem tallied_next (h : Tallied n s) (thread : Thread) : Tallied n (next n s thread) := by
  cases thread with
  | producer => exact tallied_producer h
  | consumer => exact tallied_consumer h

def achieved (s : Bench) : ℕ := s.ring.published.length + s.ring.returned.length

/-- How many steps of its thread an event needs to get into a ring that is not full. A push that has
looked at a full ring fails first. -/
def producerRank (s : Bench) : ℕ :=
  match s.ring.pushing with
  | .idle => 7
  | .load _ => 6
  | .compare _ _ => 5
  | .reload _ _ => 4
  | .recheck _ head => if LooksFull head s.ring.producer.cachedTail then 8 else 3
  | .write _ _ => 2
  | .publish _ _ => 1

def consumerRank (s : Bench) : ℕ :=
  match s.ring.popping with
  | .idle => 7
  | .load => 6
  | .compare _ => 5
  | .reload _ => 4
  | .recheck tail => if LooksEmpty s.ring.consumer.cachedHead tail then 8 else 3
  | .read _ => 2
  | .advance _ _ => 1

def CanPush (n : UInt64) (s : Bench) : Prop :=
  s.ring.published.length < n.toNat ∧
    s.ring.published.length < s.ring.returned.length + RING_CAPACITY

def CanPop (s : Bench) : Prop := s.ring.returned.length < s.ring.published.length

theorem producerRank_bounds (s : Bench) : 1 ≤ producerRank s ∧ producerRank s ≤ 8 := by
  unfold producerRank
  split
  all_goals first
    | decide
    | split <;> decide

theorem consumerRank_bounds (s : Bench) : 1 ≤ consumerRank s ∧ consumerRank s ≤ 8 := by
  unfold consumerRank
  split
  all_goals first
    | decide
    | split <;> decide

/-- The counts never fall, each thread raises its own, and it does not touch what the other one's
rank is taken from. -/
theorem producer_effect (n : UInt64) (s : Bench) :
    s.ring.published.length ≤ (producerStep n s).ring.published.length ∧
      (producerStep n s).ring.returned = s.ring.returned ∧
      consumerRank (producerStep n s) = consumerRank s := by
  unfold producerStep
  cases hpushing : s.ring.pushing with
  | idle =>
    dsimp only
    split
    · simp [RingInterleaving.next, hpushing, consumerRank]
    · exact ⟨le_rfl, rfl, rfl⟩
  | publish event head => simp [RingInterleaving.next, producerTurn, hpushing, consumerRank]
  | _ =>
    obtain ⟨hpublished, hreturned, hpopping, hconsumer, _⟩ := producerTurn_frame s.ring
      (by simp [hpushing])
    simp only [RingInterleaving.next, consumerRank, hpublished, hreturned, hpopping, hconsumer]
    exact ⟨le_rfl, trivial, trivial⟩

theorem consumer_effect (n : UInt64) (s : Bench) :
    (consumerStep n s).ring.published = s.ring.published ∧
      s.ring.returned.length ≤ (consumerStep n s).ring.returned.length ∧
      producerRank (consumerStep n s) = producerRank s := by
  unfold consumerStep
  cases hpopping : s.ring.popping with
  | idle =>
    dsimp only
    split
    · simp [RingInterleaving.next, hpopping, producerRank]
    · exact ⟨rfl, le_rfl, rfl⟩
  | advance tail evt =>
    simp [RingInterleaving.next, RingInterleaving.consumerTurn, hpopping, producerRank]
  | _ =>
    obtain ⟨hpublished, hreturned, hpushing, hproducer⟩ := consumerTurn_frame s.ring
      (by simp [hpopping])
    simp only [RingInterleaving.next, producerRank, hpublished, hreturned, hpushing, hproducer]
    exact ⟨trivial, le_rfl, trivial⟩

theorem not_looksFull (h : Tallied n s) (hcan : CanPush n s) {head : Usize}
    (hhead : WrappingCounters.Shows head s.ring.published.length) :
    ¬ LooksFull head s.ring.ring.tail := by
  obtain ⟨c, k, hcounts⟩ := h.counts
  have hroom := hcounts.room
  have hword := capacity_lt_word
  have hfree := hcan.2
  rw [looksFull_iff hhead hcounts.tail hroom.1 (by omega)]
  omega

theorem not_looksEmpty (h : Tallied n s) (hcan : CanPop s) {tail : Usize}
    (htail : WrappingCounters.Shows tail s.ring.returned.length) :
    ¬ LooksEmpty s.ring.ring.head tail := by
  obtain ⟨c, k, hcounts⟩ := h.counts
  have hroom := hcounts.room
  have hword := capacity_lt_word
  have hlive : s.ring.returned.length < s.ring.published.length := hcan
  rw [looksEmpty_iff hcounts.head htail hroom.1 (by omega)]
  omega

theorem producerRank_lowers (h : Tallied n s) (hcan : CanPush n s)
    (hstill : achieved (producerStep n s) = achieved s) :
    producerRank (producerStep n s) + 1 ≤ producerRank s := by
  obtain ⟨c, k, hcounts⟩ := h.counts
  have hat := hcounts.pushing
  unfold PushingAt at hat
  unfold producerStep at hstill ⊢
  cases hpushing : s.ring.pushing with
  | idle =>
    have hlt : s.sent < n := (lt_iff_of_count h.sent h.bounded).2 hcan.1
    simp [hlt, RingInterleaving.next, hpushing, producerRank]
  | load event => simp [RingInterleaving.next, producerTurn, hpushing, producerRank]
  | compare event head =>
    by_cases hfull : LooksFull head s.ring.producer.cachedTail
    · simp [RingInterleaving.next, producerTurn, hpushing, producerRank, hfull]
    · simp [RingInterleaving.next, producerTurn, hpushing, producerRank, hfull]
  | reload event head =>
    rw [hpushing] at hat
    simp only [RingInterleaving.next, producerTurn, hpushing, producerRank]
    rw [if_neg (not_looksFull h hcan hat)]
  | recheck event head =>
    by_cases hfull : LooksFull head s.ring.producer.cachedTail
    · simp [RingInterleaving.next, producerTurn, hpushing, producerRank, hfull]
    · simp [RingInterleaving.next, producerTurn, hpushing, producerRank, hfull]
  | write event head => simp [RingInterleaving.next, producerTurn, hpushing, producerRank]
  | publish event head =>
    simp [hpushing, RingInterleaving.next, producerTurn, achieved] at hstill

theorem consumerRank_lowers (h : Tallied n s) (hcan : CanPop s)
    (hstill : achieved (consumerStep n s) = achieved s) :
    consumerRank (consumerStep n s) + 1 ≤ consumerRank s := by
  obtain ⟨c, k, hcounts⟩ := h.counts
  have hat := hcounts.popping
  unfold PoppingAt at hat
  unfold consumerStep at hstill ⊢
  cases hpopping : s.ring.popping with
  | idle =>
    have hlt : s.received < n := (lt_iff_of_count h.received (hcounts.room.1.trans h.bounded)).2
      (Nat.lt_of_lt_of_le hcan h.bounded)
    simp [hlt, RingInterleaving.next, hpopping, consumerRank]
  | load => simp [RingInterleaving.next, RingInterleaving.consumerTurn, hpopping, consumerRank]
  | compare tail =>
    by_cases hempty : LooksEmpty s.ring.consumer.cachedHead tail
    · simp [RingInterleaving.next, RingInterleaving.consumerTurn, hpopping, consumerRank, hempty]
    · simp [RingInterleaving.next, RingInterleaving.consumerTurn, hpopping, consumerRank, hempty]
  | reload tail =>
    rw [hpopping] at hat
    simp only [RingInterleaving.next, RingInterleaving.consumerTurn, hpopping, consumerRank]
    rw [if_neg (not_looksEmpty h hcan hat)]
  | recheck tail =>
    by_cases hempty : LooksEmpty s.ring.consumer.cachedHead tail
    · simp [RingInterleaving.next, RingInterleaving.consumerTurn, hpopping, consumerRank, hempty]
    · simp [RingInterleaving.next, RingInterleaving.consumerTurn, hpopping, consumerRank, hempty]
  | read tail => simp [RingInterleaving.next, RingInterleaving.consumerTurn, hpopping, consumerRank]
  | advance tail evt =>
    simp [hpopping, RingInterleaving.next, RingInterleaving.consumerTurn, achieved] at hstill

theorem achieved_next (n : UInt64) (s : Bench) (thread : Thread) :
    achieved s ≤ achieved (next n s thread) := by
  cases thread with
  | producer =>
    obtain ⟨hpublished, hreturned, _⟩ := producer_effect n s
    simp only [achieved, next, hreturned]
    omega
  | consumer =>
    obtain ⟨hpublished, hreturned, _⟩ := consumer_effect n s
    simp only [achieved, next, hpublished]
    omega

theorem lengths_still {thread : Thread} (hstill : achieved (next n s thread) = achieved s) :
    (next n s thread).ring.published.length = s.ring.published.length ∧
      (next n s thread).ring.returned.length = s.ring.returned.length := by
  cases thread with
  | producer =>
    obtain ⟨hpublished, hreturned, _⟩ := producer_effect n s
    simp only [achieved, next, hreturned] at hstill ⊢
    exact ⟨by omega, trivial⟩
  | consumer =>
    obtain ⟨hpublished, hreturned, _⟩ := consumer_effect n s
    simp only [achieved, next, hpublished] at hstill ⊢
    exact ⟨trivial, by omega⟩

theorem push_lowers (h : Tallied n s) (hcan : CanPush n s) {thread : Thread}
    (hstill : achieved (next n s thread) = achieved s) :
    CanPush n (next n s thread) ∧ producerRank (next n s thread) +
      (if thread == .producer then 1 else 0) ≤ producerRank s := by
  obtain ⟨hpublished, hreturned⟩ := lengths_still hstill
  refine ⟨by rwa [CanPush, hpublished, hreturned], ?_⟩
  cases thread with
  | producer => exact producerRank_lowers h hcan hstill
  | consumer => exact (consumer_effect n s).2.2.le

theorem pop_lowers (h : Tallied n s) (hcan : CanPop s) {thread : Thread}
    (hstill : achieved (next n s thread) = achieved s) :
    CanPop (next n s thread) ∧ consumerRank (next n s thread) +
      (if thread == .consumer then 1 else 0) ≤ consumerRank s := by
  obtain ⟨hpublished, hreturned⟩ := lengths_still hstill
  refine ⟨by rwa [CanPop, hpublished, hreturned], ?_⟩
  cases thread with
  | producer => exact (producer_effect n s).2.2.le
  | consumer => exact consumerRank_lowers h hcan hstill

/-- Each thread gets as many steps as a call takes that fails, and one that does not. -/
def Round (threads : List Thread) : Prop :=
  8 ≤ threads.count .producer ∧ 8 ≤ threads.count .consumer

theorem achieved_le (h : Tallied n s) : achieved s ≤ 2 * n.toNat := by
  obtain ⟨c, k, hcounts⟩ := h.counts
  have hroom := hcounts.room.1
  have hbounded := h.bounded
  unfold achieved
  omega

theorem round_achieves (h : Tallied n s) {threads : List Thread} (hround : Round threads)
    (hmore : achieved s < 2 * n.toNat) : achieved s < achieved (run (next n) s threads) := by
  by_contra hstill
  have hstill' : achieved (run (next n) s threads) ≤ achieved s := Nat.le_of_not_lt hstill
  obtain ⟨c, k, hcounts⟩ := h.counts
  have hroom := hcounts.room
  by_cases hcan : CanPop s
  · have hrank := run_lowers (G := Tallied n) (Q := CanPop) (p := fun t => t == .consumer)
      (fun _ e h => tallied_next h e) (fun s e _ => achieved_next n s e)
      (fun _ _ h hcan hstill => pop_lowers h hcan hstill) h hcan threads hstill'
    have hturns : 8 ≤ threads.countP fun t => t == .consumer := hround.2
    have := consumerRank_bounds s
    have := consumerRank_bounds (run (next n) s threads)
    omega
  · have hcanPush : CanPush n s := by
      have hnone : ¬ s.ring.returned.length < s.ring.published.length := hcan
      have hcapacity : 0 < RING_CAPACITY := by decide
      unfold achieved at hmore
      exact ⟨by omega, by omega⟩
    have hrank := run_lowers (G := Tallied n) (Q := CanPush n) (p := fun t => t == .producer)
      (fun _ e h => tallied_next h e) (fun s e _ => achieved_next n s e)
      (fun _ _ h hcan hstill => push_lowers h hcan hstill) h hcanPush threads hstill'
    have hturns : 8 ≤ threads.countP fun t => t == .producer := hround.1
    have := producerRank_bounds s
    have := producerRank_bounds (run (next n) s threads)
    omega

theorem checksumOf_numbered (count : ℕ) :
    checksumOf (numbered count) = UInt64.ofNat (count * (count - 1) / 2) := by
  rw [← Finset.sum_range_id]
  induction count with
  | zero => rfl
  | succ count ih =>
    rw [numbered_succ, checksumOf_snoc, ih, Finset.sum_range_succ, UInt64.ofNat_add]
    rfl

theorem Tallied.returned_eq (h : Tallied n s) :
    s.ring.returned = numbered s.ring.returned.length := by
  obtain ⟨c, k, hcounts⟩ := h.counts
  have horder := hcounts.in_order
  rw [h.events, numbered, ← List.map_take, List.take_range,
    Nat.min_eq_left hcounts.room.1] at horder
  exact horder

theorem Tallied.ended (h : Tallied n s) (hall : achieved s = 2 * n.toNat) :
    s.ring.published.length = n.toNat ∧ s.ring.returned.length = n.toNat ∧
      s.ring.pushing = .idle ∧ s.ring.popping = .idle := by
  obtain ⟨c, k, hcounts⟩ := h.counts
  have hroom := hcounts.room.1
  have hbounded := h.bounded
  unfold achieved at hall
  have hpublished : s.ring.published.length = n.toNat := by omega
  have hreturned : s.ring.returned.length = n.toNat := by omega
  refine ⟨hpublished, hreturned, ?_, ?_⟩
  · cases hpushing : s.ring.pushing with
    | idle => rfl
    | _ =>
      have := (h.pushing _ (by rw [hpushing]; rfl)).2
      omega
  · by_contra hpopping
    have := h.popping hpopping
    omega

/-- However the two threads alternate, the consumer gets the events in order, none lost and none
twice, and its checksum is theirs; and if the schedule gives both threads their turns, both loops
end with all `n` events through the ring. -/
theorem spsc_delivers (n : UInt64) (rounds : List (List Thread))
    (hturns : ∀ threads ∈ rounds, Round threads) (hlong : 2 * n.toNat ≤ rounds.length) :
    (∀ threads, let s := run (next n) opened threads
      s.ring.returned = numbered s.ring.returned.length ∧
        s.received = UInt64.ofNat s.ring.returned.length ∧
        s.checksum = checksumOf s.ring.returned) ∧
    let s := run (next n) opened rounds.flatten
    s.sent = n ∧ s.received = n ∧ s.ring.pushing = .idle ∧ s.ring.popping = .idle ∧
      s.ring.returned = numbered n.toNat ∧
      s.checksum = UInt64.ofNat (n.toNat * (n.toNat - 1) / 2) := by
  have htallied : ∀ threads, Tallied n (run (next n) opened threads) := fun threads =>
    run_preserves (P := Tallied n) (fun _ thread h => tallied_next h thread) (tallied_opened n)
      threads
  refine ⟨fun threads => ?_, ?_⟩
  · have h := htallied threads
    exact ⟨h.returned_eq, h.received, h.checksum⟩
  · intro s
    have h : Tallied n s := htallied rounds.flatten
    have hall : achieved s = 2 * n.toNat :=
      run_achieves (G := Tallied n) (fun _ thread h => tallied_next h thread)
        (fun _ h => achieved_le h) (fun s thread _ => achieved_next n s thread)
        (fun _ _ h hround hmore => round_achieves h hround hmore) (tallied_opened n) hturns
        (hlong.trans (Nat.le_add_left _ _))
    obtain ⟨hpublished, hreturned, hpushing, hpopping⟩ := h.ended hall
    have horder := h.returned_eq
    rw [hreturned] at horder
    refine ⟨?_, ?_, hpushing, hpopping, horder, ?_⟩
    · rw [h.sent, hpublished, UInt64.ofNat_toNat]
    · rw [h.received, hreturned, UInt64.ofNat_toNat]
    · rw [h.checksum, horder, checksumOf_numbered]

def turnByTurn : List Thread := (List.replicate 8 [Thread.producer, Thread.consumer]).flatten

theorem spsc_delivers_two_events :
    (∀ threads, let s := run (next 2) opened threads
      s.ring.returned = numbered s.ring.returned.length ∧
        s.received = UInt64.ofNat s.ring.returned.length ∧
        s.checksum = checksumOf s.ring.returned) ∧
    let s := run (next 2) opened (List.replicate 4 turnByTurn).flatten
    s.sent = 2 ∧ s.received = 2 ∧ s.ring.pushing = .idle ∧ s.ring.popping = .idle ∧
      s.ring.returned = numbered 2 ∧ s.checksum = UInt64.ofNat (2 * (2 - 1) / 2) := by
  refine spsc_delivers 2 (List.replicate 4 turnByTurn) (fun threads hthreads => ?_) (by decide)
  rw [List.eq_of_mem_replicate hthreads]
  exact ⟨by decide, by decide⟩

end RingThroughput

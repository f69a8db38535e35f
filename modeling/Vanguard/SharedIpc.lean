import Vanguard.WrappingCounters
import Vanguard.BoundedQueues

/-! The ring that AEGIS writes and CELER reads, with one call of `push` or `pop` taken whole.
Counters are 64-bit words which wrap. An `f32` is kept as its bit pattern. -/
namespace SharedIpc

open WrappingCounters BoundedQueues

abbrev Usize := BitVec 64
abbrev F32 := BitVec 32

def RING_CAPACITY : ℕ := 131072
def INDEX_MASK : Usize := BitVec.ofNat 64 (RING_CAPACITY - 1)

def ACTION_DOWN : UInt8 := 0
def ACTION_MOVE : UInt8 := 1
def ACTION_UP : UInt8 := 2

instance : NeZero RING_CAPACITY := ⟨by decide⟩

structure StrokeEvent where
  sessionId : UInt32
  timestamp : UInt64
  x : F32
  y : F32
  pressure : F32
  action : UInt8
  traceId : Vector UInt8 16
  parentSpanId : Vector UInt8 8
  deriving DecidableEq, Repr

/-- What a slot reads as while its memory is still zero. -/
def StrokeEvent.zeroed : StrokeEvent :=
  ⟨0, 0, 0, 0, 0, 0, Vector.replicate 16 0, Vector.replicate 8 0⟩

structure SharedRing where
  head : Usize
  tail : Usize
  events : Fin RING_CAPACITY → StrokeEvent

/-- The mapping right after `ftruncate`: all bytes zero. -/
def SharedRing.zeroed : SharedRing := ⟨0, 0, fun _ => .zeroed⟩

structure AegisProducer where
  cachedTail : Usize
  deriving DecidableEq, Repr

structure CelerConsumer where
  cachedHead : Usize
  deriving DecidableEq, Repr

def AegisProducer.new : AegisProducer := ⟨0⟩
def AegisProducer.clone (p : AegisProducer) : AegisProducer := ⟨p.cachedTail⟩
def CelerConsumer.new : CelerConsumer := ⟨0⟩

/-- `counter & INDEX_MASK`, which the bounds check of the array access accepts. -/
def index (counter : Usize) : Fin RING_CAPACITY :=
  ⟨(counter &&& INDEX_MASK).toNat, by
    have hmask : INDEX_MASK.toNat = RING_CAPACITY - 1 := by decide
    rw [BitVec.toNat_and, hmask]
    exact Nat.lt_of_le_of_lt Nat.and_le_right (by decide)⟩

/-- `head.wrapping_sub(cached_tail) >= RING_CAPACITY`. -/
def LooksFull (head cachedTail : Usize) : Prop := RING_CAPACITY ≤ (head - cachedTail).toNat

/-- `cached_head.wrapping_sub(tail) == 0`. -/
def LooksEmpty (cachedHead tail : Usize) : Prop := cachedHead - tail = 0

instance (head cachedTail : Usize) : Decidable (LooksFull head cachedTail) :=
  inferInstanceAs (Decidable (_ ≤ _))
instance (cachedHead tail : Usize) : Decidable (LooksEmpty cachedHead tail) :=
  inferInstanceAs (Decidable (_ = _))

def SharedRing.write (ring : SharedRing) (head : Usize) (event : StrokeEvent) : SharedRing :=
  { ring with events := Function.update ring.events (index head) event }

def SharedRing.read (ring : SharedRing) (tail : Usize) : StrokeEvent := ring.events (index tail)

def queueFull : Except String Unit := .error "Queue Full"

def AegisProducer.push (p : AegisProducer) (ring : SharedRing) (event : StrokeEvent) :
    Except String Unit × AegisProducer × SharedRing :=
  let currentHead := ring.head
  let publish := { ring.write currentHead event with head := currentHead + 1 }
  if LooksFull currentHead p.cachedTail then
    let cachedTail := ring.tail
    if LooksFull currentHead cachedTail then (queueFull, ⟨cachedTail⟩, ring)
    else (.ok (), ⟨cachedTail⟩, publish)
  else (.ok (), p, publish)

def CelerConsumer.pop (c : CelerConsumer) (ring : SharedRing) :
    Option StrokeEvent × CelerConsumer × SharedRing :=
  let currentTail := ring.tail
  let advance := { ring with tail := currentTail + 1 }
  if LooksEmpty c.cachedHead currentTail then
    let cachedHead := ring.head
    if LooksEmpty cachedHead currentTail then (none, ⟨cachedHead⟩, ring)
    else (some (ring.read currentTail), ⟨cachedHead⟩, advance)
  else (some (ring.read currentTail), c, advance)

theorem index_of_shows {c : Usize} {n : ℕ} (h : Shows c n) : index c = slot RING_CAPACITY n := by
  apply Fin.ext
  rw [slot_val]
  exact h.and_mask (k := 17) (by decide)

theorem looksFull_iff {h c : Usize} {n m : ℕ} (hh : Shows h n) (hc : Shows c m) (hle : m ≤ n)
    (hlt : n - m < 2 ^ 64) : LooksFull h c ↔ RING_CAPACITY ≤ n - m := by
  rw [LooksFull, hh.sub_toNat hc hle hlt]

theorem looksEmpty_iff {c t : Usize} {n m : ℕ} (hc : Shows c n) (ht : Shows t m) (hle : m ≤ n)
    (hlt : n - m < 2 ^ 64) : LooksEmpty c t ↔ n = m :=
  hc.sub_eq_zero_iff ht hle hlt

/-- The ring stores the queue `q` after `t` events have left it. -/
structure Stores (ring : SharedRing) (t : ℕ) (q : BoundedQueue StrokeEvent RING_CAPACITY) :
    Prop where
  head : Shows ring.head (t + q.items.length)
  tail : Shows ring.tail t
  window : Holds ring.events t q.items

theorem stores_zeroed : Stores .zeroed 0 empty where
  head := shows_zero
  tail := shows_zero
  window := holds_nil _ _

theorem capacity_lt_word : RING_CAPACITY < 2 ^ 64 := by decide

theorem Stores.publish {ring : SharedRing} {t : ℕ} {q r : BoundedQueue StrokeEvent RING_CAPACITY}
    {event : StrokeEvent} (h : Stores ring t q) (hr : q.push event = some r) :
    Stores { ring.write ring.head event with head := ring.head + 1 } t r := by
  have room : q.items.length < RING_CAPACITY := by
    have := q.bounded
    have := (push_eq_none_iff q event).not.mp (by simp [hr])
    omega
  have hi : r.items = q.items ++ [event] := push_items hr
  constructor
  · have := h.head.add_one
    simpa [hi, Nat.add_assoc] using this
  · exact h.tail
  · rw [hi]
    simp only [SharedRing.write, index_of_shows h.head]
    exact h.window.push room event

theorem Stores.advance {ring : SharedRing} {t : ℕ} {q r : BoundedQueue StrokeEvent RING_CAPACITY}
    {event : StrokeEvent} (h : Stores ring t q) (hr : q.pop = some (event, r)) :
    ring.read ring.tail = event ∧ Stores { ring with tail := ring.tail + 1 } (t + 1) r := by
  have hi : q.items = event :: r.items := pop_items hr
  have hw := h.window
  rw [hi] at hw
  constructor
  · rw [SharedRing.read, index_of_shows h.tail]
    exact hw.head
  · constructor
    · have := h.head
      rw [hi] at this
      simpa [Nat.add_assoc, Nat.add_comm 1] using this
    · exact h.tail.add_one
    · exact hw.tail

/-- A cached tail that is at most the true one never lets `push` answer otherwise than the
queue does: behind the true tail it can only look fuller than the ring is. -/
theorem push_spec {p : AegisProducer} {ring : SharedRing} {t c : ℕ}
    {q : BoundedQueue StrokeEvent RING_CAPACITY} (h : Stores ring t q)
    (hc : Shows p.cachedTail c) (hle : c ≤ t) (hnear : t + q.items.length - c < 2 ^ 64)
    (event : StrokeEvent) :
    (∃ c', Shows (p.push ring event).2.1.cachedTail c' ∧ c ≤ c' ∧ c' ≤ t) ∧
    match q.push event with
    | none => (p.push ring event).1 = queueFull ∧ (p.push ring event).2.2 = ring
    | some r => (p.push ring event).1 = .ok () ∧ Stores (p.push ring event).2.2 t r := by
  have hfast := looksFull_iff h.head hc (by omega) hnear
  have hslow := looksFull_iff h.head h.tail (by omega)
    (by have := q.bounded; have := capacity_lt_word; omega)
  have hbound := q.bounded
  have hfull := push_eq_none_iff q event
  by_cases hf : LooksFull ring.head p.cachedTail
  · by_cases hs : LooksFull ring.head ring.tail
    · have hq : q.push event = none := hfull.mpr (by have := hslow.mp hs; omega)
      simp only [AegisProducer.push, hf, hs, if_true, hq]
      exact ⟨⟨t, h.tail, hle, le_rfl⟩, trivial, trivial⟩
    · cases hq : q.push event with
      | none => exact absurd (hslow.mpr (by have := hfull.mp hq; omega)) hs
      | some r =>
        simp only [AegisProducer.push, hf, hs, if_true, if_false]
        exact ⟨⟨t, h.tail, hle, le_rfl⟩, trivial, h.publish hq⟩
  · cases hq : q.push event with
    | none => exact absurd (hfast.mpr (by have := hfull.mp hq; omega)) hf
    | some r =>
      simp only [AegisProducer.push, hf, if_false]
      exact ⟨⟨c, hc, le_rfl, hle⟩, trivial, h.publish hq⟩

/-- A cached head between the true tail and the true head answers as the true head would. -/
theorem pop_spec {k : CelerConsumer} {ring : SharedRing} {t c : ℕ}
    {q : BoundedQueue StrokeEvent RING_CAPACITY} (h : Stores ring t q)
    (hc : Shows k.cachedHead c) (hle : t ≤ c) (hge : c ≤ t + q.items.length) :
    match q.pop with
    | none => (k.pop ring).1 = none ∧ (k.pop ring).2.2 = ring ∧
        Shows (k.pop ring).2.1.cachedHead t
    | some (event, r) => (k.pop ring).1 = some event ∧ Stores (k.pop ring).2.2 (t + 1) r ∧
        ∃ c', Shows (k.pop ring).2.1.cachedHead c' ∧ t + 1 ≤ c' ∧
          c' ≤ t + 1 + r.items.length := by
  have hbound := q.bounded
  have hword := capacity_lt_word
  have hfast := looksEmpty_iff hc h.tail hle (by omega)
  have hslow := looksEmpty_iff h.head h.tail (by omega) (by omega)
  cases hq : q.pop with
  | none =>
    have hnil := (pop_eq_none_iff q).mp hq
    have hlen : q.items.length = 0 := by simp [hnil]
    have hf := hfast.mpr (by omega)
    have hs := hslow.mpr (by omega)
    have hhead := h.head
    rw [hlen] at hhead
    simp only [CelerConsumer.pop, hf, hs, if_true]
    exact ⟨trivial, trivial, hhead⟩
  | some er =>
    obtain ⟨event, r⟩ := er
    have hlen : q.items.length = r.items.length + 1 := by simp [pop_items hq]
    obtain ⟨hread, hst⟩ := h.advance hq
    have hs : ¬ LooksEmpty ring.head ring.tail := fun hs => by
      have := hslow.mp hs
      omega
    by_cases hf : LooksEmpty k.cachedHead ring.tail
    · simp only [CelerConsumer.pop, hf, hs, if_true, if_false]
      exact ⟨congrArg some hread, hst, _, h.head, by omega, by omega⟩
    · have hne : c ≠ t := fun he => hf (hfast.mpr he)
      simp only [CelerConsumer.pop, hf, if_false]
      exact ⟨congrArg some hread, hst, c, hc, by omega, by omega⟩

end SharedIpc

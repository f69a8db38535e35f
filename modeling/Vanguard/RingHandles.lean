import Vanguard.StateMachines
import Vanguard.SharedIpc

/-! The ring as AEGIS uses it. The accept loop clones a template producer for every WebSocket
session, and the sessions share one thread, so calls are atomic. A handle that is dropped is
one that is not called again: dropping it runs no code on the ring. -/
namespace RingHandles

open WrappingCounters BoundedQueues StateMachines SharedIpc

inductive Call where
  | cloneTemplate
  | clone (source : ℕ)
  | push (handle : ℕ) (event : StrokeEvent)
  | pop
  deriving DecidableEq, Repr

inductive Reply where
  | none
  | pushed (result : Except String Unit)
  | popped (event : Option StrokeEvent)
  deriving DecidableEq

structure Sessions where
  ring : SharedRing
  template : AegisProducer
  clones : List AegisProducer
  consumer : CelerConsumer

def opened : Sessions := ⟨.zeroed, .new, [], .new⟩

/-- A call names a clone by its position. There is no handle past the last position, so
nothing happens there. -/
def step (s : Sessions) : Call → Sessions × Reply
  | .cloneTemplate => ({ s with clones := s.clones ++ [s.template.clone] }, .none)
  | .clone source =>
    match s.clones[source]? with
    | none => (s, .none)
    | some p => ({ s with clones := s.clones ++ [p.clone] }, .none)
  | .push handle event =>
    match s.clones[handle]? with
    | none => (s, .none)
    | some p =>
      let (result, p', ring) := p.push s.ring event
      ({ s with ring := ring, clones := s.clones.set handle p' }, .pushed result)
  | .pop =>
    let (event, c, ring) := s.consumer.pop s.ring
    ({ s with ring := ring, consumer := c }, .popped event)

/-- One bounded queue for all the handles. `accepted` counts the events it ever took. -/
structure SharedQueue where
  queue : BoundedQueue StrokeEvent RING_CAPACITY
  clones : ℕ
  accepted : ℕ

def SharedQueue.initial : SharedQueue := ⟨empty, 0, 0⟩

def queueStep (s : SharedQueue) : Call → SharedQueue × Reply
  | .cloneTemplate => ({ s with clones := s.clones + 1 }, .none)
  | .clone source =>
    if source < s.clones then ({ s with clones := s.clones + 1 }, .none) else (s, .none)
  | .push handle event =>
    if handle < s.clones then
      match s.queue.push event with
      | none => (s, .pushed queueFull)
      | some queue => ({ s with queue := queue, accepted := s.accepted + 1 }, .pushed (.ok ()))
    else (s, .none)
  | .pop =>
    match s.queue.pop with
    | none => (s, .popped none)
    | some (event, queue) => ({ s with queue := queue }, .popped (some event))

/-- Every cached tail, however stale, is a lower bound of the true one. -/
structure Refines (s : Sessions) (q : SharedQueue) (t : ℕ) : Prop where
  stores : Stores s.ring t q.queue
  accepted : q.accepted = t + q.queue.items.length
  template : s.template = .new
  count : s.clones.length = q.clones
  stale : ∀ p ∈ s.clones, ∃ c, Shows p.cachedTail c ∧ c ≤ t
  ahead : ∃ c, Shows s.consumer.cachedHead c ∧ t ≤ c ∧ c ≤ t + q.queue.items.length

theorem refines_opened : Refines opened .initial 0 where
  stores := stores_zeroed
  accepted := rfl
  template := rfl
  count := rfl
  stale := by simp [opened]
  ahead := ⟨0, shows_zero, le_rfl, le_rfl⟩

theorem Refines.add_clone {s : Sessions} {q : SharedQueue} {t : ℕ} (h : Refines s q t)
    {p : AegisProducer} (hp : ∃ c, Shows p.cachedTail c ∧ c ≤ t) :
    Refines { s with clones := s.clones ++ [p] } { q with clones := q.clones + 1 } t where
  stores := h.stores
  accepted := h.accepted
  template := h.template
  count := by simp [h.count]
  stale := by
    intro r hr
    rcases List.mem_append.mp hr with hr | hr
    · exact h.stale r hr
    · rw [List.mem_singleton.mp hr]
      exact hp
  ahead := h.ahead

/-- One call, on related states. The word does not wrap before the call. -/
theorem refines_step {s : Sessions} {q : SharedQueue} {t : ℕ} (h : Refines s q t)
    (hword : q.accepted < 2 ^ 64) (call : Call) :
    (step s call).2 = (queueStep q call).2 ∧
      ∃ t', Refines (step s call).1 (queueStep q call).1 t' := by
  cases call with
  | cloneTemplate =>
    refine ⟨rfl, t, h.add_clone ⟨0, ?_, Nat.zero_le _⟩⟩
    rw [h.template]
    exact shows_zero
  | clone source =>
    by_cases hlt : source < s.clones.length
    · have hq : source < q.clones := h.count ▸ hlt
      simp only [step, queueStep, List.getElem?_eq_getElem hlt, hq, if_true]
      exact ⟨trivial, t, h.add_clone (h.stale _ (List.getElem_mem hlt))⟩
    · have hq : ¬ source < q.clones := h.count ▸ hlt
      simp only [step, queueStep, List.getElem?_eq_none (Nat.le_of_not_lt hlt), hq, if_false]
      exact ⟨trivial, t, h⟩
  | push handle event =>
    by_cases hlt : handle < s.clones.length
    · have hq : handle < q.clones := h.count ▸ hlt
      obtain ⟨c, hc, hle⟩ := h.stale _ (List.getElem_mem hlt)
      have hacc := h.accepted
      obtain ⟨⟨c', hc', _, hle'⟩, hans⟩ := push_spec h.stores hc hle (by omega) event
      have hstale : ∀ p ∈ s.clones.set handle (s.clones[handle].push s.ring event).2.1,
          ∃ c, Shows p.cachedTail c ∧ c ≤ t := by
        intro p hp
        rcases List.mem_or_eq_of_mem_set hp with hp | rfl
        · exact h.stale p hp
        · exact ⟨c', hc', hle'⟩
      have hcount : (s.clones.set handle (s.clones[handle].push s.ring event).2.1).length =
          q.clones := by rw [List.length_set, h.count]
      simp only [step, queueStep, List.getElem?_eq_getElem hlt, hq, if_true]
      cases hpush : q.queue.push event with
      | none =>
        rw [hpush] at hans
        obtain ⟨herr, hring⟩ := hans
        refine ⟨congrArg Reply.pushed herr, t, ?_, hacc, h.template, hcount, hstale, h.ahead⟩
        rw [hring]
        exact h.stores
      | some r =>
        rw [hpush] at hans
        obtain ⟨hok, hst⟩ := hans
        have hlen : r.items.length = q.queue.items.length + 1 := by simp [push_items hpush]
        obtain ⟨k, hk, hlo, hhi⟩ := h.ahead
        exact ⟨congrArg Reply.pushed hok, t, hst, by simp only; omega, h.template, hcount,
          hstale, k, hk, hlo, by simp only; omega⟩
    · have hq : ¬ handle < q.clones := h.count ▸ hlt
      simp only [step, queueStep, List.getElem?_eq_none (Nat.le_of_not_lt hlt), hq, if_false]
      exact ⟨trivial, t, h⟩
  | pop =>
    obtain ⟨c, hc, hlo, hhi⟩ := h.ahead
    have hans := pop_spec h.stores hc hlo hhi
    cases hpop : q.queue.pop with
    | none =>
      simp only [hpop] at hans
      obtain ⟨hnone, hring, hcache⟩ := hans
      simp only [step, queueStep, hpop]
      refine ⟨congrArg Reply.popped hnone, t, ?_, h.accepted, h.template, h.count, h.stale,
        t, hcache, le_rfl, by omega⟩
      rw [hring]
      exact h.stores
    | some er =>
      obtain ⟨event, r⟩ := er
      simp only [hpop] at hans
      obtain ⟨hsome, hst, hahead⟩ := hans
      have hlen : q.queue.items.length = r.items.length + 1 := by simp [pop_items hpop]
      have hacc := h.accepted
      simp only [step, queueStep, hpop]
      refine ⟨congrArg Reply.popped hsome, t + 1, hst, by simp only; omega, h.template, h.count,
        ?_, hahead⟩
      intro p hp
      obtain ⟨c, hc, hle⟩ := h.stale p hp
      exact ⟨c, hc, by omega⟩

theorem handles_simulate_queue :
    Simulation step queueStep (fun q _ => q.accepted < 2 ^ 64)
      (fun s q => ∃ t, Refines s q t) where
  reply := by
    intro _ _ call h hword
    obtain ⟨_, h⟩ := h
    exact (refines_step h hword call).1
  next := by
    intro _ _ call h hword
    obtain ⟨_, h⟩ := h
    exact (refines_step h hword call).2

def Call.isPush : Call → Bool
  | .push _ _ => true
  | _ => false

theorem accepted_step (q : SharedQueue) (call : Call) :
    (queueStep q call).1.accepted ≤ q.accepted + (if call.isPush then 1 else 0) := by
  cases call with
  | cloneTemplate => simp [queueStep]
  | clone source => simp only [queueStep]; split <;> simp
  | push handle event =>
    simp only [queueStep, Call.isPush]
    split
    · split <;> simp
    · simp
  | pop => simp only [queueStep]; split <;> simp

theorem few_pushes_admitted {q : SharedQueue} {calls : List Call}
    (h : q.accepted + calls.countP Call.isPush < 2 ^ 64) :
    StepsMeet (fun q call => (queueStep q call).1) (fun q _ => q.accepted < 2 ^ 64) q calls := by
  induction calls generalizing q with
  | nil => trivial
  | cons call calls ih =>
    rw [List.countP_cons] at h
    have := accepted_step q call
    exact ⟨by omega, ih (by simp only; omega)⟩

/-- All the clones together, however stale their caches are, answer as one bounded queue. -/
theorem clones_share_one_queue (calls : List Call) (few : calls.countP Call.isPush < 2 ^ 64) :
    replies step opened calls = replies queueStep .initial calls :=
  handles_simulate_queue.replies_eq ⟨0, refines_opened⟩
    (few_pushes_admitted (by simpa [SharedQueue.initial] using few))

theorem clones_share_one_queue_two_handles :
    let calls : List Call := [.cloneTemplate, .clone 0, .push 1 .zeroed, .pop,
      .push 0 { StrokeEvent.zeroed with sessionId := 7 }, .pop, .pop]
    calls.countP Call.isPush < 2 ^ 64 ∧
      replies step opened calls = replies queueStep .initial calls :=
  ⟨by decide, clones_share_one_queue _ (by decide)⟩

end RingHandles

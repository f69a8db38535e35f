import Vanguard.RingInterleaving
import Vanguard.RingHandles

/-! The ring as AEGIS and CELER share it. The sessions of AEGIS share a thread, so their pushes come
one after the other, each through the session's own clone of the producer; CELER's `pop` runs beside
them and is interleaved between any two accesses of shared memory. The ghost observations record
in which order the calls take effect, and what they return. -/
namespace RingClones

open WrappingCounters StateMachines SharedIpc
open RingInterleaving (PushPoint PopPoint Counts)
open RingHandles (Call)

/-- `ring.producer` is the handle of the push that runs, or that ran last. -/
structure State where
  ring : RingInterleaving.State
  template : AegisProducer
  clones : List AegisProducer
  pusher : ℕ
  called : List (ℕ × StrokeEvent)
  effects : List Call
  pushed : List (Except String Unit)
  popped : List (Option StrokeEvent)

def opened : State := ⟨RingInterleaving.initial, .new, [], 0, [], [], [], []⟩

inductive Turn where
  | cloneTemplate
  | clone (source : ℕ)
  | callPush (handle : ℕ) (event : StrokeEvent)
  | producer
  | callPop
  | consumer

/-- A push takes effect when it publishes, or when it reads the tail of a ring that is full. -/
def pushEffect (s : State) : List Call :=
  match s.ring.pushing with
  | .reload event head => if LooksFull head s.ring.ring.tail then [.push s.pusher event] else []
  | .publish event _ => [.push s.pusher event]
  | _ => []

def pushReturn (s : State) : List (Except String Unit) :=
  match s.ring.pushing with
  | .recheck _ head => if LooksFull head s.ring.producer.cachedTail then [queueFull] else []
  | .publish _ _ => [.ok ()]
  | _ => []

/-- A pop takes effect when it stores the tail, or when it reads the head of an empty ring. -/
def popEffect (s : State) : List Call :=
  match s.ring.popping with
  | .reload tail => if LooksEmpty s.ring.ring.head tail then [.pop] else []
  | .advance _ _ => [.pop]
  | _ => []

def popReturn (s : State) : List (Option StrokeEvent) :=
  match s.ring.popping with
  | .recheck tail => if LooksEmpty s.ring.consumer.cachedHead tail then [none] else []
  | .advance _ event => [some event]
  | _ => []

/-- Cloning and calling happen on the thread of the sessions, so not while a push runs. -/
def next (s : State) : Turn → State
  | .cloneTemplate =>
    if s.ring.pushing = .idle then
      { s with clones := s.clones ++ [s.template.clone], effects := s.effects ++ [.cloneTemplate] }
    else s
  | .clone source =>
    match s.ring.pushing, s.clones[source]? with
    | .idle, some p =>
      { s with clones := s.clones ++ [p.clone], effects := s.effects ++ [.clone source] }
    | _, _ => s
  | .callPush handle event =>
    match s.ring.pushing, s.clones[handle]? with
    | .idle, some p =>
      { s with
        ring := RingInterleaving.next { s.ring with producer := p } (.callPush event)
        pusher := handle
        called := s.called ++ [(handle, event)] }
    | _, _ => s
  | .producer =>
    if s.ring.pushing = .idle then s
    else
      let ring := RingInterleaving.next s.ring .producer
      { s with
        ring := ring
        clones := s.clones.set s.pusher ring.producer
        effects := s.effects ++ pushEffect s
        pushed := s.pushed ++ pushReturn s }
  | .callPop => { s with ring := RingInterleaving.next s.ring .callPop }
  | .consumer =>
    { s with
      ring := RingInterleaving.next s.ring .consumer
      effects := s.effects ++ popEffect s
      popped := s.popped ++ popReturn s }

def decided : PushPoint → Bool
  | .idle | .load _ | .compare _ _ | .reload _ _ => false
  | .recheck _ _ | .write _ _ | .publish _ _ => true

/-- The ring with an up-to-date handle, as long as the running push has decided nothing. -/
def refreshed (ring : RingInterleaving.State) : RingInterleaving.State :=
  { ring with producer := if decided ring.pushing then ring.producer else ⟨ring.ring.tail⟩ }

/-- A handle that has not been called for long may be further behind than the ring is long. -/
structure Sound (s : State) : Prop where
  counts : ∃ c k, Counts (refreshed s.ring) c k
  template : s.template = .new
  running : s.ring.pushing ≠ .idle → s.pusher < s.clones.length
  stale : ∀ p ∈ s.ring.producer :: s.clones,
    ∃ c, Shows p.cachedTail c ∧ c ≤ s.ring.returned.length

theorem sound_opened : Sound opened where
  counts := ⟨0, 0, RingInterleaving.counts_initial⟩
  template := rfl
  running := fun h => absurd rfl h
  stale := by
    intro p hp
    rw [List.mem_singleton.mp hp]
    exact ⟨0, shows_zero, le_rfl⟩

section Handles

variable {ring : RingInterleaving.State} {c k : ℕ}

theorem counts_with_producer (h : Counts ring c k) {p : AegisProducer} {c' : ℕ}
    (hshows : Shows p.cachedTail c') (hold : c' ≤ ring.returned.length)
    (hnear : ring.published.length ≤ c' + RING_CAPACITY)
    (hpushing : RingInterleaving.PushingAt { ring with producer := p } c') :
    Counts { ring with producer := p } c' k :=
  { h with
    cachedTail := hshows, tail_old := hold, tail_near := hnear, pushing := hpushing,
    popping := h.popping }

theorem counts_refreshed (h : Counts ring c k) : ∃ c', Counts (refreshed ring) c' k := by
  have hroom := h.room
  have hpushing := h.pushing
  unfold RingInterleaving.PushingAt at hpushing
  by_cases hd : decided ring.pushing = true
  · refine ⟨c, ?_⟩
    rw [refreshed, if_pos hd]
    exact h
  · refine ⟨ring.returned.length, ?_⟩
    rw [refreshed, if_neg hd]
    refine counts_with_producer h h.tail le_rfl hroom.2 ?_
    unfold RingInterleaving.PushingAt
    cases hp : ring.pushing with
    | idle | load event => trivial
    | compare event head | reload event head => simpa only [hp] using hpushing
    | recheck event head | write event head | publish event head => simp [hp, decided] at hd

theorem consumerTurn_producer (p : AegisProducer) :
    RingInterleaving.consumerTurn { ring with producer := p } =
      { RingInterleaving.consumerTurn ring with producer := p } := by
  obtain ⟨_, _, _, _, popping, _, _⟩ := ring
  cases popping <;> rfl

theorem consumerTurn_frame (ring : RingInterleaving.State) :
    (RingInterleaving.consumerTurn ring).pushing = ring.pushing ∧
      (RingInterleaving.consumerTurn ring).producer = ring.producer ∧
      (RingInterleaving.consumerTurn ring).published = ring.published ∧
      ring.returned <+: (RingInterleaving.consumerTurn ring).returned := by
  obtain ⟨_, _, _, _, popping, _, _⟩ := ring
  cases popping <;> simp [RingInterleaving.consumerTurn]

theorem returned_next (s : State) (turn : Turn) :
    s.ring.returned <+: (next s turn).ring.returned := by
  cases turn with
  | cloneTemplate =>
    simp only [next]
    split <;> exact List.prefix_rfl
  | clone source =>
    simp only [next]
    split <;> exact List.prefix_rfl
  | callPush handle event =>
    simp only [next]
    split
    · simp only [RingInterleaving.next]
      split <;> exact List.prefix_rfl
    · exact List.prefix_rfl
  | producer =>
    simp only [next]
    split
    · exact List.prefix_rfl
    · simp only [RingInterleaving.next, RingInterleaving.producerTurn]
      split <;> exact List.prefix_rfl
  | callPop =>
    simp only [next, RingInterleaving.next]
    split <;> exact List.prefix_rfl
  | consumer => exact (consumerTurn_frame s.ring).2.2.2

theorem refreshed_consumerTurn :
    refreshed (RingInterleaving.consumerTurn (refreshed ring)) =
      refreshed (RingInterleaving.consumerTurn ring) := by
  obtain ⟨hpushing, hproducer, _⟩ := consumerTurn_frame ring
  rw [refreshed, refreshed, refreshed, consumerTurn_producer]
  simp only [hpushing, hproducer]
  cases decided ring.pushing <;> rfl

theorem refreshed_producerTurn (h : ∀ event head, ring.pushing ≠ .compare event head) :
    refreshed (RingInterleaving.producerTurn (refreshed ring)) =
      refreshed (RingInterleaving.producerTurn ring) := by
  obtain ⟨ring, producer, consumer, pushing, popping, published, returned⟩ := ring
  cases pushing with
  | compare event head => exact absurd rfl (h event head)
  | idle | load event | reload event head | recheck event head | write event head
  | publish event head => rfl

theorem refreshed_spec (h : Counts (refreshed ring) c k) :
    Shows ring.ring.head ring.published.length ∧ Shows ring.ring.tail ring.returned.length ∧
      ring.returned.length ≤ ring.published.length ∧
      ring.published.length ≤ ring.returned.length + RING_CAPACITY :=
  ⟨h.head, h.tail, h.room⟩

end Handles

variable {s : State}

theorem Sound.consumer (h : Sound s) : Sound (next s .consumer) := by
  obtain ⟨c, k, hcounts⟩ := h.counts
  obtain ⟨k', hturn⟩ := hcounts.consumer_turn
  obtain ⟨hpushing, hproducer, _, hgrows⟩ := consumerTurn_frame s.ring
  constructor
  · obtain ⟨c', hfresh⟩ := counts_refreshed hturn
    rw [refreshed_consumerTurn] at hfresh
    exact ⟨c', k', hfresh⟩
  · exact h.template
  · simp only [next, RingInterleaving.next, hpushing]
    exact h.running
  · intro p hp
    simp only [next, RingInterleaving.next, hproducer] at hp ⊢
    obtain ⟨m, hm, hle⟩ := h.stale p hp
    exact ⟨m, hm, hle.trans hgrows.length_le⟩

/-- The running handle may be too old to tell how full the ring is, but then it says that the ring
is full. -/
theorem counts_producerTurn {ring : RingInterleaving.State} {c k : ℕ}
    (h : Counts (refreshed ring) c k) {m : ℕ} (hm : Shows ring.producer.cachedTail m)
    (hle : m ≤ ring.returned.length) (hfew : ring.published.length < 2 ^ 64) :
    ∃ c', Counts (refreshed (RingInterleaving.producerTurn ring)) c' k := by
  by_cases hcompare : ∃ event head, ring.pushing = .compare event head
  · obtain ⟨event, head, hp⟩ := hcompare
    have hpushing := h.pushing
    simp only [RingInterleaving.PushingAt, refreshed, hp] at hpushing
    have hhead : Shows head ring.published.length := hpushing
    have hroom := refreshed_spec h
    have hfull := SharedIpc.looksFull_iff hhead hm (by omega) (by omega)
    by_cases hf : LooksFull head ring.producer.cachedTail
    · refine ⟨c, ?_⟩
      simp only [RingInterleaving.producerTurn, hp, hf, if_true, refreshed, decided]
      simp only [refreshed, hp, decided] at h
      exact { h with pushing := hhead, popping := h.popping }
    · have hnear : ring.published.length < m + RING_CAPACITY := by
        have := hfull.not.mp hf
        omega
      refine ⟨m, ?_⟩
      simp only [RingInterleaving.producerTurn, hp, hf, if_false, refreshed, decided, if_true]
      simp only [refreshed, hp, decided] at h
      exact { h with
        cachedTail := hm, tail_old := hle, tail_near := hnear.le, pushing := ⟨hhead, hnear⟩,
        popping := h.popping }
  · push Not at hcompare
    obtain ⟨c', hturn⟩ := h.producer_turn
    obtain ⟨c'', hfresh⟩ := counts_refreshed hturn
    rw [refreshed_producerTurn hcompare] at hfresh
    exact ⟨c'', hfresh⟩

theorem producerTurn_frame (ring : RingInterleaving.State) :
    (RingInterleaving.producerTurn ring).returned = ring.returned ∧
      (RingInterleaving.producerTurn ring).popping = ring.popping ∧
      (RingInterleaving.producerTurn ring).consumer = ring.consumer ∧
      ((RingInterleaving.producerTurn ring).producer = ring.producer ∨
        (RingInterleaving.producerTurn ring).producer = ⟨ring.ring.tail⟩) := by
  obtain ⟨_, _, _, pushing, _, _, _⟩ := ring
  cases pushing <;> simp [RingInterleaving.producerTurn]

theorem Sound.producer (h : Sound s) (hfew : s.ring.published.length < 2 ^ 64) :
    Sound (next s .producer) := by
  by_cases hidle : s.ring.pushing = .idle
  · simpa only [next, hidle, if_true] using h
  obtain ⟨c, k, hcounts⟩ := h.counts
  obtain ⟨m, hm, hle⟩ := h.stale s.ring.producer List.mem_cons_self
  obtain ⟨c', hturn⟩ := counts_producerTurn hcounts hm hle hfew
  obtain ⟨hreturned, _, _, hproducer⟩ := producerTurn_frame s.ring
  have htail := (refreshed_spec hcounts).2.1
  have hown : ∃ c, Shows (RingInterleaving.producerTurn s.ring).producer.cachedTail c ∧
      c ≤ s.ring.returned.length := by
    rcases hproducer with heq | heq
    · rw [heq]
      exact ⟨m, hm, hle⟩
    · rw [heq]
      exact ⟨_, htail, le_rfl⟩
  simp only [next, hidle, if_false, RingInterleaving.next]
  constructor
  · exact ⟨c', k, hturn⟩
  · exact h.template
  · intro _
    simpa using h.running hidle
  · intro p hp
    simp only [hreturned]
    rcases List.mem_cons.mp hp with rfl | hp
    · exact hown
    · rcases List.mem_or_eq_of_mem_set hp with hp | rfl
      · exact h.stale p (List.mem_cons_of_mem _ hp)
      · exact hown

theorem Sound.add_clone (h : Sound s) {p : AegisProducer} {call : Call}
    (hp : ∃ c, Shows p.cachedTail c ∧ c ≤ s.ring.returned.length) :
    Sound { s with clones := s.clones ++ [p], effects := s.effects ++ [call] } where
  counts := h.counts
  template := h.template
  running := by
    intro hrun
    have := h.running hrun
    simp only [List.length_append, List.length_singleton]
    omega
  stale := by
    intro q hq
    rcases List.mem_cons.mp hq with rfl | hq
    · exact h.stale _ List.mem_cons_self
    · rcases List.mem_append.mp hq with hq | hq
      · exact h.stale q (List.mem_cons_of_mem _ hq)
      · rw [List.mem_singleton.mp hq]
        exact hp

theorem sound_next (h : Sound s) (turn : Turn) (hfew : s.ring.published.length < 2 ^ 64) :
    Sound (next s turn) := by
  cases turn with
  | cloneTemplate =>
    simp only [next]
    split
    · refine h.add_clone ⟨0, ?_, Nat.zero_le _⟩
      rw [h.template]
      exact shows_zero
    · exact h
  | clone source =>
    simp only [next]
    split
    · next p _ hp =>
      exact h.add_clone (h.stale p (List.mem_cons_of_mem _ (List.mem_of_getElem? hp)))
    · exact h
  | callPush handle event =>
    simp only [next]
    split
    · next p hidle hp =>
      obtain ⟨c, k, hcounts⟩ := h.counts
      simp only [RingInterleaving.next, hidle, if_true]
      constructor
      · refine ⟨c, k, ?_⟩
        simp only [refreshed, decided, hidle] at hcounts ⊢
        exact { hcounts with pushing := trivial, popping := hcounts.popping }
      · exact h.template
      · intro _
        exact (List.getElem?_eq_some_iff.mp hp).1
      · intro q hq
        rcases List.mem_cons.mp hq with rfl | hq
        · exact h.stale q (List.mem_cons_of_mem _ (List.mem_of_getElem? hp))
        · exact h.stale q (List.mem_cons_of_mem _ hq)
    · exact h
  | producer => exact h.producer hfew
  | callPop =>
    obtain ⟨c, k, hcounts⟩ := h.counts
    by_cases hidle : s.ring.popping = .idle
    · simp only [next, RingInterleaving.next, hidle, if_true]
      refine ⟨⟨c, k, ?_⟩, h.template, h.running, h.stale⟩
      exact { hcounts with popping := trivial, pushing := hcounts.pushing }
    · simpa only [next, RingInterleaving.next, hidle, if_false] using h
  | consumer => exact h.consumer

theorem next_producer (hrun : s.ring.pushing ≠ .idle) : next s .producer =
    { s with
      ring := RingInterleaving.producerTurn s.ring
      clones := s.clones.set s.pusher (RingInterleaving.producerTurn s.ring).producer
      effects := s.effects ++ pushEffect s
      pushed := s.pushed ++ pushReturn s } := by
  simp only [next, hrun, if_false, RingInterleaving.next]

def Turn.isCallPush : Turn → Bool
  | .callPush _ _ => true
  | _ => false

def offered (s : State) : ℕ :=
  s.ring.published.length + if s.ring.pushing = .idle then 0 else 1

theorem offered_next (s : State) (turn : Turn) :
    offered (next s turn) ≤ offered s + if turn.isCallPush then 1 else 0 := by
  cases turn with
  | cloneTemplate =>
    have hring : (next s .cloneTemplate).ring = s.ring := by simp only [next]; split <;> rfl
    simp [offered, hring]
  | clone source =>
    have hring : (next s (.clone source)).ring = s.ring := by simp only [next]; split <;> rfl
    simp [offered, hring]
  | callPush handle event =>
    have hring : (next s (.callPush handle event)).ring.published = s.ring.published := by
      simp only [next, RingInterleaving.next]
      split
      · split <;> rfl
      · rfl
    simp only [offered, hring, Turn.isCallPush, if_true]
    split <;> omega
  | producer =>
    by_cases hidle : s.ring.pushing = .idle
    · simp [next, hidle]
    · rw [next_producer hidle]
      simp only [offered, hidle, if_false, Turn.isCallPush]
      unfold RingInterleaving.producerTurn
      cases hp : s.ring.pushing <;> simp only [List.length_append, List.length_singleton] <;>
        split <;> simp_all
  | callPop => simp only [next, RingInterleaving.next, offered]; split <;> simp
  | consumer =>
    obtain ⟨hpushing, _, hpublished, _⟩ := consumerTurn_frame s.ring
    simp [next, RingInterleaving.next, offered, hpushing, hpublished]

theorem few_calls_admitted {turns : List Turn}
    (h : offered s + turns.countP Turn.isCallPush < 2 ^ 64) :
    StepsMeet next (fun s _ => s.ring.published.length < 2 ^ 64) s turns := by
  induction turns generalizing s with
  | nil => trivial
  | cons turn turns ih =>
    rw [List.countP_cons] at h
    have hnext := offered_next s turn
    have hle : s.ring.published.length ≤ offered s := Nat.le_add_right _ _
    exact ⟨by omega, ih (by omega)⟩

def running (s : State) : List (ℕ × StrokeEvent) :=
  match s.ring.pushing with
  | .idle => []
  | .load event | .compare event _ | .reload event _ | .recheck event _ | .write event _
  | .publish event _ => [(s.pusher, event)]

def accepted (s : State) : List (ℕ × StrokeEvent) :=
  ((s.called.zip s.pushed).filter fun call => call.2.isOk).map Prod.fst

/-- The pushes come one after the other, and the ring holds the events of those that returned
`Ok`. -/
structure Sequential (s : State) : Prop where
  calls : ∃ finished, s.called = finished ++ running s ∧ finished.length = s.pushed.length
  events : s.ring.events = (accepted s).map Prod.snd

theorem sequential_opened : Sequential opened := ⟨⟨[], rfl, rfl⟩, rfl⟩

theorem zip_finished {finished : List (ℕ × StrokeEvent)} {results : List (Except String Unit)}
    (rest : List (ℕ × StrokeEvent)) (h : finished.length = results.length) :
    (finished ++ rest).zip results = finished.zip results := by
  have hzip : (finished ++ rest).zip (results ++ []) = finished.zip results ++ rest.zip [] :=
    List.zip_append h
  rwa [List.append_nil, List.zip_nil_right, List.append_nil] at hzip

theorem Sequential.finished (h : Sequential s) :
    s.called = (s.called.zip s.pushed).map Prod.fst ++ running s := by
  obtain ⟨finished, hcalled, hlength⟩ := h.calls
  rw [hcalled, zip_finished _ hlength, List.map_fst_zip hlength.le]

theorem Sequential.accepted_sublist (h : Sequential s) : (accepted s).Sublist s.called := by
  rw [h.finished, accepted]
  exact (List.filter_sublist.map _).trans (List.sublist_append_left _ _)

theorem Sequential.keep (h : Sequential s) {s' : State} (hcalled : s'.called = s.called)
    (hpushed : s'.pushed = s.pushed) (hrunning : running s' = running s)
    (hevents : s'.ring.events = s.ring.events) : Sequential s' := by
  constructor
  · rw [hcalled, hpushed, hrunning]
    exact h.calls
  · rw [hevents, accepted, hcalled, hpushed]
    exact h.events

theorem Sequential.finish (h : Sequential s) {s' : State} (call : ℕ × StrokeEvent)
    (result : Except String Unit) (hcalled : s'.called = s.called)
    (hpushed : s'.pushed = s.pushed ++ [result]) (hrun : running s = [call])
    (hidle : running s' = [])
    (hevents : s'.ring.events = s.ring.events ++ if result.isOk then [call.2] else []) :
    Sequential s' := by
  obtain ⟨finished, hcalls, hlength⟩ := h.calls
  rw [hrun] at hcalls
  have hbefore : accepted s = ((finished.zip s.pushed).filter fun c => c.2.isOk).map Prod.fst := by
    rw [accepted, hcalls, zip_finished _ hlength]
  constructor
  · refine ⟨finished ++ [call], ?_, ?_⟩
    · rw [hcalled, hcalls, hidle, List.append_nil]
    · rw [hpushed]
      simp [hlength]
  · rw [hevents, h.events, hbefore, accepted, hcalled, hpushed, hcalls,
      List.zip_append hlength, List.filter_append, List.map_append, List.map_append]
    cases hok : result.isOk with
    | true => simp [hok]
    | false => simp [hok]

theorem sequential_next (h : Sequential s) (turn : Turn) : Sequential (next s turn) := by
  cases turn with
  | cloneTemplate =>
    simp only [next]
    split
    · exact h.keep rfl rfl rfl rfl
    · exact h
  | clone source =>
    simp only [next]
    split
    · exact h.keep rfl rfl rfl rfl
    · exact h
  | callPush handle event =>
    simp only [next]
    split
    · next p hidle hp =>
      obtain ⟨finished, hcalls, hlength⟩ := h.calls
      have hrun : running s = [] := by simp [running, hidle]
      rw [hrun, List.append_nil] at hcalls
      simp only [RingInterleaving.next, hidle, if_true]
      constructor
      · exact ⟨s.called, rfl, by rw [hcalls, hlength]⟩
      · have hsame := zip_finished [(handle, event)] ((congrArg List.length hcalls).trans hlength)
        rw [accepted, hsame, ← accepted]
        exact h.events
    · exact h
  | producer =>
    by_cases hidle : s.ring.pushing = .idle
    · simpa only [next, hidle, if_true] using h
    rw [next_producer hidle]
    cases hp : s.ring.pushing with
    | idle => exact absurd hp hidle
    | load event | write event head | reload event head =>
      refine h.keep rfl ?_ ?_ ?_
      all_goals simp [pushReturn, running, RingInterleaving.producerTurn, hp,
        RingInterleaving.State.events]
    | compare event head =>
      by_cases hf : LooksFull head s.ring.producer.cachedTail
      · refine h.keep rfl ?_ ?_ ?_
        all_goals simp [pushReturn, running, RingInterleaving.producerTurn, hp, hf,
          RingInterleaving.State.events]
      · refine h.keep rfl ?_ ?_ ?_
        all_goals simp [pushReturn, running, RingInterleaving.producerTurn, hp, hf,
          RingInterleaving.State.events]
    | recheck event head =>
      by_cases hf : LooksFull head s.ring.producer.cachedTail
      · refine h.finish (s.pusher, event) queueFull rfl ?_ ?_ ?_ ?_
        all_goals simp [pushReturn, running, RingInterleaving.producerTurn, hp, hf,
          RingInterleaving.State.events, queueFull, Except.isOk, Except.toBool]
      · refine h.keep rfl ?_ ?_ ?_
        all_goals simp [pushReturn, running, RingInterleaving.producerTurn, hp, hf,
          RingInterleaving.State.events]
    | publish event head =>
      refine h.finish (s.pusher, event) (.ok ()) rfl ?_ ?_ ?_ ?_
      all_goals simp [pushReturn, running, RingInterleaving.producerTurn, hp,
          RingInterleaving.State.events, Except.isOk, Except.toBool]
  | callPop =>
    have hpushing : (RingInterleaving.next s.ring .callPop).pushing = s.ring.pushing := by
      simp only [RingInterleaving.next]
      split <;> rfl
    have hevents : (RingInterleaving.next s.ring .callPop).events = s.ring.events := by
      simp only [RingInterleaving.next]
      split <;> rfl
    refine h.keep rfl rfl ?_ hevents
    simp only [next, running, hpushing]
  | consumer =>
    obtain ⟨hpushing, _, hpublished, _⟩ := consumerTurn_frame s.ring
    refine h.keep rfl rfl ?_ (congrArg (List.map Prod.snd) hpublished)
    simp only [next, RingInterleaving.next, running, hpushing]

theorem run_keeps {P : State → Prop} {turns : List Turn}
    (keeps : ∀ s turn, P s → s.ring.published.length < 2 ^ 64 → P (next s turn)) (h : P opened)
    (few : turns.countP Turn.isCallPush < 2 ^ 64) : P (run next opened turns) :=
  run_preserves_of_steps keeps h
    (few_calls_admitted (by simpa [opened, offered, RingInterleaving.initial] using few))

theorem run_sound {turns : List Turn} (few : turns.countP Turn.isCallPush < 2 ^ 64) :
    Sound (run next opened turns) :=
  run_keeps (fun _ turn h hfew => sound_next h turn hfew) sound_opened few

theorem run_sequential (turns : List Turn) : Sequential (run next opened turns) :=
  run_preserves (P := Sequential) (fun _ turn h => sequential_next h turn) sequential_opened turns

theorem Sound.in_order (h : Sound s) : s.ring.returned <+: s.ring.events := by
  obtain ⟨c, k, hcounts⟩ := h.counts
  have horder : s.ring.returned = s.ring.events.take s.ring.returned.length := hcounts.in_order
  rw [horder]
  exact List.take_prefix _ _

end RingClones

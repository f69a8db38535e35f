import Vanguard.RingInterleaving
import Vanguard.CelerFsm

/-! The strokes of one session on their way through the ring. A push that finds the ring full
drops its event and AEGIS goes on with the next one, so CELER sees strokes with gaps. -/
namespace CelerStrokes

open WrappingCounters StateMachines SharedIpc CelerFsm
open RingInterleaving (Counts PushPoint)

def position (event : StrokeEvent) : F32 × F32 := (event.x, event.y)

structure Stroke (session : UInt32) where
  down : StrokeEvent
  moves : List StrokeEvent
  up : StrokeEvent
  down_action : down.action = ACTION_DOWN
  moves_action : ∀ event ∈ moves, event.action = ACTION_MOVE
  up_action : up.action = ACTION_UP
  of_session : ∀ event ∈ down :: moves ++ [up], event.sessionId = session
  deriving DecidableEq

variable {session : UInt32}

def Stroke.events (stroke : Stroke session) : List StrokeEvent :=
  stroke.down :: stroke.moves ++ [stroke.up]

def Stroke.points (stroke : Stroke session) : List (F32 × F32) :=
  (stroke.down :: stroke.moves).map position

/-- A stroke with its place among the strokes of the session, which may draw one stroke twice. -/
abbrev Occurrence (session : UInt32) := Stroke session × ℕ

abbrev Part (session : UInt32) := Occurrence session × StrokeEvent

def parts (strokes : List (Stroke session)) : List (Part session) :=
  strokes.zipIdx.flatMap fun own => own.1.events.map fun event => (own, event)

/-- The session's handler and the ring. `sending` is the stroke of the running push, and `accepted`
the parts whose push published them. -/
structure Pipeline (session : UInt32) where
  ring : RingInterleaving.State
  unsent : List (Part session)
  sending : Option (Occurrence session)
  accepted : List (Part session)

def opened (strokes : List (Stroke session)) : Pipeline session :=
  ⟨RingInterleaving.initial, parts strokes, none, []⟩

inductive Turn where
  | send
  | producer
  | callPop
  | consumer
  deriving DecidableEq

def Pipeline.publishes (s : Pipeline session) : Option (Part session) :=
  match s.ring.pushing, s.sending with
  | .publish event _, some own => some (own, event)
  | _, _ => none

/-- The handler looks at no result: it calls `push` for the next event when the last call has
returned, whether `Ok` or `Err`. -/
def next (s : Pipeline session) : Turn → Pipeline session
  | .send =>
    match s.ring.pushing, s.unsent with
    | .idle, (own, event) :: rest =>
      { s with
        ring := RingInterleaving.next s.ring (.callPush event)
        unsent := rest
        sending := some own }
    | _, _ => s
  | .producer =>
    { s with
      ring := RingInterleaving.next s.ring .producer
      accepted := s.accepted ++ s.publishes.toList }
  | .callPop => { s with ring := RingInterleaving.next s.ring .callPop }
  | .consumer => { s with ring := RingInterleaving.next s.ring .consumer }

/-- The stroke that the last DOWN or UP leaves open. -/
def mark (stroke : Option (Occurrence session)) (part : Part session) :
    Option (Occurrence session) :=
  if part.2.action = ACTION_DOWN then some part.1
  else if part.2.action = ACTION_UP then none
  else stroke

/-- A MOVE comes while its own stroke is open, or none. -/
def InStroke (stroke : Option (Occurrence session)) (part : Part session) : Prop :=
  part.2.action = ACTION_MOVE → ∀ other ∈ stroke, other = part.1

/-- A MOVE that the ring takes finds that of the DOWNs and UPs which the ring took the last one is
an UP or the DOWN of the same stroke. -/
def TakenInStroke (s : Pipeline session) (turn : Turn) : Prop :=
  turn = .producer → ∀ part ∈ s.publishes, InStroke (run mark none s.accepted) part

instance (stroke : Option (Occurrence session)) (part : Part session) :
    Decidable (InStroke stroke part) := inferInstanceAs (Decidable (_ → ∀ other ∈ stroke, _))

instance (s : Pipeline session) (turn : Turn) : Decidable (TakenInStroke s turn) :=
  inferInstanceAs (Decidable (_ → ∀ part ∈ s.publishes, _))

def Pipeline.answers (A : Arithmetic F32) (s : Pipeline session) : List (PrecisionEvent F32) :=
  emitted A (.new A) (s.ring.returned.map sample)

/-- The speed is measured between two positions of one stroke. -/
def WithinStroke (A : Arithmetic F32) (strokes : List (Stroke session))
    (answer : PrecisionEvent F32) : Prop :=
  ∃ stroke ∈ strokes, ∃ p ∈ stroke.points, ∃ q ∈ stroke.points, answer.speed = distance A q p

theorem mem_parts {strokes : List (Stroke session)} {part : Part session} :
    part ∈ parts strokes ↔
      strokes[part.1.2]? = some part.1.1 ∧ part.2 ∈ part.1.1.events := by
  obtain ⟨own, event⟩ := part
  simp only [parts, List.mem_flatMap, List.mem_map, Prod.mk.injEq]
  rw [← List.mem_zipIdx_iff_getElem?]
  constructor
  · rintro ⟨_, hown, _, hevent, rfl, rfl⟩
    exact ⟨hown, hevent⟩
  · rintro ⟨hown, hevent⟩
    exact ⟨own, hown, event, hevent, rfl, rfl⟩

def pushed : PushPoint → Option StrokeEvent
  | .idle => none
  | .load event | .compare event _ | .reload event _ | .recheck event _ | .write event _
  | .publish event _ => some event

theorem pushed_turn (ring : RingInterleaving.State) {event : StrokeEvent}
    (h : event ∈ pushed (RingInterleaving.producerTurn ring).pushing) :
    event ∈ pushed ring.pushing := by
  unfold RingInterleaving.producerTurn at h
  cases hp : ring.pushing with
  | idle => simpa [hp] using h
  | load e => simpa [hp, pushed] using h
  | compare e head =>
    simp only [hp] at h
    split at h
    · exact h
    · exact h
  | reload e head => simpa [hp, pushed] using h
  | recheck e head =>
    simp only [hp] at h
    split at h
    · exact absurd h (by simp [pushed])
    · exact h
  | write e head => simpa [hp, pushed] using h
  | publish e head => simp [hp, pushed] at h

structure Tracked (strokes : List (Stroke session)) (s : Pipeline session) : Prop where
  counts : ∃ c k, Counts s.ring c k
  events : s.accepted.map Prod.snd = s.ring.events
  unsent : ∀ part ∈ s.unsent, part ∈ parts strokes
  running : ∀ event ∈ pushed s.ring.pushing, ∃ own ∈ s.sending, (own, event) ∈ parts strokes
  accepted : ∀ part ∈ s.accepted, part ∈ parts strokes
  clean : StepsMeet mark InStroke none s.accepted

variable {A : Arithmetic F32} {strokes : List (Stroke session)} {s : Pipeline session}

theorem tracked_opened (strokes : List (Stroke session)) : Tracked strokes (opened strokes) where
  counts := ⟨0, 0, RingInterleaving.counts_initial⟩
  events := rfl
  unsent := fun _ hp => hp
  running := by simp [opened, RingInterleaving.initial, pushed]
  accepted := by simp [opened]
  clean := trivial

theorem events_turn (ring : RingInterleaving.State) :
    (RingInterleaving.producerTurn ring).events = ring.events ++
      match ring.pushing with
      | .publish event _ => [event]
      | _ => [] := by
  unfold RingInterleaving.producerTurn
  cases ring.pushing with
  | publish event head => simp [RingInterleaving.State.events]
  | _ => simp [RingInterleaving.State.events]

theorem Tracked.send (h : Tracked strokes s) : Tracked strokes (next s .send) := by
  obtain ⟨c, k, hcounts⟩ := h.counts
  cases hp : s.ring.pushing with
  | idle =>
    cases hu : s.unsent with
    | nil => simpa [next, hp, hu] using h
    | cons part rest =>
      obtain ⟨own, event⟩ := part
      have hparts := h.unsent
      rw [hu] at hparts
      simp only [next, hp, hu]
      constructor
      · exact RingInterleaving.counts_next (.callPush event) hcounts
      · simpa [RingInterleaving.next, hp, RingInterleaving.State.events] using h.events
      · exact fun part hpart => hparts part (List.mem_cons_of_mem _ hpart)
      · intro e he
        have hsame : event = e := by simpa [RingInterleaving.next, hp, pushed] using he
        subst hsame
        exact ⟨own, rfl, hparts _ List.mem_cons_self⟩
      · exact h.accepted
      · exact h.clean
  | _ => simpa [next, hp] using h

theorem Tracked.producer (h : Tracked strokes s) (hc : TakenInStroke s .producer) :
    Tracked strokes (next s .producer) := by
  obtain ⟨c, k, hcounts⟩ := h.counts
  have hrunning : ∀ event ∈ pushed (RingInterleaving.producerTurn s.ring).pushing,
      ∃ own ∈ s.sending, (own, event) ∈ parts strokes :=
    fun event he => h.running event (pushed_turn s.ring he)
  have hevents := events_turn s.ring
  cases hp : s.ring.pushing with
  | publish event head =>
    obtain ⟨own, hsending, hpart⟩ := h.running event (by rw [hp]; rfl)
    have hsome : s.sending = some own := hsending
    have hpublishes : s.publishes = some (own, event) := by
      simp only [Pipeline.publishes, hp, hsome]
    have hclean := hc rfl (own, event) hpublishes
    simp only [next, hpublishes, Option.toList_some]
    rw [hp] at hevents
    constructor
    · exact RingInterleaving.counts_next .producer hcounts
    · rw [List.map_append, h.events]
      exact hevents.symm
    · exact h.unsent
    · exact hrunning
    · intro part hmem
      rcases List.mem_append.mp hmem with hmem | hmem
      · exact h.accepted part hmem
      · rwa [List.mem_singleton.mp hmem]
    · exact stepsMeet_append.mpr ⟨h.clean, hclean, trivial⟩
  | _ =>
    have hpublishes : s.publishes = none := by
      simp only [Pipeline.publishes, hp]
    simp only [hp, List.append_nil] at hevents
    simp only [next, hpublishes, Option.toList_none, List.append_nil]
    exact ⟨RingInterleaving.counts_next .producer hcounts, h.events.trans hevents.symm, h.unsent,
      hrunning, h.accepted, h.clean⟩

theorem Tracked.pops (h : Tracked strokes s) {turn : RingInterleaving.Turn}
    (hpushing : (RingInterleaving.next s.ring turn).pushing = s.ring.pushing)
    (hpublished : (RingInterleaving.next s.ring turn).published = s.ring.published) :
    Tracked strokes { s with ring := RingInterleaving.next s.ring turn } := by
  obtain ⟨c, k, hcounts⟩ := h.counts
  constructor
  · exact RingInterleaving.counts_next turn hcounts
  · exact h.events.trans (congrArg (List.map Prod.snd) hpublished.symm)
  · exact h.unsent
  · intro event he
    rw [hpushing] at he
    exact h.running event he
  · exact h.accepted
  · exact h.clean

theorem tracked_next (h : Tracked strokes s) {turn : Turn} (hc : TakenInStroke s turn) :
    Tracked strokes (next s turn) := by
  cases turn with
  | send => exact h.send
  | producer => exact h.producer hc
  | callPop =>
    apply h.pops
    · simp only [RingInterleaving.next]
      split
      · rfl
      · rfl
    · simp only [RingInterleaving.next]
      split
      · rfl
      · rfl
  | consumer =>
    apply h.pops
    · simp only [RingInterleaving.next, RingInterleaving.consumerTurn]
      split <;> rfl
    · simp only [RingInterleaving.next, RingInterleaving.consumerTurn]
      split <;> rfl

theorem Stroke.position_mem {stroke : Stroke session} {event : StrokeEvent}
    (h : event ∈ stroke.events) (hup : event.action ≠ ACTION_UP) :
    position event ∈ stroke.points := by
  apply List.mem_map_of_mem
  rcases List.mem_append.mp h with h | h
  · exact h
  · rw [List.mem_singleton.mp h] at hup
    exact absurd stroke.up_action hup

/-- The positions of the open path are those of one stroke, which is the open one. -/
def Inside (strokes : List (Stroke session)) (path : Option (Path F32))
    (stroke : Option (Occurrence session)) : Prop :=
  ∀ p ∈ path, ∃ own, strokes[own.2]? = some own.1 ∧ stroke = some own ∧ p.points ⊆ own.1.points

variable {path : Option (Path F32)} {stroke : Option (Occurrence session)} {part : Part session}

theorem Inside.next (h : Inside strokes path stroke) (hpart : part ∈ parts strokes)
    (hc : InStroke stroke part) :
    Inside strokes (extend path (sample part.2)) (mark stroke part) := by
  obtain ⟨hstroke, hevent⟩ := mem_parts.mp hpart
  obtain ⟨own, event⟩ := part
  have haction : (sample event).action = event.action := rfl
  intro p hp
  simp only [extend, haction] at hp
  simp only [mark]
  by_cases hdown : event.action = ACTION_DOWN
  · simp only [hdown, if_true, Option.mem_def, Option.some.injEq] at hp ⊢
    subst hp
    refine ⟨own, hstroke, rfl, ?_⟩
    intro q hq
    rw [List.mem_singleton.mp hq]
    apply Stroke.position_mem hevent
    rw [hdown]
    decide
  · simp only [hdown, if_false] at hp ⊢
    by_cases hmove : event.action = ACTION_MOVE
    · have hup : ¬ event.action = ACTION_UP := by
        rw [hmove]
        decide
      simp only [hmove, if_true] at hp
      obtain ⟨old, hold, rfl⟩ := Option.map_eq_some_iff.mp hp
      obtain ⟨other, hother, hopen, hpoints⟩ := h old hold
      have hsame : other = own := hc hmove other hopen
      subst hsame
      refine ⟨other, hother, ?_, ?_⟩
      · simpa only [hup, if_false] using hopen
      · intro q hq
        have hsplit : q ∈ old.points ++ [position event] := hq
        rcases List.mem_append.mp hsplit with hq | hq
        · exact hpoints hq
        · rw [List.mem_singleton.mp hq]
          exact Stroke.position_mem hevent hup
    · simp only [hmove, if_false] at hp
      by_cases hup : event.action = ACTION_UP
      · simp [hup] at hp
      · simp only [hup, if_false] at hp ⊢
        exact h p hp

theorem Inside.answer (h : Inside strokes path stroke) (hpart : part ∈ parts strokes)
    (hc : InStroke stroke part) {answer : PrecisionEvent F32}
    (hanswer : measured A path (sample part.2) = some answer) : WithinStroke A strokes answer := by
  obtain ⟨hstroke, hevent⟩ := mem_parts.mp hpart
  cases path with
  | none => cases hanswer
  | some path =>
    simp only [measured, Option.bind_some] at hanswer
    split at hanswer
    · next hmeasured =>
      cases hanswer
      obtain ⟨other, hother, hopen, hpoints⟩ := h path rfl
      have hmove : part.2.action = ACTION_MOVE := hmeasured.1
      have hsame : other = part.1 := hc hmove other hopen
      have hup : part.2.action ≠ ACTION_UP := by
        rw [hmove]
        decide
      refine ⟨other.1, List.mem_of_getElem? hother, path.anchor A |>.point,
        hpoints path.anchor_mem, position part.2, ?_, rfl⟩
      rw [hsame]
      exact Stroke.position_mem hevent hup
    · cases hanswer

theorem answers_within {pool : Pool F32} (taken : List (Part session))
    (hparts : ∀ part ∈ taken, part ∈ parts strokes)
    (hclean : StepsMeet mark InStroke stroke taken)
    (hfollows : Follows A (pool (slotOf session)) path) (hinside : Inside strokes path stroke) :
    ∀ answer ∈ emitted A pool (taken.map fun part => sample part.2),
      WithinStroke A strokes answer := by
  induction taken generalizing pool path stroke with
  | nil => simp [emitted, replies, List.reduceOption]
  | cons part taken ih =>
    obtain ⟨hpart, hparts⟩ := List.forall_mem_cons.mp hparts
    obtain ⟨hc, hclean⟩ := hclean
    have hevent := (mem_parts.mp hpart).2
    have hsession : (sample part.2).sessionId = session := part.1.1.of_session _ hevent
    intro answer hanswer
    rw [List.map_cons, emitted_cons] at hanswer
    rcases List.mem_append.mp hanswer with hnow | hlater
    · have hstate : Follows A (pool (slotOf (sample part.2).sessionId)) path := by
        rw [hsession]
        exact hfollows
      have hreply := hstate.reply (sample part.2)
      exact hinside.answer hpart hc (hreply.symm.trans (Option.mem_toList.mp hnow))
    · refine ih hparts hclean ?_ (hinside.next hpart hc) answer hlater
      simpa only [process, hsession, Function.update_self] using hfollows.next (sample part.2)

/-- Whatever the ring refuses and however the two sides interleave: as long as every MOVE that it
takes comes in its own stroke, nothing is measured across two strokes. -/
theorem measured_within_strokes (A : Arithmetic F32) (strokes : List (Stroke session))
    (turns : List Turn) (hc : StepsMeet next TakenInStroke (opened strokes) turns) :
    ∀ answer ∈ (run next (opened strokes) turns).answers A, WithinStroke A strokes answer := by
  have htracked : Tracked strokes (run next (opened strokes) turns) :=
    run_preserves_of_steps (P := Tracked strokes) (fun _ _ h ht => tracked_next h ht)
      (tracked_opened strokes) hc
  obtain ⟨c, k, hcounts⟩ := htracked.counts
  have hreturned := hcounts.in_order
  rw [← htracked.events, ← List.map_take] at hreturned
  rw [Pipeline.answers, hreturned, List.map_map]
  have hinside : Inside strokes none none := by simp [Inside]
  have hparts : ∀ part ∈ List.take (run next (opened strokes) turns).ring.returned.length
      (run next (opened strokes) turns).accepted, part ∈ parts strokes :=
    fun part hpart => htracked.accepted part (List.mem_of_mem_take hpart)
  exact answers_within _ hparts (htracked.clean.take _) follows_new hinside

/-- A call of `push` that nobody interrupts. Turns that are left over do nothing. -/
def pushCall : List Turn := .send :: List.replicate 6 .producer

def popCall : List Turn := .callPop :: List.replicate 6 .consumer

structure Between (s : Pipeline session) (taken : List StrokeEvent) (n : ℕ)
    (rest : List (Part session)) : Prop where
  counts : ∃ c k, Counts s.ring c k
  pushing : s.ring.pushing = .idle
  popping : s.ring.popping = .idle
  taken : s.ring.events = taken
  popped : s.ring.returned.length = n
  unsent : s.unsent = rest

variable {taken : List StrokeEvent} {n : ℕ} {rest : List (Part session)}

theorem ring_pushCall {event : StrokeEvent} {own : Occurrence session}
    (hidle : s.ring.pushing = .idle) (hunsent : s.unsent = (own, event) :: rest) :
    (run next s pushCall).unsent = rest ∧ (run next s pushCall).ring =
      run RingInterleaving.next s.ring (.callPush event :: List.replicate 6 .producer) := by
  simp only [pushCall, List.replicate, run_cons, run_nil, next, hidle, hunsent]
  exact ⟨trivial, trivial⟩

theorem Between.push {part : Part session} (h : Between s taken n (part :: rest)) :
    Between (run next s pushCall)
      (if taken.length < n + RING_CAPACITY then taken ++ [part.2] else taken) n rest := by
  obtain ⟨c, k, hcounts⟩ := h.counts
  obtain ⟨hunsent, hring⟩ := ring_pushCall h.pushing h.unsent
  obtain ⟨hpushing, hpopping, hreturned, hevents⟩ := hcounts.push_outcome h.pushing part.2
  have hlength : s.ring.published.length = taken.length := by
    rw [← h.taken, RingInterleaving.events_length]
  constructor
  · rw [hring]
    exact hcounts.run _
  · rw [hring, hpushing]
  · rw [hring, hpopping, h.popping]
  · rw [hring, hevents, hlength, h.popped, h.taken]
  · rw [hring, hreturned, h.popped]
  · exact hunsent

theorem Between.pop (h : Between s taken n rest) (hn : n < taken.length) :
    Between (run next s popCall) taken (n + 1) rest := by
  obtain ⟨c, k, hcounts⟩ := h.counts
  have hring : (run next s popCall).ring =
      run RingInterleaving.next s.ring (.callPop :: List.replicate 6 .consumer) := rfl
  have hlength : s.ring.published.length = taken.length := by
    rw [← h.taken, RingInterleaving.events_length]
  obtain ⟨hpopping, hpushing, hpublished, hreturned⟩ :=
    hcounts.pop_outcome h.popping (by rw [h.popped, hlength]; exact hn)
  constructor
  · rw [hring]
    exact hcounts.run _
  · rw [hring, hpushing, h.pushing]
  · rw [hring, hpopping]
  · rw [hring, RingInterleaving.State.events, hpublished]
    exact h.taken
  · rw [hring, hreturned, h.popped]
  · exact h.unsent

theorem Between.pushes (sent : List (Part session)) (h : Between s taken n (sent ++ rest))
    (hroom : taken.length + sent.length ≤ n + RING_CAPACITY) :
    Between (run next s (List.replicate sent.length pushCall).flatten)
      (taken ++ sent.map Prod.snd) n rest := by
  induction sent generalizing s taken with
  | nil => simpa using h
  | cons part sent ih =>
    rw [List.length_cons] at hroom
    have hone := h.push
    have hfits : taken.length < n + RING_CAPACITY := by omega
    simp only [hfits, if_true] at hone
    have hrest := ih hone (by simp; omega)
    simpa [List.replicate_succ, run_append] using hrest

theorem Between.popAll (h : Between s taken n rest) {m : ℕ} (hm : n + m = taken.length) :
    Between (run next s (List.replicate m popCall).flatten) taken taken.length rest := by
  induction m generalizing s n with
  | zero =>
    have hn : n = taken.length := by omega
    subst hn
    exact h
  | succ m ih =>
    have hrest := ih (h.pop (by omega)) (by omega)
    simpa [List.replicate_succ, run_append] using hrest

def strokeEvent (p : F32 × F32) (action : UInt8) : StrokeEvent :=
  { StrokeEvent.zeroed with sessionId := 1, x := p.1, y := p.2, action := action }

def dwellEvents (p : F32 × F32) (n : ℕ) : List StrokeEvent :=
  strokeEvent p ACTION_DOWN :: List.replicate n (strokeEvent p ACTION_MOVE)

def dwell (p : F32 × F32) (n : ℕ) : Stroke 1 where
  down := strokeEvent p ACTION_DOWN
  moves := List.replicate n (strokeEvent p ACTION_MOVE)
  up := strokeEvent p ACTION_UP
  down_action := rfl
  moves_action := by
    intro event hevent
    rw [List.eq_of_mem_replicate hevent]
    rfl
  up_action := rfl
  of_session := by
    intro event hevent
    simp only [List.mem_append, List.mem_cons, List.mem_replicate, List.not_mem_nil,
      or_false] at hevent
    rcases hevent with (rfl | ⟨_, rfl⟩) | rfl
    · rfl
    · rfl
    · rfl

theorem dwell_points {p q : F32 × F32} {n : ℕ} (h : q ∈ (dwell p n).points) : q = p := by
  obtain ⟨event, hevent, rfl⟩ := List.mem_map.mp h
  rcases List.mem_cons.mp hevent with rfl | hevent
  · rfl
  · rw [List.eq_of_mem_replicate hevent]
    rfl

theorem extend_dwell {p : F32 × F32} {path : Path F32} (h : ∀ q ∈ path.points, q = p) (n : ℕ) :
    ∃ longer, run extend (some path) (List.replicate n (sample (strokeEvent p ACTION_MOVE))) =
      some longer ∧ ∀ q ∈ longer.points, q = p := by
  induction n generalizing path with
  | zero => exact ⟨path, rfl, h⟩
  | succ n ih =>
    have hmore : ∀ q ∈ ({ path with moves := path.moves ++ [p] } : Path F32).points, q = p := by
      intro q hq
      have hsplit : q ∈ path.points ++ [p] := hq
      rcases List.mem_append.mp hsplit with hq | hq
      · exact h q hq
      · exact List.mem_singleton.mp hq
    exact ih hmore

theorem speed_from_dwell {A : Arithmetic F32} (p q : F32 × F32) (n : ℕ)
    (hfar : A.gt (distance A q p) (A.literal 0) = true) :
    ∃ answer ∈ emitted A (.new A) ((dwellEvents p n ++ [strokeEvent q ACTION_MOVE]).map sample),
      answer.speed = distance A q p := by
  have hstart : Follows A (Pool.new A (slotOf 1)) none := follows_new
  have hsession : ∀ event ∈ (dwellEvents p n).map sample, event.sessionId = 1 := by
    simp [dwellEvents, sample, strokeEvent]
  have hrun := hstart.run hsession
  have hdown : ∀ r ∈ (⟨p, []⟩ : Path F32).points, r = p := fun r hr => List.mem_singleton.mp hr
  obtain ⟨path, hpath, hpoints⟩ := extend_dwell hdown n
  have hopen : run extend none ((dwellEvents p n).map sample) = some path := by
    rw [dwellEvents, List.map_cons, List.map_replicate, run_cons]
    exact hpath
  rw [hopen] at hrun
  have hreply := hrun.reply (sample (strokeEvent q ACTION_MOVE))
  have hanchor : (path.anchor A).point = p := hpoints _ path.anchor_mem
  have hq : ((sample (strokeEvent q ACTION_MOVE)).x, (sample (strokeEvent q ACTION_MOVE)).y) = q :=
    rfl
  have hmove : (sample (strokeEvent q ACTION_MOVE)).action = ACTION_MOVE := rfl
  simp only [measured, Option.bind_some, hanchor, hq, hmove, hfar, and_self, if_true] at hreply
  rw [List.map_append, List.map_singleton, emitted_snoc]
  refine ⟨_, List.mem_append_right _ (Option.mem_toList.mpr hreply), rfl⟩

def far : F32 × F32 := (0x40400000, 0x40800000)

def twoStrokes (n : ℕ) : List (Stroke 1) := [dwell (0, 0) n, dwell far 1]

/-- CELER comes to no turn while the first stroke goes on. The ring takes its DOWN and `n` MOVEs and
refuses its UP and the DOWN of the second stroke. One pop makes room for the MOVE. -/
def saturating (n : ℕ) : List Turn :=
  (List.replicate (n + 1) pushCall).flatten ++ pushCall ++ pushCall ++ popCall ++ pushCall ++
    (List.replicate (n + 1) popCall).flatten

theorem saturating_returned {n : ℕ} (hn : n + 1 = RING_CAPACITY) :
    (run next (opened (twoStrokes n)) (saturating n)).ring.returned =
      dwellEvents (0, 0) n ++ [strokeEvent far ACTION_MOVE] := by
  obtain ⟨sent, hsent⟩ : ∃ sent : List (Part 1),
      sent = (dwellEvents (0, 0) n).map fun event => ((dwell (0, 0) n, 0), event) := ⟨_, rfl⟩
  have hfirst : (dwellEvents (0, 0) n).length = n + 1 := by simp [dwellEvents]
  have hlength : sent.length = n + 1 := by rw [hsent, List.length_map, hfirst]
  have hevents : sent.map Prod.snd = dwellEvents (0, 0) n := by simp [hsent]
  have hparts : parts (twoStrokes n) = sent ++
      [((dwell (0, 0) n, 0), strokeEvent (0, 0) ACTION_UP),
        ((dwell far 1, 1), strokeEvent far ACTION_DOWN),
        ((dwell far 1, 1), strokeEvent far ACTION_MOVE),
        ((dwell far 1, 1), strokeEvent far ACTION_UP)] := by
    simp [parts, twoStrokes, Stroke.events, dwell, hsent, dwellEvents]
  have hstart : Between (opened (twoStrokes n)) [] 0 (parts (twoStrokes n)) :=
    ⟨⟨0, 0, RingInterleaving.counts_initial⟩, rfl, rfl, rfl, rfl, rfl⟩
  rw [hparts] at hstart
  have hfilled := hstart.pushes sent (by simp [hlength, hn])
  rw [hlength, hevents, List.nil_append] at hfilled
  have hfull : ¬ (dwellEvents (0, 0) n).length < 0 + RING_CAPACITY := by omega
  have hup := hfilled.push
  simp only [hfull, if_false] at hup
  have hdown := hup.push
  simp only [hfull, if_false] at hdown
  have hroom := hdown.pop (by omega)
  have hmove := hroom.push
  have hone : (dwellEvents (0, 0) n).length < 0 + 1 + RING_CAPACITY := by omega
  simp only [hone, if_true] at hmove
  have hcount : 0 + 1 + (n + 1) =
      (dwellEvents (0, 0) n ++ [strokeEvent far ACTION_MOVE]).length := by
    rw [List.length_append, hfirst, List.length_singleton]
    omega
  have hend := hmove.popAll hcount
  simp only [← run_append] at hend
  obtain ⟨c, k, hcounts⟩ := hend.counts
  have horder := hcounts.in_order
  rw [hend.popped, hend.taken, List.take_length] at horder
  exact horder

/-- The UP of the first stroke and the DOWN of the second are lost, and the speed of the MOVE that
comes next is the distance between the strokes. -/
theorem lost_boundary_measures_across :
    ¬ ∀ (strokes : List (Stroke 1)) (turns : List Turn),
      ∀ answer ∈ (run next (opened strokes) turns).answers tabulated,
        WithinStroke tabulated strokes answer := by
  intro h
  obtain ⟨n, hn⟩ : ∃ n, n + 1 = RING_CAPACITY := ⟨131071, rfl⟩
  have hgt : tabulated.gt (distance tabulated far (0, 0)) (tabulated.literal 0) = true := by
    decide +kernel
  obtain ⟨answer, hanswer, hspeed⟩ := speed_from_dwell (0, 0) far n hgt
  rw [← saturating_returned hn] at hanswer
  obtain ⟨stroke, hstroke, p, hp, q, hq, hwithin⟩ := h _ _ answer hanswer
  have hsame : distance tabulated q p = 0 := by
    simp only [twoStrokes, List.mem_cons, List.not_mem_nil, or_false] at hstroke
    rcases hstroke with rfl | rfl
    · rw [dwell_points hp, dwell_points hq]
      decide
    · rw [dwell_points hp, dwell_points hq]
      decide
  rw [hspeed, hsame] at hwithin
  revert hwithin
  decide

def drained : List Turn :=
  (List.replicate 6 pushCall).flatten ++ (List.replicate 6 popCall).flatten

theorem measured_within_strokes_drained :
    StepsMeet next TakenInStroke (opened (twoStrokes 1)) drained ∧
      ∀ answer ∈ (run next (opened (twoStrokes 1)) drained).answers tabulated,
        WithinStroke tabulated (twoStrokes 1) answer := by
  have hc : StepsMeet next TakenInStroke (opened (twoStrokes 1)) drained := by decide
  exact ⟨hc, measured_within_strokes tabulated (twoStrokes 1) drained hc⟩

end CelerStrokes

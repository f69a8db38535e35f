import Mathlib.Tactic.NormNum
import Vanguard.CelerFsm
import Vanguard.ExponentialSmoothing

/-! What the strokes of one session mean, said from the events before a MOVE instead of the state
that the loop keeps. Arithmetic is exact here. -/
namespace CelerMeaning

open StateMachines SharedIpc CelerFsm ExponentialSmoothing

section History

variable {F : Type*}

def isMark (event : Sample F) : Bool :=
  event.action = ACTION_DOWN ∨ event.action = ACTION_UP

/-- The latest DOWN or UP. -/
def lastMark (before : List (Sample F)) : Option (Sample F) := before.reverse.find? isMark

def sinceMark (before : List (Sample F)) : List (Sample F) :=
  (before.reverse.takeWhile fun event => !isMark event).reverse

def position (event : Sample F) : F × F := (event.x, event.y)

/-- The DOWN that no UP has followed, with the MOVEs since then. -/
def openStroke (before : List (Sample F)) : Option (Path F) :=
  (lastMark before).bind fun mark =>
    if mark.action = ACTION_DOWN then
      some ⟨position mark,
        ((sinceMark before).filter fun event => event.action = ACTION_MOVE).map position⟩
    else none

def latest (path : Path F) : F × F := path.moves.getLastD path.down

variable {before : List (Sample F)} {event : Sample F}

theorem lastMark_snoc : lastMark (before ++ [event]) =
    if isMark event then some event else lastMark before := by
  rw [lastMark, List.reverse_append, List.reverse_singleton, List.singleton_append,
    List.find?_cons]
  cases isMark event with
  | true => rfl
  | false => rfl

theorem sinceMark_snoc : sinceMark (before ++ [event]) =
    if isMark event then [] else sinceMark before ++ [event] := by
  rw [sinceMark, List.reverse_append, List.reverse_singleton, List.singleton_append,
    List.takeWhile_cons]
  cases isMark event with
  | true => rfl
  | false => simp [sinceMark]

theorem openStroke_snoc : openStroke (before ++ [event]) = extend (openStroke before) event := by
  by_cases hdown : event.action = ACTION_DOWN
  · have hmark : isMark event = true := by simp [isMark, hdown]
    simp [openStroke, lastMark_snoc, sinceMark_snoc, hmark, extend, hdown, position]
  · by_cases hup : event.action = ACTION_UP
    · have hmark : isMark event = true := by simp [isMark, hup]
      simp [openStroke, lastMark_snoc, hmark, extend, hup, ACTION_UP, ACTION_DOWN, ACTION_MOVE]
    · have hmark : isMark event = false := by simp [isMark, hdown, hup]
      rw [openStroke, openStroke, lastMark_snoc, sinceMark_snoc, hmark]
      cases lastMark before with
      | none => simp [extend, hdown, hup]
      | some mark =>
        by_cases hopen : mark.action = ACTION_DOWN
        · by_cases hmove : event.action = ACTION_MOVE
          · simp [extend, hmove, hopen, position, ACTION_MOVE, ACTION_DOWN]
          · simp [extend, hdown, hup, hmove, hopen]
        · simp [extend, hdown, hup, hopen]

theorem openStroke_eq_run (events : List (Sample F)) :
    openStroke events = run extend none events := by
  induction events using List.reverseRecOn with
  | nil => rfl
  | append_singleton events event ih =>
    rw [openStroke_snoc, run_append, ih]
    rfl

theorem points_eq (path : Path F) : ∃ before, path.points = before ++ [latest path] := by
  obtain ⟨down, moves⟩ := path
  cases moves using List.reverseRecOn with
  | nil => exact ⟨[], rfl⟩
  | append_singleton moves p => exact ⟨down :: moves, by simp [Path.points, latest]⟩

end History

/-- A length that is zero for equal points and for no others. -/
structure Hypot (K : Type*) [Field K] [LinearOrder K] where
  hypot : K → K → K
  nonneg : ∀ dx dy, 0 ≤ hypot dx dy
  eq_zero_iff : ∀ dx dy, hypot dx dy = 0 ↔ dx = 0 ∧ dy = 0

variable {K : Type*} [Field K] [LinearOrder K]

def Hypot.arithmetic (H : Hypot K) : Arithmetic K where
  literal q := q
  add a b := a + b
  sub a b := a - b
  mul a b := a * b
  hypot := H.hypot
  gt a b := decide (b < a)

/-- The distances between neighbours that differ. -/
def legs (H : Hypot K) : List (K × K) → List K
  | p :: q :: rest =>
    (if q = p then [] else [distance H.arithmetic q p]) ++ legs H (q :: rest)
  | _ => []

def speedClass (dist : K) : K := if 5 < dist then 95 else 45

def precisionAfter (dists : List K) : K :=
  100 * 0.85 ^ dists.length + 0.15 * ∑ i ∈ Finset.range dists.length,
    0.85 ^ (dists.length - (i + 1)) * speedClass (dists.getD i 0)

/-- What is sent for an event that has the given ones before it. -/
def described (H : Hypot K) (before : List (Sample K)) (event : Sample K) :
    Option (PrecisionEvent K) :=
  (openStroke before).bind fun path =>
    if event.action = ACTION_MOVE ∧ position event ≠ latest path then
      some
        { sessionId := event.sessionId
          precision := precisionAfter (legs H (path.points ++ [position event]))
          speed := distance H.arithmetic (position event) (latest path) }
    else none

variable {H : Hypot K}

theorem gt_distance_iff (p q : K × K) :
    H.arithmetic.gt (distance H.arithmetic p q) (H.arithmetic.literal 0) = true ↔ p ≠ q := by
  have hzero : H.hypot (p.1 - q.1) (p.2 - q.2) = 0 ↔ p = q := by
    rw [H.eq_zero_iff, sub_eq_zero, sub_eq_zero, Prod.ext_iff]
  have hpos : 0 < H.hypot (p.1 - q.1) (p.2 - q.2) ↔ p ≠ q := by
    rw [(H.nonneg _ _).lt_iff_ne', ne_eq, hzero]
  simpa [Hypot.arithmetic, distance] using hpos

theorem legs_snoc (points : List (K × K)) (p q : K × K) :
    legs H (points ++ [p, q]) = legs H (points ++ [p]) ++
      if q = p then [] else [distance H.arithmetic q p] := by
  induction points with
  | nil => simp [legs]
  | cons r points ih =>
    cases points with
    | nil => simp [legs]
    | cons s points => simpa [legs] using ih

theorem legs_points (path : Path K) (p : K × K) :
    legs H (path.points ++ [p]) = legs H path.points ++
      if p = latest path then [] else [distance H.arithmetic p (latest path)] := by
  obtain ⟨before, hpoints⟩ := points_eq path
  rw [hpoints, List.append_assoc, List.singleton_append, legs_snoc]

theorem smooth_eq (s p : K) : smooth H.arithmetic s p = blend 0.15 s p := by
  simp [smooth, Hypot.arithmetic, blend]

theorem instantPrecision_eq (dist : K) : instantPrecision H.arithmetic dist = speedClass dist := by
  simp [instantPrecision, Hypot.arithmetic, speedClass]

theorem anchor_eq (path : Path K) : path.anchor H.arithmetic =
    ⟨latest path, smoothed 0.15 100 ((legs H path.points).map speedClass)⟩ := by
  obtain ⟨down, moves⟩ := path
  induction moves using List.reverseRecOn with
  | nil => simp [Path.anchor, latest, Path.points, legs, Hypot.arithmetic]
  | append_singleton moves p ih =>
    have hpoints : Path.points ⟨down, moves ++ [p]⟩ = Path.points ⟨down, moves⟩ ++ [p] := rfl
    have hlatest : latest ⟨down, moves ++ [p]⟩ = p := by simp [latest]
    rw [Path.anchor_snoc ⟨down, moves⟩ p, ih, hpoints, legs_points, hlatest, Anchor.advance]
    by_cases hp : p = latest ⟨down, moves⟩
    · rw [if_neg ((gt_distance_iff (H := H) p _).not.mpr (not_not.mpr hp)), if_pos hp,
        List.append_nil, hp]
    · rw [if_pos ((gt_distance_iff (H := H) p _).mpr hp), if_neg hp, List.map_append,
        List.map_singleton, smoothed_snoc, smooth_eq, instantPrecision_eq]

theorem handle_again (state : SessionState K) {event again : Sample K}
    (hmove : event.action = ACTION_MOVE) (hagain : again.action = ACTION_MOVE)
    (hposition : position again = position event) :
    (state.handle H.arithmetic event).1.handle H.arithmetic again =
      ((state.handle H.arithmetic event).1, none) := by
  rw [handle_move hmove, handle_move hagain]
  by_cases hactive : state.active = true
  · have hlast : (state.move H.arithmetic event).1.active = true ∧
        ((state.move H.arithmetic event).1.lastX, (state.move H.arithmetic event).1.lastY) =
          position event := by
      rw [SessionState.move, if_pos hactive]
      dsimp only
      split
      · exact ⟨hactive, rfl⟩
      · next hstill =>
        rw [gt_distance_iff, not_not] at hstill
        exact ⟨hactive, hstill.symm⟩
    have hstill := (gt_distance_iff (H := H) (position again) (position event)).not.mpr
      (not_not.mpr hposition)
    rw [SessionState.move, if_pos hlast.1]
    dsimp only
    rw [hlast.2]
    exact if_neg hstill
  · have hidle : state.move H.arithmetic event = (state, none) := if_neg hactive
    rw [hidle]
    exact if_neg hactive

abbrev after (H : Hypot K) (before : List (Sample K)) : Pool K :=
  run (fun pool event => (process H.arithmetic pool event).1) (.new H.arithmetic) before

theorem follows_after {session : UInt32} {before : List (Sample K)}
    (hsession : ∀ event ∈ before, event.sessionId = session) :
    Follows H.arithmetic (after H before (slotOf session)) (openStroke before) := by
  rw [openStroke_eq_run]
  exact Follows.run follows_new hsession

section Consequences

variable {session : UInt32} {before rest : List (Sample K)} {event again : Sample K}

theorem emitted_again (hmove : event.action = ACTION_MOVE) (hagain : again.action = ACTION_MOVE)
    (hid : again.sessionId = event.sessionId) (hposition : position again = position event) :
    emitted H.arithmetic (.new H.arithmetic) (before ++ event :: again :: rest) =
      emitted H.arithmetic (.new H.arithmetic) (before ++ event :: rest) := by
  have hidle : emitted H.arithmetic (process H.arithmetic (after H before) event).1
      (again :: rest) = emitted H.arithmetic (process H.arithmetic (after H before) event).1
        rest := by
    apply emitted_idle
    simp only [process, hid, Function.update_self]
    exact handle_again _ hmove hagain hposition
  rw [emitted_append, emitted_cons, hidle, ← emitted_cons, ← emitted_append]

theorem emitted_outside (hsession : ∀ event ∈ before, event.sessionId = session)
    (hid : event.sessionId = session) (hopen : openStroke before = none)
    (haction : event.action = ACTION_MOVE ∨ event.action = ACTION_UP) :
    emitted H.arithmetic (.new H.arithmetic) (before ++ event :: rest) =
      emitted H.arithmetic (.new H.arithmetic) (before ++ rest) := by
  have hfollows := follows_after (H := H) hsession
  rw [hopen, ← hid] at hfollows
  rw [emitted_append, emitted_idle (handle_outside hfollows haction), ← emitted_append]

end Consequences

section Ordered

variable [IsStrictOrderedRing K]

theorem precisionAfter_eq (dists : List K) :
    precisionAfter dists = smoothed 0.15 100 (dists.map speedClass) := by
  have hweight : (1 : K) - 0.15 = 0.85 := by norm_num
  rw [smoothed_eq_weighted, weighted, hweight, List.length_map, precisionAfter]
  congr 2
  apply Finset.sum_congr rfl
  intro i hi
  have hlt : i < dists.length := Finset.mem_range.mp hi
  rw [List.getD_eq_getElem _ _ hlt, List.getD_eq_getElem _ _ (by simpa using hlt),
    List.getElem_map]

theorem precisionAfter_between {dists : List K} (hne : dists ≠ []) :
    45 < precisionAfter dists ∧ precisionAfter dists < 100 := by
  have hclass : ∀ p ∈ dists.map speedClass, 45 ≤ p ∧ p < (100 : K) := by
    intro p hp
    obtain ⟨dist, _, rfl⟩ := List.mem_map.mp hp
    rw [speedClass]
    split
    · norm_num
    · norm_num
  have h0 : (0 : K) < 0.15 := by norm_num
  have h1 : (0.15 : K) < 1 := by norm_num
  rw [precisionAfter_eq]
  constructor
  · exact lt_smoothed h0 h1 (fun p hp => (hclass p hp).1) (by norm_num)
  · rcases smoothed_lt h0 h1 (fun p hp => (hclass p hp).2) le_rfl with hnil | hlt
    · exact absurd (List.map_eq_nil_iff.mp hnil) hne
    · exact hlt

theorem measured_eq_described (before : List (Sample K)) (event : Sample K) :
    measured H.arithmetic (openStroke before) event = described H before event := by
  unfold measured described
  cases openStroke before with
  | none => rfl
  | some path =>
    have hpos : (event.x, event.y) = position event := rfl
    simp only [Option.bind_some, anchor_eq, gt_distance_iff, hpos]
    by_cases hmove : event.action = ACTION_MOVE ∧ position event ≠ latest path
    · rw [if_pos hmove, if_pos hmove, precisionAfter_eq, legs_points, if_neg hmove.2,
        List.map_append, List.map_singleton, smoothed_snoc, smooth_eq, instantPrecision_eq]
    · rw [if_neg hmove, if_neg hmove]

theorem emitted_eq_described {session : UInt32} {events : List (Sample K)}
    (hsession : ∀ event ∈ events, event.sessionId = session) :
    emitted H.arithmetic (.new H.arithmetic) events =
      (List.range events.length).filterMap fun i =>
        events[i]?.bind (described H (events.take i)) := by
  induction events using List.reverseRecOn with
  | nil => rfl
  | append_singleton events event ih =>
    obtain ⟨hbefore, hevent⟩ := List.forall_mem_append.mp hsession
    have hid : event.sessionId = session := hevent event List.mem_cons_self
    have hreply : (process H.arithmetic (after H events) event).2 = described H events event := by
      rw [← measured_eq_described, process, hid]
      exact (follows_after hbefore).reply event
    have hearlier : ∀ i ∈ List.range events.length,
        ((events ++ [event])[i]?.bind (described H ((events ++ [event]).take i))) =
          events[i]?.bind (described H (events.take i)) := by
      intro i hi
      have hlt : i < events.length := List.mem_range.mp hi
      rw [List.getElem?_append_left hlt, List.take_append_of_le_length hlt.le]
    rw [emitted_snoc, ih hbefore, hreply, List.length_append, List.length_singleton,
      List.range_succ, List.filterMap_append, List.filterMap_congr hearlier]
    cases h : described H events event with
    | none => simp [h]
    | some answer => simp [h]

theorem described_between {before : List (Sample K)} {event : Sample K}
    {answer : PrecisionEvent K} (h : described H before event = some answer) :
    45 < answer.precision ∧ answer.precision < 100 := by
  obtain ⟨path, _, hanswer⟩ := Option.bind_eq_some_iff.mp h
  split at hanswer
  · next hmove =>
    cases hanswer
    apply precisionAfter_between
    rw [legs_points, if_neg hmove.2]
    simp
  · cases hanswer

/-- The loop sends one event for each MOVE that goes on with a stroke and leaves its latest
position: the speed is the distance from there, and the precision follows from all legs of the
stroke. -/
theorem strokes_mean (H : Hypot K) {session : UInt32} {events : List (Sample K)}
    (hsession : ∀ event ∈ events, event.sessionId = session) :
    (emitted H.arithmetic (.new H.arithmetic) events =
      (List.range events.length).filterMap fun i =>
        events[i]?.bind (described H (events.take i))) ∧
    (∀ answer ∈ emitted H.arithmetic (.new H.arithmetic) events,
      45 < answer.precision ∧ answer.precision < 100) ∧
    (∀ before event again rest, events = before ++ event :: again :: rest →
      event.action = ACTION_MOVE → again.action = ACTION_MOVE →
      position again = position event →
      emitted H.arithmetic (.new H.arithmetic) events =
        emitted H.arithmetic (.new H.arithmetic) (before ++ event :: rest)) ∧
    (∀ before event rest, events = before ++ event :: rest → openStroke before = none →
      event.action = ACTION_MOVE ∨ event.action = ACTION_UP →
      emitted H.arithmetic (.new H.arithmetic) events =
        emitted H.arithmetic (.new H.arithmetic) (before ++ rest)) ∧
    ∀ before down rest, events = before ++ down :: rest → down.action = ACTION_DOWN →
      emitted H.arithmetic (.new H.arithmetic) events =
        emitted H.arithmetic (.new H.arithmetic) before ++
          emitted H.arithmetic (.new H.arithmetic) (down :: rest) := by
  refine ⟨emitted_eq_described hsession, ?_, ?_, ?_, ?_⟩
  · intro answer hanswer
    rw [emitted_eq_described hsession] at hanswer
    obtain ⟨i, _, hdescribed⟩ := List.mem_filterMap.mp hanswer
    obtain ⟨event, _, hdescribed⟩ := Option.bind_eq_some_iff.mp hdescribed
    exact described_between hdescribed
  · rintro before event again rest rfl hmove hagain hposition
    apply emitted_again hmove hagain _ hposition
    rw [hsession again (by simp), hsession event (by simp)]
  · rintro before event rest rfl hopen haction
    obtain ⟨hbefore, hafter⟩ := List.forall_mem_append.mp hsession
    exact emitted_outside hbefore (hafter event List.mem_cons_self) hopen haction
  · rintro before down rest rfl hdown
    obtain ⟨_, hafter⟩ := List.forall_mem_append.mp hsession
    obtain ⟨hid, hrest⟩ := List.forall_mem_cons.mp hafter
    rw [emitted_append, emitted_down hdown hid hrest]

end Ordered

/-- The sum of the two differences, which is the distance along an axis. -/
def taxicab : Hypot ℚ where
  hypot dx dy := |dx| + |dy|
  nonneg dx dy := add_nonneg (abs_nonneg dx) (abs_nonneg dy)
  eq_zero_iff dx dy := by
    rw [add_eq_zero_iff_of_nonneg (abs_nonneg dx) (abs_nonneg dy), abs_eq_zero, abs_eq_zero]

def drawn : List (Sample ℚ) :=
  [⟨7, 0, 0, 0, ACTION_DOWN⟩, ⟨7, 0, 3, 0, ACTION_MOVE⟩, ⟨7, 0, 3, 0, ACTION_MOVE⟩,
    ⟨7, 0, 9, 0, ACTION_MOVE⟩, ⟨7, 0, 9, 0, ACTION_UP⟩]

theorem line_means :
    (emitted taxicab.arithmetic (.new taxicab.arithmetic) drawn =
      (List.range drawn.length).filterMap fun i =>
        drawn[i]?.bind (described taxicab (drawn.take i))) ∧
    emitted taxicab.arithmetic (.new taxicab.arithmetic) drawn =
      [⟨7, 91.75, 3⟩, ⟨7, 92.2375, 6⟩] := by
  have hsession : ∀ event ∈ drawn, event.sessionId = 7 := by decide
  refine ⟨(strokes_mean taxicab hsession).1, ?_⟩
  decide +kernel

end CelerMeaning

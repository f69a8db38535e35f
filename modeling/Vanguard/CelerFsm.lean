import Mathlib.Data.Rat.Defs
import Mathlib.Data.List.ReduceOption
import Vanguard.StateMachines
import Vanguard.SharedIpc

/-! The stroke machine of CELER's loop. The pool has `SESSION_POOL_SIZE` states and the session id
of an event names one of them modulo that size. -/
namespace CelerFsm

open WrappingCounters StateMachines SharedIpc

/-- The operations on coordinates. Those of the hardware are on `F32`. -/
structure Arithmetic (F : Type*) where
  literal : ℚ → F
  add : F → F → F
  sub : F → F → F
  mul : F → F → F
  hypot : F → F → F
  gt : F → F → Bool

/-- The hardware's answers on a few operands, and zero on those it is not used with. Bit patterns
of positive numbers compare as the numbers do. -/
def tabulated : Arithmetic F32 where
  literal q :=
    if q = 5 then 0x40a00000
    else if q = 95 then 0x42be0000
    else if q = 45 then 0x42340000
    else if q = 100 then 0x42c80000
    else if q = 1 then 0x3f800000
    else if q = 0.15 then 0x3e19999a
    else 0
  add a b := if a = 0x40d80001 ∧ b = 0x42aa0000 then 0x42b78000 else 0
  sub a b :=
    if b = 0 then a
    else if a = 0x3f800000 ∧ b = 0x3e19999a then 0x3f59999a
    else 0
  mul a b :=
    if a = 0x42340000 ∧ b = 0x3e19999a then 0x40d80001
    else if a = 0x42c80000 ∧ b = 0x3f59999a then 0x42aa0000
    else 0
  hypot a b := if a = 0x40400000 ∧ b = 0x40800000 then 0x40a00000 else 0
  gt a b := decide (b < a)

/-- What the loop reads of a `StrokeEvent`, over any type of coordinates. -/
structure Sample (F : Type*) where
  sessionId : UInt32
  timestamp : UInt64
  x : F
  y : F
  action : UInt8
  deriving DecidableEq, Repr

structure SessionState (F : Type*) where
  active : Bool
  lastX : F
  lastY : F
  lastTimestamp : UInt64
  smoothedPrecision : F

structure PrecisionEvent (F : Type*) where
  sessionId : UInt32
  precision : F
  speed : F
  deriving DecidableEq, Repr

def sample (event : StrokeEvent) : Sample F32 :=
  ⟨event.sessionId, event.timestamp, event.x, event.y, event.action⟩

def SESSION_POOL_SIZE : ℕ := 65536
def SESSION_MASK : Usize := BitVec.ofNat 64 (SESSION_POOL_SIZE - 1)

/-- `(session_id as usize) & SESSION_MASK`, which the bounds check of the pool accepts. -/
def slotOf (sessionId : UInt32) : Fin SESSION_POOL_SIZE :=
  ⟨(BitVec.ofNat 64 sessionId.toNat &&& SESSION_MASK).toNat, by
    have hmask : SESSION_MASK.toNat = SESSION_POOL_SIZE - 1 := by decide
    rw [BitVec.toNat_and, hmask]
    exact Nat.lt_of_le_of_lt Nat.and_le_right (by decide)⟩

theorem slotOf_val (sessionId : UInt32) :
    (slotOf sessionId).val = sessionId.toNat % SESSION_POOL_SIZE :=
  Shows.and_mask (c := BitVec.ofNat 64 sessionId.toNat) rfl (k := 16) (by decide)

variable {F : Type*} (A : Arithmetic F)

def SessionState.new : SessionState F := ⟨false, A.literal 0, A.literal 0, 0, A.literal 100⟩

abbrev Pool (F : Type*) := Fin SESSION_POOL_SIZE → SessionState F

def Pool.new : Pool F := fun _ => .new A

def distance (p q : F × F) : F := A.hypot (A.sub p.1 q.1) (A.sub p.2 q.2)

def instantPrecision (dist : F) : F :=
  if A.gt dist (A.literal 5) then A.literal 95 else A.literal 45

def smooth (smoothed instant : F) : F :=
  let alpha := A.literal 0.15
  A.add (A.mul instant alpha) (A.mul smoothed (A.sub (A.literal 1) alpha))

def SessionState.down (event : Sample F) : SessionState F :=
  ⟨true, event.x, event.y, event.timestamp, A.literal 100⟩

def SessionState.move (state : SessionState F) (event : Sample F) :
    SessionState F × Option (PrecisionEvent F) :=
  if state.active then
    let dist := distance A (event.x, event.y) (state.lastX, state.lastY)
    if A.gt dist (A.literal 0) then
      let precision := smooth A state.smoothedPrecision (instantPrecision A dist)
      ({ state with smoothedPrecision := precision, lastX := event.x, lastY := event.y },
        some ⟨event.sessionId, precision, dist⟩)
    else (state, none)
  else (state, none)

def SessionState.handle (state : SessionState F) (event : Sample F) :
    SessionState F × Option (PrecisionEvent F) :=
  if event.action = ACTION_DOWN then (.down A event, none)
  else if event.action = ACTION_MOVE then state.move A event
  else if event.action = ACTION_UP then ({ state with active := false }, none)
  else (state, none)

def process (pool : Pool F) (event : Sample F) : Pool F × Option (PrecisionEvent F) :=
  let answer := (pool (slotOf event.sessionId)).handle A event
  (Function.update pool (slotOf event.sessionId) answer.1, answer.2)

def emitted (pool : Pool F) (events : List (Sample F)) : List (PrecisionEvent F) :=
  (replies (process A) pool events).reduceOption

/-- The positions of a stroke: the one of its DOWN and those of its MOVEs so far. -/
structure Path (F : Type*) where
  down : F × F
  moves : List (F × F)
  deriving DecidableEq, Repr

def Path.points (path : Path F) : List (F × F) := path.down :: path.moves

/-- The stroke that the events seen so far leave open, after one more event. -/
def extend (path : Option (Path F)) (event : Sample F) : Option (Path F) :=
  if event.action = ACTION_DOWN then some ⟨(event.x, event.y), []⟩
  else if event.action = ACTION_MOVE then
    path.map fun p => { p with moves := p.moves ++ [(event.x, event.y)] }
  else if event.action = ACTION_UP then none
  else path

/-- Where a stroke is measured from, and its precision. -/
structure Anchor (F : Type*) where
  point : F × F
  precision : F

def Anchor.advance (anchor : Anchor F) (p : F × F) : Anchor F :=
  let dist := distance A p anchor.point
  if A.gt dist (A.literal 0) then
    ⟨p, smooth A anchor.precision (instantPrecision A dist)⟩
  else anchor

def Path.anchor (path : Path F) : Anchor F :=
  path.moves.foldl (Anchor.advance A) ⟨path.down, A.literal 100⟩

/-- What is answered to an event that comes after the open stroke. -/
def measured (path : Option (Path F)) (event : Sample F) : Option (PrecisionEvent F) :=
  path.bind fun path =>
    let anchor := path.anchor A
    let dist := distance A (event.x, event.y) anchor.point
    if event.action = ACTION_MOVE ∧ A.gt dist (A.literal 0) = true then
      some ⟨event.sessionId, smooth A anchor.precision (instantPrecision A dist), dist⟩
    else none

/-- The state is the one that the open stroke leads to. -/
def Follows (state : SessionState F) : Option (Path F) → Prop
  | none => state.active = false
  | some path => state.active = true ∧
      path.anchor A = ⟨(state.lastX, state.lastY), state.smoothedPrecision⟩

variable {A} {pool : Pool F} {state : SessionState F} {path : Option (Path F)}

theorem follows_new : Follows A (.new A) none := rfl

theorem Path.anchor_snoc (path : Path F) (p : F × F) :
    Path.anchor A { path with moves := path.moves ++ [p] } = (path.anchor A).advance A p :=
  List.foldl_append

theorem Path.anchor_mem (path : Path F) : (path.anchor A).point ∈ path.points := by
  obtain ⟨down, moves⟩ := path
  induction moves using List.reverseRecOn with
  | nil => exact List.mem_cons_self
  | append_singleton moves p ih =>
    rw [anchor_snoc ⟨down, moves⟩ p, Anchor.advance]
    simp only [points] at ih ⊢
    split
    · simp
    · rw [← List.cons_append]
      exact List.mem_append_left _ ih

theorem Follows.move (h : Follows A state path) (event : Sample F) :
    Follows A (state.move A event).1
      (path.map fun p => { p with moves := p.moves ++ [(event.x, event.y)] }) := by
  cases path with
  | none =>
    have hidle : state.active = false := h
    simp [SessionState.move, Follows, hidle]
  | some path =>
    obtain ⟨hactive, hanchor⟩ := h
    simp only [SessionState.move, hactive, if_true, Option.map_some]
    constructor
    · split
      · rfl
      · exact hactive
    · rw [Path.anchor_snoc, hanchor, Anchor.advance]
      split
      · rfl
      · rfl

theorem Follows.next (h : Follows A state path) (event : Sample F) :
    Follows A (state.handle A event).1 (extend path event) := by
  unfold SessionState.handle extend
  split
  · exact ⟨rfl, rfl⟩
  · split
    · exact h.move event
    · split
      · exact rfl
      · exact h

theorem handle_move {event : Sample F} (h : event.action = ACTION_MOVE) :
    state.handle A event = state.move A event := by
  simp [SessionState.handle, h, ACTION_MOVE, ACTION_DOWN]

theorem handle_up {event : Sample F} (h : event.action = ACTION_UP) :
    state.handle A event = ({ state with active := false }, none) := by
  simp [SessionState.handle, h, ACTION_UP, ACTION_MOVE, ACTION_DOWN]

theorem handle_outside {event : Sample F} (hstate : Follows A state none)
    (h : event.action = ACTION_MOVE ∨ event.action = ACTION_UP) :
    state.handle A event = (state, none) := by
  have hidle : state.active = false := hstate
  rcases h with hmove | hup
  · rw [handle_move hmove, SessionState.move, hidle]
    rfl
  · rw [handle_up hup, ← hidle]

theorem Follows.reply (h : Follows A state path) (event : Sample F) :
    (state.handle A event).2 = measured A path event := by
  by_cases hmove : event.action = ACTION_MOVE
  · rw [handle_move hmove]
    cases path with
    | none =>
      have hidle : state.active = false := h
      simp [SessionState.move, measured, hidle]
    | some path =>
      obtain ⟨hactive, hanchor⟩ := h
      simp only [SessionState.move, measured, hactive, if_true, hanchor, hmove, true_and,
        Option.bind_some]
      split
      · rfl
      · rfl
  · have hsilent : measured A path event = none := by
      cases path with
      | none => rfl
      | some path => simp [measured, hmove]
    rw [hsilent]
    simp only [SessionState.handle, hmove, if_false]
    split
    · rfl
    · split
      · rfl
      · rfl

theorem handle_reply {event : Sample F} {answer : PrecisionEvent F}
    (h : (state.handle A event).2 = some answer) :
    event.action = ACTION_MOVE ∧ answer.sessionId = event.sessionId := by
  unfold SessionState.handle at h
  split at h
  · cases h
  · split at h
    · next hmove =>
      unfold SessionState.move at h
      split at h
      · dsimp only at h
        split at h
        · cases h
          exact ⟨hmove, rfl⟩
        · cases h
      · cases h
    · split at h
      · cases h
      · cases h

theorem emitted_cons (event : Sample F) (events : List (Sample F)) :
    emitted A pool (event :: events) =
      (process A pool event).2.toList ++ emitted A (process A pool event).1 events := by
  rw [emitted, replies]
  cases (process A pool event).2 with
  | none => rfl
  | some answer => rfl

theorem emitted_snoc (events : List (Sample F)) (event : Sample F) :
    emitted A pool (events ++ [event]) = emitted A pool events ++
      (process A (run (fun pool e => (process A pool e).1) pool events) event).2.toList := by
  rw [emitted, replies_snoc, List.reduceOption_append]
  cases (process A (run (fun pool e => (process A pool e).1) pool events) event).2 with
  | none => rfl
  | some answer => rfl

theorem emitted_append (before events : List (Sample F)) :
    emitted A pool (before ++ events) = emitted A pool before ++
      emitted A (run (fun pool e => (process A pool e).1) pool before) events := by
  induction before generalizing pool with
  | nil => rfl
  | cons event before ih => rw [List.cons_append, emitted_cons, emitted_cons, ih, List.append_assoc,
      run_cons]

theorem emitted_idle {event : Sample F}
    (h : (pool (slotOf event.sessionId)).handle A event = (pool (slotOf event.sessionId), none))
    (events : List (Sample F)) : emitted A pool (event :: events) = emitted A pool events := by
  rw [emitted_cons, process, h, Function.update_eq_self]
  rfl

theorem Follows.run {session : UInt32} {events : List (Sample F)}
    (h : Follows A (pool (slotOf session)) path)
    (hsession : ∀ event ∈ events, event.sessionId = session) :
    Follows A (StateMachines.run (fun pool e => (process A pool e).1) pool events (slotOf session))
      (StateMachines.run extend path events) := by
  induction events generalizing pool path with
  | nil => exact h
  | cons event events ih =>
    obtain ⟨hevent, hevents⟩ := List.forall_mem_cons.mp hsession
    refine ih ?_ hevents
    simpa only [process, hevent, Function.update_self] using h.next event

theorem Follows.emitted_eq {session : UInt32} {events : List (Sample F)} {pool' : Pool F}
    (h : Follows A (pool (slotOf session)) path) (h' : Follows A (pool' (slotOf session)) path)
    (hsession : ∀ event ∈ events, event.sessionId = session) :
    emitted A pool events = emitted A pool' events := by
  induction events generalizing pool pool' path with
  | nil => rfl
  | cons event events ih =>
    obtain ⟨hevent, hevents⟩ := List.forall_mem_cons.mp hsession
    have hreply : (process A pool event).2 = (process A pool' event).2 := by
      simp only [process, hevent, h.reply, h'.reply]
    have hnext : Follows A ((process A pool event).1 (slotOf session)) (extend path event) := by
      simpa only [process, hevent, Function.update_self] using h.next event
    have hnext' : Follows A ((process A pool' event).1 (slotOf session)) (extend path event) := by
      simpa only [process, hevent, Function.update_self] using h'.next event
    rw [emitted_cons, emitted_cons, hreply, ih hnext hnext' hevents]

theorem emitted_down {session : UInt32} {down : Sample F} {events : List (Sample F)}
    {pool' : Pool F} (hdown : down.action = ACTION_DOWN) (hid : down.sessionId = session)
    (hsession : ∀ event ∈ events, event.sessionId = session) :
    emitted A pool (down :: events) = emitted A pool' (down :: events) := by
  have hstarts : ∀ p : Pool F, process A p down =
      (Function.update p (slotOf session) (.down A down), none) := by
    intro p
    rw [process, SessionState.handle, if_pos hdown, hid]
  have hfollows : ∀ p : Pool F, Follows A
      (Function.update p (slotOf session) (.down A down) (slotOf session))
      (some ⟨(down.x, down.y), []⟩) := by
    intro p
    rw [Function.update_self]
    exact ⟨rfl, rfl⟩
  rw [emitted_cons, emitted_cons, hstarts, hstarts,
    (hfollows pool).emitted_eq (hfollows pool') hsession]

end CelerFsm

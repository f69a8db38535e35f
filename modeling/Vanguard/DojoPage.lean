import Vanguard.AegisPayload
import Vanguard.CelerFsm

/-! The page of the dojo: the pen, the two sockets, and what is shown. Every click on connect makes
two new sockets, and the old ones are not closed. No handler hears that a socket closes. -/
namespace DojoPage

open StateMachines SharedIpc AegisPayload
open CelerFsm (Arithmetic)

inductive ReadyState where
  | connecting
  | open
  | closing
  | closed
  deriving DecidableEq, Repr

/-- A socket to AEGIS, with the frames that were sent on it. -/
structure Socket where
  readyState : ReadyState
  frames : List (List UInt8)

structure Point where
  x : F32
  y : F32
  flag : UInt8
  deriving DecidableEq, Repr

inductive Color where
  | cyan
  | yellow
  | red
  deriving DecidableEq, Repr

/-- `wsOut` and `wsIn` name sockets by the order in which they were made. `points` and `cleared` are
ghost observations: all calls of `sendPoint`, and how many of them came before the last reset. -/
structure Page (P : Type) where
  connected : Bool
  drawing : Bool
  strokeCount : ℕ
  wsOut : Option ℕ
  wsIn : Option ℕ
  outs : List Socket
  ins : List ReadyState
  precisionText : Option P
  textColor : Option Color
  strokeStyle : Color
  points : List Point
  cleared : ℕ

def loaded (P : Type) : Page P :=
  ⟨false, false, 0, none, none, [], [], none, none, .cyan, [], 0⟩

/-- What the user does, and what the browser reports. `E` are the mouse events, with where the
canvas is at that moment; a message is the precision in it, if it is one. -/
inductive Event (E P : Type) where
  | mousedown (e : E)
  | mousemove (e : E)
  | mouseup
  | connectClick
  | disconnectClick
  | clearClick
  | outOpened (socket : ℕ)
  | outClosed (socket : ℕ)
  | inOpened (socket : ℕ)
  | inClosed (socket : ℕ)
  | message (socket : ℕ) (precision : Option P)

variable {E P : Type}

def sendPoint (s : Page P) (x y : F32) (flag : UInt8) : Page P :=
  let called := { s with points := s.points ++ [⟨x, y, flag⟩] }
  match s.connected, s.wsOut with
  | true, some i =>
    match s.outs[i]? with
    | some ⟨.open, frames⟩ =>
      { called with
        outs := s.outs.set i ⟨.open, frames ++ [AegisPayload.sendPoint x y flag]⟩ }
    | _ => called
  | _, _ => called

/-- `close` on a socket that is closing or closed does nothing. -/
def ReadyState.close : ReadyState → ReadyState
  | .connecting | .open | .closing => .closing
  | .closed => .closed

def Socket.close (socket : Socket) : Socket := ⟨socket.readyState.close, socket.frames⟩

def modifyAt {α : Type} (l : List α) (i : Option ℕ) (f : α → α) : List α :=
  match i with
  | some i => l.modify i f
  | none => l

def connect (s : Page P) : Page P :=
  { s with
    outs := s.outs ++ [⟨.connecting, []⟩]
    wsOut := some s.outs.length
    ins := s.ins ++ [.connecting]
    wsIn := some s.ins.length }

def disconnect (s : Page P) : Page P :=
  { s with
    connected := false
    ins := modifyAt s.ins s.wsIn ReadyState.close
    wsIn := none
    outs := modifyAt s.outs s.wsOut Socket.close
    wsOut := none }

def colorOf (A : Arithmetic P) (p : P) : Color :=
  if A.gt (A.literal 60) p then .red
  else if A.gt (A.literal 85) p then .yellow
  else .cyan

/-- The handler of a socket from CELER, whichever of the sockets it is. -/
def showPrecision (A : Arithmetic P) (s : Page P) (p : P) : Page P :=
  { s with
    precisionText := some p
    strokeStyle := colorOf A p
    textColor := some (colorOf A p) }

def next (A : Arithmetic P) (getCoords : E → F32 × F32) (s : Page P) : Event E P → Page P
  | .mousedown e =>
    let pos := getCoords e
    sendPoint { s with drawing := true } pos.1 pos.2 ACTION_DOWN
  | .mousemove e =>
    if s.drawing then
      let pos := getCoords e
      sendPoint s pos.1 pos.2 ACTION_MOVE
    else s
  | .mouseup =>
    if s.drawing then
      sendPoint { s with drawing := false, strokeCount := s.strokeCount + 1 } 0 0 ACTION_UP
    else s
  | .connectClick => connect s
  | .disconnectClick => disconnect s
  | .clearClick =>
    { s with
      strokeCount := 0
      precisionText := none
      strokeStyle := .cyan
      cleared := s.points.length }
  | .outOpened i =>
    match s.outs[i]? with
    | some ⟨.connecting, frames⟩ => { s with outs := s.outs.set i ⟨.open, frames⟩ }
    | _ => s
  | .outClosed i => { s with outs := s.outs.modify i fun socket => ⟨.closed, socket.frames⟩ }
  | .inOpened i =>
    match s.ins[i]? with
    | some .connecting => { s with ins := s.ins.set i .open, connected := true }
    | _ => s
  | .inClosed i => { s with ins := s.ins.set i .closed }
  | .message i precision =>
    match s.ins[i]?, precision with
    | some .open, some p => showPrecision A s p
    | _, _ => s

def penDown (points : List Point) : Bool :=
  points.foldl (fun pen p =>
    if p.flag = ACTION_DOWN then true else if p.flag = ACTION_UP then false else pen) false

/-- A stroke begins with a DOWN, and there are MOVEs and UPs only in a stroke. -/
def Strokes (points : List Point) : Prop :=
  ∀ before p after, points = before ++ p :: after →
    p.flag = ACTION_DOWN ∨
      penDown before = true ∧ (p.flag = ACTION_MOVE ∨ p.flag = ACTION_UP)

def isUp (p : Point) : Bool := p.flag = ACTION_UP

def encode (p : Point) : List UInt8 := AegisPayload.sendPoint p.x p.y p.flag

structure Sketched (s : Page P) : Prop where
  pen : s.drawing = penDown s.points
  strokes : Strokes s.points
  cleared : s.cleared ≤ s.points.length
  count : s.strokeCount = (s.points.drop s.cleared).countP isUp

/-- The page sends on this socket. -/
def Live (s : Page P) (i : ℕ) (socket : Socket) : Prop :=
  s.connected = true ∧ s.wsOut = some i ∧ socket.readyState = .open

/-- The page will never send on this socket again. -/
def Retired (s : Page P) (i : ℕ) (socket : Socket) : Prop :=
  s.wsOut ≠ some i ∨ socket.readyState = .closing ∨ socket.readyState = .closed

/-- The frames of a socket are those of a piece of all calls, which grows while the page sends on
it. -/
def Carries (s : Page P) (i : ℕ) (socket : Socket) : Prop :=
  ∃ before piece after, s.points = before ++ piece ++ after ∧
    socket.frames = piece.map encode ∧
    (piece = [] ∨ Retired s i socket ∨ Live s i socket ∧ after = [])

def allFrames (outs : List Socket) : List (List UInt8) := (outs.map Socket.frames).flatten

structure Wired (s : Page P) : Prop where
  newest : ∀ i, s.wsOut = some i → i + 1 = s.outs.length
  once : (allFrames s.outs).Sublist (s.points.map encode)
  carries : ∀ (i : ℕ) (socket : Socket), s.outs[i]? = some socket → Carries s i socket

theorem sketched_loaded : Sketched (loaded P) where
  pen := rfl
  strokes := by simp [loaded, Strokes]
  cleared := le_rfl
  count := rfl

theorem wired_loaded : Wired (loaded P) where
  newest := by simp [loaded]
  once := List.Sublist.refl _
  carries := by simp [loaded]

variable {s : Page P} {A : Arithmetic P} {getCoords : E → F32 × F32}

theorem penDown_snoc (points : List Point) (p : Point) : penDown (points ++ [p]) =
    if p.flag = ACTION_DOWN then true else if p.flag = ACTION_UP then false
    else penDown points := by
  rw [penDown, List.foldl_append]
  rfl

theorem strokes_snoc {points : List Point} {p : Point} (h : Strokes points)
    (hp : p.flag = ACTION_DOWN ∨
      penDown points = true ∧ (p.flag = ACTION_MOVE ∨ p.flag = ACTION_UP)) :
    Strokes (points ++ [p]) := by
  intro before q after hsplit
  rcases split_snoc hsplit with ⟨rfl, rfl, _⟩ | ⟨rest, hrest⟩
  · exact hp
  · exact h before q rest hrest

theorem sendPoint_drawing (s : Page P) (x y : F32) (flag : UInt8) :
    (sendPoint s x y flag).points = s.points ++ [⟨x, y, flag⟩] ∧
      (sendPoint s x y flag).drawing = s.drawing ∧
      (sendPoint s x y flag).cleared = s.cleared ∧
      (sendPoint s x y flag).strokeCount = s.strokeCount := by
  unfold sendPoint
  split
  · dsimp only
    split
    · exact ⟨rfl, rfl, rfl, rfl⟩
    · exact ⟨rfl, rfl, rfl, rfl⟩
  · exact ⟨rfl, rfl, rfl, rfl⟩

theorem Sketched.call (h : Sketched s) {s' : Page P} {p : Point}
    (hpoints : s'.points = s.points ++ [p]) (hcleared : s'.cleared = s.cleared)
    (hstroke : p.flag = ACTION_DOWN ∨
      penDown s.points = true ∧ (p.flag = ACTION_MOVE ∨ p.flag = ACTION_UP))
    (hpen : s'.drawing = penDown (s.points ++ [p]))
    (hcount : s'.strokeCount = s.strokeCount + if isUp p then 1 else 0) : Sketched s' where
  pen := by rw [hpoints, hpen]
  strokes := by
    rw [hpoints]
    exact strokes_snoc h.strokes hstroke
  cleared := by
    have := h.cleared
    rw [hpoints, hcleared, List.length_append]
    omega
  count := by
    rw [hpoints, hcleared, List.drop_append_of_le_length h.cleared, List.countP_append, hcount,
      h.count, List.countP_singleton]

theorem Sketched.same (h : Sketched s) {s' : Page P} (hpoints : s'.points = s.points)
    (hcleared : s'.cleared = s.cleared) (hpen : s'.drawing = s.drawing)
    (hcount : s'.strokeCount = s.strokeCount) : Sketched s' := by
  constructor
  · rw [hpoints, hpen]
    exact h.pen
  · rw [hpoints]
    exact h.strokes
  · rw [hpoints, hcleared]
    exact h.cleared
  · rw [hpoints, hcleared, hcount]
    exact h.count

theorem sketched_next (h : Sketched s) (e : Event E P) : Sketched (next A getCoords s e) := by
  cases e with
  | mousedown e =>
    obtain ⟨hpoints, hpen, hcleared, hcount⟩ := sendPoint_drawing { s with drawing := true }
      (getCoords e).1 (getCoords e).2 ACTION_DOWN
    refine h.call hpoints hcleared (Or.inl rfl) ?_ ?_
    · rw [penDown_snoc]
      exact hpen
    · exact hcount
  | mousemove e =>
    simp only [next]
    split
    · next hdrawing =>
      obtain ⟨hpoints, hpen, hcleared, hcount⟩ := sendPoint_drawing s
        (getCoords e).1 (getCoords e).2 ACTION_MOVE
      refine h.call hpoints hcleared (Or.inr ⟨h.pen.symm.trans hdrawing, Or.inl rfl⟩) ?_ hcount
      rw [penDown_snoc]
      exact hpen.trans h.pen
    · exact h
  | mouseup =>
    simp only [next]
    split
    · next hdrawing =>
      obtain ⟨hpoints, hpen, hcleared, hcount⟩ := sendPoint_drawing
        { s with drawing := false, strokeCount := s.strokeCount + 1 } 0 0 ACTION_UP
      refine h.call hpoints hcleared (Or.inr ⟨h.pen.symm.trans hdrawing, Or.inr rfl⟩) ?_ hcount
      rw [penDown_snoc]
      exact hpen
    · exact h
  | clearClick =>
    constructor
    · exact h.pen
    · exact h.strokes
    · exact le_rfl
    · simp [next]
  | connectClick => exact h.same rfl rfl rfl rfl
  | disconnectClick => exact h.same rfl rfl rfl rfl
  | outOpened i =>
    simp only [next]
    split
    · exact h.same rfl rfl rfl rfl
    · exact h
  | outClosed i => exact h.same rfl rfl rfl rfl
  | inOpened i =>
    simp only [next]
    split
    · exact h.same rfl rfl rfl rfl
    · exact h
  | inClosed i => exact h.same rfl rfl rfl rfl
  | message i precision =>
    simp only [next]
    split
    · exact h.same rfl rfl rfl rfl
    · exact h

theorem Carries.keep {i : ℕ} {socket : Socket} (h : Carries s i socket) {s' : Page P}
    {socket' : Socket} (hpoints : s'.points = s.points) (hframes : socket'.frames = socket.frames)
    (hretired : Retired s i socket → Retired s' i socket')
    (hlive : Live s i socket → Retired s' i socket' ∨ Live s' i socket') :
    Carries s' i socket' := by
  obtain ⟨before, piece, after, hsplit, hpiece, hstate⟩ := h
  refine ⟨before, piece, after, hpoints.trans hsplit, hframes.trans hpiece, ?_⟩
  rcases hstate with hnil | hdead | ⟨hnow, hend⟩
  · exact Or.inl hnil
  · exact Or.inr (Or.inl (hretired hdead))
  · rcases hlive hnow with hdead | hstill
    · exact Or.inr (Or.inl hdead)
    · exact Or.inr (Or.inr ⟨hstill, hend⟩)

theorem sendPoint_outs (s : Page P) (p : Point) (i : ℕ) (socket : Socket)
    (h : (sendPoint s p.x p.y p.flag).outs[i]? = some socket) :
    (∃ before, s.outs[i]? = some before ∧ Live s i before ∧
        socket = ⟨before.readyState, before.frames ++ [encode p]⟩) ∨
      s.outs[i]? = some socket ∧ ¬Live s i socket := by
  unfold sendPoint at h
  split at h
  · next j hconnected hout =>
    dsimp only at h
    split at h
    · next frames hopen =>
      rw [List.getElem?_set] at h
      split at h
      · next hij =>
        subst hij
        split at h
        · refine Or.inl ⟨⟨.open, frames⟩, hopen, ⟨hconnected, hout, rfl⟩, ?_⟩
          exact (Option.some.inj h).symm
        · simp at h
      · next hij =>
        refine Or.inr ⟨h, fun hlive => hij ?_⟩
        exact Option.some.inj (hout.symm.trans hlive.2.1)
    · next hnone =>
      refine Or.inr ⟨h, fun hlive => ?_⟩
      have hj : j = i := Option.some.inj (hout.symm.trans hlive.2.1)
      subst hj
      obtain ⟨state, frames⟩ := socket
      obtain rfl : state = .open := hlive.2.2
      exact hnone frames h
  · next hnone =>
    refine Or.inr ⟨h, fun hlive => ?_⟩
    exact hnone i hlive.1 hlive.2.1

theorem sendPoint_wiring (s : Page P) (x y : F32) (flag : UInt8) :
    (sendPoint s x y flag).connected = s.connected ∧
      (sendPoint s x y flag).wsOut = s.wsOut ∧
      (sendPoint s x y flag).outs.length = s.outs.length := by
  unfold sendPoint
  split
  · dsimp only
    split
    · exact ⟨rfl, rfl, List.length_set⟩
    · exact ⟨rfl, rfl, rfl⟩
  · exact ⟨rfl, rfl, rfl⟩

theorem allFrames_set {outs : List Socket} {i : ℕ} {old socket : Socket}
    (h : outs[i]? = some old) (hframes : socket.frames = old.frames) :
    allFrames (outs.set i socket) = allFrames outs := by
  rw [allFrames, List.map_set, hframes, allFrames]
  congr 1
  refine List.ext_getElem? fun j => ?_
  rw [List.getElem?_set]
  split
  · next hij =>
    subst hij
    obtain ⟨hi, rfl⟩ := List.getElem?_eq_some_iff.1 h
    simp [hi]
  · rfl

theorem allFrames_modify (outs : List Socket) (i : ℕ) {f : Socket → Socket}
    (hf : ∀ socket, (f socket).frames = socket.frames) :
    allFrames (outs.modify i f) = allFrames outs := by
  rw [allFrames, allFrames]
  congr 1
  refine List.ext_getElem? fun j => ?_
  rw [List.getElem?_map, List.getElem?_modify, List.getElem?_map, Option.map_eq_map,
    Option.map_map]
  congr 1
  funext socket
  simp only [Function.comp]
  split
  · exact hf socket
  · rfl

theorem allFrames_snoc {outs : List Socket} {i : ℕ} {old socket : Socket} {frame : List UInt8}
    (h : outs[i]? = some old) (hnewest : i + 1 = outs.length)
    (hframes : socket.frames = old.frames ++ [frame]) :
    allFrames (outs.set i socket) = allFrames outs ++ [frame] := by
  rcases List.eq_nil_or_concat outs with rfl | ⟨rest, last, rfl⟩
  · simp at h
  · have hi : i = rest.length := by simpa using hnewest
    subst hi
    obtain rfl : last = old := by simpa using h
    simp [allFrames, hframes]

theorem sendPoint_once (h : Wired s) (p : Point) :
    (allFrames (sendPoint s p.x p.y p.flag).outs).Sublist ((s.points ++ [p]).map encode) := by
  have hskip : (allFrames s.outs).Sublist ((s.points ++ [p]).map encode) := by
    rw [List.map_append]
    exact h.once.trans (List.sublist_append_left _ _)
  unfold sendPoint
  split
  · next i _ hout =>
    dsimp only
    split
    · next frames hopen =>
      rw [allFrames_snoc hopen (h.newest i hout) rfl, List.map_append]
      exact h.once.append (List.Sublist.refl _)
    · exact hskip
  · exact hskip

theorem wired_sendPoint (h : Wired s) (p : Point) : Wired (sendPoint s p.x p.y p.flag) := by
  obtain ⟨hconnected, hout, hlength⟩ := sendPoint_wiring s p.x p.y p.flag
  have hpoints := (sendPoint_drawing s p.x p.y p.flag).1
  refine ⟨fun i hi => ?_, ?_, fun i socket hsocket => ?_⟩
  · rw [hlength]
    exact h.newest i (hout ▸ hi)
  · rw [hpoints]
    exact sendPoint_once h p
  rcases sendPoint_outs s p i socket hsocket with ⟨old, hold, hlive, rfl⟩ | ⟨hold, hidle⟩
  · -- The live socket: what it carries goes on to the end of all calls.
    have hstill : Live (sendPoint s p.x p.y p.flag) i
        ⟨old.readyState, old.frames ++ [encode p]⟩ :=
      ⟨hconnected.trans hlive.1, hout.trans hlive.2.1, hlive.2.2⟩
    obtain ⟨before, piece, after, hsplit, hframes, hstate⟩ := h.carries i old hold
    rcases hstate with rfl | hdead | ⟨_, rfl⟩
    · refine ⟨s.points, [p], [], by simpa using hpoints, ?_, Or.inr (Or.inr ⟨hstill, rfl⟩)⟩
      simp [hframes]
    · obtain hother | hclosing | hclosed := hdead
      · exact absurd hlive.2.1 hother
      · rw [hlive.2.2] at hclosing
        simp at hclosing
      · rw [hlive.2.2] at hclosed
        simp at hclosed
    · refine ⟨before, piece ++ [p], [], ?_, by simp [hframes], Or.inr (Or.inr ⟨hstill, rfl⟩)⟩
      simp [hpoints, hsplit]
  · obtain ⟨before, piece, after, hsplit, hframes, hstate⟩ := h.carries i socket hold
    refine ⟨before, piece, after ++ [p], by simp [hpoints, hsplit], hframes, ?_⟩
    rcases hstate with hnil | hdead | ⟨hnow, _⟩
    · exact Or.inl hnil
    · refine Or.inr (Or.inl ?_)
      rwa [Retired, hout]
    · exact absurd hnow hidle

theorem Wired.same (h : Wired s) {s' : Page P} (hpoints : s'.points = s.points)
    (houts : s'.outs = s.outs) (hout : s'.wsOut = s.wsOut)
    (hconnected : s.connected = true → s'.connected = true) : Wired s' := by
  refine ⟨fun i hi => ?_, ?_, fun i socket hsocket => ?_⟩
  · rw [houts]
    exact h.newest i (hout ▸ hi)
  · rw [houts, hpoints]
    exact h.once
  rw [houts] at hsocket
  refine (h.carries i socket hsocket).keep hpoints rfl (fun hdead => ?_) (fun hlive => Or.inr ?_)
  · rwa [Retired, hout]
  · exact ⟨hconnected hlive.1, hout.trans hlive.2.1, hlive.2.2⟩

theorem wired_connect (h : Wired s) : Wired (connect s) := by
  refine ⟨fun i hi => ?_, ?_, fun i socket hsocket => ?_⟩
  · have : s.outs.length = i := Option.some.inj hi
    simp [connect, this]
  · simpa [connect, allFrames] using h.once
  have hnew : (connect s).outs = s.outs ++ [⟨.connecting, []⟩] := rfl
  rw [hnew, List.getElem?_append] at hsocket
  split at hsocket
  · next hi =>
    have hdead : Retired (connect s) i socket :=
      Or.inl fun hwsOut => hi.ne (Option.some.inj hwsOut).symm
    exact (h.carries i socket hsocket).keep rfl rfl (fun _ => hdead) (fun _ => Or.inl hdead)
  · obtain rfl : socket = ⟨.connecting, []⟩ := by
      have := List.mem_of_getElem? hsocket
      simpa using this
    exact ⟨s.points, [], [], by simp [connect], rfl, Or.inl rfl⟩

theorem modifyAt_of_getElem? {α : Type} {l : List α} {at? : Option ℕ} {f : α → α} {i : ℕ} {a : α}
    (h : (modifyAt l at? f)[i]? = some a) : ∃ b, l[i]? = some b ∧ (a = f b ∨ a = b) := by
  cases at? with
  | none => exact ⟨a, h, Or.inr rfl⟩
  | some j =>
    rw [modifyAt, List.getElem?_modify] at h
    obtain ⟨b, hb, hf⟩ := Option.map_eq_some_iff.1 h
    refine ⟨b, hb, ?_⟩
    split at hf
    · exact Or.inl hf.symm
    · exact Or.inr hf.symm

theorem wired_disconnect (h : Wired s) : Wired (disconnect s) := by
  refine ⟨fun i hi => by simp [disconnect] at hi, ?_, fun i socket hsocket => ?_⟩
  · have hframes : allFrames (disconnect s).outs = allFrames s.outs := by
      unfold disconnect modifyAt
      dsimp only
      split
      · exact allFrames_modify _ _ fun _ => rfl
      · rfl
    rw [hframes]
    exact h.once
  obtain ⟨old, hold, hclose⟩ := modifyAt_of_getElem? hsocket
  have hframes : socket.frames = old.frames := by
    rcases hclose with rfl | rfl
    · rfl
    · rfl
  have hdead : Retired (disconnect s) i socket := Or.inl (by simp [disconnect])
  exact (h.carries i old hold).keep rfl hframes (fun _ => hdead) (fun _ => Or.inl hdead)

theorem wired_outOpened (h : Wired s) {i : ℕ} {frames : List (List UInt8)}
    (hi : s.outs[i]? = some ⟨.connecting, frames⟩) :
    Wired { s with outs := s.outs.set i ⟨.open, frames⟩ } := by
  refine ⟨fun j hj => ?_, ?_, fun j socket hsocket => ?_⟩
  · rw [List.length_set]
    exact h.newest j hj
  · have hframes : allFrames (s.outs.set i ⟨.open, frames⟩) = allFrames s.outs :=
      allFrames_set hi rfl
    rw [hframes]
    exact h.once
  rw [List.getElem?_set] at hsocket
  split at hsocket
  · next hij =>
    subst hij
    split at hsocket
    · obtain rfl := Option.some.inj hsocket
      refine (h.carries i ⟨.connecting, frames⟩ hi).keep rfl rfl (fun hdead => ?_) (fun hlive => ?_)
      · exact hdead.imp_right fun hend => by simp at hend
      · simp [Live] at hlive
    · simp at hsocket
  · exact (h.carries j socket hsocket).keep rfl rfl id Or.inr

theorem wired_outClosed (h : Wired s) (i : ℕ) :
    Wired { s with outs := s.outs.modify i fun socket => ⟨.closed, socket.frames⟩ } := by
  refine ⟨fun j hj => ?_, ?_, fun j socket hsocket => ?_⟩
  · rw [List.length_modify]
    exact h.newest j hj
  · have hframes : allFrames (s.outs.modify i fun socket => ⟨.closed, socket.frames⟩) =
        allFrames s.outs := allFrames_modify _ _ fun _ => rfl
    rw [hframes]
    exact h.once
  rw [List.getElem?_modify] at hsocket
  obtain ⟨old, hold, hf⟩ := Option.map_eq_some_iff.1 hsocket
  split at hf
  · subst hf
    have hdead (s' : Page P) : Retired s' j ⟨.closed, old.frames⟩ := Or.inr (Or.inr rfl)
    exact (h.carries j old hold).keep rfl rfl (fun _ => hdead _) (fun _ => Or.inl (hdead _))
  · subst hf
    exact (h.carries j _ hold).keep rfl rfl id Or.inr

theorem wired_next (h : Wired s) (e : Event E P) : Wired (next A getCoords s e) := by
  cases e with
  | mousedown e =>
    have hdrawing : Wired { s with drawing := true } := h.same rfl rfl rfl id
    exact wired_sendPoint hdrawing ⟨_, _, _⟩
  | mousemove e =>
    simp only [next]
    split
    · exact wired_sendPoint h ⟨_, _, _⟩
    · exact h
  | mouseup =>
    simp only [next]
    split
    · have hdrawing : Wired { s with drawing := false, strokeCount := s.strokeCount + 1 } :=
        h.same rfl rfl rfl id
      exact wired_sendPoint hdrawing ⟨_, _, _⟩
    · exact h
  | connectClick => exact wired_connect h
  | disconnectClick => exact wired_disconnect h
  | clearClick => exact h.same rfl rfl rfl id
  | outOpened i =>
    simp only [next]
    split
    · next hi => exact wired_outOpened h hi
    · exact h
  | outClosed i => exact wired_outClosed h i
  | inOpened i =>
    simp only [next]
    split
    · exact h.same rfl rfl rfl fun _ => rfl
    · exact h
  | inClosed i => exact h.same rfl rfl rfl id
  | message i precision =>
    simp only [next]
    split
    · exact h.same rfl rfl rfl id
    · exact h

def Grown (outs outs' : List Socket) : Prop :=
  ∀ (i : ℕ) (socket : Socket), outs[i]? = some socket →
    ∃ socket', outs'[i]? = some socket' ∧ socket.frames <+: socket'.frames

theorem grown_refl (outs : List Socket) : Grown outs outs :=
  fun _ socket h => ⟨socket, h, List.prefix_rfl⟩

theorem grown_set {outs : List Socket} {i : ℕ} {old socket : Socket} (h : outs[i]? = some old)
    (hframes : old.frames <+: socket.frames) : Grown outs (outs.set i socket) := by
  intro j other hother
  rw [List.getElem?_set]
  split
  · next hij =>
    subst hij
    obtain rfl := Option.some.inj (h.symm.trans hother)
    rw [if_pos (List.getElem?_eq_some_iff.1 h).1]
    exact ⟨socket, rfl, hframes⟩
  · exact ⟨other, hother, List.prefix_rfl⟩

theorem grown_modify (outs : List Socket) (i : ℕ) {f : Socket → Socket}
    (hf : ∀ socket, (f socket).frames = socket.frames) : Grown outs (outs.modify i f) := by
  intro j other hother
  refine ⟨if i = j then f other else other, by simp [List.getElem?_modify, hother], ?_⟩
  split
  · rw [hf]
  · exact List.prefix_rfl

theorem grown_sendPoint (s : Page P) (x y : F32) (flag : UInt8) :
    Grown s.outs (sendPoint s x y flag).outs := by
  unfold sendPoint
  split
  · dsimp only
    split
    · next hopen => exact grown_set hopen (List.prefix_append _ _)
    · exact grown_refl _
  · exact grown_refl _

theorem grown_next (A : Arithmetic P) (getCoords : E → F32 × F32) (s : Page P) (e : Event E P) :
    Grown s.outs (next A getCoords s e).outs := by
  cases e with
  | mousedown e => exact grown_sendPoint { s with drawing := true } _ _ _
  | mousemove e =>
    simp only [next]
    split
    · exact grown_sendPoint s _ _ _
    · exact grown_refl _
  | mouseup =>
    simp only [next]
    split
    · exact grown_sendPoint { s with drawing := false, strokeCount := s.strokeCount + 1 } _ _ _
    · exact grown_refl _
  | connectClick =>
    intro i socket hsocket
    refine ⟨socket, ?_, List.prefix_rfl⟩
    simp only [next, connect]
    rw [List.getElem?_append_left (List.getElem?_eq_some_iff.1 hsocket).1, hsocket]
  | disconnectClick =>
    simp only [next, disconnect, modifyAt]
    split
    · exact grown_modify _ _ fun _ => rfl
    · exact grown_refl _
  | clearClick => exact grown_refl _
  | outOpened i =>
    simp only [next]
    split
    · next hsocket => exact grown_set hsocket List.prefix_rfl
    · exact grown_refl _
  | outClosed i => exact grown_modify _ _ fun _ => rfl
  | inOpened i =>
    simp only [next]
    split <;> exact grown_refl _
  | inClosed i => exact grown_refl _
  | message i precision =>
    simp only [next]
    split <;> exact grown_refl _

def after (A : Arithmetic P) (getCoords : E → F32 × F32) (events : List (Event E P)) : Page P :=
  run (next A getCoords) (loaded P) events

theorem sketched_after (events : List (Event E P)) : Sketched (after A getCoords events) :=
  run_preserves (P := Sketched) (fun _ e h => sketched_next h e) sketched_loaded events

theorem wired_after (events : List (Event E P)) : Wired (after A getCoords events) :=
  run_preserves (P := Wired) (fun _ e h => wired_next h e) wired_loaded events

theorem Strokes.isAction {points : List Point} (h : Strokes points) {p : Point}
    (hp : p ∈ points) : IsAction p.flag := by
  obtain ⟨before, after, hsplit⟩ := List.append_of_mem hp
  rcases h before p after hsplit with hdown | ⟨_, hmove | hup⟩
  · exact Or.inl hdown
  · exact Or.inr (Or.inl hmove)
  · exact Or.inr (Or.inr hup)

theorem parse_encode {p : Point} (h : IsAction p.flag) :
    parseStrokePayload (encode p) = .valid ⟨p.x, p.y, one, p.flag⟩ :=
  parse_sendPoint p.x p.y h

theorem Wired.piece (h : Wired s) (hstrokes : Strokes s.points) {socket : Socket}
    (hsocket : socket ∈ s.outs) : ∃ piece, piece <:+: s.points ∧
      socket.frames.map parseStrokePayload =
        piece.map fun p => .valid ⟨p.x, p.y, one, p.flag⟩ := by
  obtain ⟨i, hi⟩ := List.mem_iff_getElem?.1 hsocket
  obtain ⟨before, piece, rest, hsplit, hframes, _⟩ := h.carries i socket hi
  have hmem : ∀ p ∈ piece, p ∈ s.points := by
    intro p hp
    rw [hsplit]
    simp [hp]
  refine ⟨piece, ⟨before, rest, hsplit.symm⟩, ?_⟩
  rw [hframes, List.map_map]
  refine List.map_congr_left fun p hp => ?_
  rw [Function.comp_apply]
  exact parse_encode (hstrokes.isAction (hmem p hp))

/-- However the user draws, connects, disconnects and clears, and however the sockets open and
close: what the pen does are strokes, the counter counts those that ended since the last reset,
and AEGIS reads on every socket an uninterrupted piece of them, no point on two sockets. -/
theorem page_draws_strokes (A : Arithmetic P) (getCoords : E → F32 × F32)
    (events : List (Event E P)) :
    Strokes (after A getCoords events).points ∧
      (after A getCoords events).strokeCount =
        ((after A getCoords events).points.drop (after A getCoords events).cleared).countP isUp ∧
      (allFrames (after A getCoords events).outs).Sublist
        ((after A getCoords events).points.map encode) ∧
      ∀ socket ∈ (after A getCoords events).outs, ∃ piece,
        piece <:+: (after A getCoords events).points ∧
          socket.frames.map parseStrokePayload =
            piece.map fun p => .valid ⟨p.x, p.y, one, p.flag⟩ := by
  have hsketched : Sketched (after A getCoords events) := sketched_after events
  have hwired : Wired (after A getCoords events) := wired_after events
  exact ⟨hsketched.strokes, hsketched.count, hwired.once, fun _ => hwired.piece hsketched.strokes⟩

end DojoPage

import Vanguard.AegisDojo
import Vanguard.CelerSessions
import Vanguard.CelerViewers
import Vanguard.DojoPage

/-! The dojo from the pen to the browsers that watch: the pages, the sessions of AEGIS to which
their sockets lead, the ring, and CELER. Others may connect to AEGIS as well, and send what they
like. -/
namespace DojoSystem

open StateMachines SharedIpc AegisPayload
open AegisDojo (Dojo Session Message Stamp strokes hear)
open BroadcastChannels (Broadcast Lawful)
open CelerFsm
open CelerSessions (ofSession answersTo)
open CelerViewers (Celer)
open DojoPage (Page Socket Point encode)
open Utf8Text (Text)

/-- The client of a session is a socket of a page (the page, and which of its sockets), or somebody
else. CELER has processed `taken` of the events that it has popped. -/
structure System (P : Type) (B : Broadcast (PrecisionEvent F32)) where
  pages : List (Page P)
  dojo : Dojo
  clients : List (Option (ℕ × ℕ))
  celer : Celer B
  taken : ℕ

inductive Event (E P : Type) where
  | visited
  | page (page : ℕ) (e : DojoPage.Event E P)
  | accepted (client : Option (ℕ × ℕ))
  | delivered (session : ℕ) (stamp : Stamp)
  | received (session : ℕ) (msg : Message) (stamp : Stamp)
  | aegis (e : AegisDojo.Event)
  | callPop
  | took
  | celer (e : CelerViewers.Event)

variable {E P : Type} {B : Broadcast (PrecisionEvent F32)}

def opened (P : Type) (A : Arithmetic F32) (B : Broadcast (PrecisionEvent F32)) : System P B :=
  ⟨[], AegisDojo.opened, [], CelerViewers.opened A B, 0⟩

def binary : Message → Option (List UInt8)
  | .binary binData => some binData
  | .close => none
  | .other => none

def binaries (heard : List (Message × Stamp)) : List (List UInt8) :=
  heard.filterMap fun message => binary message.1

def socketOf (pages : List (Page P)) (client : ℕ × ℕ) : Option Socket :=
  pages[client.1]?.bind fun page => page.outs[client.2]?

def nextFrame (s : System P B) (i : ℕ) : Option (List UInt8) :=
  match s.clients[i]?, s.dojo.sessions[i]? with
  | some (some client), some session =>
    (socketOf s.pages client).bind fun socket =>
      socket.frames[(binaries session.heard).length]?
  | _, _ => none

/-- A page has made the socket, and it leads to no session yet. -/
def CanAccept (s : System P B) : Option (ℕ × ℕ) → Bool
  | some client => (socketOf s.pages client).isSome && !s.clients.contains (some client)
  | none => true

/-- A page sends its frames and nothing else. -/
def CanReceive (s : System P B) (i : ℕ) (msg : Message) : Bool :=
  match s.clients[i]? with
  | some none => true
  | _ => (binary msg).isNone

/-- What AEGIS does not do by itself. -/
def NeedsOther : AegisDojo.Event → Bool
  | .task (.accepted ok) => ok
  | .task (.received _ _ _) => true
  | .callPop => true
  | _ => false

variable (A : Arithmetic P) (C : Arithmetic F32) (getCoords : E → F32 × F32)
  (toString : PrecisionEvent F32 → Option Text)

/-- CELER pops no event before it has processed the last one. -/
def next (s : System P B) : Event E P → System P B
  | .visited => { s with pages := s.pages ++ [DojoPage.loaded P] }
  | .page b e => { s with pages := s.pages.modify b fun page => DojoPage.next A getCoords page e }
  | .accepted client =>
    if s.dojo.ring.ring.pushing = .idle ∧ s.dojo.accepting = true ∧ CanAccept s client = true then
      { s with
        dojo := AegisDojo.next s.dojo (.task (.accepted true))
        clients := s.clients ++ [client] }
    else s
  | .delivered i stamp =>
    match nextFrame s i with
    | some frame =>
      { s with dojo := AegisDojo.next s.dojo (.task (.received i (.binary frame) stamp)) }
    | none => s
  | .received i msg stamp =>
    if CanReceive s i msg then
      { s with dojo := AegisDojo.next s.dojo (.task (.received i msg stamp)) }
    else s
  | .aegis e => if NeedsOther e then s else { s with dojo := AegisDojo.next s.dojo e }
  | .callPop =>
    if s.taken = s.dojo.ring.ring.returned.length then
      { s with dojo := AegisDojo.next s.dojo .callPop }
    else s
  | .took =>
    match s.dojo.ring.ring.returned[s.taken]? with
    | some event =>
      { s with
        celer := CelerViewers.next C toString s.celer (.popped event)
        taken := s.taken + 1 }
    | none => s
  | .celer e =>
    if (CelerViewers.popped e).isSome then s
    else { s with celer := CelerViewers.next C toString s.celer e }

def Event.isMessage : Event E P → Bool
  | .delivered _ _ => true
  | .received _ _ _ => true
  | _ => false

variable {A C getCoords toString}

theorem dojo_next (s : System P B) (e : Event E P) : ∃ events,
    (next A C getCoords toString s e).dojo = run AegisDojo.next s.dojo events ∧
      events.countP AegisDojo.Event.isMessage ≤ if e.isMessage then 1 else 0 := by
  cases e with
  | visited => exact ⟨[], rfl, by simp⟩
  | page b e => exact ⟨[], rfl, by simp⟩
  | accepted client =>
    simp only [next]
    split
    · exact ⟨[.task (.accepted true)], rfl, by simp [AegisDojo.Event.isMessage]⟩
    · exact ⟨[], rfl, by simp⟩
  | delivered i stamp =>
    simp only [next]
    split
    · next frame _ =>
      exact ⟨[.task (.received i (.binary frame) stamp)], rfl, by
        simp [Event.isMessage, AegisDojo.Event.isMessage]⟩
    · exact ⟨[], rfl, by simp⟩
  | received i msg stamp =>
    simp only [next]
    split
    · exact ⟨[.task (.received i msg stamp)], rfl, by
        simp [Event.isMessage, AegisDojo.Event.isMessage]⟩
    · exact ⟨[], rfl, by simp⟩
  | aegis e =>
    simp only [next]
    split
    · exact ⟨[], rfl, by simp⟩
    · next hown =>
      refine ⟨[e], rfl, ?_⟩
      have hmessage : e.isMessage = false := by
        unfold NeedsOther at hown
        unfold AegisDojo.Event.isMessage
        split at hown <;> simp_all
      simp [hmessage]
  | callPop =>
    simp only [next]
    split
    · exact ⟨[.callPop], rfl, by simp [AegisDojo.Event.isMessage]⟩
    · exact ⟨[], rfl, by simp⟩
  | took =>
    refine ⟨[], ?_, by simp⟩
    simp only [next]
    split <;> rfl
  | celer e =>
    refine ⟨[], ?_, by simp⟩
    simp only [next]
    split <;> rfl

theorem binaries_cons (heard : List (Message × Stamp)) (msg : Message) (stamp : Stamp) :
    binaries ((msg, stamp) :: heard) = (binary msg).toList ++ binaries heard := by
  cases h : binary msg with
  | none => simp [binaries, h]
  | some frame => simp [binaries, h]

theorem binaries_snoc (heard : List (Message × Stamp)) (msg : Message) (stamp : Stamp) :
    binaries (heard ++ [(msg, stamp)]) = binaries heard ++ (binary msg).toList := by
  rw [binaries, List.filterMap_append]
  cases h : binary msg with
  | none => simp [binaries, h]
  | some frame => simp [binaries, h]

/-- The sessions of pages hear what their sockets send. -/
structure Linked (s : System P B) : Prop where
  drawn : ∀ page ∈ s.pages, DojoPage.Sketched page ∧ DojoPage.Wired page
  length : s.clients.length = s.dojo.sessions.length
  carried : ∀ (i : ℕ) (client : ℕ × ℕ) (session : Session),
    s.clients[i]? = some (some client) → s.dojo.sessions[i]? = some session →
      ∃ socket, socketOf s.pages client = some socket ∧
        binaries session.heard <+: socket.frames

theorem linked_opened : Linked (opened P C B) where
  drawn := by simp [opened]
  length := rfl
  carried := by simp [opened]

variable {s : System P B}

theorem Linked.pages (h : Linked s) {pages : List (Page P)}
    (hdrawn : ∀ page ∈ pages, DojoPage.Sketched page ∧ DojoPage.Wired page)
    (hgrown : ∀ client socket, socketOf s.pages client = some socket →
      ∃ socket', socketOf pages client = some socket' ∧ socket.frames <+: socket'.frames) :
    Linked { s with pages := pages } where
  drawn := hdrawn
  length := h.length
  carried := by
    intro i client session hclient hsession
    obtain ⟨socket, hsocket, hheard⟩ := h.carried i client session hclient hsession
    obtain ⟨socket', hsocket', hmore⟩ := hgrown client socket hsocket
    exact ⟨socket', hsocket', hheard.trans hmore⟩

theorem socketOf_snoc {pages : List (Page P)} {page : Page P} {client : ℕ × ℕ} {socket : Socket}
    (h : socketOf pages client = some socket) :
    socketOf (pages ++ [page]) client = some socket := by
  obtain ⟨old, hold, hsocket⟩ := Option.bind_eq_some_iff.1 h
  rw [socketOf, List.getElem?_append_left (List.getElem?_eq_some_iff.1 hold).1, hold]
  exact hsocket

theorem socketOf_modify {pages : List (Page P)} {b : ℕ} {f : Page P → Page P}
    (hf : ∀ page, DojoPage.Grown page.outs (f page).outs) {client : ℕ × ℕ} {socket : Socket}
    (h : socketOf pages client = some socket) :
    ∃ socket', socketOf (pages.modify b f) client = some socket' ∧
      socket.frames <+: socket'.frames := by
  obtain ⟨old, hold, hsocket⟩ := Option.bind_eq_some_iff.1 h
  have hmodified : (pages.modify b f)[client.1]? =
      some (if b = client.1 then f old else old) := by
    simp [List.getElem?_modify, hold]
  simp only [socketOf, hmodified, Option.bind_some]
  split
  · exact hf old client.2 socket hsocket
  · exact ⟨socket, hsocket, List.prefix_rfl⟩

theorem mem_modify {α : Type*} {l : List α} {i : ℕ} {f : α → α} {a : α} (h : a ∈ l.modify i f) :
    ∃ b ∈ l, a = b ∨ a = f b := by
  obtain ⟨j, hj⟩ := List.mem_iff_getElem?.1 h
  rw [List.getElem?_modify] at hj
  obtain ⟨b, hb, hf⟩ := Option.map_eq_some_iff.1 hj
  refine ⟨b, List.mem_of_getElem? hb, ?_⟩
  split at hf
  · exact Or.inr hf.symm
  · exact Or.inl hf.symm

theorem Linked.aegis (h : Linked s) {e : AegisDojo.Event}
    (hother : e ≠ .task (.accepted true))
    (hreceived : ∀ i msg stamp, e = .task (.received i msg stamp) →
      CanReceive s i msg = true ∨ ∃ frame, nextFrame s i = some frame ∧ msg = .binary frame) :
    Linked { s with dojo := AegisDojo.next s.dojo e } := by
  obtain ⟨hlength, hfollows⟩ := AegisDojo.sessions_next s.dojo hother
  refine ⟨h.drawn, h.length.trans hlength.symm, ?_⟩
  intro i client session hclient hsession
  obtain ⟨before, hbefore, hheard⟩ := hfollows i session hsession
  obtain ⟨socket, hsocket, hsent⟩ := h.carried i client before hclient hbefore
  refine ⟨socket, hsocket, ?_⟩
  cases hheard with
  | same hsame => rwa [hsame]
  | more msg stamp he hmore =>
    rw [hmore, binaries_snoc]
    rcases hreceived i msg stamp he with hcan | ⟨frame, hframe, rfl⟩
    · have hsilent : binary msg = none := by
        simpa [CanReceive, hclient] using hcan
      simpa [hsilent] using hsent
    · simp only [nextFrame, hclient, hbefore, hsocket, Option.bind_some] at hframe
      obtain ⟨hlt, rfl⟩ := List.getElem?_eq_some_iff.1 hframe
      exact List.concat_get_prefix hsent hlt

theorem Linked.accepted (h : Linked s) (hidle : s.dojo.ring.ring.pushing = .idle)
    (haccepting : s.dojo.accepting = true) {client : Option (ℕ × ℕ)}
    (hcan : CanAccept s client = true) :
    Linked { s with
      dojo := AegisDojo.next s.dojo (.task (.accepted true))
      clients := s.clients ++ [client] } := by
  have hsessions := AegisDojo.sessions_accept hidle haccepting
  refine ⟨h.drawn, ?_, ?_⟩
  · simp [hsessions, h.length]
  · intro i known session hclient hsession
    simp only [hsessions] at hsession
    rcases Nat.lt_or_ge i s.clients.length with hlt | hge
    · rw [List.getElem?_append_left hlt] at hclient
      rw [List.getElem?_append_left (h.length ▸ hlt)] at hsession
      exact h.carried i known session hclient hsession
    · rw [List.getElem?_append_right hge] at hclient
      rw [List.getElem?_append_right (h.length ▸ hge)] at hsession
      obtain rfl : client = some known := by
        have := List.mem_of_getElem? hclient
        simpa [eq_comm] using this
      obtain rfl : session = ⟨s.dojo.SESSION_COUNTER, .handshaking, []⟩ := by
        have := List.mem_of_getElem? hsession
        simpa using this
      simp only [CanAccept, Bool.and_eq_true] at hcan
      obtain ⟨socket, hsocket⟩ := Option.isSome_iff_exists.1 hcan.1
      exact ⟨socket, hsocket, List.nil_prefix⟩

theorem linked_next (h : Linked s) (e : Event E P) :
    Linked (next A C getCoords toString s e) := by
  cases e with
  | visited =>
    refine h.pages ?_ fun client socket hsocket => ⟨socket, socketOf_snoc hsocket, List.prefix_rfl⟩
    intro page hpage
    rcases List.mem_append.1 hpage with hpage | hpage
    · exact h.drawn page hpage
    · rw [List.mem_singleton.1 hpage]
      exact ⟨DojoPage.sketched_loaded, DojoPage.wired_loaded⟩
  | page b e =>
    refine h.pages ?_ fun client socket => socketOf_modify fun page =>
      DojoPage.grown_next A getCoords page e
    intro page hpage
    obtain ⟨old, hold, hnew⟩ := mem_modify hpage
    obtain ⟨hsketched, hwired⟩ := h.drawn old hold
    rcases hnew with rfl | rfl
    · exact ⟨hsketched, hwired⟩
    · exact ⟨DojoPage.sketched_next hsketched e, DojoPage.wired_next hwired e⟩
  | accepted client =>
    simp only [next]
    split
    · next hcan => exact h.accepted hcan.1 hcan.2.1 hcan.2.2
    · exact h
  | delivered i stamp =>
    simp only [next]
    split
    · next frame hframe =>
      refine h.aegis (by simp) fun j msg stamp' he => Or.inr ⟨frame, ?_⟩
      cases he
      exact ⟨hframe, rfl⟩
    · exact h
  | received i msg stamp =>
    simp only [next]
    split
    · next hcan =>
      refine h.aegis (by simp) fun j msg' stamp' he => Or.inl ?_
      cases he
      exact hcan
    · exact h
  | aegis e =>
    simp only [next]
    split
    · exact h
    · next hown =>
      refine h.aegis ?_ fun j msg stamp he => ?_
      · rintro rfl
        exact hown rfl
      · subst he
        exact absurd rfl hown
  | callPop =>
    simp only [next]
    split
    · exact h.aegis (by simp) fun j msg stamp he => by cases he
    · exact h
  | took =>
    simp only [next]
    split
    · exact ⟨h.drawn, h.length, h.carried⟩
    · exact h
  | celer e =>
    simp only [next]
    split
    · exact h
    · exact ⟨h.drawn, h.length, h.carried⟩

/-- CELER has processed what it popped, up to what it has not yet taken. -/
structure Fed (C : Arithmetic F32) (toString : PrecisionEvent F32 → Option Text)
    (s : System P B) : Prop where
  taken : s.taken ≤ s.dojo.ring.ring.returned.length
  ran : ∃ es, s.celer = run (CelerViewers.next C toString) (CelerViewers.opened C B) es ∧
    es.filterMap CelerViewers.popped = s.dojo.ring.ring.returned.take s.taken

theorem fed_opened : Fed C toString (opened P C B) where
  taken := le_rfl
  ran := ⟨[], rfl, rfl⟩

theorem Fed.aegis (h : Fed C toString s) (e : AegisDojo.Event) :
    Fed C toString { s with dojo := AegisDojo.next s.dojo e } := by
  have hmore := AegisDojo.returned_next s.dojo e
  obtain ⟨es, hceler, hpopped⟩ := h.ran
  refine ⟨h.taken.trans hmore.length_le, es, hceler, hpopped.trans ?_⟩
  obtain ⟨rest, hrest⟩ := hmore
  rw [← hrest, List.take_append_of_le_length h.taken]

theorem fed_next (h : Fed C toString s) (e : Event E P) :
    Fed C toString (next A C getCoords toString s e) := by
  cases e with
  | visited => exact ⟨h.taken, h.ran⟩
  | page b e => exact ⟨h.taken, h.ran⟩
  | accepted client =>
    simp only [next]
    split
    · exact ⟨(h.aegis _).taken, (h.aegis _).ran⟩
    · exact h
  | delivered i stamp =>
    simp only [next]
    split
    · exact h.aegis _
    · exact h
  | received i msg stamp =>
    simp only [next]
    split
    · exact h.aegis _
    · exact h
  | aegis e =>
    simp only [next]
    split
    · exact h
    · exact h.aegis e
  | callPop =>
    simp only [next]
    split
    · exact h.aegis _
    · exact h
  | took =>
    simp only [next]
    split
    · next event hevent =>
      obtain ⟨hlt, rfl⟩ := List.getElem?_eq_some_iff.1 hevent
      obtain ⟨es, hceler, hpopped⟩ := h.ran
      refine ⟨hlt, es ++ [.popped s.dojo.ring.ring.returned[s.taken]], ?_, ?_⟩
      · rw [run_append, hceler]
        rfl
      · rw [List.filterMap_append, hpopped, List.take_succ_eq_append_getElem hlt]
        rfl
    · exact h
  | celer e =>
    simp only [next]
    split
    · exact h
    · next hown =>
      obtain ⟨es, hceler, hpopped⟩ := h.ran
      refine ⟨h.taken, es ++ [e], ?_, ?_⟩
      · rw [run_append, hceler]
        rfl
      · rw [List.filterMap_append, hpopped]
        simpa using hown

section Clock

variable {F : Type*} {D : Arithmetic F}

def timeless (event : Sample F) : Sample F := { event with timestamp := 0 }

/-- States that differ in the time of their DOWN at most. -/
def Alike (a b : SessionState F) : Prop := { a with lastTimestamp := b.lastTimestamp } = b

theorem alike_move {a b : SessionState F} (h : Alike a b) (event : Sample F) :
    Alike (a.move D event).1 (b.move D (timeless event)).1 ∧
      (a.move D event).2 = (b.move D (timeless event)).2 := by
  obtain ⟨active, lastX, lastY, _, smoothed⟩ := a
  obtain ⟨_, _, _, _, _⟩ := b
  cases h
  unfold SessionState.move timeless
  cases active with
  | false => exact ⟨rfl, rfl⟩
  | true =>
    dsimp only
    cases D.gt (distance D (event.x, event.y) (lastX, lastY)) (D.literal 0) with
    | false => exact ⟨rfl, rfl⟩
    | true => exact ⟨rfl, rfl⟩

theorem alike_handle {a b : SessionState F} (h : Alike a b) (event : Sample F) :
    Alike (a.handle D event).1 (b.handle D (timeless event)).1 ∧
      (a.handle D event).2 = (b.handle D (timeless event)).2 := by
  have haction : (timeless event).action = event.action := rfl
  simp only [SessionState.handle, haction]
  by_cases hdown : event.action = ACTION_DOWN
  · rw [if_pos hdown, if_pos hdown]
    exact ⟨rfl, rfl⟩
  by_cases hmove : event.action = ACTION_MOVE
  · rw [if_neg hdown, if_neg hdown, if_pos hmove, if_pos hmove]
    exact alike_move h event
  by_cases hup : event.action = ACTION_UP
  · rw [if_neg hdown, if_neg hdown, if_neg hmove, if_neg hmove, if_pos hup, if_pos hup]
    rw [← h]
    exact ⟨rfl, rfl⟩
  · rw [if_neg hdown, if_neg hdown, if_neg hmove, if_neg hmove, if_neg hup, if_neg hup]
    exact ⟨h, rfl⟩

/-- The clock of AEGIS has no part in what CELER measures. -/
theorem emitted_timeless (events : List (Sample F)) :
    emitted D (.new D) (events.map timeless) = emitted D (.new D) events := by
  have hsim : Simulation (process D) (fun pool event => process D pool (timeless event))
      (fun _ _ => True) (fun pool pool' => ∀ slot, Alike (pool slot) (pool' slot)) := by
    constructor
    · intro pool pool' event halike _
      exact (alike_handle (halike _) event).2
    · intro pool pool' event halike _ slot
      simp only [process, timeless, Function.update_apply]
      split
      · exact (alike_handle (halike _) event).1
      · exact halike slot
  have halike : ∀ slot, Alike (Pool.new D slot) (Pool.new D slot) := fun _ => rfl
  rw [emitted, emitted, replies_map, hsim.replies_eq halike (stepsMeet_true _ _ events)]

end Clock

def pointOf (event : StrokeEvent) : DojoPage.Point := ⟨event.x, event.y, event.action⟩

def sampleOf (id : UInt32) (p : DojoPage.Point) : Sample F32 := ⟨id, 0, p.x, p.y, p.flag⟩

theorem timeless_sample {event : StrokeEvent} {id : UInt32} (h : event.sessionId = id) :
    timeless (sample event) = sampleOf id (pointOf event) := by
  subst h
  rfl

theorem strokes_points {session : Session} {points : List DojoPage.Point}
    (h : binaries session.heard = points.map encode) (hflags : ∀ p ∈ points, IsAction p.flag) :
    (strokes session).map pointOf = points := by
  obtain ⟨id, phase, heard⟩ := session
  dsimp only at h
  simp only [strokes]
  induction heard generalizing points with
  | nil =>
    have hnil : points = [] := by simpa [binaries] using h.symm
    simp [hnil]
  | cons message heard ih =>
    obtain ⟨msg, stamp⟩ := message
    rw [binaries_cons] at h
    cases msg with
    | binary binData =>
      cases points with
      | nil => simp [binary] at h
      | cons p points =>
        have hcons := List.cons.inj h
        have hp : parseStrokePayload (encode p) = .valid ⟨p.x, p.y, one, p.flag⟩ :=
          DojoPage.parse_encode (hflags p List.mem_cons_self)
        have hrest := ih (fun q hq => hflags q (List.mem_cons_of_mem _ hq)) hcons.2
        simp only [List.filterMap_cons, hear, hcons.1, hp, List.map_cons]
        exact congrArg₂ List.cons rfl hrest
    | close => simpa only [List.filterMap_cons, hear] using ih hflags h
    | other => simpa only [List.filterMap_cons, hear] using ih hflags h

theorem Linked.heard (h : Linked s) {i b k : ℕ} {session : Session}
    (hclient : s.clients[i]? = some (some (b, k))) (hsession : s.dojo.sessions[i]? = some session) :
    ∃ page, s.pages[b]? = some page ∧ (strokes session).map pointOf <:+: page.points := by
  obtain ⟨socket, hsocket, hsent⟩ := h.carried i (b, k) session hclient hsession
  obtain ⟨page, hpage, hout⟩ := Option.bind_eq_some_iff.1 hsocket
  obtain ⟨hsketched, hwired⟩ := h.drawn page (List.mem_of_getElem? hpage)
  obtain ⟨before, piece, after, hsplit, hframes, _⟩ := hwired.carries k socket hout
  have hinside : piece <:+: page.points := ⟨before, after, hsplit.symm⟩
  have htake := List.prefix_iff_eq_take.1 hsent
  rw [hframes, ← List.map_take] at htake
  have hflags : ∀ p ∈ piece.take (binaries session.heard).length, IsAction p.flag := fun p hp =>
    hsketched.strokes.isAction (hinside.subset (List.mem_of_mem_take hp))
  refine ⟨page, hpage, ?_⟩
  rw [strokes_points htake hflags]
  exact (List.take_prefix _ _).isInfix.trans hinside

theorem slots_apart {i j : ℕ} (hi : i < SESSION_POOL_SIZE) (hj : j < SESSION_POOL_SIZE)
    (h : slotOf (UInt32.ofNat (i + 1)) = slotOf (UInt32.ofNat (j + 1))) : i = j := by
  have hval := congrArg Fin.val h
  rw [SESSION_POOL_SIZE] at hi hj
  have hi' : i + 1 < 2 ^ 32 := by omega
  have hj' : j + 1 < 2 ^ 32 := by omega
  rw [slotOf_val, slotOf_val, UInt32.toNat_ofNat_of_lt' hi', UInt32.toNat_ofNat_of_lt' hj',
    SESSION_POOL_SIZE] at hval
  omega

theorem answers_own (C : Arithmetic F32) {events : List StrokeEvent} {id : UInt32}
    (hapart : ∀ event ∈ events, slotOf event.sessionId = slotOf id → event.sessionId = id) :
    answersTo id (emitted C (.new C) (events.map sample)) =
      emitted C (.new C) (((events.filter fun event => event.sessionId = id).map pointOf).map
        (sampleOf id)) := by
  have hmeet : StepsMeet (CelerSessions.next id) (CelerSessions.Undisturbed id)
      CelerSessions.unseen (events.map sample) := by
    refine CelerSessions.undisturbed_of_apart (fun event hevent => ?_) rfl
    obtain ⟨stroke, hstroke, rfl⟩ := List.mem_map.1 hevent
    exact hapart stroke hstroke
  have hown : ofSession id (events.map sample) =
      (events.filter fun event => event.sessionId = id).map sample := by
    rw [ofSession, List.filter_map]
    rfl
  have htimeless : ((events.filter fun event => event.sessionId = id).map sample).map timeless =
      ((events.filter fun event => event.sessionId = id).map pointOf).map (sampleOf id) := by
    rw [List.map_map, List.map_map]
    refine List.map_congr_left fun event hevent => timeless_sample ?_
    simpa using (List.mem_filter.1 hevent).2
  have halone : answersTo id (emitted C (.new C) (events.map sample)) =
      emitted C (.new C) (ofSession id (events.map sample)) :=
    CelerSessions.emitted_of_views _ hmeet follows_new follows_new
  rw [halone, hown, ← emitted_timeless, htimeless]

section Run

variable (A C getCoords toString B)

theorem linked_run (es : List (Event E P)) :
    Linked (run (next A C getCoords toString) (opened P C B) es) :=
  run_preserves (P := Linked) (fun _ e h => linked_next h e) linked_opened es

theorem fed_run (es : List (Event E P)) :
    Fed C toString (run (next A C getCoords toString) (opened P C B) es) :=
  run_preserves (P := Fed C toString) (fun _ e h => fed_next h e) fed_opened es

theorem dojo_run (es : List (Event E P)) : ∃ events,
    (run (next A C getCoords toString) (opened P C B) es).dojo =
        run AegisDojo.next AegisDojo.opened events ∧
      events.countP AegisDojo.Event.isMessage ≤ es.countP Event.isMessage :=
  run_part dojo_next (opened P C B) es

end Run

theorem popped_apart {dojo : Dojo} (h : AegisDojo.Faithful dojo)
    (hpopped : ∀ event ∈ dojo.ring.ring.returned,
      ∃ session ∈ dojo.sessions, event ∈ strokes session)
    (hfit : dojo.sessions.length ≤ SESSION_POOL_SIZE) {i : ℕ} {session : Session}
    (hsession : dojo.sessions[i]? = some session) :
    ∀ event ∈ dojo.ring.ring.returned,
      slotOf event.sessionId = slotOf session.id → event.sessionId = session.id := by
  intro event hevent hslot
  obtain ⟨other, hother, hstroke⟩ := hpopped event hevent
  obtain ⟨j, hj⟩ := List.mem_iff_getElem?.1 hother
  have hid : event.sessionId = UInt32.ofNat (j + 1) :=
    (AegisDojo.strokes_id hstroke).trans (h.ids j other hj)
  have hi : i < dojo.sessions.length := (List.getElem?_eq_some_iff.1 hsession).1
  have hjlt : j < dojo.sessions.length := (List.getElem?_eq_some_iff.1 hj).1
  rw [hid, h.ids i session hsession] at hslot ⊢
  rw [slots_apart (hjlt.trans_le hfit) (hi.trans_le hfit) hslot]

theorem taken_initial (events : List StrokeEvent) (id : UInt32) (n : ℕ) :
    ((events.take n).filter fun event => event.sessionId = id) <+:
      events.filter fun event => event.sessionId = id :=
  (List.take_prefix n events).filter _

/-- From the pen to the browsers: what CELER measures under the id of a page's session is what its
stroke machine makes, from a fresh state, of points drawn on this page; of an uninterrupted piece of
them if the ring refused none. Nobody else's pen and no clock has a part in it, and every viewer
sees only this, in order. -/
theorem measured_as_drawn (A : Arithmetic P) (C : Arithmetic F32) (getCoords : E → F32 × F32)
    (toString : PrecisionEvent F32 → Option Text) (L : Lawful B CelerViewers.TELEMETRY_CAPACITY)
    (es : List (Event E P)) (few : es.countP Event.isMessage < 2 ^ 64)
    (hfit : (run (next A C getCoords toString) (opened P C B) es).dojo.sessions.length ≤
      SESSION_POOL_SIZE) :
    let s := run (next A C getCoords toString) (opened P C B) es
    ∀ (i b k : ℕ) (session : Session), s.dojo.sessions[i]? = some session →
      s.clients[i]? = some (some (b, k)) →
      ∃ page, s.pages[b]? = some page ∧ ∃ kept : List DojoPage.Point,
        kept.Sublist page.points ∧
        (AegisDojo.NoneRefused s.dojo i → kept <:+: page.points) ∧
        answersTo session.id s.celer.sent =
          emitted C (.new C) (kept.map (sampleOf session.id)) ∧
        ∀ viewer ∈ s.celer.viewers, (answersTo session.id viewer.seen).Sublist
          (emitted C (.new C) (kept.map (sampleOf session.id))) := by
  intro s i b k session hsession hclient
  have hlinked : Linked s := linked_run B A C getCoords toString es
  obtain ⟨ces, hceler, hpopped⟩ := (fed_run B A C getCoords toString es).ran
  obtain ⟨events, hdojo, hcount⟩ := dojo_run B A C getCoords toString es
  have hfaithful : AegisDojo.Faithful s.dojo := hdojo ▸ AegisDojo.faithful_run events
  have hsequential : RingClones.Sequential s.dojo.ring := hdojo ▸ AegisDojo.sequential_run events
  have hsound : RingClones.Sound s.dojo.ring :=
    hdojo ▸ AegisDojo.sound_run (hcount.trans_lt few)
  have hids : s.dojo.sessions.length < 2 ^ 32 :=
    hfit.trans_lt (by rw [SESSION_POOL_SIZE]; omega)
  obtain ⟨page, hpage, hdrawn⟩ := hlinked.heard hclient hsession
  obtain ⟨hsub, hinitial, _⟩ := hfaithful.popped_own hsound hsequential hids hsession
  have htaken := taken_initial s.dojo.ring.ring.returned session.id s.taken
  have hsent : answersTo session.id s.celer.sent = emitted C (.new C)
      ((((s.dojo.ring.ring.returned.take s.taken).filter fun event =>
        event.sessionId = session.id).map pointOf).map (sampleOf session.id)) := by
    have hloop := (CelerViewers.loop_run C toString B ces).2.1
    rw [hpopped, ← hceler] at hloop
    rw [hloop]
    refine answers_own C fun event hevent => ?_
    exact popped_apart hfaithful (hfaithful.popped_heard hsound hsequential) hfit hsession event
      (List.mem_of_mem_take hevent)
  refine ⟨page, hpage, _, ?_, fun hok => ?_, hsent, fun viewer hviewer => ?_⟩
  · exact ((htaken.sublist.trans hsub).map pointOf).trans hdrawn.sublist
  · exact ((htaken.trans (hinitial hok)).map pointOf).isInfix.trans hdrawn
  · have hwatched := CelerViewers.watched_run C toString L ces
    rw [← hceler] at hwatched
    rw [← hsent]
    exact ((hwatched.kept viewer hviewer).order.trans (List.drop_sublist _ _)).filter _

/-- A page with one stroke of 5 pixels, and a stranger who has connected before it. -/
def drawnStroke : List (Event (F32 × F32) F32) :=
  [.visited, .accepted none, .page 0 .connectClick, .accepted (some (0, 0)),
    .aegis (.task (.handshaken 1 true)), .page 0 (.outOpened 0), .page 0 (.inOpened 0),
    .celer .upgraded, .page 0 (.mousedown (0, 0)), .page 0 (.mousemove (0x40400000, 0x40800000)),
    .page 0 .mouseup]

def pushedFrame : List (Event (F32 × F32) F32) :=
  .delivered 1 AegisDojo.unstamped :: List.replicate 4 (.aegis .producer)

def measuredEvent (steps : ℕ) : List (Event (F32 × F32) F32) :=
  .callPop :: (List.replicate steps (.aegis .consumer) ++ [.took])

def oneStroke : List (Event (F32 × F32) F32) :=
  drawnStroke ++ pushedFrame ++ pushedFrame ++ measuredEvent 6 ++ measuredEvent 4 ++
    [.celer (.polled 0 true)]

theorem measured_as_drawn_one_stroke :
    let B := BroadcastChannels.logged (PrecisionEvent F32) CelerViewers.TELEMETRY_CAPACITY
    let s := run (next tabulated tabulated id CelerViewers.toJson) (opened F32 tabulated B)
      oneStroke
    ∀ (i b k : ℕ) (session : Session), s.dojo.sessions[i]? = some session →
      s.clients[i]? = some (some (b, k)) →
      ∃ page, s.pages[b]? = some page ∧ ∃ kept : List DojoPage.Point,
        kept.Sublist page.points ∧
        (AegisDojo.NoneRefused s.dojo i → kept <:+: page.points) ∧
        answersTo session.id s.celer.sent =
          emitted tabulated (.new tabulated) (kept.map (sampleOf session.id)) ∧
        ∀ viewer ∈ s.celer.viewers, (answersTo session.id viewer.seen).Sublist
          (emitted tabulated (.new tabulated) (kept.map (sampleOf session.id))) :=
  measured_as_drawn tabulated tabulated id CelerViewers.toJson (BroadcastChannels.loggedLawful _ _)
    oneStroke (by decide) (by decide)

end DojoSystem

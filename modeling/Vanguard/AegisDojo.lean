import Vanguard.AegisPayload
import Vanguard.RingClones

/-! The WebSocket sessions of AEGIS. They share one thread, one counter of ids and, through their
clones of the producer, one ring; CELER pops beside them. What a session heard is a ghost
observation. -/
namespace AegisDojo

open StateMachines SharedIpc AegisPayload

/-- What the stream of a session yields. An `Err` is skipped as a text or a ping is. -/
inductive Message where
  | binary (binData : List UInt8)
  | close
  | other
  deriving DecidableEq, Repr

/-- What the server itself puts into a stroke event: its clock and the span of the message. -/
structure Stamp where
  timestamp : UInt64
  traceId : Vector UInt8 16
  parentSpanId : Vector UInt8 8
  deriving DecidableEq, Repr

inductive Phase where
  | handshaking
  | listening
  | over
  deriving DecidableEq, Repr

structure Session where
  id : UInt32
  phase : Phase
  heard : List (Message × Stamp)

/-- The session at a position pushes through the clone at that position. -/
structure Dojo where
  accepting : Bool
  SESSION_COUNTER : UInt32
  sessions : List Session
  ring : RingClones.State

def opened : Dojo := ⟨true, 1, [], RingClones.opened⟩

inductive Task where
  | accepted (ok : Bool)
  | handshaken (session : ℕ) (ok : Bool)
  | received (session : ℕ) (msg : Message) (stamp : Stamp)
  | ended (session : ℕ)
  deriving DecidableEq

inductive Event where
  | task (task : Task)
  | producer
  | callPop
  | consumer

def strokeEvent (id : UInt32) (stamp : Stamp) (parsed : ParsedStroke) : StrokeEvent where
  sessionId := id
  timestamp := stamp.timestamp
  x := parsed.x
  y := parsed.y
  pressure := parsed.pressure
  action := parsed.action
  traceId := stamp.traceId
  parentSpanId := stamp.parentSpanId

/-- The body of the session's loop: where it goes on, and what it pushes. -/
def hear (id : UInt32) (stamp : Stamp) : Message → Phase × Option StrokeEvent
  | .binary binData =>
    match parseStrokePayload binData with
    | .valid parsed => (.listening, some (strokeEvent id stamp parsed))
    | .wrongLength => (.listening, none)
    | .invalidFlag _ => (.over, none)
  | .close => (.over, none)
  | .other => (.listening, none)

/-- The first error of `accept` ends the accept loop, and no session. -/
def accept (s : Dojo) (ok : Bool) : Dojo :=
  if s.accepting then
    if ok then
      { s with
        SESSION_COUNTER := s.SESSION_COUNTER + 1
        sessions := s.sessions ++ [⟨s.SESSION_COUNTER, .handshaking, []⟩]
        ring := RingClones.next s.ring .cloneTemplate }
    else { s with accepting := false }
  else s

def receive (s : Dojo) (i : ℕ) (session : Session) (msg : Message) (stamp : Stamp) : Dojo :=
  let outcome := hear session.id stamp msg
  { s with
    sessions := s.sessions.set i
      { session with phase := outcome.1, heard := session.heard ++ [(msg, stamp)] }
    ring := outcome.2.elim s.ring fun event => RingClones.next s.ring (.callPush i event) }

/-- A task that does not await what came, or that is no more, does nothing. -/
def resume (s : Dojo) : Task → Dojo
  | .accepted ok => accept s ok
  | .handshaken i ok =>
    match s.sessions[i]? with
    | some ⟨id, .handshaking, heard⟩ =>
      { s with sessions := s.sessions.set i ⟨id, if ok then .listening else .over, heard⟩ }
    | _ => s
  | .received i msg stamp =>
    match s.sessions[i]? with
    | some ⟨id, .listening, heard⟩ => receive s i ⟨id, .listening, heard⟩ msg stamp
    | _ => s
  | .ended i =>
    match s.sessions[i]? with
    | some ⟨id, .listening, heard⟩ => { s with sessions := s.sessions.set i ⟨id, .over, heard⟩ }
    | _ => s

/-- No task gets the thread while a push runs on it. -/
def next (s : Dojo) : Event → Dojo
  | .task task => if s.ring.ring.pushing = .idle then resume s task else s
  | .producer => { s with ring := RingClones.next s.ring .producer }
  | .callPop => { s with ring := RingClones.next s.ring .callPop }
  | .consumer => { s with ring := RingClones.next s.ring .consumer }

def strokes (session : Session) : List StrokeEvent :=
  session.heard.filterMap fun heard => (hear session.id heard.2 heard.1).2

def Ends (msg : Message) : Prop :=
  msg = .close ∨ ∃ binData flag, msg = .binary binData ∧
    parseStrokePayload binData = .invalidFlag flag

def pushesOf (calls : List (ℕ × StrokeEvent)) (i : ℕ) : List StrokeEvent :=
  (calls.filter fun call => call.1 = i).map Prod.snd

def Closed (session : Session) : Prop :=
  ∀ before heard after, session.heard = before ++ heard :: after → Ends heard.1 →
    after = [] ∧ session.phase = .over

/-- Every session pushes what it hears, under its own id. -/
structure Faithful (s : Dojo) : Prop where
  clones : s.ring.clones.length = s.sessions.length
  counter : s.SESSION_COUNTER = UInt32.ofNat (s.sessions.length + 1)
  ids : ∀ (i : ℕ) (session : Session), s.sessions[i]? = some session →
    session.id = UInt32.ofNat (i + 1)
  owned : ∀ call ∈ s.ring.called, call.1 < s.sessions.length
  pushes : ∀ (i : ℕ) (session : Session), s.sessions[i]? = some session →
    pushesOf s.ring.called i = strokes session
  ends : ∀ (i : ℕ) (session : Session), s.sessions[i]? = some session → Closed session

theorem faithful_opened : Faithful opened where
  clones := rfl
  counter := rfl
  ids := by simp [opened]
  owned := by simp [opened, RingClones.opened]
  pushes := by simp [opened]
  ends := by simp [opened]

variable {s : Dojo}

theorem hear_over_iff {id : UInt32} {stamp : Stamp} {msg : Message} :
    (hear id stamp msg).1 = .over ↔ Ends msg := by
  cases msg with
  | binary binData =>
    simp only [hear, Ends, reduceCtorEq, false_or, Message.binary.injEq]
    cases h : parseStrokePayload binData with
    | valid parsed => simp [h]
    | wrongLength => simp [h]
    | invalidFlag flag => simp [h]
  | close => simp [hear, Ends]
  | other => simp [hear, Ends]

theorem getElem?_set_cases {α : Type*} {l : List α} {i j : ℕ} {a b : α}
    (h : (l.set i a)[j]? = some b) : (j = i ∧ b = a) ∨ (j ≠ i ∧ l[j]? = some b) := by
  rw [List.getElem?_set] at h
  split at h
  · next hij =>
    split at h
    · exact Or.inl ⟨hij.symm, (Option.some.inj h).symm⟩
    · cases h
  · next hij => exact Or.inr ⟨Ne.symm hij, h⟩

theorem Faithful.move (h : Faithful s) {i : ℕ} {session moved : Session}
    (hs : s.sessions[i]? = some session) (hid : moved.id = session.id)
    (hstrokes : strokes moved = strokes session) (hclosed : Closed moved) :
    Faithful { s with sessions := s.sessions.set i moved } where
  clones := by simpa using h.clones
  counter := by simpa using h.counter
  ids := by
    intro j other hother
    rcases getElem?_set_cases hother with ⟨rfl, rfl⟩ | ⟨_, hother⟩
    · rw [hid]
      exact h.ids _ _ hs
    · exact h.ids _ _ hother
  owned := by simpa using h.owned
  pushes := by
    intro j other hother
    rcases getElem?_set_cases hother with ⟨rfl, rfl⟩ | ⟨_, hother⟩
    · rw [hstrokes]
      exact h.pushes _ _ hs
    · exact h.pushes _ _ hother
  ends := by
    intro j other hother
    rcases getElem?_set_cases hother with ⟨rfl, rfl⟩ | ⟨_, hother⟩
    · exact hclosed
    · exact h.ends _ _ hother

theorem closed_snoc {session : Session} (h : Closed session) (hopen : session.phase = .listening)
    {msg : Message} {stamp : Stamp} {phase : Phase} (hphase : Ends msg → phase = .over) :
    Closed { session with phase := phase, heard := session.heard ++ [(msg, stamp)] } := by
  intro before heard after hsplit hends
  rcases split_snoc hsplit with ⟨_, rfl, rfl⟩ | ⟨rest, hrest⟩
  · exact ⟨rfl, hphase hends⟩
  · have hover := (h before heard rest hrest hends).2
    rw [hopen] at hover
    cases hover

theorem Faithful.ringTurn (h : Faithful s) {ring : RingClones.State}
    (hclones : ring.clones.length = s.ring.clones.length) (hcalled : ring.called = s.ring.called) :
    Faithful { s with ring := ring } where
  clones := hclones.trans h.clones
  counter := h.counter
  ids := h.ids
  owned := by
    rw [hcalled]
    exact h.owned
  pushes := by
    simp only [hcalled]
    exact h.pushes
  ends := h.ends

theorem faithful_accept (h : Faithful s) (hidle : s.ring.ring.pushing = .idle) (ok : Bool) :
    Faithful (accept s ok) := by
  unfold accept
  split
  · split
    · have hnew : pushesOf s.ring.called s.sessions.length = [] := by
        simp only [pushesOf, List.map_eq_nil_iff, List.filter_eq_nil_iff, decide_eq_true_eq]
        intro call hcall
        exact (h.owned call hcall).ne
      have hcases : ∀ j (other : Session),
          (s.sessions ++ [⟨s.SESSION_COUNTER, .handshaking, []⟩])[j]? = some other →
          s.sessions[j]? = some other ∨
            j = s.sessions.length ∧ other = ⟨s.SESSION_COUNTER, .handshaking, []⟩ := by
        intro j other hother
        rcases Nat.lt_trichotomy j s.sessions.length with hlt | heq | hgt
        · rw [List.getElem?_append_left hlt] at hother
          exact Or.inl hother
        · subst heq
          simp only [List.getElem?_concat_length, Option.some.injEq] at hother
          exact Or.inr ⟨rfl, hother.symm⟩
        · rw [List.getElem?_eq_none (by simp; omega)] at hother
          cases hother
      simp only [RingClones.next, hidle, if_true]
      constructor
      · simp [h.clones]
      · simp only [List.length_append, List.length_singleton, h.counter]
        exact (UInt32.ofNat_add (s.sessions.length + 1) 1).symm
      · intro j other hother
        rcases hcases j other hother with hother | ⟨rfl, rfl⟩
        · exact h.ids j other hother
        · exact h.counter
      · intro call hcall
        have := h.owned call hcall
        simp only [List.length_append, List.length_singleton]
        omega
      · intro j other hother
        rcases hcases j other hother with hother | ⟨rfl, rfl⟩
        · exact h.pushes j other hother
        · exact hnew
      · intro j other hother
        rcases hcases j other hother with hother | ⟨rfl, rfl⟩
        · exact h.ends j other hother
        · simp [Closed]
    · exact ⟨h.clones, h.counter, h.ids, h.owned, h.pushes, h.ends⟩
  · exact h

theorem callPush_called (h : Faithful s) (hidle : s.ring.ring.pushing = .idle) {i : ℕ}
    (hi : i < s.sessions.length) (event : StrokeEvent) :
    (RingClones.next s.ring (.callPush i event)).called = s.ring.called ++ [(i, event)] ∧
      (RingClones.next s.ring (.callPush i event)).clones = s.ring.clones := by
  have hlt : i < s.ring.clones.length := by rwa [h.clones]
  simp [RingClones.next, hidle, List.getElem?_eq_getElem hlt]

theorem pushesOf_snoc (calls : List (ℕ × StrokeEvent)) (i j : ℕ) (event : StrokeEvent) :
    pushesOf (calls ++ [(i, event)]) j =
      pushesOf calls j ++ if i = j then [event] else [] := by
  simp only [pushesOf, List.filter_append, List.map_append]
  by_cases hij : i = j
  · simp [hij]
  · simp [hij]

theorem faithful_receive (h : Faithful s) (hidle : s.ring.ring.pushing = .idle) {i : ℕ}
    {session : Session} (hs : s.sessions[i]? = some session)
    (hopen : session.phase = .listening) (msg : Message) (stamp : Stamp) :
    Faithful (receive s i session msg stamp) := by
  have hlt : i < s.sessions.length := (List.getElem?_eq_some_iff.mp hs).1
  have hclosed : Closed { session with
      phase := (hear session.id stamp msg).1, heard := session.heard ++ [(msg, stamp)] } :=
    closed_snoc (h.ends i session hs) hopen hear_over_iff.mpr
  unfold receive
  cases hout : (hear session.id stamp msg).2 with
  | none =>
    simp only [hout, Option.elim_none]
    refine h.move hs rfl ?_ hclosed
    simp [strokes, hout]
  | some event =>
    obtain ⟨hcalled, hclones⟩ := callPush_called h hidle hlt event
    simp only [hout, Option.elim_some]
    constructor
    · simpa [hclones] using h.clones
    · simpa using h.counter
    · intro j other hother
      rcases getElem?_set_cases hother with ⟨rfl, rfl⟩ | ⟨_, hother⟩
      · have hid : session.id = UInt32.ofNat (j + 1) := h.ids _ _ hs
        exact hid
      · exact h.ids _ _ hother
    · intro call hcall
      rw [List.length_set]
      simp only [hcalled] at hcall
      rcases List.mem_append.mp hcall with hcall | hcall
      · exact h.owned call hcall
      · rw [List.mem_singleton.mp hcall]
        exact hlt
    · intro j other hother
      simp only [hcalled, pushesOf_snoc]
      rcases getElem?_set_cases hother with ⟨rfl, rfl⟩ | ⟨hne, hother⟩
      · rw [if_pos rfl, h.pushes _ _ hs]
        simp [strokes, hout]
      · rw [if_neg (Ne.symm hne), List.append_nil]
        exact h.pushes _ _ hother
    · intro j other hother
      rcases getElem?_set_cases hother with ⟨rfl, rfl⟩ | ⟨_, hother⟩
      · exact hclosed
      · exact h.ends _ _ hother

theorem faithful_resume (h : Faithful s) (hidle : s.ring.ring.pushing = .idle) (task : Task) :
    Faithful (resume s task) := by
  cases task with
  | accepted ok => exact faithful_accept h hidle ok
  | handshaken i ok =>
    simp only [resume]
    split
    · next id heard hs =>
      refine h.move hs rfl rfl ?_
      intro before message after hsplit hends
      have hphase := (h.ends _ _ hs before message after hsplit hends).2
      cases hphase
    · exact h
  | received i msg stamp =>
    simp only [resume]
    split
    · next id heard hs => exact faithful_receive h hidle hs rfl msg stamp
    · exact h
  | ended i =>
    simp only [resume]
    split
    · next id heard hs =>
      refine h.move hs rfl rfl ?_
      intro before message after hsplit hends
      exact ⟨(h.ends _ _ hs before message after hsplit hends).1, rfl⟩
    · exact h

theorem faithful_next (h : Faithful s) (e : Event) : Faithful (next s e) := by
  cases e with
  | task task =>
    simp only [next]
    split
    · next hidle => exact faithful_resume h hidle task
    · exact h
  | producer =>
    apply h.ringTurn
    · simp only [RingClones.next]
      split <;> simp
    · simp only [RingClones.next]
      split <;> rfl
  | callPop => exact h.ringTurn rfl rfl
  | consumer => exact h.ringTurn rfl rfl

theorem faithful_run (es : List Event) : Faithful (run next opened es) :=
  run_preserves (P := Faithful) (fun _ e h => faithful_next h e) faithful_opened es

inductive Follows (i : ℕ) (e : Event) (heard : List (Message × Stamp)) (session : Session) : Prop
  | same (h : session.heard = heard)
  | more (msg : Message) (stamp : Stamp) (he : e = .task (.received i msg stamp))
      (h : session.heard = heard ++ [(msg, stamp)])

theorem set_follows {sessions : List Session} {i : ℕ} {old moved : Session} {e : Event}
    (hold : sessions[i]? = some old) (hmoved : Follows i e old.heard moved) {j : ℕ}
    {session : Session} (hj : (sessions.set i moved)[j]? = some session) :
    ∃ before, sessions[j]? = some before ∧ Follows j e before.heard session := by
  rcases getElem?_set_cases hj with ⟨rfl, rfl⟩ | ⟨_, hother⟩
  · exact ⟨old, hold, hmoved⟩
  · exact ⟨session, hother, .same rfl⟩

theorem sessions_next (s : Dojo) {e : Event} (h : e ≠ .task (.accepted true)) :
    (next s e).sessions.length = s.sessions.length ∧
      ∀ (j : ℕ) (session : Session), (next s e).sessions[j]? = some session →
        ∃ before, s.sessions[j]? = some before ∧ Follows j e before.heard session := by
  have hsame : s.sessions.length = s.sessions.length ∧
      ∀ (j : ℕ) (session : Session), s.sessions[j]? = some session →
        ∃ before, s.sessions[j]? = some before ∧ Follows j e before.heard session :=
    ⟨rfl, fun j session hj => ⟨session, hj, .same rfl⟩⟩
  cases e with
  | task task =>
    simp only [next]
    split
    · cases task with
      | accepted ok =>
        cases ok with
        | true => exact absurd rfl h
        | false =>
          simp only [resume, accept]
          split
          · exact hsame
          · exact hsame
      | handshaken i ok =>
        simp only [resume]
        split
        · next id heard hs =>
          refine ⟨List.length_set, fun j session hj => set_follows hs ?_ hj⟩
          exact .same rfl
        · exact hsame
      | received i msg stamp =>
        simp only [resume]
        split
        · next id heard hs =>
          refine ⟨List.length_set, fun j session hj => set_follows hs ?_ hj⟩
          exact .more msg stamp rfl rfl
        · exact hsame
      | ended i =>
        simp only [resume]
        split
        · next id heard hs =>
          refine ⟨List.length_set, fun j session hj => set_follows hs ?_ hj⟩
          exact .same rfl
        · exact hsame
    · exact hsame
  | producer => exact hsame
  | callPop => exact hsame
  | consumer => exact hsame

theorem sessions_accept (hidle : s.ring.ring.pushing = .idle) (haccepting : s.accepting = true) :
    (next s (.task (.accepted true))).sessions =
      s.sessions ++ [⟨s.SESSION_COUNTER, .handshaking, []⟩] := by
  simp [next, hidle, resume, accept, haccepting]

section Ring

def Event.isMessage : Event → Bool
  | .task (.received _ _ _) => true
  | _ => false

theorem ring_next (s : Dojo) (e : Event) : ∃ turns,
    (next s e).ring = run RingClones.next s.ring turns ∧
      turns.countP RingClones.Turn.isCallPush ≤ if e.isMessage then 1 else 0 := by
  cases e with
  | task task =>
    by_cases hidle : s.ring.ring.pushing = .idle
    · simp only [next, hidle, if_true]
      cases task with
      | accepted ok =>
        simp only [resume, accept]
        split
        · split
          · exact ⟨[.cloneTemplate], rfl, by simp [RingClones.Turn.isCallPush]⟩
          · exact ⟨[], rfl, by simp⟩
        · exact ⟨[], rfl, by simp⟩
      | handshaken i ok =>
        refine ⟨[], ?_, by simp⟩
        simp only [resume]
        split <;> rfl
      | received i msg stamp =>
        simp only [resume]
        split
        · next id heard hs =>
          cases hout : (hear id stamp msg).2 with
          | none => exact ⟨[], by simp [receive, hout], by simp⟩
          | some event =>
            exact ⟨[.callPush i event], by simp [receive, hout], by
              simp [RingClones.Turn.isCallPush, Event.isMessage]⟩
        · exact ⟨[], rfl, by simp⟩
      | ended i =>
        refine ⟨[], ?_, by simp⟩
        simp only [resume]
        split <;> rfl
    · exact ⟨[], by simp [next, hidle], by simp⟩
  | producer => exact ⟨[.producer], rfl, by simp [RingClones.Turn.isCallPush]⟩
  | callPop => exact ⟨[.callPop], rfl, by simp [RingClones.Turn.isCallPush]⟩
  | consumer => exact ⟨[.consumer], rfl, by simp [RingClones.Turn.isCallPush]⟩

theorem ring_run (s : Dojo) (es : List Event) : ∃ turns,
    (run next s es).ring = run RingClones.next s.ring turns ∧
      turns.countP RingClones.Turn.isCallPush ≤ es.countP Event.isMessage :=
  run_part ring_next s es

theorem returned_next (s : Dojo) (e : Event) :
    s.ring.ring.returned <+: (next s e).ring.ring.returned := by
  obtain ⟨turns, hturns, _⟩ := ring_next s e
  rw [hturns]
  exact run_preserves (P := fun ring => s.ring.ring.returned <+: ring.ring.returned)
    (fun ring turn h => h.trans (RingClones.returned_next ring turn)) List.prefix_rfl turns

end Ring

/-- The ring has refused none of the session's pushes. -/
def NoneRefused (s : Dojo) (i : ℕ) : Prop :=
  ∀ call ∈ s.ring.called.zip s.ring.pushed, call.1.1 = i → call.2.isOk = true

theorem pushesOf_sublist {as bs : List (ℕ × StrokeEvent)} (h : as.Sublist bs) (i : ℕ) :
    (pushesOf as i).Sublist (pushesOf bs i) :=
  (h.filter _).map _

theorem pushesOf_initial {as bs : List (ℕ × StrokeEvent)} (h : as <+: bs) (i : ℕ) :
    pushesOf as i <+: pushesOf bs i :=
  (h.filter _).map _

theorem accepted_own (h : RingClones.Sequential s.ring) (i : ℕ) :
    (pushesOf (RingClones.accepted s.ring) i).Sublist (pushesOf s.ring.called i) ∧
      (NoneRefused s i → pushesOf (RingClones.accepted s.ring) i <+: pushesOf s.ring.called i) ∧
      (NoneRefused s i → s.ring.ring.pushing = .idle →
        pushesOf (RingClones.accepted s.ring) i = pushesOf s.ring.called i) := by
  obtain ⟨finished, hzip⟩ : ∃ finished, (s.ring.called.zip s.ring.pushed).map Prod.fst = finished :=
    ⟨_, rfl⟩
  have hcalled := h.finished
  rw [hzip] at hcalled
  have hnone : NoneRefused s i →
      pushesOf (RingClones.accepted s.ring) i = pushesOf finished i := by
    intro hok
    rw [← hzip, pushesOf, pushesOf, RingClones.accepted, List.filter_map, List.filter_map,
      List.filter_filter]
    congr 2
    apply List.filter_congr
    intro call hcall
    by_cases hi : call.1.1 = i
    · simp [hi, hok call hcall hi]
    · simp [hi]
  refine ⟨pushesOf_sublist h.accepted_sublist i, ?_, ?_⟩
  · intro hok
    rw [hnone hok]
    exact pushesOf_initial ⟨_, hcalled.symm⟩ i
  · intro hok hidle
    have hrun : RingClones.running s.ring = [] := by simp [RingClones.running, hidle]
    rw [hnone hok, hcalled, hrun, List.append_nil]

theorem ids_inj {i j : ℕ} (hi : i + 1 < 2 ^ 32) (hj : j + 1 < 2 ^ 32)
    (h : UInt32.ofNat (i + 1) = UInt32.ofNat (j + 1)) : i = j := by
  have hnat := congrArg UInt32.toNat h
  rw [UInt32.toNat_ofNat_of_lt' hi, UInt32.toNat_ofNat_of_lt' hj] at hnat
  omega

theorem strokes_id {session : Session} {event : StrokeEvent} (h : event ∈ strokes session) :
    event.sessionId = session.id := by
  obtain ⟨heard, _, hevent⟩ := List.mem_filterMap.mp h
  unfold hear at hevent
  split at hevent
  · split at hevent
    · cases hevent
      rfl
    · cases hevent
    · cases hevent
  · cases hevent
  · cases hevent

theorem Faithful.heard (h : Faithful s) {call : ℕ × StrokeEvent} (hcall : call ∈ s.ring.called) :
    ∃ hlt : call.1 < s.sessions.length, call.2 ∈ strokes s.sessions[call.1] := by
  have hlt := h.owned call hcall
  refine ⟨hlt, ?_⟩
  rw [← h.pushes _ _ (List.getElem?_eq_getElem hlt)]
  exact List.mem_map.mpr ⟨call, List.mem_filter.mpr ⟨hcall, by simp⟩, rfl⟩

/-- While the counter of ids has not wrapped, an id tells the session. -/
theorem Faithful.ofSession (h : Faithful s) (hids : s.sessions.length < 2 ^ 32)
    {calls : List (ℕ × StrokeEvent)} (hcalls : calls.Sublist s.ring.called) {i : ℕ}
    {session : Session} (hs : s.sessions[i]? = some session) :
    (calls.map Prod.snd).filter (fun event => event.sessionId = session.id) =
      pushesOf calls i := by
  have hi : i < s.sessions.length := (List.getElem?_eq_some_iff.mp hs).1
  rw [List.filter_map, pushesOf]
  congr 1
  apply List.filter_congr
  intro call hcall
  obtain ⟨hj, hstroke⟩ := h.heard (hcalls.subset hcall)
  have hid : call.2.sessionId = UInt32.ofNat (call.1 + 1) :=
    (strokes_id hstroke).trans (h.ids _ _ (List.getElem?_eq_getElem hj))
  simp only [Function.comp, hid, h.ids _ _ hs, decide_eq_decide]
  constructor
  · exact ids_inj (by omega) (by omega)
  · rintro rfl
    rfl

theorem popped_eq (h : RingClones.Sequential s.ring) (hs : RingClones.Sound s.ring) :
    ∃ calls, calls <+: RingClones.accepted s.ring ∧
      s.ring.ring.returned = calls.map Prod.snd ∧
      (s.ring.ring.returned = s.ring.ring.events → calls = RingClones.accepted s.ring) := by
  have horder := List.prefix_iff_eq_take.mp hs.in_order
  rw [h.events, ← List.map_take] at horder
  refine ⟨_, List.take_prefix _ _, horder, ?_⟩
  intro hall
  apply List.take_of_length_le
  rw [hall, h.events, List.length_map]

theorem sequential_run (es : List Event) : RingClones.Sequential (run next opened es).ring := by
  obtain ⟨turns, hring, _⟩ := ring_run opened es
  rw [hring]
  exact RingClones.run_sequential turns

theorem sound_run {es : List Event} (few : es.countP Event.isMessage < 2 ^ 64) :
    RingClones.Sound (run next opened es).ring := by
  obtain ⟨turns, hring, hcount⟩ := ring_run opened es
  rw [hring]
  exact RingClones.run_sound (by omega)

theorem Faithful.popped_heard (h : Faithful s) (hsound : RingClones.Sound s.ring)
    (hsequential : RingClones.Sequential s.ring) :
    ∀ event ∈ s.ring.ring.returned, ∃ session ∈ s.sessions, event ∈ strokes session := by
  obtain ⟨calls, hcalls, hreturned, _⟩ := popped_eq hsequential hsound
  intro event hevent
  rw [hreturned] at hevent
  obtain ⟨call, hcall, rfl⟩ := List.mem_map.mp hevent
  have hown : call ∈ s.ring.called :=
    (hcalls.sublist.trans hsequential.accepted_sublist).subset hcall
  obtain ⟨hlt, hstroke⟩ := h.heard hown
  exact ⟨s.sessions[call.1], List.getElem_mem hlt, hstroke⟩

theorem Faithful.popped_own (h : Faithful s) (hsound : RingClones.Sound s.ring)
    (hsequential : RingClones.Sequential s.ring) (hids : s.sessions.length < 2 ^ 32) {i : ℕ}
    {session : Session} (hs : s.sessions[i]? = some session) :
    let popped := s.ring.ring.returned.filter fun event => event.sessionId = session.id
    popped.Sublist (strokes session) ∧
      (NoneRefused s i → popped <+: strokes session) ∧
      (NoneRefused s i → s.ring.ring.pushing = .idle →
        s.ring.ring.returned = s.ring.ring.events → popped = strokes session) := by
  obtain ⟨calls, hcalls, hreturned, hall⟩ := popped_eq hsequential hsound
  have hown : calls.Sublist s.ring.called := hcalls.sublist.trans hsequential.accepted_sublist
  obtain ⟨hsub, hinitial, hwhole⟩ := accepted_own hsequential i
  rw [h.pushes i session hs] at hsub hinitial hwhole
  simp only [hreturned, h.ofSession hids hown hs]
  refine ⟨(pushesOf_initial hcalls i).sublist.trans hsub, ?_, ?_⟩
  · exact fun hok => (pushesOf_initial hcalls i).trans (hinitial hok)
  · intro hok hidle hdrained
    rw [hall (hreturned.trans hdrained)]
    exact hwhole hok hidle

def unstamped : Stamp := ⟨0, Vector.replicate 16 0, Vector.replicate 8 0⟩

def firstStroke : List Event :=
  .task (.received 0 (.binary (sendPoint 0 0 ACTION_DOWN)) unstamped) ::
    List.replicate 4 .producer

def unknownFlag : List Event :=
  [.task (.received 1 (.binary (sendPoint 0 0 99)) unstamped),
    .task (.received 1 (.binary (sendPoint 0 0 ACTION_DOWN)) unstamped)]

def firstPop : List Event := .callPop :: List.replicate 6 .consumer

def twoSessions : List Event :=
  [.task (.accepted true), .task (.accepted true), .task (.handshaken 0 true),
    .task (.handshaken 1 true)] ++ firstStroke ++ unknownFlag ++ firstPop

end AegisDojo

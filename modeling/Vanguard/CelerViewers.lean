import Vanguard.BroadcastChannels
import Vanguard.CelerFsm
import Vanguard.Utf8Text

/-! CELER around its stroke machine: the loop that takes the events of the ring, the channel on
which it sends what it measures, the browsers that watch, and the monitor on the terminal. -/
namespace CelerViewers

open StateMachines SharedIpc CelerFsm BroadcastChannels
open Utf8Text (Text)

def TELEMETRY_CAPACITY : ℕ := 2048

inductive ParentContext where
  | remote (traceId : Vector UInt8 16) (spanId : Vector UInt8 8)
  | current
  deriving DecidableEq, Repr

/-- Zero bytes are the ids of no trace and of no span. -/
def parentContext (event : StrokeEvent) : ParentContext :=
  if event.traceId ≠ Vector.replicate 16 0 ∧ event.parentSpanId ≠ Vector.replicate 8 0 then
    .remote event.traceId event.parentSpanId
  else .current

/-- The task of one WebSocket. `joined`, `seen` and `missed` are ghost observations: how much had
been sent when it subscribed, what it received, and how much it was told that it missed. -/
structure Viewer (B : Broadcast (PrecisionEvent F32)) where
  rx : B.Receiver
  running : Bool
  socket : List Text
  joined : ℕ
  seen : List (PrecisionEvent F32)
  missed : ℕ

/-- `sent` and `parents` are ghost observations of the loop, `shown` of the monitor. -/
structure Celer (B : Broadcast (PrecisionEvent F32)) where
  pool : Pool F32
  EVENTS_PROCESSED : UInt64
  tx : B.Channel
  viewers : List (Viewer B)
  lastCount : UInt64
  sent : List (PrecisionEvent F32)
  parents : List ParentContext
  shown : List ℚ

/-- `elapsed` are the nanoseconds between two looks of the monitor at the clock. -/
inductive Event where
  | popped (event : StrokeEvent)
  | upgraded
  | polled (viewer : ℕ) (ok : Bool)
  | ticked (elapsed : ℕ)

variable {B : Broadcast (PrecisionEvent F32)}

def opened (A : Arithmetic F32) (B : Broadcast (PrecisionEvent F32)) : Celer B :=
  ⟨.new A, 0, B.new, [], 0, [], [], []⟩

def saturatingSub (a b : UInt64) : UInt64 := if b ≤ a then a - b else 0

def pps (deltaEvents elapsed : ℕ) : ℚ := deltaEvents / (elapsed / 10 ^ 9)

/-- One event of the ring. The result of `send` is ignored. -/
def take (A : Arithmetic F32) (s : Celer B) (event : StrokeEvent) : Celer B :=
  let answer := process A s.pool (sample event)
  { s with
    pool := answer.1
    EVENTS_PROCESSED := s.EVENTS_PROCESSED + 1
    tx := answer.2.elim s.tx (B.send s.tx)
    sent := s.sent ++ answer.2.toList
    parents := s.parents ++ [parentContext event] }

/-- One turn of the loop of a viewer: `recv`, and what the socket says to the text. A viewer that
finds nothing keeps waiting, and one that was too slow goes on with what is left. -/
def Viewer.poll (toString : PrecisionEvent F32 → Option Text) (tx : B.Channel) (viewer : Viewer B)
    (ok : Bool) : Viewer B :=
  let received := B.recv tx viewer.rx
  match received.1 with
  | .message event =>
    match toString event with
    | some msg =>
      if ok then
        { viewer with
          rx := received.2, socket := viewer.socket ++ [msg], seen := viewer.seen ++ [event] }
      else { viewer with rx := received.2, running := false }
    | none => { viewer with rx := received.2, seen := viewer.seen ++ [event] }
  | .lagged missed => { viewer with rx := received.2, missed := viewer.missed + missed }
  | .empty => { viewer with rx := received.2 }
  | .closed => { viewer with rx := received.2, running := false }

/-- The task of a viewer that ends drops its receiver. -/
def poll (toString : PrecisionEvent F32 → Option Text) (s : Celer B) (v : ℕ) (viewer : Viewer B)
    (ok : Bool) : Celer B :=
  let polled := viewer.poll toString s.tx ok
  { s with
    tx := if polled.running then s.tx else B.drop s.tx polled.rx
    viewers := s.viewers.set v polled }

def next (A : Arithmetic F32) (toString : PrecisionEvent F32 → Option Text) (s : Celer B) :
    Event → Celer B
  | .popped event => take A s event
  | .upgraded =>
    let subscribed := B.subscribe s.tx
    { s with
      tx := subscribed.1
      viewers := s.viewers ++ [⟨subscribed.2, true, [], s.sent.length, [], 0⟩] }
  | .polled v ok =>
    match s.viewers[v]? with
    | some viewer => if viewer.running then poll toString s v viewer ok else s
    | none => s
  | .ticked elapsed =>
    let deltaEvents := saturatingSub s.EVENTS_PROCESSED s.lastCount
    { s with
      lastCount := s.EVENTS_PROCESSED
      shown := if 0 < elapsed then s.shown ++ [pps deltaEvents.toNat elapsed] else s.shown }

def popped : Event → Option StrokeEvent
  | .popped event => some event
  | _ => none

structure Kept (toString : PrecisionEvent F32 → Option Text) (sent : List (PrecisionEvent F32))
    (viewer : Viewer B) : Prop where
  joined : viewer.joined ≤ sent.length
  order : viewer.seen.Sublist (sent.drop viewer.joined)
  count : viewer.seen.length + viewer.missed ≤ (sent.drop viewer.joined).length
  whole : viewer.missed = 0 → viewer.seen <+: sent.drop viewer.joined
  socket : viewer.socket = viewer.seen.filterMap toString

structure Watched (toString : PrecisionEvent F32 → Option Text) {cap : ℕ} (L : Lawful B cap)
    (tx : B.Channel) (viewers : List (Viewer B)) (sent : List (PrecisionEvent F32)) : Prop where
  receivers : L.receivers tx = viewers.countP Viewer.running
  kept : ∀ viewer ∈ viewers, Kept toString sent viewer
  tuned : ∀ viewer ∈ viewers, viewer.running = true →
    Tuned L tx viewer.rx (sent.drop viewer.joined) viewer.seen viewer.missed

variable {A : Arithmetic F32} {toString : PrecisionEvent F32 → Option Text} {cap : ℕ}
  {L : Lawful B cap} {tx : B.Channel} {viewers : List (Viewer B)} {viewer : Viewer B}
  {sent : List (PrecisionEvent F32)}

theorem watched_opened : Watched toString L B.new [] [] where
  receivers := L.receivers_new
  kept := by simp
  tuned := by simp

theorem Kept.send (h : Kept toString sent viewer) (a : PrecisionEvent F32) :
    Kept toString (sent ++ [a]) viewer := by
  have hdrop : (sent ++ [a]).drop viewer.joined = sent.drop viewer.joined ++ [a] :=
    List.drop_append_of_le_length h.joined
  constructor
  · have := h.joined
    simp only [List.length_append, List.length_singleton]
    omega
  · rw [hdrop]
    exact h.order.trans (List.sublist_append_left _ _)
  · have := h.count
    rw [hdrop, List.length_append]
    omega
  · intro hmissed
    rw [hdrop]
    exact (h.whole hmissed).trans (List.prefix_append _ _)
  · exact h.socket

theorem kept_of_tuned {c : B.Channel} {r : B.Receiver} (hjoined : viewer.joined ≤ sent.length)
    (h : Tuned L c r (sent.drop viewer.joined) viewer.seen viewer.missed)
    (hsocket : viewer.socket = viewer.seen.filterMap toString) : Kept toString sent viewer where
  joined := hjoined
  order := h.order.1
  count := h.order.2.1
  whole := h.order.2.2
  socket := hsocket

theorem Watched.send (h : Watched toString L tx viewers sent) (answer : PrecisionEvent F32) :
    Watched toString L (B.send tx answer) viewers (sent ++ [answer]) := by
  constructor
  · rw [L.receivers_send]
    exact h.receivers
  · intro viewer hviewer
    exact (h.kept viewer hviewer).send answer
  · intro viewer hviewer hrunning
    have hsome : L.receivers tx ≠ 0 := by
      rw [h.receivers]
      exact (List.countP_pos_iff.mpr ⟨viewer, hviewer, hrunning⟩).ne'
    have hdrop : (sent ++ [answer]).drop viewer.joined = sent.drop viewer.joined ++ [answer] :=
      List.drop_append_of_le_length (h.kept viewer hviewer).joined
    rw [hdrop]
    exact (h.tuned viewer hviewer hrunning).send hsome answer

theorem Watched.subscribe (h : Watched toString L tx viewers sent) :
    Watched toString L (B.subscribe tx).1
      (viewers ++ [⟨(B.subscribe tx).2, true, [], sent.length, [], 0⟩]) sent := by
  have htuned : Tuned L (B.subscribe tx).1 (B.subscribe tx).2 (sent.drop sent.length) [] 0 := by
    rw [List.drop_length]
    exact tuned_subscribe L tx
  constructor
  · rw [L.receivers_subscribe, h.receivers, List.countP_append]
    rfl
  · intro viewer hviewer
    rcases List.mem_append.mp hviewer with hviewer | hviewer
    · exact h.kept viewer hviewer
    · rw [List.mem_singleton.mp hviewer]
      exact kept_of_tuned le_rfl htuned rfl
  · intro viewer hviewer hrunning
    rcases List.mem_append.mp hviewer with hviewer | hviewer
    · exact (h.tuned viewer hviewer hrunning).other (L.sent_subscribe _)
    · rw [List.mem_singleton.mp hviewer]
      exact htuned

theorem poll_spec (hkept : Kept toString sent viewer)
    (htuned : Tuned L tx viewer.rx (sent.drop viewer.joined) viewer.seen viewer.missed)
    (ok : Bool) :
    Kept toString sent (viewer.poll toString tx ok) ∧
      ((viewer.poll toString tx ok).running = true →
        Tuned L tx (viewer.poll toString tx ok).rx
          (sent.drop (viewer.poll toString tx ok).joined) (viewer.poll toString tx ok).seen
          (viewer.poll toString tx ok).missed) := by
  have hrecv := htuned.recv
  unfold Viewer.poll
  cases hreceived : (B.recv tx viewer.rx).1 with
  | message event =>
    simp only [hreceived] at hrecv ⊢
    cases htext : toString event with
    | none =>
      dsimp only
      refine ⟨kept_of_tuned hkept.joined hrecv ?_, fun _ => hrecv⟩
      simp [hkept.socket, htext]
    | some msg =>
      cases ok with
      | true =>
        simp only [if_true]
        refine ⟨kept_of_tuned hkept.joined hrecv ?_, fun _ => hrecv⟩
        simp [hkept.socket, htext]
      | false =>
        simp only [Bool.false_eq_true, if_false]
        exact ⟨⟨hkept.joined, hkept.order, hkept.count, hkept.whole, hkept.socket⟩,
          fun hfalse => absurd hfalse (by simp)⟩
  | lagged missed =>
    simp only [hreceived] at hrecv ⊢
    exact ⟨kept_of_tuned hkept.joined hrecv hkept.socket, fun _ => hrecv⟩
  | empty =>
    simp only [hreceived] at hrecv ⊢
    exact ⟨kept_of_tuned hkept.joined hrecv.1 hkept.socket, fun _ => hrecv.1⟩
  | closed =>
    simp only [hreceived] at hrecv

theorem Watched.poll (h : Watched toString L tx viewers sent) {v : ℕ}
    (hv : viewers[v]? = some viewer) (hrunning : viewer.running = true) (ok : Bool) :
    Watched toString L
      (if (viewer.poll toString tx ok).running then tx
        else B.drop tx (viewer.poll toString tx ok).rx)
      (viewers.set v (viewer.poll toString tx ok)) sent := by
  obtain ⟨hlt, hget⟩ := List.getElem?_eq_some_iff.mp hv
  have hmem : viewer ∈ viewers := List.mem_of_getElem? hv
  obtain ⟨hkept, htuned⟩ := poll_spec (h.kept viewer hmem) (h.tuned viewer hmem hrunning) ok
  generalize viewer.poll toString tx ok = polled at hkept htuned ⊢
  have hcount := List.countP_set (p := Viewer.running) (l := viewers) (a := polled) hlt
  have hpos : 0 < viewers.countP Viewer.running :=
    List.countP_pos_iff.mpr ⟨viewer, hmem, hrunning⟩
  rw [hget, if_pos hrunning] at hcount
  have hkepts : ∀ other ∈ viewers.set v polled, Kept toString sent other := by
    intro other hother
    rcases List.mem_or_eq_of_mem_set hother with hother | rfl
    · exact h.kept other hother
    · exact hkept
  cases hgoes : polled.running with
  | true =>
    rw [hgoes] at hcount
    simp only [if_true] at hcount ⊢
    refine ⟨?_, hkepts, ?_⟩
    · rw [h.receivers, hcount]
      omega
    · intro other hother hruns
      rcases List.mem_or_eq_of_mem_set hother with hother | rfl
      · exact h.tuned other hother hruns
      · exact htuned hruns
  | false =>
    rw [hgoes] at hcount
    simp only [Bool.false_eq_true, if_false] at hcount ⊢
    refine ⟨?_, hkepts, ?_⟩
    · rw [L.receivers_drop, h.receivers, hcount]
      omega
    · intro other hother hruns
      rcases List.mem_or_eq_of_mem_set hother with hother | rfl
      · exact (h.tuned other hother hruns).other (L.sent_drop _ _)
      · rw [hgoes] at hruns
        cases hruns

theorem watched_next {s : Celer B} (h : Watched toString L s.tx s.viewers s.sent) (e : Event) :
    let s' := next A toString s e
    Watched toString L s'.tx s'.viewers s'.sent := by
  cases e with
  | popped event =>
    simp only [next, take]
    cases (process A s.pool (sample event)).2 with
    | none => simpa using h
    | some answer => exact h.send answer
  | upgraded => exact h.subscribe
  | polled v ok =>
    simp only [next]
    cases hv : s.viewers[v]? with
    | none => exact h
    | some viewer =>
      simp only
      split
      · next hrunning => exact h.poll hv hrunning ok
      · exact h
  | ticked elapsed => exact h

theorem loop_next (A : Arithmetic F32) (toString : PrecisionEvent F32 → Option Text) (s : Celer B)
    (e : Event) :
    (next A toString s e).pool =
        ((popped e).elim s.pool fun event => (process A s.pool (sample event)).1) ∧
      (next A toString s e).sent = s.sent ++
        (popped e).elim [] (fun event => (process A s.pool (sample event)).2.toList) ∧
      (next A toString s e).EVENTS_PROCESSED =
        s.EVENTS_PROCESSED + UInt64.ofNat (popped e).toList.length ∧
      (next A toString s e).parents = s.parents ++ (popped e).toList.map parentContext := by
  cases e with
  | popped event => exact ⟨rfl, rfl, rfl, rfl⟩
  | upgraded => simp [next, popped]
  | polled v ok =>
    have hsame : ∀ viewer, (poll toString s v viewer ok).pool = s.pool ∧
        (poll toString s v viewer ok).sent = s.sent ∧
        (poll toString s v viewer ok).EVENTS_PROCESSED = s.EVENTS_PROCESSED ∧
        (poll toString s v viewer ok).parents = s.parents := fun _ => ⟨rfl, rfl, rfl, rfl⟩
    simp only [next]
    split
    · split
      · simpa [popped] using hsame _
      · simp [popped]
    · simp [popped]
  | ticked elapsed => simp [next, popped]

theorem loop_run (A : Arithmetic F32) (toString : PrecisionEvent F32 → Option Text)
    (B : Broadcast (PrecisionEvent F32)) (es : List Event) :
    let s := run (next A toString) (opened A B) es
    let events := es.filterMap popped
    s.pool = run (fun pool e => (process A pool e).1) (.new A) (events.map sample) ∧
      s.sent = emitted A (.new A) (events.map sample) ∧
      s.EVENTS_PROCESSED = UInt64.ofNat events.length ∧
      s.parents = events.map parentContext := by
  induction es using List.reverseRecOn with
  | nil => exact ⟨rfl, rfl, rfl, rfl⟩
  | append_singleton es e ih =>
    obtain ⟨hpool, hsent, hcount, hparents⟩ := ih
    obtain ⟨hpool', hsent', hcount', hparents'⟩ :=
      loop_next A toString (run (next A toString) (opened A B) es) e
    have hevents : (es ++ [e]).filterMap popped = es.filterMap popped ++ (popped e).toList := by
      rw [List.filterMap_append]
      cases he : popped e <;> simp [he]
    simp only [run_append, run_cons, run_nil, hevents]
    rw [hpool', hsent', hcount', hparents', hpool, hsent, hcount, hparents]
    refine ⟨?_, ?_, ?_, ?_⟩
    · cases popped e with
      | none => simp
      | some event => simp [run_append]
    · cases popped e with
      | none => simp
      | some event => simp [emitted_snoc]
    · rw [List.length_append, UInt64.ofNat_add]
    · rw [List.map_append]

theorem watched_run (A : Arithmetic F32) (toString : PrecisionEvent F32 → Option Text)
    (L : Lawful B cap) (es : List Event) :
    let s := run (next A toString) (opened A B) es
    Watched toString L s.tx s.viewers s.sent :=
  run_preserves (P := fun s : Celer B => Watched toString L s.tx s.viewers s.sent)
    (fun _ e h => watched_next h e) watched_opened es

/-- Every viewer gets what was sent since it subscribed, in order, each event once; it misses what
it is told that it misses, and of the latest events nothing once it has caught up. -/
theorem viewers_watch (A : Arithmetic F32) (toString : PrecisionEvent F32 → Option Text)
    (L : Lawful B TELEMETRY_CAPACITY) (es : List Event) :
    let s := run (next A toString) (opened A B) es
    ∀ viewer ∈ s.viewers,
      let since := s.sent.drop viewer.joined
      viewer.socket = viewer.seen.filterMap toString ∧ viewer.seen.Sublist since ∧
        (viewer.missed = 0 → viewer.seen <+: since) ∧
        (viewer.running = true → (B.recv s.tx viewer.rx).1 = .empty →
          viewer.seen.length + viewer.missed = since.length ∧
            since.drop (since.length - TELEMETRY_CAPACITY) <:+ viewer.seen) := by
  intro s viewer hviewer since
  have h : Watched toString L s.tx s.viewers s.sent := watched_run A toString L es
  have hkept := h.kept viewer hviewer
  refine ⟨hkept.socket, hkept.order, hkept.whole, ?_⟩
  intro hrunning hempty
  have hrecv := (h.tuned viewer hviewer hrunning).recv
  rw [hempty] at hrecv
  exact hrecv.2

theorem saturatingSub_toNat {a b : UInt64} (h : b.toNat ≤ a.toNat) :
    (saturatingSub a b).toNat = a.toNat - b.toNat := by
  have hle : b ≤ a := UInt64.le_iff_toNat_le.mpr h
  rw [saturatingSub, if_pos hle, UInt64.toNat_sub_of_le _ _ hle]

/-- What is shown from a moment on when `n` events have come since the last look: at each look after
some time, the events since the look before by that time. -/
def rates : ℕ → List Event → List ℚ
  | _, [] => []
  | n, .popped _ :: es => rates (n + 1) es
  | n, .upgraded :: es => rates n es
  | n, .polled _ _ :: es => rates n es
  | n, .ticked elapsed :: es => (if 0 < elapsed then [pps n elapsed] else []) ++ rates 0 es

theorem shown_run (s : Celer B) {es : List Event}
    (hlast : s.lastCount.toNat ≤ s.EVENTS_PROCESSED.toNat)
    (hfew : s.EVENTS_PROCESSED.toNat + (es.filterMap popped).length < 2 ^ 64) :
    (run (next A toString) s es).shown =
      s.shown ++ rates (s.EVENTS_PROCESSED.toNat - s.lastCount.toNat) es := by
  induction es generalizing s with
  | nil => exact (List.append_nil _).symm
  | cons e es ih =>
    rw [run_cons]
    cases e with
    | popped event =>
      have hcount : (es.filterMap popped).length + 1 =
          ((Event.popped event :: es).filterMap popped).length := rfl
      have hnext : (next A toString s (.popped event)).EVENTS_PROCESSED.toNat =
          s.EVENTS_PROCESSED.toNat + 1 := by
        simp only [next, take, UInt64.toNat_add, UInt64.toNat_one]
        omega
      rw [ih (next A toString s (.popped event)) (by rw [hnext]; exact Nat.le_succ_of_le hlast)
        (by rw [hnext]; omega), hnext, rates]
      have hone : s.EVENTS_PROCESSED.toNat + 1 - s.lastCount.toNat =
          s.EVENTS_PROCESSED.toNat - s.lastCount.toNat + 1 := by omega
      rw [← hone]
      rfl
    | upgraded => exact ih _ hlast hfew
    | polled v ok =>
      have hsame : (next A toString s (.polled v ok)).shown = s.shown ∧
          (next A toString s (.polled v ok)).lastCount = s.lastCount ∧
          (next A toString s (.polled v ok)).EVENTS_PROCESSED = s.EVENTS_PROCESSED := by
        simp only [next]
        split
        · split
          · exact ⟨rfl, rfl, rfl⟩
          · exact ⟨rfl, rfl, rfl⟩
        · exact ⟨rfl, rfl, rfl⟩
      obtain ⟨hshown, hcounted, hprocessed⟩ := hsame
      rw [ih _ (by rw [hcounted, hprocessed]; exact hlast) (by rw [hprocessed]; exact hfew),
        hshown, hcounted, hprocessed, rates]
    | ticked elapsed =>
      have hdelta := saturatingSub_toNat hlast
      rw [ih (next A toString s (.ticked elapsed)) le_rfl hfew, rates]
      simp only [next, hdelta, Nat.sub_self]
      split
      · rw [List.append_assoc]
      · rw [List.nil_append]

/-- Neither the viewers nor the monitor change what the loop does to its pool, what it sends, what
it counts and which parents it gives its spans; and the monitor shows the rates at which the events
came between its looks. -/
theorem loop_undisturbed (A : Arithmetic F32) (toString : PrecisionEvent F32 → Option Text)
    (B : Broadcast (PrecisionEvent F32)) (es : List Event)
    (few : (es.filterMap popped).length < 2 ^ 64) :
    let s := run (next A toString) (opened A B) es
    let events := es.filterMap popped
    s.pool = run (fun pool e => (process A pool e).1) (.new A) (events.map sample) ∧
      s.sent = emitted A (.new A) (events.map sample) ∧
      s.EVENTS_PROCESSED.toNat = events.length ∧ s.parents = events.map parentContext ∧
      s.shown = rates 0 es := by
  intro s events
  obtain ⟨hpool, hsent, hcount, hparents⟩ := loop_run A toString B es
  have hprocessed : s.EVENTS_PROCESSED.toNat = events.length := by
    rw [hcount, UInt64.toNat_ofNat_of_lt' few]
  have hshown : s.shown = [] ++ rates 0 es :=
    shown_run (opened A B) le_rfl (by rwa [show (opened A B).EVENTS_PROCESSED.toNat = 0 from rfl,
      Nat.zero_add])
  exact ⟨hpool, hsent, hprocessed, hparents, hshown⟩

def twoBrowsers : List Event :=
  [.upgraded, .popped { StrokeEvent.zeroed with sessionId := 1 },
    .popped { StrokeEvent.zeroed with
      sessionId := 1, action := ACTION_MOVE, x := 0x40400000, y := 0x40800000 },
    .upgraded, .polled 0 true, .ticked 250000000, .polled 1 true, .polled 0 false, .ticked 0]

example : rates 0 twoBrowsers = [8] := by decide +kernel

/-- What `serde_json` writes for 91.75 and for 5. -/
def numberText (x : F32) : Text :=
  if x = 0x42b78000 then "91.75".toList else if x = 0x40a00000 then "5.0".toList else []

def toJson (event : PrecisionEvent F32) : Option Text :=
  some ("\x7b\"session_id\":".toList ++ Nat.toDigits 10 event.sessionId.toNat ++
    ",\"precision\":".toList ++ numberText event.precision ++ ",\"speed\":".toList ++
    numberText event.speed ++ "\x7d".toList)

theorem viewers_watch_two_browsers :
    let B := logged (PrecisionEvent F32) TELEMETRY_CAPACITY
    let s := run (next tabulated toJson) (opened tabulated B) twoBrowsers
    ∀ viewer ∈ s.viewers,
      let since := s.sent.drop viewer.joined
      viewer.socket = viewer.seen.filterMap toJson ∧ viewer.seen.Sublist since ∧
        (viewer.missed = 0 → viewer.seen <+: since) ∧
        (viewer.running = true → (B.recv s.tx viewer.rx).1 = .empty →
          viewer.seen.length + viewer.missed = since.length ∧
            since.drop (since.length - TELEMETRY_CAPACITY) <:+ viewer.seen) :=
  viewers_watch tabulated toJson (loggedLawful _ _) twoBrowsers

theorem loop_undisturbed_two_browsers :
    let B := logged (PrecisionEvent F32) TELEMETRY_CAPACITY
    let s := run (next tabulated toJson) (opened tabulated B) twoBrowsers
    let events := twoBrowsers.filterMap popped
    s.pool = run (fun pool e => (process tabulated pool e).1) (.new tabulated)
        (events.map sample) ∧
      s.sent = emitted tabulated (.new tabulated) (events.map sample) ∧
      s.EVENTS_PROCESSED.toNat = events.length ∧ s.parents = events.map parentContext ∧
      s.shown = rates 0 twoBrowsers :=
  loop_undisturbed tabulated toJson _ twoBrowsers (by decide)

end CelerViewers

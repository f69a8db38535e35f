import Vanguard.AegisOwnership

/-! Connections that Chronos closes while they wait in the pool. A task takes the first one of
the pool without looking at it, and gives up when it fails. -/
namespace AegisIdlePipes

open RefCells StateMachines AegisCore AegisBorrows AegisOwnership

/-- What became of the request of one task. `lost` is that its connection was closed or failed
while the task had it. -/
structure Record where
  heard : Bool
  responded : Bool
  connectFailed : Bool
  clientFailed : Bool
  lost : Bool

/-- A core with the connections made so far and which of them are closed or have failed. -/
structure Watched where
  core : Core
  made : ℕ
  closed : ℕ → Bool
  record : ℕ → Record

def Record.blank : Record := ⟨false, false, false, false, false⟩

def opened : Watched := ⟨initial, 0, fun _ => false, fun _ => .blank⟩

inductive Event where
  | accept
  | start (t : ℕ)
  | connect (t : ℕ) (ok : Bool)
  | clientRead (t : ℕ) (result : Option Chunk)
  | backendWritten (t : ℕ) (ok : Bool)
  | backendRead (t : ℕ) (result : Option Chunk)
  | clientWritten (t : ℕ) (ok : Bool)
  | close (pipe : ℕ)

def Watched.resume (s : Watched) (e : AegisCore.Event) : Watched :=
  { s with core := AegisCore.next s.core e }

def Watched.note (s : Watched) (t : ℕ) (r : Record) : Watched :=
  { s with record := Function.update s.record t r }

/-- The connection is over, and a task that has it loses it now unless it was over before. -/
def Watched.lose (s : Watched) (p : ℕ) : Watched :=
  if s.closed p then s
  else
    { s with
      closed := Function.update s.closed p true
      record := fun t =>
        if pipeOf (s.core.tasks t) = some p then { s.record t with lost := true }
        else s.record t }

/-- Chronos may close any connection and accepts every new one that comes up. A read finds the
end of a connection only when it is closed. -/
def next (s : Watched) : Event → Watched
  | .accept => s.resume .accept
  | .start t => s.resume (.start t)
  | .connect t ok =>
    match s.core.tasks t with
    | .connecting _ =>
      if ok then { s with made := s.made + 1 }.resume (.connected t (some s.made))
      else (s.note t { s.record t with connectFailed := true }).resume (.connected t none)
    | _ => s
  | .clientRead t result =>
    match s.core.tasks t with
    | .readingClient _ _ =>
      match result with
      | some chunk =>
        (s.note t { s.record t with heard := decide (0 < chunk.bytes.length) }).resume
          (.clientRead t (some chunk))
      | none => (s.note t { s.record t with clientFailed := true }).resume (.clientRead t none)
    | _ => s
  | .backendWritten t ok =>
    match s.core.tasks t with
    | .writingBackend _ p =>
      if ok then s.resume (.backendWritten t true)
      else (s.lose p).resume (.backendWritten t false)
    | _ => s
  | .backendRead t result =>
    match s.core.tasks t with
    | .readingBackend _ p =>
      match result with
      | some chunk =>
        if 0 < chunk.bytes.length ∨ s.closed p = true then s.resume (.backendRead t (some chunk))
        else s
      | none => (s.lose p).resume (.backendRead t none)
    | _ => s
  | .clientWritten t ok =>
    match s.core.tasks t with
    | .writingClient _ _ =>
      (s.note t { s.record t with responded := ok, clientFailed := !ok }).resume
        (.clientWritten t ok)
    | _ => s
  | .close p => if p < s.made then s.lose p else s

def Over : Task → Prop
  | .finished => True
  | .panicked => True
  | _ => False

def Excused (r : Record) : Prop :=
  r.connectFailed = true ∨ r.clientFailed = true ∨ r.lost = true

/-- A task that was sent something by its client ends without a response only for a failed
connect, a failed client, or a connection that was open when the task took it. -/
def Accounted (s : Watched) : Prop :=
  ∀ t, Over (s.core.tasks t) → (s.record t).heard = true → (s.record t).responded = false →
    Excused (s.record t)

/-- The connection that a starting task takes from the pool is open. -/
def TakesOpen (s : Watched) : Event → Prop
  | .start t => s.core.tasks t = .spawned → s.core.connPool.flag = .unused →
    ∀ p ∈ s.core.connPool.value.head?, s.closed p = false
  | _ => True

instance (s : Watched) (e : Event) : Decidable (TakesOpen s e) := by
  cases e
  case start t => exact inferInstanceAs (Decidable (_ → _ → ∀ p ∈ _, _))
  all_goals exact isTrue trivial

def Unheard : Task → Prop
  | .absent => True
  | .spawned => True
  | .connecting _ => True
  | .readingClient _ _ => True
  | _ => False

def New : Task → Prop
  | .absent => True
  | .spawned => True
  | _ => False

structure Fine (closed : ℕ → Bool) (task : Task) (r : Record) : Prop where
  blank : New task → r = .blank
  live : ∀ p, pipeOf task = some p → closed p = true → r.lost = true
  unheard : Unheard task → r.heard = false
  ended : Over task → r.heard = true → r.responded = false → Excused r

structure Good (s : Watched) : Prop where
  guarded : Guarded s.core
  ownership : Ownership s.core s.made
  closed_made : ∀ p, s.closed p = true → p < s.made
  fine : ∀ t, Fine s.closed (s.core.tasks t) (s.record t)

variable {s : Watched} {t p : ℕ} {buf : Buffer}

theorem good_opened : Good opened := by
  constructor
  · exact guarded_initial
  · exact ownership_initial
  · intro p hp
    cases hp
  · intro t
    constructor
    · exact fun _ => rfl
    · intro p hp
      cases hp
    · exact fun _ => rfl
    · exact fun hover => absurd hover id

theorem Good.accounted (h : Good s) : Accounted s := fun t => (h.fine t).ended

theorem Good.move (h : Good s) {core : Core} {made : ℕ} {task : Task} {r : Record}
    (hguarded : Guarded core) (hownership : Ownership core made) (hmade : s.made ≤ made)
    (htasks : core.tasks = Function.update s.core.tasks t task) (hfine : Fine s.closed task r) :
    Good ⟨core, made, s.closed, Function.update s.record t r⟩ := by
  constructor
  · exact hguarded
  · exact hownership
  · exact fun p hp => Nat.lt_of_lt_of_le (h.closed_made p hp) hmade
  · intro u
    by_cases hu : u = t
    · subst hu
      simpa only [htasks, Function.update_self] using hfine
    · simpa only [htasks, Function.update_of_ne hu] using h.fine u

theorem good_lose (h : Good s) (hp : p < s.made) :
    Good (s.lose p) ∧ (s.lose p).core = s.core ∧ (s.lose p).made = s.made ∧
      ∀ t, pipeOf (s.core.tasks t) = some p → ((s.lose p).record t).lost = true := by
  rw [Watched.lose]
  split
  · next hclosed => exact ⟨h, rfl, rfl, fun t ht => (h.fine t).live p ht hclosed⟩
  · refine ⟨?_, rfl, rfl, fun t ht => by simp [ht]⟩
    constructor
    · exact h.guarded
    · exact h.ownership
    · intro q hq
      by_cases hqp : q = p
      · rw [hqp]
        exact hp
      · simp only [Function.update_of_ne hqp] at hq
        exact h.closed_made q hq
    · intro t
      have hold := h.fine t
      by_cases ht : pipeOf (s.core.tasks t) = some p
      · simp only [ht, if_true]
        refine ⟨?_, fun _ _ _ => rfl, hold.unheard, fun _ _ _ => Or.inr (Or.inr rfl)⟩
        intro hnew
        cases htask : s.core.tasks t with
        | absent =>
          rw [htask] at ht
          cases ht
        | spawned =>
          rw [htask] at ht
          cases ht
        | _ =>
          rw [htask] at hnew
          exact absurd hnew id
      · simp only [ht, if_false]
        refine ⟨hold.blank, ?_, hold.unheard, hold.ended⟩
        intro q hq hclosed
        have hqp : q ≠ p := by
          intro he
          rw [he] at hq
          exact ht hq
        rw [Function.update_of_ne hqp] at hclosed
        exact hold.live q hq hclosed

theorem Good.noted (h : Good s) {e : AegisCore.Event} (hnew : ∀ t p, e ≠ .connected t (some p))
    {task : Task} (htasks : (AegisCore.next s.core e).tasks = Function.update s.core.tasks t task)
    {r : Record} (hfine : Fine s.closed task r) : Good ((s.note t r).resume e) :=
  h.move (step_ok h.guarded e).guarded
    (h.ownership.next h.guarded le_rfl fun t p he => absurd he (hnew t p)) le_rfl htasks hfine

theorem Good.resume (h : Good s) {e : AegisCore.Event} (hnew : ∀ t p, e ≠ .connected t (some p))
    {task : Task} (htasks : (AegisCore.next s.core e).tasks = Function.update s.core.tasks t task)
    (hfine : Fine s.closed task (s.record t)) : Good (s.resume e) := by
  have hnoted := h.noted hnew htasks hfine
  have hsame : s.note t (s.record t) = s := by
    rw [Watched.note, Function.update_eq_self]
  rwa [hsame] at hnoted

theorem fine_unheard {closed : ℕ → Bool} {task : Task} {r : Record} (hold : ¬ New task)
    (hr : r.heard = false) (hlive : ∀ p, pipeOf task = some p → closed p = false) :
    Fine closed task r := by
  constructor
  · exact fun hnew => absurd hnew hold
  · intro p hp hclosed
    rw [hlive p hp] at hclosed
    cases hclosed
  · exact fun _ => hr
  · intro _ hheard
    rw [hr] at hheard
    cases hheard

theorem fine_busy {closed : ℕ → Bool} {task : Task} {r : Record} (hnew : ¬ New task)
    (hunheard : ¬ Unheard task) (hover : ¬ Over task)
    (hlive : ∀ p, pipeOf task = some p → closed p = true → r.lost = true) :
    Fine closed task r := by
  constructor
  · exact fun h => absurd h hnew
  · exact hlive
  · exact fun h => absurd h hunheard
  · exact fun h => absurd h hover

theorem fine_finished {closed : ℕ → Bool} {r : Record} (h : Excused r) :
    Fine closed .finished r := by
  constructor
  · exact fun hnew => absurd hnew id
  · intro p hp
    cases hp
  · exact fun hunheard => absurd hunheard id
  · exact fun _ _ _ => h

theorem giveBack_tasks (h : Good s) (buf : Buffer) :
    (s.core.giveBack t buf).tasks = Function.update s.core.tasks t .finished := by
  rw [giveBack_eq h.guarded.pool]
  rfl

theorem good_start (h : Good s) (hc : TakesOpen s (.start t)) (ht : s.core.tasks t = .spawned) :
    Good (s.resume (.start t)) := by
  have hunheard : (s.record t).heard = false := (h.fine t).unheard (by rw [ht]; trivial)
  have hstep : AegisCore.next s.core (.start t) = s.core.start t := by
    simp only [AegisCore.next, ht]
  have hnew : ∀ u p, AegisCore.Event.start t ≠ .connected u (some p) := by simp
  rcases h.guarded.connPool with ⟨hflag, _⟩ | ⟨hflag, _⟩
  · cases hv : s.core.connPool.value with
    | nil =>
      have htasks : (s.core.start t).tasks =
          Function.update s.core.tasks t (.connecting []) := by
        rw [start_cold h.guarded.pool hflag hv]
        rfl
      rw [← hstep] at htasks
      exact h.resume hnew htasks (fine_unheard id hunheard (by simp [pipeOf]))
    | cons p rest =>
      have htasks : (s.core.start t).tasks =
          Function.update s.core.tasks t (.readingClient [] p) := by
        rw [start_hot h.guarded.pool hflag hv]
        rfl
      rw [← hstep] at htasks
      refine h.resume hnew htasks (fine_unheard id hunheard ?_)
      intro q hq
      cases hq
      apply hc ht hflag
      rw [hv]
      rfl
  · have htasks : (s.core.start t).tasks = Function.update s.core.tasks t .panicked := by
      rw [start_guarded h.guarded.pool hflag]
      rfl
    rw [← hstep] at htasks
    exact h.resume hnew htasks (fine_unheard id hunheard (by simp [pipeOf]))

theorem good_connect (h : Good s) (ht : s.core.tasks t = .connecting buf) (ok : Bool) :
    Good (next s (.connect t ok)) := by
  have hunheard : (s.record t).heard = false := (h.fine t).unheard (by rw [ht]; trivial)
  simp only [next, ht]
  cases ok with
  | true =>
    have hopen : s.closed s.made = false := by
      apply Bool.eq_false_iff.mpr
      intro hclosed
      exact absurd (h.closed_made s.made hclosed) (lt_irrefl _)
    have hownership := h.ownership.next h.guarded (e := .connected t (some s.made))
      (Nat.le_succ s.made) fun u p he => by
        cases he
        exact ⟨le_rfl, Nat.lt_succ_self _⟩
    have htasks : (AegisCore.next s.core (.connected t (some s.made))).tasks =
        Function.update s.core.tasks t (.readingClient buf s.made) := by
      simp only [AegisCore.next, ht]
      rfl
    have hfine : Fine s.closed (.readingClient buf s.made) (s.record t) := by
      apply fine_unheard id hunheard
      intro q hq
      cases hq
      exact hopen
    have hmove := h.move (step_ok h.guarded _).guarded hownership (Nat.le_succ s.made) htasks hfine
    rwa [Function.update_eq_self] at hmove
  | false =>
    have htasks : (AegisCore.next s.core (.connected t none)).tasks =
        Function.update s.core.tasks t .finished := by
      simp only [AegisCore.next, ht]
      exact giveBack_tasks h buf
    exact h.noted (e := .connected t none) (by simp) htasks
      (fine_finished (Or.inl rfl))

theorem good_clientRead (h : Good s) (ht : s.core.tasks t = .readingClient buf p)
    (result : Option Chunk) : Good (next s (.clientRead t result)) := by
  have hold := h.fine t
  rw [ht] at hold
  have hunheard : (s.record t).heard = false := hold.unheard trivial
  simp only [next, ht]
  cases result with
  | none =>
    have htasks : (AegisCore.next s.core (.clientRead t none)).tasks =
        Function.update s.core.tasks t .finished := by
      simp only [AegisCore.next, ht]
      exact giveBack_tasks h (clear buf)
    exact h.noted (e := .clientRead t none) (by simp) htasks
      (fine_finished (Or.inr (Or.inl rfl)))
  | some chunk =>
    by_cases hpos : 0 < chunk.bytes.length
    · have htasks : (AegisCore.next s.core (.clientRead t (some chunk))).tasks =
          Function.update s.core.tasks t (.writingBackend (readInto buf chunk) p) := by
        simp only [AegisCore.next, ht, Core.clientRead, if_pos hpos]
        rfl
      exact h.noted (e := .clientRead t (some chunk)) (by simp) htasks
        (fine_busy id id id hold.live)
    · have htasks : (AegisCore.next s.core (.clientRead t (some chunk))).tasks =
          Function.update s.core.tasks t .finished := by
        simp only [AegisCore.next, ht, Core.clientRead, if_neg hpos]
        exact giveBack_tasks h _
      refine h.noted (e := .clientRead t (some chunk)) (by simp) htasks
        (fine_unheard id ?_ (by simp [pipeOf]))
      simpa using hpos

theorem good_giveUp (h : Good s) {task : Task} (ht : s.core.tasks t = task)
    (hpipe : pipeOf task = some p) {e : AegisCore.Event}
    (hnew : ∀ t p, e ≠ .connected t (some p))
    (hend : ∀ c : Core, c.tasks t = task → AegisCore.next c e = c.giveBack t (clear buf)) :
    Good ((s.lose p).resume e) := by
  have hmade : p < s.made := h.ownership.owned_made t p (by rw [ht, hpipe])
  obtain ⟨hgood, hcore, _, hlost⟩ := good_lose h hmade
  have htask : (s.lose p).core.tasks t = task := by rw [hcore, ht]
  have htasks : (AegisCore.next (s.lose p).core e).tasks =
      Function.update (s.lose p).core.tasks t .finished := by
    rw [hend _ htask]
    exact giveBack_tasks hgood (clear buf)
  exact hgood.resume hnew htasks (fine_finished (Or.inr (Or.inr (hlost t (by rw [ht, hpipe])))))

theorem good_backendWritten (h : Good s) (ht : s.core.tasks t = .writingBackend buf p)
    (ok : Bool) : Good (next s (.backendWritten t ok)) := by
  have hold := h.fine t
  rw [ht] at hold
  simp only [next, ht]
  cases ok with
  | true =>
    have htasks : (AegisCore.next s.core (.backendWritten t true)).tasks =
        Function.update s.core.tasks t (.readingBackend (clear buf) p) := by
      simp only [AegisCore.next, ht, Core.backendWritten]
      rfl
    exact h.resume (e := .backendWritten t true) (by simp) htasks
      (fine_busy id id id hold.live)
  | false =>
    apply good_giveUp h ht rfl (e := .backendWritten t false) (by simp)
    intro c hc
    simp only [AegisCore.next, hc]
    rfl

theorem good_backendRead (h : Good s) (ht : s.core.tasks t = .readingBackend buf p)
    (result : Option Chunk) : Good (next s (.backendRead t result)) := by
  have hold := h.fine t
  rw [ht] at hold
  simp only [next, ht]
  cases result with
  | none =>
    apply good_giveUp h ht rfl (e := .backendRead t none) (by simp)
    intro c hc
    simp only [AegisCore.next, hc]
    rfl
  | some chunk =>
    by_cases hpos : 0 < chunk.bytes.length
    · have htasks : (AegisCore.next s.core (.backendRead t (some chunk))).tasks =
          Function.update s.core.tasks t (.writingClient (readInto buf chunk) p) := by
        simp only [AegisCore.next, ht, Core.backendRead, if_pos hpos]
        rfl
      simp only [hpos, true_or, if_true]
      exact h.resume (e := .backendRead t (some chunk)) (by simp) htasks
        (fine_busy id id id hold.live)
    · simp only [hpos, false_or]
      split
      · next hclosed =>
        have htasks : (AegisCore.next s.core (.backendRead t (some chunk))).tasks =
            Function.update s.core.tasks t .finished := by
          simp only [AegisCore.next, ht, Core.backendRead, if_neg hpos]
          exact giveBack_tasks h _
        exact h.resume (e := .backendRead t (some chunk)) (by simp) htasks
          (fine_finished (Or.inr (Or.inr (hold.live p rfl hclosed))))
      · exact h

theorem good_clientWritten (h : Good s) (ht : s.core.tasks t = .writingClient buf p) (ok : Bool) :
    Good (next s (.clientWritten t ok)) := by
  obtain ⟨task, htasks, hend⟩ : ∃ task, (s.core.clientWritten t buf p).tasks =
      Function.update s.core.tasks t task ∧ (task = .finished ∨ task = .panicked) := by
    rcases h.guarded.connPool with ⟨hflag, _⟩ | ⟨hflag, _⟩
    · by_cases hroom : s.core.connPool.value.length < MAX_HOT_PIPES
      · rw [clientWritten_room h.guarded.pool hflag hroom]
        exact ⟨.finished, rfl, Or.inl rfl⟩
      · rw [clientWritten_full h.guarded.pool hflag hroom]
        exact ⟨.finished, rfl, Or.inl rfl⟩
    · rw [clientWritten_guarded h.guarded.pool hflag]
      exact ⟨.panicked, rfl, Or.inr rfl⟩
  have hstep : AegisCore.next s.core (.clientWritten t ok) = s.core.clientWritten t buf p := by
    simp only [AegisCore.next, ht]
  rw [← hstep] at htasks
  simp only [next, ht]
  refine h.noted (e := .clientWritten t ok) (by simp) htasks ?_
  -- Either the response went out or the client failed.
  have hexcused : ∀ r : Record, r.responded = ok → r.clientFailed = !ok → r.responded = false →
      Excused r := by
    intro r hok hfailed hresponded
    rw [hok] at hresponded
    rw [hresponded] at hfailed
    exact Or.inr (Or.inl hfailed)
  rcases hend with rfl | rfl
  · exact ⟨fun hnew => absurd hnew id, by simp [pipeOf],
      fun hunheard => absurd hunheard id, fun _ _ => hexcused _ rfl rfl⟩
  · exact ⟨fun hnew => absurd hnew id, by simp [pipeOf],
      fun hunheard => absurd hunheard id, fun _ _ => hexcused _ rfl rfl⟩

theorem good_next (h : Good s) {e : Event} (hc : TakesOpen s e) : Good (next s e) := by
  cases e with
  | accept =>
    have hblank : s.record s.core.accepted = .blank := by
      apply (h.fine s.core.accepted).blank
      rw [h.guarded.absent s.core.accepted le_rfl]
      trivial
    have hfine : Fine s.closed .spawned (s.record s.core.accepted) := by
      rw [hblank]
      exact ⟨fun _ => rfl, by simp [pipeOf], fun _ => rfl, fun hover => absurd hover id⟩
    exact h.resume (e := .accept) (by simp) rfl hfine
  | start t =>
    cases ht : s.core.tasks t with
    | spawned => exact good_start h hc ht
    | _ => simpa [next, Watched.resume, AegisCore.next, ht] using h
  | connect t ok =>
    cases ht : s.core.tasks t with
    | connecting buf => exact good_connect h ht ok
    | _ => simpa only [next, ht] using h
  | clientRead t result =>
    cases ht : s.core.tasks t with
    | readingClient buf p => exact good_clientRead h ht result
    | _ => simpa only [next, ht] using h
  | backendWritten t ok =>
    cases ht : s.core.tasks t with
    | writingBackend buf p => exact good_backendWritten h ht ok
    | _ => simpa only [next, ht] using h
  | backendRead t result =>
    cases ht : s.core.tasks t with
    | readingBackend buf p => exact good_backendRead h ht result
    | _ => simpa only [next, ht] using h
  | clientWritten t ok =>
    cases ht : s.core.tasks t with
    | writingClient buf p => exact good_clientWritten h ht ok
    | _ => simpa only [next, ht] using h
  | close p =>
    simp only [next]
    split
    · next hmade => exact (good_lose h hmade).1
    · exact h

def byteChunk : Chunk := ⟨[0x50], by decide⟩

def endChunk : Chunk := ⟨[], by decide⟩

/-- A start that takes a closed connection can cost its client the answer: the write still
works, and the read finds the end. -/
theorem closed_pipe_costs_answer (h : Good s) {e : Event} (hc : ¬ TakesOpen s e) :
    ∃ bs, ¬ Accounted (run next (next s e) bs) := by
  cases e with
  | start t =>
    simp only [TakesOpen, Classical.not_imp, not_forall, Bool.not_eq_false] at hc
    obtain ⟨ht, hflag, p, hp, hclosed⟩ := hc
    obtain ⟨rest, hv⟩ := List.head?_eq_some_iff.mp hp
    have hblank : s.record t = .blank := (h.fine t).blank (by rw [ht]; trivial)
    have hstart := start_hot (t := t) h.guarded.pool hflag hv
    refine ⟨[.clientRead t (some byteChunk), .backendWritten t true,
      .backendRead t (some endChunk)], ?_⟩
    intro haccounted
    have hend := haccounted t
    simp [next, Watched.resume, Watched.note, AegisCore.next, ht, hstart, Core.clientRead,
      byteChunk, Core.backendWritten, Core.backendRead, endChunk, hclosed, hblank, Record.blank,
      giveBack_eq, Core.takeBuffer, Core.setTask, Over, Excused] at hend
  | _ => exact absurd trivial hc

/-- While no task takes a connection that was closed in the pool, the pool costs no client its
answer. The first time one does, the run can go on to an end that has no excuse. -/
theorem idle_pipes_answered (es : List Event) (hc : StepsMeet next TakesOpen opened es) :
    Accounted (run next opened es) ∧ ∀ e, ¬ TakesOpen (run next opened es) e →
      ∃ bs, ¬ Accounted (run next (next (run next opened es) e) bs) := by
  have hgood : Good (run next opened es) :=
    run_preserves_of_steps (P := Good) (fun _ _ hs he => good_next hs he) good_opened hc
  constructor
  · exact hgood.accounted
  · intro e he
    exact closed_pipe_costs_answer hgood he

def pooledRun : List Event :=
  [.accept, .start 0, .connect 0 true, .clientRead 0 (some byteChunk), .backendWritten 0 true,
    .backendRead 0 (some byteChunk), .clientWritten 0 true, .accept]

def closedLaterRun : List Event :=
  pooledRun ++ [.start 1, .clientRead 1 (some byteChunk), .close 0, .backendWritten 1 true,
    .backendRead 1 (some endChunk)]

/-- Chronos closes the connection while it waits in the pool. The write of the second task still
works. -/
def closedIdleRun : List Event :=
  pooledRun ++ [.close 0, .start 1, .clientRead 1 (some byteChunk), .backendWritten 1 true,
    .backendRead 1 (some endChunk)]

theorem idle_pipes_answered_closed_later :
    StepsMeet next TakesOpen opened closedLaterRun ∧
      (Accounted (run next opened closedLaterRun) ∧
        ∀ e, ¬ TakesOpen (run next opened closedLaterRun) e →
          ∃ bs, ¬ Accounted (run next (next (run next opened closedLaterRun) e) bs)) := by
  have hc : StepsMeet next TakesOpen opened closedLaterRun := by decide
  exact ⟨hc, idle_pipes_answered closedLaterRun hc⟩

theorem closed_idle_pipe_costs_answer : ¬ ∀ es, Accounted (run next opened es) := by
  intro h
  have hend := h closedIdleRun 1
  have hcore : (run next opened closedIdleRun).core.tasks 1 = .finished := by decide
  have hheard : ((run next opened closedIdleRun).record 1).heard = true := by decide
  rw [hcore] at hend
  rcases hend trivial hheard (by decide) with h | h | h
  · revert h
    decide
  · revert h
    decide
  · revert h
    decide

end AegisIdlePipes

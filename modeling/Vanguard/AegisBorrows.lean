import Vanguard.AegisCore

/-! Borrows on a core. The only guard that lives across an await point is the one of the task
that awaits its `connect`, and any other task which reaches the connection pool then panics. -/
namespace AegisBorrows

open RefCells StateMachines AegisCore

def Connecting : Task → Prop
  | .connecting _ => True
  | _ => False

/-- The steps in which a task borrows the connection pool: its first one, and the one after
the response was written. -/
def ReachesConnPool (c : Core) : Event → Prop
  | .start t => c.tasks t = .spawned
  | .clientWritten t _ => ∃ buf pipe, c.tasks t = .writingClient buf pipe
  | _ => False

/-- No task reaches the connection pool while another one awaits its `connect`. -/
def Undisturbed (c : Core) (e : Event) : Prop :=
  ReachesConnPool c e → ∀ u, ¬ Connecting (c.tasks u)

def Calm (c : Core) : Prop := ∀ t, c.tasks t ≠ .panicked

/-- The guard of the connection pool is held just by the one task that awaits its `connect`. -/
structure Guarded (c : Core) : Prop where
  pool : c.pool.flag = .unused
  connPool : c.connPool.flag = .unused ∧ (∀ u, ¬ Connecting (c.tasks u)) ∨
    c.connPool.flag = .writing ∧
      ∃ t, Connecting (c.tasks t) ∧ ∀ u, Connecting (c.tasks u) → u = t
  absent : ∀ t, c.accepted ≤ t → c.tasks t = .absent

structure Moved (c c' : Core) (t : ℕ) (task : Task) : Prop where
  tasks : c'.tasks = Function.update c.tasks t task
  pool : c'.pool.flag = .unused
  accepted : c'.accepted = c.accepted
  present : c.tasks t ≠ .absent

variable {c c' : Core} {t : ℕ} {task : Task}

theorem guarded_initial : Guarded initial := by
  constructor
  · rfl
  · exact Or.inl ⟨rfl, fun _ h => h⟩
  · intro t _
    rfl

theorem connecting_update (h : c'.tasks = Function.update c.tasks t task)
    (hbefore : ¬ Connecting (c.tasks t)) (hafter : ¬ Connecting task) (u : ℕ) :
    Connecting (c'.tasks u) ↔ Connecting (c.tasks u) := by
  rw [h]
  by_cases hu : u = t
  · subst hu
    rw [Function.update_self]
    exact iff_of_false hafter hbefore
  · rw [Function.update_of_ne hu]

theorem calm_update (h : c'.tasks = Function.update c.tasks t task)
    (hbefore : c.tasks t ≠ .panicked) : Calm c' ↔ Calm c ∧ task ≠ .panicked := by
  constructor
  · intro hcalm
    constructor
    · intro u
      by_cases hu : u = t
      · subst hu
        exact hbefore
      · have := hcalm u
        rwa [h, Function.update_of_ne hu] at this
    · have := hcalm t
      rwa [h, Function.update_self] at this
  · rintro ⟨hcalm, htask⟩ u
    rw [h]
    by_cases hu : u = t
    · subst hu
      rwa [Function.update_self]
    · rw [Function.update_of_ne hu]
      exact hcalm u

theorem Moved.absent (h : Moved c c' t task) (hc : Guarded c) :
    ∀ u, c'.accepted ≤ u → c'.tasks u = .absent := by
  intro u hu
  rw [h.accepted] at hu
  have ht : u ≠ t := by
    intro he
    subst he
    exact h.present (hc.absent u hu)
  rw [h.tasks, Function.update_of_ne ht]
  exact hc.absent u hu

theorem Moved.guarded (h : Moved c c' t task) (hc : Guarded c)
    (hflag : c'.connPool.flag = c.connPool.flag) (hbefore : ¬ Connecting (c.tasks t))
    (hafter : ¬ Connecting task) : Guarded c' := by
  refine ⟨h.pool, ?_, h.absent hc⟩
  simp only [hflag, connecting_update h.tasks hbefore hafter]
  exact hc.connPool

structure StepOk (c : Core) (e : Event) : Prop where
  guarded : Guarded (next c e)
  calm_iff : Calm (next c e) ↔ Calm c ∧ Undisturbed c e

theorem undisturbed_of_not {e : Event} (h : ¬ ReachesConnPool c e) : Undisturbed c e :=
  fun hr => absurd hr h

theorem Moved.stepOk {e : Event} (h : Moved c (next c e) t task) (hguarded : Guarded (next c e))
    (hold : c.tasks t ≠ .panicked) (hpanic : task ≠ .panicked ↔ Undisturbed c e) :
    StepOk c e := by
  refine ⟨hguarded, ?_⟩
  rw [calm_update h.tasks hold]
  exact and_congr_right fun _ => hpanic

theorem Moved.away {e : Event} (hc : Guarded c) (h : Moved c (next c e) t task)
    (hflag : (next c e).connPool.flag = c.connPool.flag) (hbefore : ¬ Connecting (c.tasks t))
    (hafter : ¬ Connecting task) (hold : c.tasks t ≠ .panicked) (hnew : task ≠ .panicked)
    (hr : ¬ ReachesConnPool c e) : StepOk c e := by
  apply h.stepOk (h.guarded hc hflag hbefore hafter) hold
  exact iff_of_true hnew (undisturbed_of_not hr)

theorem idle_step {e : Event} (hc : Guarded c) (h : next c e = c)
    (hr : ¬ ReachesConnPool c e) : StepOk c e := by
  constructor
  · rw [h]
    exact hc
  · rw [h]
    exact (and_iff_left (undisturbed_of_not hr)).symm

theorem accept_step (hc : Guarded c) : StepOk c .accept := by
  have habsent := hc.absent c.accepted le_rfl
  have htasks : (next c .accept).tasks = Function.update c.tasks c.accepted .spawned := rfl
  have hbefore : ¬ Connecting (c.tasks c.accepted) := by
    rw [habsent]
    exact fun h => h
  constructor
  · constructor
    · exact hc.pool
    · simp only [connecting_update htasks hbefore (fun h => h)]
      exact hc.connPool
    · intro u hu
      have hlt : c.accepted < u := hu
      rw [htasks, Function.update_of_ne (Nat.ne_of_gt hlt)]
      exact hc.absent u (Nat.le_of_lt hlt)
  · have hu : Undisturbed c .accept := undisturbed_of_not (fun h => h)
    have hold : c.tasks c.accepted ≠ .panicked := by
      rw [habsent]
      simp
    rw [calm_update htasks hold]
    exact and_congr_right fun _ => iff_of_true (by simp) hu

theorem moved_giveBack (hc : Guarded c) (hold : c.tasks t ≠ .absent) (buf : Buffer) :
    Moved c (c.giveBack t buf) t .finished := by
  rw [giveBack_eq hc.pool]
  exact ⟨rfl, rfl, rfl, hold⟩

theorem connPool_giveBack (hc : Guarded c) (buf : Buffer) :
    (c.giveBack t buf).connPool = c.connPool := by
  rw [giveBack_eq hc.pool]
  rfl

theorem guarded_connecting (hc : Guarded c) (hfree : ∀ u, ¬ Connecting (c.tasks u))
    (h : Moved c c' t (.connecting [])) (hflag : c'.connPool.flag = .writing) : Guarded c' := by
  constructor
  · exact h.pool
  · right
    refine ⟨hflag, t, ?_, ?_⟩
    · rw [h.tasks, Function.update_self]
      trivial
    · intro u hu
      by_contra hne
      rw [h.tasks, Function.update_of_ne hne] at hu
      exact hfree u hu
  · exact h.absent hc

theorem guarded_connected (hc : Guarded c) (hbefore : Connecting (c.tasks t))
    (h : Moved c c' t task) (hafter : ¬ Connecting task) (hflag : c'.connPool.flag = .unused) :
    Guarded c' := by
  refine ⟨h.pool, Or.inl ⟨hflag, ?_⟩, h.absent hc⟩
  intro u hu
  rcases hc.connPool with ⟨_, hnone⟩ | ⟨_, v, _, honly⟩
  · exact hnone t hbefore
  · by_cases hut : u = t
    · subst hut
      rw [h.tasks, Function.update_self] at hu
      exact hafter hu
    · rw [h.tasks, Function.update_of_ne hut] at hu
      exact hut ((honly u hu).trans (honly t hbefore).symm)

theorem start_step (hc : Guarded c) (ht : c.tasks t = .spawned) : StepOk c (.start t) := by
  have hnext : next c (.start t) = c.start t := by rw [next, ht]
  have hpresent : c.tasks t ≠ .absent := by simp [ht]
  have hold : c.tasks t ≠ .panicked := by simp [ht]
  have hbefore : ¬ Connecting (c.tasks t) := by simp [ht, Connecting]
  rcases hc.connPool with ⟨hflag, hnone⟩ | ⟨hflag, u, hu, _⟩
  · have hundisturbed : Undisturbed c (.start t) := fun _ => hnone
    cases hv : c.connPool.value with
    | nil =>
      rw [start_cold hc.pool hflag hv] at hnext
      have hmoved : Moved c (next c (.start t)) t (.connecting []) := by
        rw [hnext]
        exact ⟨rfl, rfl, rfl, hpresent⟩
      apply hmoved.stepOk _ hold (iff_of_true (by simp) hundisturbed)
      apply guarded_connecting hc hnone hmoved
      rw [hnext]
      rfl
    | cons pipe rest =>
      rw [start_hot hc.pool hflag hv] at hnext
      have hmoved : Moved c (next c (.start t)) t (.readingClient [] pipe) := by
        rw [hnext]
        exact ⟨rfl, rfl, rfl, hpresent⟩
      apply hmoved.stepOk _ hold (iff_of_true (by simp) hundisturbed)
      apply hmoved.guarded hc _ hbefore (fun h => h)
      rw [hnext, hflag]
      rfl
  · rw [start_guarded hc.pool hflag] at hnext
    have hmoved : Moved c (next c (.start t)) t .panicked := by
      rw [hnext]
      exact ⟨rfl, rfl, rfl, hpresent⟩
    have hdisturbed : ¬ Undisturbed c (.start t) := fun h => h ht u hu
    apply hmoved.stepOk _ hold (iff_of_false (fun h => h rfl) hdisturbed)
    apply hmoved.guarded hc _ hbefore (fun h => h)
    rw [hnext]
    rfl

theorem clientWritten_step (hc : Guarded c) {buf : Buffer} {pipe : ℕ} {ok : Bool}
    (ht : c.tasks t = .writingClient buf pipe) : StepOk c (.clientWritten t ok) := by
  have hnext : next c (.clientWritten t ok) = c.clientWritten t buf pipe := by rw [next, ht]
  have hpresent : c.tasks t ≠ .absent := by simp [ht]
  have hold : c.tasks t ≠ .panicked := by simp [ht]
  have hbefore : ¬ Connecting (c.tasks t) := by simp [ht, Connecting]
  rcases hc.connPool with ⟨hflag, hnone⟩ | ⟨hflag, u, hu, _⟩
  · have hmoved : Moved c (next c (.clientWritten t ok)) t .finished ∧
        (next c (.clientWritten t ok)).connPool.flag = c.connPool.flag := by
      by_cases hroom : c.connPool.value.length < MAX_HOT_PIPES
      · rw [hnext, clientWritten_room hc.pool hflag hroom, hflag]
        exact ⟨⟨rfl, rfl, rfl, hpresent⟩, rfl⟩
      · rw [hnext, clientWritten_full hc.pool hflag hroom]
        exact ⟨⟨rfl, rfl, rfl, hpresent⟩, rfl⟩
    apply hmoved.1.stepOk _ hold (iff_of_true (by simp) fun _ => hnone)
    exact hmoved.1.guarded hc hmoved.2 hbefore (fun h => h)
  · rw [clientWritten_guarded hc.pool hflag] at hnext
    have hmoved : Moved c (next c (.clientWritten t ok)) t .panicked := by
      rw [hnext]
      exact ⟨rfl, rfl, rfl, hpresent⟩
    have hdisturbed : ¬ Undisturbed c (.clientWritten t ok) := fun h => h ⟨buf, pipe, ht⟩ u hu
    apply hmoved.stepOk _ hold (iff_of_false (fun h => h rfl) hdisturbed)
    apply hmoved.guarded hc _ hbefore (fun h => h)
    rw [hnext]
    rfl

theorem connected_step (hc : Guarded c) {buf : Buffer} {result : Option ℕ}
    (ht : c.tasks t = .connecting buf) : StepOk c (.connected t result) := by
  have hnext : next c (.connected t result) = c.connected t buf result := by rw [next, ht]
  have hpresent : c.tasks t ≠ .absent := by simp [ht]
  have hold : c.tasks t ≠ .panicked := by simp [ht]
  have hbefore : Connecting (c.tasks t) := by simp [ht, Connecting]
  have hundisturbed : Undisturbed c (.connected t result) := undisturbed_of_not fun h => h
  cases result with
  | some pipe =>
    have hmoved : Moved c (next c (.connected t (some pipe))) t (.readingClient buf pipe) := by
      rw [hnext]
      exact ⟨rfl, hc.pool, rfl, hpresent⟩
    apply hmoved.stepOk _ hold (iff_of_true (by simp) hundisturbed)
    apply guarded_connected hc hbefore hmoved (fun h => h)
    rw [hnext]
    rfl
  | none =>
    rw [Core.connected, giveBack_eq hc.pool] at hnext
    have hmoved : Moved c (next c (.connected t none)) t .finished := by
      rw [hnext]
      exact ⟨rfl, rfl, rfl, hpresent⟩
    apply hmoved.stepOk _ hold (iff_of_true (by simp) hundisturbed)
    apply guarded_connected hc hbefore hmoved (fun h => h)
    rw [hnext]
    rfl

def Transfers (c c' : Core) (t : ℕ) : Prop :=
  (∃ n task, ¬ Connecting task ∧ task ≠ .panicked ∧
    c' = { c with totalBytes := n }.setTask t task) ∨ ∃ buf, c' = c.giveBack t buf

theorem clientRead_transfers (buf : Buffer) (pipe : ℕ) (result : Option Chunk) :
    Transfers c (c.clientRead t buf pipe result) t := by
  cases result with
  | none => exact Or.inr ⟨_, rfl⟩
  | some chunk =>
    rw [Core.clientRead]
    split
    · exact Or.inl ⟨_, .writingBackend (readInto buf chunk) pipe, fun h => h, (by simp), rfl⟩
    · exact Or.inr ⟨_, rfl⟩

theorem backendWritten_transfers (buf : Buffer) (pipe : ℕ) (ok : Bool) :
    Transfers c (c.backendWritten t buf pipe ok) t := by
  cases ok with
  | true =>
    exact Or.inl ⟨c.totalBytes, .readingBackend (clear buf) pipe, fun h => h, (by simp), rfl⟩
  | false => exact Or.inr ⟨_, rfl⟩

theorem backendRead_transfers (buf : Buffer) (pipe : ℕ) (result : Option Chunk) :
    Transfers c (c.backendRead t buf pipe result) t := by
  cases result with
  | none => exact Or.inr ⟨_, rfl⟩
  | some chunk =>
    rw [Core.backendRead]
    split
    · exact Or.inl ⟨_, .writingClient (readInto buf chunk) pipe, fun h => h, (by simp), rfl⟩
    · exact Or.inr ⟨_, rfl⟩

theorem transfer_step (hc : Guarded c) {e : Event} (hbefore : ¬ Connecting (c.tasks t))
    (hpresent : c.tasks t ≠ .absent) (hold : c.tasks t ≠ .panicked)
    (hr : ¬ ReachesConnPool c e) (hnext : Transfers c (next c e) t) : StepOk c e := by
  rcases hnext with ⟨n, task, hafter, hnew, hnext⟩ | ⟨buf, hnext⟩
  · apply Moved.away (t := t) hc _ _ hbefore hafter hold hnew hr
    · rw [hnext]
      exact ⟨rfl, hc.pool, rfl, hpresent⟩
    · rw [hnext]
      rfl
  · have hfinished : ¬ Connecting .finished := fun h => h
    apply Moved.away (t := t) hc _ _ hbefore hfinished hold (by simp) hr
    · rw [hnext]
      exact moved_giveBack hc hpresent buf
    · rw [hnext, connPool_giveBack hc]

theorem step_ok (hc : Guarded c) (e : Event) : StepOk c e := by
  cases e with
  | accept => exact accept_step hc
  | start t =>
    cases ht : c.tasks t with
    | spawned => exact start_step hc ht
    | _ => exact idle_step hc (by rw [next, ht]) (by simp [ReachesConnPool, ht])
  | connected t result =>
    cases ht : c.tasks t with
    | connecting buf => exact connected_step hc ht
    | _ => exact idle_step hc (by rw [next, ht]) (fun h => h)
  | clientRead t result =>
    cases ht : c.tasks t with
    | readingClient buf pipe =>
      apply transfer_step (t := t) hc
      · simp [ht, Connecting]
      · simp [ht]
      · simp [ht]
      · simp [ReachesConnPool]
      · rw [next, ht]
        exact clientRead_transfers buf pipe result
    | _ => exact idle_step hc (by rw [next, ht]) (fun h => h)
  | backendWritten t ok =>
    cases ht : c.tasks t with
    | writingBackend buf pipe =>
      apply transfer_step (t := t) hc
      · simp [ht, Connecting]
      · simp [ht]
      · simp [ht]
      · simp [ReachesConnPool]
      · rw [next, ht]
        exact backendWritten_transfers buf pipe ok
    | _ => exact idle_step hc (by rw [next, ht]) (fun h => h)
  | backendRead t result =>
    cases ht : c.tasks t with
    | readingBackend buf pipe =>
      apply transfer_step (t := t) hc
      · simp [ht, Connecting]
      · simp [ht]
      · simp [ht]
      · simp [ReachesConnPool]
      · rw [next, ht]
        exact backendRead_transfers buf pipe result
    | _ => exact idle_step hc (by rw [next, ht]) (fun h => h)
  | clientWritten t ok =>
    cases ht : c.tasks t with
    | writingClient buf pipe => exact clientWritten_step hc ht
    | _ => exact idle_step hc (by rw [next, ht]) (by simp [ReachesConnPool, ht])

/-- A run ends without a panic just when each of its steps was undisturbed. -/
theorem calm_iff_undisturbed (es : List Event) :
    Calm (run next initial es) ↔ StepsMeet next Undisturbed initial es := by
  have hall : ∀ c, Guarded c →
      (Calm (run next c es) ↔ Calm c ∧ StepsMeet next Undisturbed c es) := by
    induction es with
    | nil => intro c _; simp
    | cons e es ih =>
      intro c hc
      rw [run_cons, ih _ (step_ok hc e).guarded, (step_ok hc e).calm_iff, stepsMeet_cons, and_assoc]
  have hcalm : Calm initial := fun _ => by simp [initial]
  rw [hall initial guarded_initial]
  exact and_iff_right hcalm

/-- Two connections on an empty pool: the second task starts while the first one connects. -/
theorem second_start_panics : ¬ Calm (run next initial [.accept, .accept, .start 0, .start 1]) := by
  intro h
  exact h 1 (by decide)

end AegisBorrows

import Mathlib.Data.Finset.Card
import Mathlib.Data.Finset.Range
import Vanguard.AegisOwnership

/-! What a core has lent out. A task takes one buffer when it starts and gives it back when it
ends, whichever way it ends; the gauge and the connections to Chronos follow it. -/
namespace AegisAccounts

open RefCells StateMachines AegisCore AegisBorrows AegisOwnership

def bufferOf : Task → Option Buffer
  | .connecting buf => some buf
  | .readingClient buf _ => some buf
  | .writingBackend buf _ => some buf
  | .readingBackend buf _ => some buf
  | .writingClient buf _ => some buf
  | _ => none

/-- A task that has run its first step and not yet its last one. -/
def underway : Task → Bool
  | .absent => false
  | .spawned => false
  | .finished => false
  | .panicked => false
  | _ => true

def holding (c : Core) : Finset ℕ :=
  (Finset.range c.accepted).filter fun t => (bufferOf (c.tasks t)).isSome

def unfinished (c : Core) : Finset ℕ :=
  (Finset.range c.accepted).filter fun t => underway (c.tasks t)

def taskOf (c : Core) : Event → ℕ
  | .accept => c.accepted
  | .start t => t
  | .connected t _ => t
  | .clientRead t _ => t
  | .backendWritten t _ => t
  | .backendRead t _ => t
  | .clientWritten t _ => t

/-- A core with a number that no connection has had, and the buffers which each of its tasks
has put at the back of the pool. -/
structure Ledger where
  core : Core
  fresh : ℕ
  returned : ℕ → List Buffer

def opened : Ledger := ⟨initial, 0, fun _ => []⟩

/-- A `connect` that succeeds makes a connection which was not there before. -/
def Ledger.number (s : Ledger) : Event → Event
  | .connected t (some _) => .connected t (some s.fresh)
  | e => e

def step (s : Ledger) (e : Event) : Ledger :=
  let core := next s.core (s.number e)
  let t := taskOf s.core e
  { core := core
    fresh := s.fresh + 1
    returned := Function.update s.returned t
      (s.returned t ++ core.pool.value.drop s.core.pool.value.length) }

/-- What one step of the task `t` does to the accounts of its core. -/
inductive Entry (c c' : Core) (t : ℕ) (task : Task) : Prop where
  | keep (hpool : c'.pool.value = c.pool.value) (hfallbacks : c'.fallbacks = c.fallbacks)
      (hactive : c'.activeConnections = c.activeConnections)
      (hheld : (bufferOf task).isSome = (bufferOf (c.tasks t)).isSome)
      (hended : task = .finished ↔ c.tasks t = .finished)
      (hempty : ∀ buf, task = .connecting buf → c.tasks t = .connecting buf)
  | take (hpool : c'.pool.value = c.pool.value.tail)
      (hfallbacks : c'.fallbacks = c.fallbacks + if c.pool.value.head?.isNone then 1 else 0)
      (hactive : c'.activeConnections = c.activeConnections + 1)
      (hold : c.tasks t = .spawned) (hnew : bufferOf task = some [])
  | give (buf : Buffer) (hpool : c'.pool.value = c.pool.value ++ [buf])
      (hfallbacks : c'.fallbacks = c.fallbacks)
      (hactive : c'.activeConnections = c.activeConnections - 1)
      (hold : (bufferOf (c.tasks t)).isSome) (hnew : task = .finished)
      (hempty : buf = [] ∨ c.tasks t = .connecting buf)
  | panic (hnew : task = .panicked) (hfallbacks : c'.fallbacks ≠ c.fallbacks → c.pool.value = [])

def Enters (c c' : Core) (t : ℕ) : Prop :=
  ∃ task, c'.tasks = Function.update c.tasks t task ∧ Entry c c' t task

variable {c : Core} {t : ℕ} {buf : Buffer} {pipe : ℕ}

theorem enters_idle (c : Core) (t : ℕ) : Enters c c t :=
  ⟨c.tasks t, (Function.update_eq_self t c.tasks).symm,
    .keep rfl rfl rfl rfl Iff.rfl fun _ h => h⟩

theorem pool_of_fallback (h : c.takeBuffer.fallbacks ≠ c.fallbacks) : c.pool.value = [] := by
  cases hv : c.pool.value with
  | nil => rfl
  | cons buf bufs => simp [Core.takeBuffer, hv] at h

theorem enters_start (hc : Guarded c) (ht : c.tasks t = .spawned) : Enters c (c.start t) t := by
  rcases hc.connPool with ⟨hflag, _⟩ | ⟨hflag, _⟩
  · cases hv : c.connPool.value with
    | nil =>
      rw [start_cold hc.pool hflag hv]
      exact ⟨_, rfl, .take rfl rfl rfl ht rfl⟩
    | cons pipe rest =>
      rw [start_hot hc.pool hflag hv]
      exact ⟨_, rfl, .take rfl rfl rfl ht rfl⟩
  · rw [start_guarded hc.pool hflag]
    exact ⟨_, rfl, .panic rfl pool_of_fallback⟩

theorem enters_giveBack (hc : Guarded c) (hold : (bufferOf (c.tasks t)).isSome)
    (hempty : buf = [] ∨ c.tasks t = .connecting buf) : Enters c (c.giveBack t buf) t := by
  rw [giveBack_eq hc.pool]
  exact ⟨_, rfl, .give buf rfl rfl rfl hold rfl hempty⟩

theorem enters_connected (hc : Guarded c) (ht : c.tasks t = .connecting buf)
    (result : Option ℕ) : Enters c (c.connected t buf result) t := by
  have hold : (bufferOf (c.tasks t)).isSome := by simp [ht, bufferOf]
  cases result with
  | some pipe =>
    refine ⟨.readingClient buf pipe, rfl, .keep rfl rfl rfl ?_ ?_ ?_⟩
    · simp [ht, bufferOf]
    · simp [ht]
    · simp
  | none =>
    rw [Core.connected, giveBack_eq hc.pool]
    exact ⟨_, rfl, .give buf rfl rfl rfl hold rfl (Or.inr ht)⟩

theorem enters_transfer {n : ℕ} {task : Task} (hold : (bufferOf (c.tasks t)).isSome)
    (hnew : (bufferOf task).isSome) (hconnecting : ¬ Connecting task) :
    Enters c ({ c with totalBytes := n }.setTask t task) t := by
  refine ⟨task, rfl, .keep rfl rfl rfl ?_ ?_ ?_⟩
  · rw [hold, hnew]
  · constructor
    · intro h
      simp [h, bufferOf] at hnew
    · intro h
      simp [h, bufferOf] at hold
  · intro buf h
    rw [h] at hconnecting
    exact absurd trivial hconnecting

theorem enters_clientWritten (hc : Guarded c) (ht : c.tasks t = .writingClient buf pipe) :
    Enters c (c.clientWritten t buf pipe) t := by
  have hold : (bufferOf (c.tasks t)).isSome := by simp [ht, bufferOf]
  rcases hc.connPool with ⟨hflag, _⟩ | ⟨hflag, _⟩
  · by_cases hroom : c.connPool.value.length < MAX_HOT_PIPES
    · rw [clientWritten_room hc.pool hflag hroom]
      exact ⟨_, rfl, .give [] rfl rfl rfl hold rfl (Or.inl rfl)⟩
    · rw [clientWritten_full hc.pool hflag hroom]
      exact ⟨_, rfl, .give [] rfl rfl rfl hold rfl (Or.inl rfl)⟩
  · rw [clientWritten_guarded hc.pool hflag]
    exact ⟨_, rfl, .panic rfl fun h => absurd rfl h⟩

theorem enters_next (hc : Guarded c) (e : Event) : Enters c (next c e) (taskOf c e) := by
  cases e with
  | accept =>
    have habsent := hc.absent c.accepted le_rfl
    refine ⟨.spawned, rfl, .keep rfl rfl rfl ?_ ?_ ?_⟩
    · simp [taskOf, habsent, bufferOf]
    · simp [taskOf, habsent]
    · simp
  | start t =>
    cases ht : c.tasks t with
    | spawned =>
      simp only [next, ht]
      exact enters_start hc ht
    | _ =>
      simp only [next, ht]
      exact enters_idle c t
  | connected t result =>
    cases ht : c.tasks t with
    | connecting buf =>
      simp only [next, ht]
      exact enters_connected hc ht result
    | _ =>
      simp only [next, ht]
      exact enters_idle c t
  | clientRead t result =>
    cases ht : c.tasks t with
    | readingClient buf pipe =>
      have hold : (bufferOf (c.tasks t)).isSome := by simp [ht, bufferOf]
      simp only [next, ht]
      cases result with
      | none => exact enters_giveBack hc hold (Or.inl rfl)
      | some chunk =>
        rw [Core.clientRead]
        split
        · exact enters_transfer hold rfl (fun h => h)
        · exact enters_giveBack hc hold (Or.inl rfl)
    | _ =>
      simp only [next, ht]
      exact enters_idle c t
  | backendWritten t ok =>
    cases ht : c.tasks t with
    | writingBackend buf pipe =>
      have hold : (bufferOf (c.tasks t)).isSome := by simp [ht, bufferOf]
      simp only [next, ht]
      cases ok with
      | true => exact enters_transfer hold rfl (fun h => h)
      | false => exact enters_giveBack hc hold (Or.inl rfl)
    | _ =>
      simp only [next, ht]
      exact enters_idle c t
  | backendRead t result =>
    cases ht : c.tasks t with
    | readingBackend buf pipe =>
      have hold : (bufferOf (c.tasks t)).isSome := by simp [ht, bufferOf]
      simp only [next, ht]
      cases result with
      | none => exact enters_giveBack hc hold (Or.inl rfl)
      | some chunk =>
        rw [Core.backendRead]
        split
        · exact enters_transfer hold rfl (fun h => h)
        · exact enters_giveBack hc hold (Or.inl rfl)
    | _ =>
      simp only [next, ht]
      exact enters_idle c t
  | clientWritten t ok =>
    cases ht : c.tasks t with
    | writingClient buf pipe =>
      simp only [next, ht]
      exact enters_clientWritten hc ht
    | _ =>
      simp only [next, ht]
      exact enters_idle c t

/-- What is true of a core that no task has panicked on. -/
structure Conserved (s : Ledger) : Prop where
  buffers : s.core.pool.value.length + (holding s.core).card = POOL_CAPACITY + s.core.fallbacks
  fallback : ∀ e, (step s e).core.fallbacks ≠ s.core.fallbacks →
    POOL_CAPACITY ≤ (holding s.core).card
  returned : ∀ t, s.core.tasks t = .finished → s.returned t = [[]]
  pipes : s.core.connPool.value.length ≤ MAX_HOT_PIPES
  distinct : s.core.connPool.value.Nodup
  apart : ∀ t p, pipeOf (s.core.tasks t) = some p → p ∉ s.core.connPool.value
  single : ∀ t u p, pipeOf (s.core.tasks t) = some p → pipeOf (s.core.tasks u) = some p → t = u
  gauge : s.core.activeConnections = (unfinished s.core).card

structure Settled (s : Ledger) : Prop where
  buffers : s.core.pool.value.length + (holding s.core).card = POOL_CAPACITY + s.core.fallbacks
  gauge : s.core.activeConnections = (holding s.core).card
  empty : ∀ t buf, s.core.tasks t = .connecting buf → buf = []
  returned : ∀ t, s.returned t = if s.core.tasks t = .finished then [[]] else []

structure Balanced (s : Ledger) : Prop where
  guarded : Guarded s.core
  ownership : Ownership s.core s.fresh
  pipes : s.core.connPool.value.length ≤ MAX_HOT_PIPES
  settled : Settled s

theorem underway_iff_buffer (task : Task) : underway task = (bufferOf task).isSome := by
  cases task <;> rfl

theorem unfinished_eq_holding (c : Core) : unfinished c = holding c := by
  simp only [unfinished, holding, underway_iff_buffer]

theorem mem_holding (hc : Guarded c) : t ∈ holding c ↔ (bufferOf (c.tasks t)).isSome := by
  rw [holding, Finset.mem_filter, Finset.mem_range, and_iff_right_iff_imp]
  intro hheld
  by_contra hlt
  simp [hc.absent t (Nat.not_lt.mp hlt), bufferOf] at hheld

section Holders

variable {c' : Core} {task : Task}

theorem holding_update (hc : Guarded c) (hc' : Guarded c')
    (h : c'.tasks = Function.update c.tasks t task) {u : ℕ} :
    u ∈ holding c' ↔ if u = t then (bufferOf task).isSome = true else u ∈ holding c := by
  rw [mem_holding hc', h]
  by_cases hu : u = t
  · simp [hu]
  · simp [hu, mem_holding hc]

theorem holding_keep (hc : Guarded c) (hc' : Guarded c')
    (h : c'.tasks = Function.update c.tasks t task)
    (hheld : (bufferOf task).isSome = (bufferOf (c.tasks t)).isSome) :
    holding c' = holding c := by
  ext u
  rw [holding_update hc hc' h]
  by_cases hu : u = t
  · simp [hu, hheld, mem_holding hc]
  · simp [hu]

theorem holding_take (hc : Guarded c) (hc' : Guarded c')
    (h : c'.tasks = Function.update c.tasks t task) (hold : c.tasks t = .spawned)
    (hnew : (bufferOf task).isSome) : (holding c').card = (holding c).card + 1 := by
  have hout : t ∉ holding c := by simp [mem_holding hc, hold, bufferOf]
  have hset : holding c' = insert t (holding c) := by
    ext u
    rw [holding_update hc hc' h, Finset.mem_insert]
    by_cases hu : u = t
    · simp [hu, hnew]
    · simp [hu]
  rw [hset, Finset.card_insert_of_notMem hout]

theorem holding_give (hc : Guarded c) (hc' : Guarded c')
    (h : c'.tasks = Function.update c.tasks t .finished)
    (hold : (bufferOf (c.tasks t)).isSome) : (holding c').card + 1 = (holding c).card := by
  have hin : t ∈ holding c := (mem_holding hc).mpr hold
  have hset : holding c' = (holding c).erase t := by
    ext u
    rw [holding_update hc hc' h, Finset.mem_erase]
    by_cases hu : u = t
    · simp [hu, bufferOf]
    · simp [hu]
  rw [hset, Finset.card_erase_add_one hin]

end Holders

variable {s : Ledger}

theorem balanced_opened : Balanced opened := by
  constructor
  · exact guarded_initial
  · exact ownership_initial
  · exact Nat.zero_le _
  · constructor
    · simp [opened, initial, RefCell.new, holding]
      rfl
    · rfl
    · intro t buf h
      cases h
    · intro t
      rfl

theorem fallback_next (hc : Guarded c) {e : Event}
    (h : (next c e).fallbacks ≠ c.fallbacks) : c.pool.value = [] := by
  obtain ⟨task, _, hentry⟩ := enters_next hc e
  cases hentry with
  | keep _ hfallbacks => exact absurd hfallbacks h
  | take _ hfallbacks =>
    rw [hfallbacks] at h
    exact pool_of_fallback h
  | give _ _ hfallbacks => exact absurd hfallbacks h
  | panic _ hfallbacks => exact hfallbacks h

theorem pipes_next (hc : Guarded c) (h : c.connPool.value.length ≤ MAX_HOT_PIPES) (e : Event) :
    (next c e).connPool.value.length ≤ MAX_HOT_PIPES := by
  obtain ⟨t, task, _, hhand⟩ := handover_next hc e
  cases hhand with
  | keep hpool => exact hpool ▸ h
  | take pipe hpool =>
    rw [hpool] at h
    exact Nat.le_of_succ_le h
  | make pipe hpool => exact hpool ▸ h
  | give pipe hroom hpool =>
    rw [hpool, List.length_append]
    exact hroom

theorem Balanced.conserved (h : Balanced s) : Conserved s := by
  constructor
  · exact h.settled.buffers
  · intro e hnew
    have hpool := fallback_next h.guarded hnew
    have hbuffers := h.settled.buffers
    rw [hpool, List.length_nil, Nat.zero_add] at hbuffers
    omega
  · intro t ht
    rw [h.settled.returned, if_pos ht]
  · exact h.pipes
  · exact h.ownership.nodup
  · exact h.ownership.apart
  · exact h.ownership.single
  · rw [unfinished_eq_holding]
    exact h.settled.gauge

theorem Settled.update (h : Settled s) {c' : Core} {task : Task} {n : ℕ} {given : List Buffer}
    (htasks : c'.tasks = Function.update s.core.tasks t task)
    (hbuffers : c'.pool.value.length + (holding c').card = POOL_CAPACITY + c'.fallbacks)
    (hgauge : c'.activeConnections = (holding c').card)
    (hempty : ∀ buf, task = .connecting buf → buf = [])
    (hgiven : s.returned t ++ given = if task = .finished then [[]] else []) :
    Settled ⟨c', n, Function.update s.returned t (s.returned t ++ given)⟩ := by
  refine ⟨hbuffers, hgauge, ?_, ?_⟩
  · intro u buf hu
    simp only [htasks] at hu
    by_cases hut : u = t
    · rw [hut, Function.update_self] at hu
      exact hempty buf hu
    · rw [Function.update_of_ne hut] at hu
      exact h.empty u buf hu
  · intro u
    simp only [htasks]
    by_cases hut : u = t
    · rw [hut, Function.update_self, Function.update_self]
      exact hgiven
    · rw [Function.update_of_ne hut, Function.update_of_ne hut]
      exact h.returned u

/-- An entry keeps the accounts, unless it is a panic. -/
theorem Settled.entry (h : Settled s) {c' : Core} {task : Task} {n : ℕ} (hc : Guarded s.core)
    (hc' : Guarded c') (htasks : c'.tasks = Function.update s.core.tasks t task)
    (hentry : Entry s.core c' t task) (hcalm : task ≠ .panicked) :
    Settled ⟨c', n, Function.update s.returned t
      (s.returned t ++ c'.pool.value.drop s.core.pool.value.length)⟩ := by
  have hbuffers := h.buffers
  have hreturned := h.returned t
  cases hentry with
  | keep hpool hfallbacks hactive hheld hended hempty =>
    have hsame : holding c' = holding s.core := holding_keep hc hc' htasks hheld
    apply h.update htasks
    · rw [hpool, hsame, hfallbacks]
      exact hbuffers
    · rw [hactive, hsame]
      exact h.gauge
    · intro buf htask
      exact h.empty t buf (hempty buf htask)
    · simp only [hpool, List.drop_length, List.append_nil, hended]
      exact hreturned
  | take hpool hfallbacks hactive hold hnew =>
    have hmore := holding_take hc hc' htasks hold (by rw [hnew]; rfl)
    have hne : task ≠ .finished := by
      intro htask
      simp [htask, bufferOf] at hnew
    apply h.update htasks
    · rw [hpool, hfallbacks, hmore, List.length_tail]
      cases hv : s.core.pool.value with
      | nil =>
        simp only [hv, List.length_nil, List.head?_nil, Option.isNone_none, if_true] at hbuffers ⊢
        omega
      | cons buf bufs =>
        simp only [hv, List.length_cons, List.head?_cons, Option.isNone_some] at hbuffers ⊢
        simp
        omega
    · rw [hactive, hmore, h.gauge]
    · intro buf htask
      simpa [htask, bufferOf] using hnew
    · have hnone : s.core.pool.value.tail.drop s.core.pool.value.length = [] := by simp
      rw [hpool, hnone, List.append_nil, hreturned, hold, if_neg hne]
      rfl
  | give buf hpool hfallbacks hactive hold hnew hempty =>
    subst hnew
    have hless := holding_give hc hc' htasks hold
    have hbuf : buf = [] := by
      rcases hempty with hbuf | hconnecting
      · exact hbuf
      · exact h.empty t buf hconnecting
    have hne : s.core.tasks t ≠ .finished := by
      intro ht
      simp [ht, bufferOf] at hold
    apply h.update htasks
    · rw [hpool, hfallbacks, List.length_append, List.length_singleton]
      omega
    · rw [hactive, h.gauge]
      omega
    · simp
    · rw [hpool, List.drop_left, hreturned, if_neg hne, hbuf]
      rfl
  | panic hnew => exact absurd hnew hcalm

theorem ownership_step (h : Balanced s) (e : Event) :
    Ownership (step s e).core (step s e).fresh := by
  apply h.ownership.next h.guarded (Nat.le_succ _)
  intro t pipe he
  have hpipe : pipe = s.fresh := by
    cases e with
    | connected u result =>
      cases result with
      | some p =>
        rw [Ledger.number, Event.connected.injEq, Option.some.injEq] at he
        exact he.2.symm
      | none => cases he
    | _ => cases he
  rw [hpipe]
  exact ⟨le_rfl, Nat.lt_succ_self _⟩

theorem balanced_step (h : Balanced s) {e : Event} (hcalm : Calm (step s e).core) :
    Balanced (step s e) := by
  have hguarded : Guarded (step s e).core := (step_ok h.guarded (s.number e)).guarded
  have htask : taskOf s.core (s.number e) = taskOf s.core e := by
    cases e with
    | connected t result => cases result <;> rfl
    | _ => rfl
  obtain ⟨task, htasks, hentry⟩ := enters_next h.guarded (s.number e)
  rw [htask] at htasks hentry
  constructor
  · exact hguarded
  · exact ownership_step h e
  · exact pipes_next h.guarded h.pipes (s.number e)
  · apply h.settled.entry h.guarded hguarded htasks hentry
    have hthis := hcalm (taskOf s.core e)
    rwa [step, htasks, Function.update_self] at hthis

theorem calm_of_step (h : Guarded s.core) {e : Event} (hcalm : Calm (step s e).core) :
    Calm s.core := ((step_ok h (s.number e)).calm_iff.mp hcalm).1

theorem balanced_run (es : List Event) : Guarded (run step opened es).core ∧
    (Calm (run step opened es).core → Balanced (run step opened es)) := by
  apply run_preserves (P := fun s : Ledger => Guarded s.core ∧ (Calm s.core → Balanced s))
  · rintro s e ⟨hguarded, hbalanced⟩
    refine ⟨(step_ok hguarded (s.number e)).guarded, ?_⟩
    intro hcalm
    exact balanced_step (hbalanced (calm_of_step hguarded hcalm)) hcalm
  · exact ⟨guarded_initial, fun _ => balanced_opened⟩

theorem calm_of_run (hs : Guarded s.core) (es : List Event)
    (hcalm : Calm (run step s es).core) : Calm s.core := by
  induction es generalizing s with
  | nil => exact hcalm
  | cons e es ih => exact calm_of_step hs (ih (step_ok hs (s.number e)).guarded hcalm)

/-- On a core whose tasks interleave in any way, with every result of their calls, nothing that
was lent out is lost or counted twice at any moment, as long as no task panics. -/
theorem resources_conserved (es : List Event) (hcalm : Calm (run step opened es).core) :
    ∀ as, as <+: es → Conserved (run step opened as) := by
  rintro as ⟨bs, rfl⟩
  rw [run_append] at hcalm
  obtain ⟨hguarded, hbalanced⟩ := balanced_run as
  exact (hbalanced (calm_of_run hguarded bs hcalm)).conserved

def hello : Chunk := ⟨[104, 105], by decide⟩

def visit : List Event :=
  [.accept, .start 0, .connected 0 (some 0), .clientRead 0 (some hello), .backendWritten 0 true,
    .backendRead 0 (some hello), .clientWritten 0 true]

theorem visit_conserved : (run step opened visit).core.accepted = 1 ∧
    ∀ as, as <+: visit → Conserved (run step opened as) := by
  have haccepted : (run step opened visit).core.accepted = 1 := by decide
  refine ⟨haccepted, resources_conserved visit ?_⟩
  intro t
  by_cases ht : t = 0
  · subst ht
    decide
  · have habsent := (balanced_run visit).1.absent t (by omega)
    rw [habsent]
    simp

end AegisAccounts

import Mathlib.Algebra.BigOperators.Fin
import Mathlib.Algebra.BigOperators.Ring.Finset
import Mathlib.Algebra.Order.BigOperators.Group.Finset
import Vanguard.AegisAccounts

/-! What the tasks of a core do to the counters that all cores share. They change them one access at
a time, and each access goes with what the task has come to. -/
namespace AegisOperations

open Utf8Text (Bytes)
open StateMachines AegisCore AegisBorrows AegisAccounts

/-- The accesses of a task; the first and the last are those of its `ConnectionGuard`. -/
inductive Operation where
  | guardNew
  | addBytes (n : ℕ)
  | addRequest
  | guardDrop
  deriving DecidableEq, Repr

def started : Task → Bool
  | .absent => false
  | .spawned => false
  | _ => true

def ended : Task → Bool
  | .finished => true
  | .panicked => true
  | _ => false

def chunkOf (c : Core) : Event → Bytes
  | .clientRead t (some chunk) =>
    match c.tasks t with
    | .readingClient _ _ => chunk.bytes
    | _ => []
  | .backendRead t (some chunk) =>
    match c.tasks t with
    | .readingBackend _ _ => chunk.bytes
    | _ => []
  | _ => []

/-- What a task does to the counters between two of its await points. -/
def work (c : Core) : Event → List Operation
  | .start t =>
    match c.tasks t with
    | .spawned => [.guardNew]
    | _ => []
  | .clientWritten t _ =>
    match c.tasks t with
    | .writingClient _ _ => [.addRequest]
    | _ => []
  | e => if 0 < (chunkOf c e).length then [.addBytes (chunkOf c e).length] else []

/-- The guard is dropped last, and also by a panic. -/
def operations (c : Core) (e : Event) : List Operation :=
  work c e ++
    if ended ((next c e).tasks (taskOf c e)) && !ended (c.tasks (taskOf c e)) then
      [.guardDrop]
    else []

/-- A core, the accesses it has yet to make in the step it is in, and what its tasks have heard. The
latter is a ghost observation. -/
structure Thread where
  core : Core
  heard : ℕ → List Bytes
  due : List Operation

def Thread.step (th : Thread) (e : Event) : Thread where
  core := next th.core e
  heard :=
    if 0 < (chunkOf th.core e).length then
      Function.update th.heard (taskOf th.core e)
        (th.heard (taskOf th.core e) ++ [chunkOf th.core e])
    else th.heard
  due := operations th.core e

def Thread.left (th : Thread) (due : List Operation) : Thread := { th with due := due }

def rounds : Task → ℕ
  | .writingBackend _ _ => 1
  | .readingBackend _ _ => 1
  | .writingClient _ _ => 2
  | _ => 0

/-- How a step moves its task on, what the task hears, and what it does to the counters. -/
inductive Move (task : Task) (heard : List Bytes) :
    Task → List Bytes → List Operation → Prop where
  | stay (task' : Task) (hstarted : started task' = started task)
      (hended : ended task' = ended task) (hrounds : rounds task' = rounds task) :
      Move task heard task' heard []
  | begin (task' : Task) (hwaiting : started task = false) (hnew : underway task' = true)
      (hrounds : rounds task' = 0) : Move task heard task' heard [.guardNew]
  | stumble (hwaiting : started task = false) :
      Move task heard .panicked heard [.guardNew, .guardDrop]
  | hear (task' : Task) (chunk : Bytes) (hchunk : 0 < chunk.length) (hold : underway task = true)
      (hnew : underway task' = true) (hrounds : rounds task' = rounds task + 1) :
      Move task heard task' (heard ++ [chunk]) [.addBytes chunk.length]
  | giveUp (task' : Task) (hold : underway task = true) (hrounds : rounds task < 2)
      (hnew : ended task' = true) : Move task heard task' heard [.guardDrop]
  | answer (task' : Task) (hold : underway task = true) (hrounds : rounds task = 2)
      (hnew : ended task' = true) : Move task heard task' heard [.addRequest, .guardDrop]

def Moves (th : Thread) (e : Event) : Prop :=
  ∃ task, (next th.core e).tasks =
      Function.update th.core.tasks (taskOf th.core e) task ∧
    Move (th.core.tasks (taskOf th.core e)) (th.heard (taskOf th.core e)) task
      ((th.step e).heard (taskOf th.core e)) (operations th.core e)

variable {c : Core} {th : Thread} {t : ℕ} {e : Event} {task : Task}

theorem operations_eq
    (h : (next c e).tasks = Function.update c.tasks (taskOf c e) task) :
    operations c e = work c e ++
      if ended task && !ended (c.tasks (taskOf c e)) then [.guardDrop] else [] := by
  rw [operations, h, Function.update_self]

theorem heard_still (h : chunkOf th.core e = []) : (th.step e).heard = th.heard := by
  simp [Thread.step, h]

theorem heard_more (h : 0 < (chunkOf th.core e).length) :
    (th.step e).heard = Function.update th.heard (taskOf th.core e)
      (th.heard (taskOf th.core e) ++ [chunkOf th.core e]) := if_pos h

theorem moves_idle (h : next th.core e = th.core) (hchunk : chunkOf th.core e = [])
    (hwork : work th.core e = []) : Moves th e := by
  have htasks : (next th.core e).tasks =
      Function.update th.core.tasks (taskOf th.core e) (th.core.tasks (taskOf th.core e)) := by
    rw [h, Function.update_eq_self]
  refine ⟨_, htasks, ?_⟩
  rw [operations_eq htasks, heard_still hchunk, hwork, Bool.and_not_self]
  exact .stay _ rfl rfl rfl

theorem moves_start (hc : Guarded th.core) (ht : th.core.tasks t = .spawned) :
    Moves th (.start t) := by
  have hnext : next th.core (.start t) = th.core.start t := by rw [next, ht]
  have hwork : work th.core (.start t) = [.guardNew] := by rw [work, ht]
  have hheard : (th.step (.start t)).heard = th.heard := heard_still rfl
  have hwaiting : started (th.core.tasks t) = false := by rw [ht]; rfl
  rcases hc.connPool with ⟨hflag, _⟩ | ⟨hflag, _⟩
  · cases hv : th.core.connPool.value with
    | nil =>
      have htasks : (next th.core (.start t)).tasks =
          Function.update th.core.tasks t (.connecting []) := by
        rw [hnext, start_cold hc.pool hflag hv]
        rfl
      refine ⟨_, htasks, ?_⟩
      rw [operations_eq htasks, hheard, hwork]
      exact .begin _ hwaiting rfl rfl
    | cons pipe rest =>
      have htasks : (next th.core (.start t)).tasks =
          Function.update th.core.tasks t (.readingClient [] pipe) := by
        rw [hnext, start_hot hc.pool hflag hv]
        rfl
      refine ⟨_, htasks, ?_⟩
      rw [operations_eq htasks, hheard, hwork]
      exact .begin _ hwaiting rfl rfl
  · have htasks : (next th.core (.start t)).tasks =
        Function.update th.core.tasks t .panicked := by
      rw [hnext, start_guarded hc.pool hflag]
      rfl
    refine ⟨_, htasks, ?_⟩
    rw [operations_eq htasks, hheard, hwork, taskOf, ht]
    exact .stumble rfl

theorem moves_quietly (hchunk : chunkOf th.core e = []) (hwork : work th.core e = [])
    (htasks : (next th.core e).tasks =
      Function.update th.core.tasks (taskOf th.core e) task)
    (hstarted : started task = started (th.core.tasks (taskOf th.core e)))
    (hended : ended task = ended (th.core.tasks (taskOf th.core e)))
    (hrounds : rounds task = rounds (th.core.tasks (taskOf th.core e))) : Moves th e := by
  refine ⟨_, htasks, ?_⟩
  rw [operations_eq htasks, heard_still hchunk, hwork, hended, Bool.and_not_self]
  exact .stay _ hstarted hended hrounds

theorem moves_giveBack (hc : Guarded th.core) (buf : Buffer)
    (hchunk : chunkOf th.core e = []) (hwork : work th.core e = [])
    (hnext : (next th.core e).tasks =
      (th.core.giveBack (taskOf th.core e) buf).tasks)
    (hold : underway (th.core.tasks (taskOf th.core e)) = true)
    (hrounds : rounds (th.core.tasks (taskOf th.core e)) < 2) : Moves th e := by
  have htasks : (next th.core e).tasks =
      Function.update th.core.tasks (taskOf th.core e) .finished := by
    rw [hnext, giveBack_eq hc.pool]
    rfl
  have hended : ended (th.core.tasks (taskOf th.core e)) = false := by
    revert hold
    cases th.core.tasks (taskOf th.core e) <;> simp [underway, ended]
  refine ⟨_, htasks, ?_⟩
  rw [operations_eq htasks, heard_still hchunk, hwork, hended]
  exact .giveUp _ hold hrounds rfl

theorem moves_hear {chunk : Chunk} (hchunk : chunkOf th.core e = chunk.bytes)
    (hlen : 0 < chunk.bytes.length)
    (hwork : work th.core e = [.addBytes chunk.bytes.length])
    (htasks : (next th.core e).tasks =
      Function.update th.core.tasks (taskOf th.core e) task)
    (hold : underway (th.core.tasks (taskOf th.core e)) = true) (hnew : underway task = true)
    (hrounds : rounds task = rounds (th.core.tasks (taskOf th.core e)) + 1) : Moves th e := by
  have hended : ended task = false := by
    revert hnew
    cases task <;> simp [underway, ended]
  refine ⟨_, htasks, ?_⟩
  rw [operations_eq htasks, heard_more (hchunk ▸ hlen), Function.update_self, hwork, hchunk, hended]
  exact .hear _ _ hlen hold hnew hrounds

theorem moves_connected (hc : Guarded th.core) {buf : Buffer} (result : Option ℕ)
    (ht : th.core.tasks t = .connecting buf) : Moves th (.connected t result) := by
  have hnext : next th.core (.connected t result) = th.core.connected t buf result := by
    rw [next, ht]
  cases result with
  | some pipe =>
    have htasks : (next th.core (.connected t (some pipe))).tasks =
        Function.update th.core.tasks t (.readingClient buf pipe) := by
      rw [hnext]
      rfl
    apply moves_quietly rfl rfl htasks
    all_goals rw [taskOf, ht]; rfl
  | none =>
    apply moves_giveBack hc buf rfl rfl
    · rw [hnext]
      rfl
    · rw [taskOf, ht]
      rfl
    · rw [taskOf, ht]
      exact Nat.zero_lt_two

theorem moves_read (hc : Guarded th.core) (result : Option Chunk)
    (hchunk : chunkOf th.core e = (result.map Chunk.bytes).getD [])
    (hwork : work th.core e =
      if 0 < (chunkOf th.core e).length then [.addBytes (chunkOf th.core e).length] else [])
    (hold : underway (th.core.tasks (taskOf th.core e)) = true)
    (hrounds : rounds (th.core.tasks (taskOf th.core e)) < 2)
    (hmore : ∀ chunk, result = some chunk → 0 < chunk.bytes.length →
      ∃ task, (next th.core e).tasks =
          Function.update th.core.tasks (taskOf th.core e) task ∧ underway task = true ∧
        rounds task = rounds (th.core.tasks (taskOf th.core e)) + 1)
    (hover : (∀ chunk, result = some chunk → chunk.bytes = []) →
      ∃ buf, (next th.core e).tasks =
        (th.core.giveBack (taskOf th.core e) buf).tasks) : Moves th e := by
  by_cases hsome : ∃ chunk, result = some chunk ∧ 0 < chunk.bytes.length
  · obtain ⟨chunk, rfl, hlen⟩ := hsome
    obtain ⟨task, htasks, hnew, hmoved⟩ := hmore chunk rfl hlen
    apply moves_hear hchunk hlen _ htasks hold hnew hmoved
    rw [hwork, hchunk]
    exact if_pos hlen
  · have hnone : ∀ chunk, result = some chunk → chunk.bytes = [] := by
      intro chunk hresult
      by_contra hne
      exact hsome ⟨chunk, hresult, List.length_pos_iff.mpr hne⟩
    have hsilent : chunkOf th.core e = [] := by
      rw [hchunk]
      cases result with
      | none => rfl
      | some chunk => exact hnone chunk rfl
    obtain ⟨buf, hnext⟩ := hover hnone
    apply moves_giveBack hc buf hsilent _ hnext hold hrounds
    rw [hwork, hsilent]
    rfl

theorem moves_clientRead (hc : Guarded th.core) {buf : Buffer} {pipe : ℕ} (result : Option Chunk)
    (ht : th.core.tasks t = .readingClient buf pipe) : Moves th (.clientRead t result) := by
  have hnext : next th.core (.clientRead t result) =
      th.core.clientRead t buf pipe result := by rw [next, ht]
  apply moves_read hc result
  · cases result with
    | none => rfl
    | some chunk => rw [chunkOf, ht]; rfl
  · rfl
  · rw [taskOf, ht]
    rfl
  · rw [taskOf, ht]
    exact Nat.zero_lt_two
  · rintro chunk rfl hlen
    refine ⟨.writingBackend (readInto buf chunk) pipe, ?_, rfl, ?_⟩
    · rw [hnext, Core.clientRead, if_pos hlen]
      rfl
    · rw [taskOf, ht]
      rfl
  · intro hnone
    rw [hnext]
    cases result with
    | none => exact ⟨_, rfl⟩
    | some chunk =>
      rw [Core.clientRead, hnone chunk rfl]
      exact ⟨_, rfl⟩

theorem moves_backendWritten (hc : Guarded th.core) {buf : Buffer} {pipe : ℕ} (ok : Bool)
    (ht : th.core.tasks t = .writingBackend buf pipe) : Moves th (.backendWritten t ok) := by
  have hnext : next th.core (.backendWritten t ok) =
      th.core.backendWritten t buf pipe ok := by rw [next, ht]
  cases ok with
  | true =>
    have htasks : (next th.core (.backendWritten t true)).tasks =
        Function.update th.core.tasks t (.readingBackend (clear buf) pipe) := by
      rw [hnext]
      rfl
    apply moves_quietly rfl rfl htasks
    all_goals rw [taskOf, ht]; rfl
  | false =>
    apply moves_giveBack hc (clear buf) rfl rfl
    · rw [hnext]
      rfl
    · rw [taskOf, ht]
      rfl
    · rw [taskOf, ht]
      exact Nat.one_lt_two

theorem moves_backendRead (hc : Guarded th.core) {buf : Buffer} {pipe : ℕ} (result : Option Chunk)
    (ht : th.core.tasks t = .readingBackend buf pipe) : Moves th (.backendRead t result) := by
  have hnext : next th.core (.backendRead t result) =
      th.core.backendRead t buf pipe result := by rw [next, ht]
  apply moves_read hc result
  · cases result with
    | none => rfl
    | some chunk => rw [chunkOf, ht]; rfl
  · rfl
  · rw [taskOf, ht]
    rfl
  · rw [taskOf, ht]
    exact Nat.one_lt_two
  · rintro chunk rfl hlen
    refine ⟨.writingClient (readInto buf chunk) pipe, ?_, rfl, ?_⟩
    · rw [hnext, Core.backendRead, if_pos hlen]
      rfl
    · rw [taskOf, ht]
      rfl
  · intro hnone
    rw [hnext]
    cases result with
    | none => exact ⟨_, rfl⟩
    | some chunk =>
      rw [Core.backendRead, hnone chunk rfl]
      exact ⟨_, rfl⟩

theorem moves_clientWritten (hc : Guarded th.core) {buf : Buffer} {pipe : ℕ} (ok : Bool)
    (ht : th.core.tasks t = .writingClient buf pipe) : Moves th (.clientWritten t ok) := by
  have hnext : next th.core (.clientWritten t ok) = th.core.clientWritten t buf pipe := by
    rw [next, ht]
  have htasks : ∃ task, (next th.core (.clientWritten t ok)).tasks =
      Function.update th.core.tasks t task ∧ ended task = true := by
    rw [hnext]
    rcases hc.connPool with ⟨hflag, _⟩ | ⟨hflag, _⟩
    · by_cases hroom : th.core.connPool.value.length < MAX_HOT_PIPES
      · rw [clientWritten_room hc.pool hflag hroom]
        exact ⟨_, rfl, rfl⟩
      · rw [clientWritten_full hc.pool hflag hroom]
        exact ⟨_, rfl, rfl⟩
    · rw [clientWritten_guarded hc.pool hflag]
      exact ⟨_, rfl, rfl⟩
  obtain ⟨task, htasks, hended⟩ := htasks
  have hwork : work th.core (.clientWritten t ok) = [.addRequest] := by rw [work, ht]
  refine ⟨task, htasks, ?_⟩
  rw [operations_eq htasks, heard_still rfl, hwork, hended, taskOf, ht]
  exact .answer _ rfl rfl hended

theorem moves (hc : Guarded th.core) (e : Event) : Moves th e := by
  cases e with
  | accept =>
    have habsent := hc.absent th.core.accepted le_rfl
    have htasks : (next th.core .accept).tasks =
        Function.update th.core.tasks th.core.accepted .spawned := rfl
    apply moves_quietly rfl rfl htasks
    all_goals rw [taskOf, habsent]; rfl
  | start t =>
    cases ht : th.core.tasks t with
    | spawned => exact moves_start hc ht
    | _ => exact moves_idle (by simp [next, ht]) rfl (by simp [work, ht])
  | connected t result =>
    cases ht : th.core.tasks t with
    | connecting buf => exact moves_connected hc result ht
    | _ => exact moves_idle (by simp [next, ht]) rfl rfl
  | clientRead t result =>
    cases ht : th.core.tasks t with
    | readingClient buf pipe => exact moves_clientRead hc result ht
    | _ =>
      have hchunk : chunkOf th.core (.clientRead t result) = [] := by
        cases result <;> simp [chunkOf, ht]
      exact moves_idle (by simp [next, ht]) hchunk (by simp [work, hchunk])
  | backendWritten t ok =>
    cases ht : th.core.tasks t with
    | writingBackend buf pipe => exact moves_backendWritten hc ok ht
    | _ => exact moves_idle (by simp [next, ht]) rfl rfl
  | backendRead t result =>
    cases ht : th.core.tasks t with
    | readingBackend buf pipe => exact moves_backendRead hc result ht
    | _ =>
      have hchunk : chunkOf th.core (.backendRead t result) = [] := by
        cases result <;> simp [chunkOf, ht]
      exact moves_idle (by simp [next, ht]) hchunk (by simp [work, hchunk])
  | clientWritten t ok =>
    cases ht : th.core.tasks t with
    | writingClient buf pipe => exact moves_clientWritten hc ok ht
    | _ => exact moves_idle (by simp [next, ht]) rfl (by simp [work, ht])

structure Told (th : Thread) : Prop where
  guarded : Guarded th.core
  rounds : ∀ t, ended (th.core.tasks t) = false → (th.heard t).length = rounds (th.core.tasks t)
  chunks : ∀ t, ∀ chunk ∈ th.heard t, 0 < chunk.length

theorem told_opened : Told ⟨initial, fun _ => [], []⟩ where
  guarded := guarded_initial
  rounds := fun _ _ => rfl
  chunks := fun _ _ h => absurd h List.not_mem_nil

theorem Told.absent (h : Told th) (ht : th.core.accepted ≤ t) :
    th.core.tasks t = .absent ∧ th.heard t = [] := by
  have habsent := h.guarded.absent t ht
  refine ⟨habsent, List.eq_nil_of_length_eq_zero ?_⟩
  rw [h.rounds t (by rw [habsent]; rfl), habsent]
  rfl

theorem ended_of_underway (h : underway task = true) : ended task = false := by
  revert h
  cases task <;> simp [underway, ended]

theorem Move.told {heard heard' : List Bytes} {task' : Task} {ops : List Operation}
    (h : Move task heard task' heard' ops) (hrounds : ended task = false →
      heard.length = AegisOperations.rounds task) (hchunks : ∀ chunk ∈ heard, 0 < chunk.length) :
    (ended task' = false → heard'.length = AegisOperations.rounds task') ∧
      ∀ chunk ∈ heard', 0 < chunk.length := by
  cases h with
  | stay _ _ hended hsame =>
    refine ⟨fun h => ?_, hchunks⟩
    rw [hsame]
    exact hrounds (hended ▸ h)
  | begin _ hwaiting hnew hnone =>
    refine ⟨fun _ => ?_, hchunks⟩
    rw [hnone]
    revert hwaiting hrounds
    cases task <;> simp [started, ended, AegisOperations.rounds]
  | stumble => exact ⟨fun h => absurd h (by simp [ended]), hchunks⟩
  | hear _ chunk hchunk hold hnew hmore =>
    constructor
    · intro _
      rw [hmore, List.length_append, hrounds (ended_of_underway hold)]
      rfl
    · intro b hb
      rcases List.mem_append.mp hb with hb | hb
      · exact hchunks b hb
      · rw [List.mem_singleton.mp hb]
        exact hchunk
  | giveUp _ _ _ hnew => exact ⟨fun h => absurd h (by simp [hnew]), hchunks⟩
  | answer _ _ _ hnew => exact ⟨fun h => absurd h (by simp [hnew]), hchunks⟩

theorem heard_of_ne {u : ℕ} (hu : u ≠ taskOf th.core e) : (th.step e).heard u = th.heard u := by
  simp only [Thread.step]
  split
  · exact Function.update_of_ne hu _ _
  · rfl

theorem told_step (h : Told th) (e : Event) : Told (th.step e) := by
  obtain ⟨task, htasks, hmove⟩ := moves h.guarded e
  obtain ⟨hrounds, hchunks⟩ := hmove.told (h.rounds _) (h.chunks _)
  have htasks' : (th.step e).core.tasks =
      Function.update th.core.tasks (taskOf th.core e) task := htasks
  constructor
  · exact (step_ok h.guarded e).guarded
  · intro u
    by_cases hu : u = taskOf th.core e
    · rw [htasks', hu, Function.update_self]
      exact hrounds
    · rw [htasks', Function.update_of_ne hu, heard_of_ne hu]
      exact h.rounds u
  · intro u
    by_cases hu : u = taskOf th.core e
    · rw [hu]
      exact hchunks
    · rw [heard_of_ne hu]
      exact h.chunks u

/-- A sum changes by what changes in it. -/
theorem sum_changed {ι : Type} [DecidableEq ι] {s : Finset ι} {i : ι} (hi : i ∈ s) {f g : ι → ℕ}
    (h : ∀ j, j ≠ i → g j = f j) : ∑ j ∈ s, g j + f i = ∑ j ∈ s, f j + g i := by
  have hrest : ∑ j ∈ s.erase i, g j = ∑ j ∈ s.erase i, f j :=
    Finset.sum_congr rfl fun j hj => h j (Finset.ne_of_mem_erase hj)
  rw [← Finset.sum_erase_add s g hi, ← Finset.sum_erase_add s f hi, hrest]
  omega

def total (count : Operation → ℕ) (ops : List Operation) : ℕ := (ops.map count).sum

/-- The tasks of a core, each taken at what `value` says of it. -/
def tally (value : Task → List Bytes → ℕ) (th : Thread) : ℕ :=
  ∑ t ∈ Finset.range th.core.accepted, value (th.core.tasks t) (th.heard t)

/-- A move changes the value of its task by the count of what it does. -/
structure Weighs (count : Operation → ℕ) (value : Task → List Bytes → ℕ) : Prop where
  absent : value .absent [] = 0
  move : ∀ {task heard task' heard' ops}, Move task heard task' heard' ops →
    (ended task = false → heard.length = rounds task) →
      value task' heard' = value task heard + total count ops

theorem tally_eq {value : Task → List Bytes → ℕ} (h : Told th) (habsent : value .absent [] = 0)
    {m : ℕ} (hm : th.core.accepted ≤ m) :
    tally value th = ∑ t ∈ Finset.range m, value (th.core.tasks t) (th.heard t) := by
  apply Finset.sum_subset (Finset.range_subset_range.mpr hm)
  intro t _ ht
  obtain ⟨hnone, hsilent⟩ := h.absent (Nat.le_of_not_lt fun hlt => ht (Finset.mem_range.mpr hlt))
  rw [hnone, hsilent, habsent]

theorem tally_step {count : Operation → ℕ} {value : Task → List Bytes → ℕ}
    (hweighs : Weighs count value) (h : Told th) (e : Event) :
    tally value (th.step e) = tally value th + total count (th.step e).due := by
  obtain ⟨task, htasks, hmove⟩ := moves h.guarded e
  have hvalue := hweighs.move hmove (h.rounds _)
  let m := max (max th.core.accepted (th.step e).core.accepted) (taskOf th.core e + 1)
  have hold := tally_eq h hweighs.absent (m := m) (by omega)
  have hnew := tally_eq (told_step h e) hweighs.absent (m := m) (by omega)
  have hchanged := sum_changed (s := Finset.range m) (i := taskOf th.core e)
    (Finset.mem_range.mpr (by omega))
    (f := fun t => value (th.core.tasks t) (th.heard t))
    (g := fun t => value ((th.step e).core.tasks t) ((th.step e).heard t)) ?_
  · have hself : (th.step e).core.tasks (taskOf th.core e) = task := by
      rw [Thread.step, htasks, Function.update_self]
    simp only [hself] at hchanged
    have hdue : (th.step e).due = operations th.core e := rfl
    rw [hold, hnew, hdue]
    omega
  · intro u hu
    have htask : (th.step e).core.tasks u = th.core.tasks u := by
      rw [Thread.step, htasks, Function.update_of_ne hu]
    rw [htask, heard_of_ne hu]

def opens : Operation → ℕ
  | .guardNew => 1
  | _ => 0

def closes : Operation → ℕ
  | .guardDrop => 1
  | _ => 0

def bytesOf : Operation → ℕ
  | .addBytes n => n
  | _ => 0

def requestsOf : Operation → ℕ
  | .addRequest => 1
  | _ => 0

def hasStarted (task : Task) (_ : List Bytes) : ℕ := (started task).toNat

def hasEnded (task : Task) (_ : List Bytes) : ℕ := (ended task).toNat

def bytesIn (_ : Task) (heard : List Bytes) : ℕ := heard.flatten.length

def wasAnswered (task : Task) (heard : List Bytes) : ℕ :=
  if ended task = true ∧ heard.length = 2 then 1 else 0

theorem started_of_underway (h : underway task = true) : started task = true := by
  revert h
  cases task <;> simp [underway, started]

theorem started_of_ended (h : ended task = true) : started task = true := by
  revert h
  cases task <;> simp [ended, started]

theorem not_ended_of_waiting (h : started task = false) : ended task = false := by
  revert h
  cases task <;> simp [ended, started]

theorem weighs_opens : Weighs opens hasStarted where
  absent := rfl
  move := by
    intro task heard task' heard' ops hmove _
    cases hmove with
    | stay _ hstarted => simp [hasStarted, hstarted, total]
    | begin _ hwaiting hnew =>
      simp [hasStarted, hwaiting, started_of_underway hnew, total, opens]
    | stumble hwaiting =>
      have hnew : started .panicked = true := rfl
      simp [hasStarted, hwaiting, hnew, total, opens]
    | hear _ _ _ hold hnew =>
      simp [hasStarted, started_of_underway hold, started_of_underway hnew, total, opens]
    | giveUp _ hold _ hnew =>
      simp [hasStarted, started_of_underway hold, started_of_ended hnew, total, opens]
    | answer _ hold _ hnew =>
      simp [hasStarted, started_of_underway hold, started_of_ended hnew, total, opens]

theorem weighs_closes : Weighs closes hasEnded where
  absent := rfl
  move := by
    intro task heard task' heard' ops hmove _
    cases hmove with
    | stay _ _ hended => simp [hasEnded, hended, total]
    | begin _ hwaiting hnew =>
      simp [hasEnded, not_ended_of_waiting hwaiting, ended_of_underway hnew, total, closes]
    | stumble hwaiting =>
      have hnew : ended .panicked = true := rfl
      simp [hasEnded, not_ended_of_waiting hwaiting, hnew, total, closes]
    | hear _ _ _ hold hnew =>
      simp [hasEnded, ended_of_underway hold, ended_of_underway hnew, total, closes]
    | giveUp _ hold _ hnew => simp [hasEnded, ended_of_underway hold, hnew, total, closes]
    | answer _ hold _ hnew => simp [hasEnded, ended_of_underway hold, hnew, total, closes]

theorem weighs_bytes : Weighs bytesOf bytesIn where
  absent := rfl
  move := by
    intro task heard task' heard' ops hmove _
    cases hmove <;> simp [bytesIn, total, bytesOf]

theorem weighs_requests : Weighs requestsOf wasAnswered where
  absent := rfl
  move := by
    intro task heard task' heard' ops hmove hheard
    cases hmove with
    | stay _ _ hended => simp [wasAnswered, hended, total]
    | begin _ hwaiting hnew =>
      simp [wasAnswered, not_ended_of_waiting hwaiting, ended_of_underway hnew, total, requestsOf]
    | stumble hwaiting =>
      have hnone : heard.length = rounds task := hheard (not_ended_of_waiting hwaiting)
      have hrounds : rounds task = 0 := by
        revert hwaiting
        cases task <;> simp [started, rounds]
      simp [wasAnswered, not_ended_of_waiting hwaiting, hnone, hrounds, total, requestsOf]
    | hear _ _ _ hold hnew =>
      simp [wasAnswered, ended_of_underway hold, ended_of_underway hnew, total, requestsOf]
    | giveUp _ hold hfew =>
      have hfewer : heard.length ≠ 2 := by
        have := hheard (ended_of_underway hold)
        omega
      simp [wasAnswered, hfewer, total, requestsOf]
    | answer _ hold hboth hnew =>
      have htwo : heard.length = 2 := hboth ▸ hheard (ended_of_underway hold)
      simp [wasAnswered, ended_of_underway hold, hnew, htwo, total, requestsOf]

theorem total_append (count : Operation → ℕ) (ops ops' : List Operation) :
    total count (ops ++ ops') = total count ops + total count ops' := by
  simp [total]

theorem total_cons (count : Operation → ℕ) (op : Operation) (ops : List Operation) :
    total count (op :: ops) = count op + total count ops := by
  simp [total]

theorem tally_le {value value' : Task → List Bytes → ℕ}
    (h : ∀ t, value (th.core.tasks t) (th.heard t) ≤ value' (th.core.tasks t) (th.heard t)) :
    tally value th ≤ tally value' th := Finset.sum_le_sum fun t _ => h t

theorem ended_le_started (th : Thread) : tally hasEnded th ≤ tally hasStarted th := by
  apply tally_le
  intro t
  simp only [hasEnded, hasStarted]
  cases hended : ended (th.core.tasks t) with
  | false => exact Nat.zero_le _
  | true => rw [started_of_ended hended]

/-- An answered task has heard a byte from either side. -/
theorem answered_le_bytes (h : Told th) : 2 * tally wasAnswered th ≤ tally bytesIn th := by
  rw [tally, Finset.mul_sum]
  apply Finset.sum_le_sum
  intro t _
  simp only [wasAnswered, bytesIn]
  split
  · next hanswered =>
    have hchunks := h.chunks t
    obtain ⟨a, b, hab⟩ := List.length_eq_two.mp hanswered.2
    rw [hab] at hchunks ⊢
    have ha := hchunks a (by simp)
    have hb := hchunks b (by simp)
    simp
    omega
  · exact Nat.zero_le _

/-- What a core that has yet to perform `rest` owes to the counters. -/
structure Owed (th : Thread) (rest : List Operation) : Prop where
  one_opens : total opens rest ≤ 1
  one_closes : total closes rest ≤ 1
  guards : tally hasEnded th + total opens rest ≤ tally hasStarted th + total closes rest
  answers : 2 * tally wasAnswered th + total bytesOf rest ≤ tally bytesIn th

def Owes (th : Thread) : Prop := ∀ rest, rest <:+ th.due → Owed th rest

theorem Move.rest {heard heard' : List Bytes} {task' : Task} {ops rest : List Operation}
    (h : Move task heard task' heard' ops) (hrest : rest <:+ ops) :
    total opens rest ≤ 1 ∧ total closes rest ≤ 1 ∧ (rest = ops ∨ total opens rest = 0) ∧
      (total bytesOf rest = 0 ∨ rest = ops ∧ total requestsOf ops = 0) := by
  cases h with
  | stay =>
    obtain rfl := List.suffix_nil.mp hrest
    simp [total]
  | begin =>
    rcases List.suffix_cons_iff.mp hrest with rfl | hrest
    · simp [total, opens, closes, bytesOf]
    · obtain rfl := List.suffix_nil.mp hrest
      simp [total]
  | stumble =>
    rcases List.suffix_cons_iff.mp hrest with rfl | hrest
    · simp [total, opens, closes, bytesOf]
    · rcases List.suffix_cons_iff.mp hrest with rfl | hrest
      · simp [total, opens, closes, bytesOf]
      · obtain rfl := List.suffix_nil.mp hrest
        simp [total]
  | hear =>
    rcases List.suffix_cons_iff.mp hrest with rfl | hrest
    · simp [total, opens, closes, requestsOf]
    · obtain rfl := List.suffix_nil.mp hrest
      simp [total]
  | giveUp =>
    rcases List.suffix_cons_iff.mp hrest with rfl | hrest
    · simp [total, opens, closes, bytesOf]
    · obtain rfl := List.suffix_nil.mp hrest
      simp [total]
  | answer =>
    rcases List.suffix_cons_iff.mp hrest with rfl | hrest
    · simp [total, opens, closes, bytesOf]
    · rcases List.suffix_cons_iff.mp hrest with rfl | hrest
      · simp [total, opens, closes, bytesOf]
      · obtain rfl := List.suffix_nil.mp hrest
        simp [total]

theorem owes_step (h : Told th) (e : Event) : Owes (th.step e) := by
  have hguards := ended_le_started (th.step e)
  have hanswers := answered_le_bytes (told_step h e)
  have hstarted := tally_step weighs_opens h e
  have hended := tally_step weighs_closes h e
  have hbytes := tally_step weighs_bytes h e
  have hrequests := tally_step weighs_requests h e
  obtain ⟨task, _, hmove⟩ := moves h.guarded e
  intro rest hrest
  obtain ⟨hopens, hcloses, hfirst, hheard⟩ := hmove.rest hrest
  refine ⟨hopens, hcloses, ?_, ?_⟩
  · rcases hfirst with rfl | hnone
    · have := ended_le_started th
      have hdue : (th.step e).due = operations th.core e := rfl
      rw [hdue] at hstarted hended
      omega
    · omega
  · rcases hheard with hnone | ⟨rfl, hnone⟩
    · omega
    · have := answered_le_bytes h
      have hdue : (th.step e).due = operations th.core e := rfl
      rw [hdue] at hbytes hrequests
      omega

end AegisOperations

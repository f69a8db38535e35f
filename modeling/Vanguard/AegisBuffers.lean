import Vanguard.AegisCore

/-! Buffers that pass from one connection to the next. A read does not shorten the buffer it is
given, so a task writes what it has read only if the buffer was empty before. -/
namespace AegisBuffers

open Utf8Text (Bytes)
open RefCells StateMachines AegisCore

/-- What the reads of one task returned, and what it handed to `write_all`. -/
structure Traffic where
  fromClient : List Bytes
  toBackend : List Bytes
  fromBackend : List Bytes
  toClient : List Bytes

structure Watched where
  core : Core
  traffic : ℕ → Traffic

/-- Anything may have been left in the buffers of the pool. -/
def opened (bufs : List Buffer) : Watched :=
  ⟨{ initial with pool := .new bufs }, fun _ => ⟨[], [], [], []⟩⟩

def backendWrite : Task → List Bytes
  | .writingBackend buf _ => [buf]
  | _ => []

def clientWrite : Task → List Bytes
  | .writingClient buf _ => [buf]
  | _ => []

/-- The step of the core, with what the task that was reading got and what it writes then. -/
def observe (s : Watched) (e : Event) : Watched :=
  let core := next s.core e
  match e with
  | .clientRead t (some chunk) =>
    match s.core.tasks t with
    | .readingClient _ _ =>
      let old := s.traffic t
      ⟨core, Function.update s.traffic t
        { old with
          fromClient := old.fromClient ++ [chunk.bytes]
          toBackend := old.toBackend ++ backendWrite (core.tasks t) }⟩
    | _ => ⟨core, s.traffic⟩
  | .backendRead t (some chunk) =>
    match s.core.tasks t with
    | .readingBackend _ _ =>
      let old := s.traffic t
      ⟨core, Function.update s.traffic t
        { old with
          fromBackend := old.fromBackend ++ [chunk.bytes]
          toClient := old.toClient ++ clientWrite (core.tasks t) }⟩
    | _ => ⟨core, s.traffic⟩
  | _ => ⟨core, s.traffic⟩

def Cleared : Task → Prop
  | .connecting buf => buf = []
  | .readingClient buf _ => buf = []
  | .readingBackend buf _ => buf = []
  | _ => True

/-- What is left of a list of reads without those that found the connection closed. -/
def received (reads : List Bytes) : List Bytes := reads.filter fun bytes => !bytes.isEmpty

/-- The writes of a task are its own reads, each way. A write that is under way is the last of
them. -/
structure Forwards (task : Task) (traffic : Traffic) : Prop where
  request : traffic.toBackend = received traffic.fromClient
  response : traffic.toClient = received traffic.fromBackend
  requesting : backendWrite task <:+ traffic.toBackend
  responding : clientWrite task <:+ traffic.toClient

/-- A point at which a task writes nothing. -/
structure Quiet (task : Task) : Prop where
  cleared : Cleared task
  backend : backendWrite task = []
  client : clientWrite task = []

def Quietens (c c' : Core) (t : ℕ) : Prop :=
  ∃ task, c'.tasks = Function.update c.tasks t task ∧ Quiet task

variable {c : Core} {t : ℕ} {buf : Buffer} {pipe : ℕ}

theorem Quiet.forwards {task : Task} {traffic : Traffic} (h : Quiet task)
    (hrequest : traffic.toBackend = received traffic.fromClient)
    (hresponse : traffic.toClient = received traffic.fromBackend) : Forwards task traffic := by
  refine ⟨hrequest, hresponse, ?_, ?_⟩
  · rw [h.backend]
    exact List.nil_suffix
  · rw [h.client]
    exact List.nil_suffix

theorem quiet_finished : Quiet .finished := ⟨trivial, rfl, rfl⟩

theorem quiet_panicked : Quiet .panicked := ⟨trivial, rfl, rfl⟩

theorem quietens_start (c : Core) (t : ℕ) : Quietens c (c.start t) t := by
  rw [Core.start]
  dsimp only
  split
  · exact ⟨.panicked, rfl, quiet_panicked⟩
  · split
    · exact ⟨.panicked, rfl, quiet_panicked⟩
    · split
      · exact ⟨_, rfl, rfl, rfl, rfl⟩
      · exact ⟨_, rfl, rfl, rfl, rfl⟩

theorem quietens_giveBack (c : Core) (t : ℕ) (buf : Buffer) : Quietens c (c.giveBack t buf) t := by
  rw [Core.giveBack]
  split
  · exact ⟨.panicked, rfl, quiet_panicked⟩
  · exact ⟨.finished, rfl, quiet_finished⟩

theorem quietens_connected (c : Core) (t : ℕ) (result : Option ℕ) :
    Quietens c (c.connected t [] result) t := by
  cases result with
  | some pipe => exact ⟨.readingClient [] pipe, rfl, rfl, rfl, rfl⟩
  | none =>
    obtain ⟨task, htasks, hquiet⟩ := quietens_giveBack c t []
    exact ⟨task, htasks, hquiet⟩

theorem quietens_clientWritten (c : Core) (t : ℕ) (buf : Buffer) (pipe : ℕ) :
    Quietens c (c.clientWritten t buf pipe) t := by
  rw [Core.clientWritten]
  dsimp only
  split
  · exact ⟨.panicked, rfl, quiet_panicked⟩
  · split
    · exact ⟨.panicked, rfl, quiet_panicked⟩
    · split
      · split
        · exact ⟨.panicked, rfl, quiet_panicked⟩
        · exact ⟨.finished, rfl, quiet_finished⟩
      · exact ⟨.finished, rfl, quiet_finished⟩

theorem readInto_nil (chunk : Chunk) : readInto [] chunk = chunk.bytes := by
  rw [readInto, List.drop_nil, List.append_nil]

theorem received_append (reads : List Bytes) (bytes : Bytes) :
    received (reads ++ [bytes]) =
      received reads ++ if 0 < bytes.length then [bytes] else [] := by
  cases bytes with
  | nil => simp [received]
  | cons b bs => simp [received]

def Clean (s : Watched) : Prop :=
  ∀ t, Cleared (s.core.tasks t) ∧ Forwards (s.core.tasks t) (s.traffic t)

variable {s : Watched}

theorem clean_opened (bufs : List Buffer) : Clean (opened bufs) := by
  intro t
  refine ⟨trivial, rfl, rfl, ?_, ?_⟩
  · exact List.suffix_refl []
  · exact List.suffix_refl []

theorem clean_update (h : Clean s) {c' : Core} {task : Task} {traffic : Traffic}
    (htasks : c'.tasks = Function.update s.core.tasks t task) (hcleared : Cleared task)
    (hforwards : Forwards task traffic) :
    Clean ⟨c', Function.update s.traffic t traffic⟩ := by
  intro q
  by_cases hq : q = t
  · subst hq
    simp only [htasks, Function.update_self]
    exact ⟨hcleared, hforwards⟩
  · simp only [htasks, Function.update_of_ne hq]
    exact h q

theorem clean_quiet (h : Clean s) {c' : Core} (hquiet : Quietens s.core c' t) :
    Clean ⟨c', s.traffic⟩ := by
  obtain ⟨task, htasks, hquiet⟩ := hquiet
  have hold := (h t).2
  have hforwards := hquiet.forwards hold.request hold.response
  have hclean := clean_update h htasks hquiet.cleared hforwards
  rwa [Function.update_eq_self] at hclean

theorem clean_clientRead (h : Clean s) (ht : s.core.tasks t = .readingClient buf pipe)
    (chunk : Chunk) : Clean (observe s (.clientRead t (some chunk))) := by
  obtain ⟨hcleared, hold⟩ := h t
  rw [ht] at hcleared hold
  have hempty : buf = [] := hcleared
  have hstep : next s.core (.clientRead t (some chunk)) =
      s.core.clientRead t [] pipe (some chunk) := by
    simp only [next, ht, hempty]
  simp only [observe, ht, hstep, Core.clientRead, readInto_nil]
  split
  · next hpos =>
    apply clean_update h
    · rfl
    · trivial
    · constructor
      · simp [backendWrite, hold.request, received_append, hpos]
      · exact hold.response
      · simp only [tasks_setTask, Function.update_self]
        exact List.suffix_append _ _
      · exact List.nil_suffix
  · next hzero =>
    obtain ⟨task, htasks, hquiet⟩ := quietens_giveBack s.core t (clear chunk.bytes)
    have htask : (s.core.giveBack t (clear chunk.bytes)).tasks t = task := by
      rw [htasks, Function.update_self]
    refine clean_update h htasks hquiet.cleared (hquiet.forwards ?_ ?_)
    · simp [htask, hquiet.backend, hold.request, received_append, hzero]
    · exact hold.response

theorem clean_backendRead (h : Clean s) (ht : s.core.tasks t = .readingBackend buf pipe)
    (chunk : Chunk) : Clean (observe s (.backendRead t (some chunk))) := by
  obtain ⟨hcleared, hold⟩ := h t
  rw [ht] at hcleared hold
  have hempty : buf = [] := hcleared
  have hstep : next s.core (.backendRead t (some chunk)) =
      s.core.backendRead t [] pipe (some chunk) := by
    simp only [next, ht, hempty]
  simp only [observe, ht, hstep, Core.backendRead, readInto_nil]
  split
  · next hpos =>
    apply clean_update h
    · rfl
    · trivial
    · constructor
      · exact hold.request
      · simp [clientWrite, hold.response, received_append, hpos]
      · exact List.nil_suffix
      · simp only [tasks_setTask, Function.update_self]
        exact List.suffix_append _ _
  · next hzero =>
    obtain ⟨task, htasks, hquiet⟩ := quietens_giveBack s.core t (clear chunk.bytes)
    have htask : (s.core.giveBack t (clear chunk.bytes)).tasks t = task := by
      rw [htasks, Function.update_self]
    refine clean_update h htasks hquiet.cleared (hquiet.forwards ?_ ?_)
    · exact hold.request
    · simp [htask, hquiet.client, hold.response, received_append, hzero]

theorem clean_observe (h : Clean s) (e : Event) : Clean (observe s e) := by
  cases e with
  | accept =>
    have hspawned : Quiet .spawned := ⟨trivial, rfl, rfl⟩
    exact clean_quiet h ⟨.spawned, rfl, hspawned⟩
  | start t =>
    simp only [observe, next]
    cases ht : s.core.tasks t with
    | spawned => exact clean_quiet h (quietens_start s.core t)
    | _ => exact h
  | connected t result =>
    simp only [observe, next]
    cases ht : s.core.tasks t with
    | connecting buf =>
      have hcleared := (h t).1
      rw [ht] at hcleared
      have hempty : buf = [] := hcleared
      rw [hempty]
      exact clean_quiet h (quietens_connected s.core t result)
    | _ => exact h
  | clientRead t result =>
    cases ht : s.core.tasks t with
    | readingClient buf pipe =>
      cases result with
      | some chunk => exact clean_clientRead h ht chunk
      | none =>
        simp only [observe, next, ht]
        exact clean_quiet h (quietens_giveBack s.core t (clear buf))
    | _ =>
      cases result with
      | some chunk =>
        simp only [observe, next, ht]
        exact h
      | none =>
        simp only [observe, next, ht]
        exact h
  | backendWritten t ok =>
    simp only [observe, next]
    cases ht : s.core.tasks t with
    | writingBackend buf pipe =>
      cases ok with
      | true =>
        have hreading : Quiet (.readingBackend (clear buf) pipe) := ⟨rfl, rfl, rfl⟩
        exact clean_quiet h ⟨_, rfl, hreading⟩
      | false => exact clean_quiet h (quietens_giveBack s.core t (clear buf))
    | _ => exact h
  | backendRead t result =>
    cases ht : s.core.tasks t with
    | readingBackend buf pipe =>
      cases result with
      | some chunk => exact clean_backendRead h ht chunk
      | none =>
        simp only [observe, next, ht]
        exact clean_quiet h (quietens_giveBack s.core t (clear buf))
    | _ =>
      cases result with
      | some chunk =>
        simp only [observe, next, ht]
        exact h
      | none =>
        simp only [observe, next, ht]
        exact h
  | clientWritten t ok =>
    simp only [observe, next]
    cases ht : s.core.tasks t with
    | writingClient buf pipe =>
      exact clean_quiet h (quietens_clientWritten s.core t buf pipe)
    | _ => exact h

/-- Whatever the buffers of the pool hold and however the tasks interleave, every task writes
what its own reads returned and nothing else. -/
theorem buffers_leak_nothing (bufs : List Buffer) (es : List Event) (t : ℕ) :
    let s := run observe (opened bufs) es
    Forwards (s.core.tasks t) (s.traffic t) := by
  have hend : Clean (run observe (opened bufs) es) :=
    run_preserves (P := Clean) (fun _ e h => clean_observe h e) (clean_opened bufs) es
  exact (hend t).2

end AegisBuffers

import Mathlib.Logic.Function.Basic
import Vanguard.RefCells
import Vanguard.StateMachines
import Vanguard.Utf8Text

/-! One core of AEGIS: its connection tasks, which run one at a time and change only at their
await points, the pool of buffers and the pool of connections to Chronos. -/
namespace AegisCore

open Utf8Text (Bytes)
open RefCells StateMachines

def BUFFER_SIZE : ℕ := 4096
def POOL_CAPACITY : ℕ := 1024
def MAX_HOT_PIPES : ℕ := 64

/-- The bytes of a `Vec<u8>` below its length. -/
abbrev Buffer := Bytes

/-- What one read can return. -/
structure Chunk where
  bytes : Bytes
  bound : bytes.length ≤ BUFFER_SIZE

def clear (_ : Buffer) : Buffer := []

/-- A read stores its bytes at the start of the buffer and never shortens it. -/
def readInto (buf : Buffer) (chunk : Chunk) : Buffer :=
  chunk.bytes ++ buf.drop chunk.bytes.length

/-- A task at one of its await points, with what it owns there. The task that awaits its
`connect` also holds the guard of the connection pool: the scrutinee of the `if let` lives to
the end of the whole expression. -/
inductive Task where
  | absent
  | spawned
  | connecting (buf : Buffer)
  | readingClient (buf : Buffer) (pipe : ℕ)
  | writingBackend (buf : Buffer) (pipe : ℕ)
  | readingBackend (buf : Buffer) (pipe : ℕ)
  | writingClient (buf : Buffer) (pipe : ℕ)
  | finished
  | panicked
  deriving DecidableEq, Repr

/-- The counters are this core's part of the telemetry; `fallbacks` counts the buffers that
were allocated because the pool was empty. -/
structure Core where
  pool : RefCell (List Buffer)
  connPool : RefCell (List ℕ)
  activeConnections : ℕ
  totalBytes : ℕ
  totalRequests : ℕ
  fallbacks : ℕ
  accepted : ℕ
  tasks : ℕ → Task

def initial : Core where
  pool := .new (List.replicate POOL_CAPACITY [])
  connPool := .new []
  activeConnections := 0
  totalBytes := 0
  totalRequests := 0
  fallbacks := 0
  accepted := 0
  tasks := fun _ => .absent

/-- An accepted connection, or a task resumed with the outcome of what it awaits. `none` is
an I/O error. -/
inductive Event where
  | accept
  | start (t : ℕ)
  | connected (t : ℕ) (pipe : Option ℕ)
  | clientRead (t : ℕ) (result : Option Chunk)
  | backendWritten (t : ℕ) (ok : Bool)
  | backendRead (t : ℕ) (result : Option Chunk)
  | clientWritten (t : ℕ) (ok : Bool)

def Core.setTask (c : Core) (t : ℕ) (task : Task) : Core :=
  { c with tasks := Function.update c.tasks t task }

/-- The end of a task drops its `ConnectionGuard`, also when it panics. -/
def Core.leave (c : Core) (t : ℕ) (task : Task) : Core :=
  { c with activeConnections := c.activeConnections - 1 }.setTask t task

def pushBack {α : Type} (a : α) (q : List α) : Unit × List α := ((), q ++ [a])

def popFront {α : Type} (q : List α) : Option α × List α := (q.head?, q.tail)

/-- The tail shared by all early returns: the buffer goes back to the pool. -/
def Core.giveBack (c : Core) (t : ℕ) (buf : Buffer) : Core :=
  match c.pool.modify (pushBack buf) with
  | none => c.leave t .panicked
  | some (_, pool) => { c with pool := pool }.leave t .finished

def Core.start (c : Core) (t : ℕ) : Core :=
  let c := { c with activeConnections := c.activeConnections + 1 }
  match c.pool.modify popFront with
  | none => c.leave t .panicked
  | some (recycled, pool) =>
    let c := { c with pool := pool, fallbacks := c.fallbacks + if recycled.isNone then 1 else 0 }
    let buf := clear (recycled.getD [])
    match c.connPool.borrowMut with
    | none => c.leave t .panicked
    | some guarded =>
      match popFront guarded.value with
      | (some hotPipe, rest) =>
        { c with connPool := { guarded with value := rest }.dropRefMut }.setTask t
          (.readingClient buf hotPipe)
      | (none, _) => { c with connPool := guarded }.setTask t (.connecting buf)

def Core.connected (c : Core) (t : ℕ) (buf : Buffer) : Option ℕ → Core
  | some pipe =>
    { c with connPool := c.connPool.dropRefMut }.setTask t (.readingClient buf pipe)
  | none =>
    let c := c.giveBack t buf
    { c with connPool := c.connPool.dropRefMut }

def Core.clientRead (c : Core) (t : ℕ) (buf : Buffer) (pipe : ℕ) : Option Chunk → Core
  | some chunk =>
    if 0 < chunk.bytes.length then
      { c with totalBytes := c.totalBytes + chunk.bytes.length }.setTask t
        (.writingBackend (readInto buf chunk) pipe)
    else c.giveBack t (clear (readInto buf chunk))
  | none => c.giveBack t (clear buf)

def Core.backendWritten (c : Core) (t : ℕ) (buf : Buffer) (pipe : ℕ) (ok : Bool) : Core :=
  if ok then c.setTask t (.readingBackend (clear buf) pipe) else c.giveBack t (clear buf)

def Core.backendRead (c : Core) (t : ℕ) (buf : Buffer) (pipe : ℕ) : Option Chunk → Core
  | some chunk =>
    if 0 < chunk.bytes.length then
      { c with totalBytes := c.totalBytes + chunk.bytes.length }.setTask t
        (.writingClient (readInto buf chunk) pipe)
    else c.giveBack t (clear (readInto buf chunk))
  | none => c.giveBack t (clear buf)

/-- The result of the last write is ignored. -/
def Core.clientWritten (c : Core) (t : ℕ) (buf : Buffer) (pipe : ℕ) : Core :=
  let c := { c with totalRequests := c.totalRequests + 1 }
  match c.pool.modify (pushBack (clear buf)) with
  | none => c.leave t .panicked
  | some (_, pool) =>
    let c := { c with pool := pool }
    match c.connPool.inspect List.length with
    | none => c.leave t .panicked
    | some (len, connPool) =>
      let c := { c with connPool := connPool }
      if len < MAX_HOT_PIPES then
        match c.connPool.modify (pushBack pipe) with
        | none => c.leave t .panicked
        | some (_, connPool) => { c with connPool := connPool }.leave t .finished
      else c.leave t .finished

/-- An event that is not the one a task awaits changes nothing. -/
def next (c : Core) : Event → Core
  | .accept => { c with accepted := c.accepted + 1 }.setTask c.accepted .spawned
  | .start t =>
    match c.tasks t with
    | .spawned => c.start t
    | _ => c
  | .connected t pipe =>
    match c.tasks t with
    | .connecting buf => c.connected t buf pipe
    | _ => c
  | .clientRead t result =>
    match c.tasks t with
    | .readingClient buf pipe => c.clientRead t buf pipe result
    | _ => c
  | .backendWritten t ok =>
    match c.tasks t with
    | .writingBackend buf pipe => c.backendWritten t buf pipe ok
    | _ => c
  | .backendRead t result =>
    match c.tasks t with
    | .readingBackend buf pipe => c.backendRead t buf pipe result
    | _ => c
  | .clientWritten t _ =>
    match c.tasks t with
    | .writingClient buf pipe => c.clientWritten t buf pipe
    | _ => c

section Effects

variable {c : Core} {t : ℕ} {buf : Buffer} {pipe : ℕ}

@[simp] theorem tasks_setTask (task : Task) :
    (c.setTask t task).tasks = Function.update c.tasks t task := rfl
@[simp] theorem tasks_leave (task : Task) :
    (c.leave t task).tasks = Function.update c.tasks t task := rfl
@[simp] theorem connPool_setTask (task : Task) : (c.setTask t task).connPool = c.connPool := rfl
@[simp] theorem connPool_leave (task : Task) : (c.leave t task).connPool = c.connPool := rfl
@[simp] theorem pool_setTask (task : Task) : (c.setTask t task).pool = c.pool := rfl
@[simp] theorem pool_leave (task : Task) : (c.leave t task).pool = c.pool := rfl

theorem giveBack_eq (hpool : c.pool.flag = .unused) :
    c.giveBack t buf =
      { c with pool := ⟨c.pool.value ++ [buf], .unused⟩ }.leave t .finished := by
  rw [Core.giveBack, modify_unused hpool]
  rfl

def Core.takeBuffer (c : Core) : Core :=
  { c with
    activeConnections := c.activeConnections + 1
    pool := ⟨c.pool.value.tail, .unused⟩
    fallbacks := c.fallbacks + if c.pool.value.head?.isNone then 1 else 0 }

theorem start_guarded (hpool : c.pool.flag = .unused) (hconn : c.connPool.flag = .writing) :
    c.start t = c.takeBuffer.leave t .panicked := by
  simp only [Core.start, modify_unused hpool, popFront, borrowMut_writing hconn]
  rfl

theorem start_hot (hpool : c.pool.flag = .unused) (hconn : c.connPool.flag = .unused)
    {rest : List ℕ} (hv : c.connPool.value = pipe :: rest) :
    c.start t =
      { c.takeBuffer with connPool := ⟨rest, .unused⟩ }.setTask t (.readingClient [] pipe) := by
  simp only [Core.start, modify_unused hpool, popFront, borrowMut_unused hconn, hv, List.head?_cons,
    List.tail_cons]
  rfl

theorem start_cold (hpool : c.pool.flag = .unused) (hconn : c.connPool.flag = .unused)
    (hv : c.connPool.value = []) :
    c.start t = { c.takeBuffer with connPool := ⟨[], .writing⟩ }.setTask t (.connecting []) := by
  simp only [Core.start, modify_unused hpool, popFront, borrowMut_unused hconn, hv, List.head?_nil]
  rfl

def Core.responded (c : Core) : Core :=
  { c with totalRequests := c.totalRequests + 1, pool := ⟨c.pool.value ++ [[]], .unused⟩ }

theorem clientWritten_guarded (hpool : c.pool.flag = .unused)
    (hconn : c.connPool.flag = .writing) :
    c.clientWritten t buf pipe = c.responded.leave t .panicked := by
  simp only [Core.clientWritten, modify_unused hpool, inspect_writing hconn]
  rfl

theorem clientWritten_room (hpool : c.pool.flag = .unused) (hconn : c.connPool.flag = .unused)
    (hroom : c.connPool.value.length < MAX_HOT_PIPES) :
    c.clientWritten t buf pipe =
      { c.responded with connPool := ⟨c.connPool.value ++ [pipe], .unused⟩ }.leave t
        .finished := by
  simp only [Core.clientWritten, modify_unused hpool, inspect_unused hconn, if_pos hroom,
    modify_unused hconn]
  rfl

theorem clientWritten_full (hpool : c.pool.flag = .unused) (hconn : c.connPool.flag = .unused)
    (hfull : ¬ c.connPool.value.length < MAX_HOT_PIPES) :
    c.clientWritten t buf pipe = c.responded.leave t .finished := by
  simp only [Core.clientWritten, modify_unused hpool, inspect_unused hconn, if_neg hfull]
  rfl

end Effects

end AegisCore

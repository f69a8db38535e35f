import Vanguard.ChronosCompaction
import Vanguard.ChronosServer
import Mathlib.Data.Finset.Insert

/-! The threads of Chronos: one for each connection, one for Ctrl-C and the main one, which accepts
the connections, with the engine behind a lock for many readers or one writer. A set and a
compaction take many steps under the lock, and any thread may move next. -/
namespace ChronosThreads

open Utf8Text FileSystems LastWriterMaps StateMachines ChronosEngine ChronosLogFormat ChronosStore
open ChronosCompaction ChronosParser ChronosServer

/-- `none` is the handler of Ctrl-C, `some i` the thread of a connection. -/
abbrev Process := Option ℕ

inductive Guard where
  | read
  | write
  deriving DecidableEq

structure RwLock where
  writer : Option Process
  readers : Finset Process

def RwLock.unlock (l : RwLock) (p : Process) : Guard → RwLock
  | .read => { l with readers := l.readers.erase p }
  | .write => { l with writer := none }

/-- What is left to do under the write guard: to insert into the map and write the record, to
write these fragments, or the calls of a compaction. -/
inductive Work where
  | insert (key value : Text)
  | append (fragments : List Text)
  | compact (point : CompactPoint)

/-- Where a thread stands in `handle_client`, with its locals. The handler of Ctrl-C is `reading`
until the signal comes. A thread that has ended leaves behind what its client did not get. -/
inductive Point where
  | reading
  | waiting (c : Command) (t : Traversal Text Text)
  | looking (t : Traversal Text Text) (key : Text)
  | writing (c : Command) (t : Traversal Text Text) (work : Work) (response : Text)
  | holding (g : Guard) (c : Command) (response : Text)
  | replying (c : Command) (response : Text)
  | stopped (undelivered : List (Command × Text))

structure Entry where
  process : Process
  order : Traversal Text Text
  command : Command
  response : Text

/-- The process, with a record of the commands in the order in which they took effect and, for
each thread, of the commands it has parsed and the responses it has sent. -/
structure System where
  db : Db
  lock : RwLock
  threads : Process → Point
  exited : Bool
  history : List Entry
  sent : Process → List Command
  received : Process → List (Command × Text)

def started (db : Db) : System :=
  ⟨db, ⟨none, ∅⟩, fun _ => .reading, false, [], fun _ => [], fun _ => []⟩

inductive Event where
  | receive (client : ℕ) (m : Message)
  | disconnect (client : ℕ)
  | interrupt (t : Traversal Text Text)
  | acquire (p : Process)
  | advance (p : Process) (bytes : ℕ)
  | release (client : ℕ)
  | reply (client : ℕ) (delivered : Bool)
  | exit

def Event.process : Event → Process
  | .receive i _ => some i
  | .disconnect i => some i
  | .interrupt _ => none
  | .acquire p => p
  | .advance p _ => p
  | .release i => some i
  | .reply i _ => some i
  | .exit => none

def System.moveTo (s : System) (p : Process) (point : Point) : System :=
  { s with threads := Function.update s.threads p point }

def System.record (s : System) (p : Process) (t : Traversal Text Text) (c : Command)
    (response : Text) : System :=
  { s with history := s.history ++ [⟨p, t, c, response⟩] }

def System.hears (s : System) (p : Process) (c : Command) : System :=
  { s with sent := Function.update s.sent p (s.sent p ++ [c]) }

def System.answers (s : System) (p : Process) (c : Command) (response : Text) : System :=
  { s with received := Function.update s.received p (s.received p ++ [(c, response)]) }

def firstWork : Command → Option (Work × Text)
  | .set k v => some (.insert k v, "OK\n".toList)
  | .del k => some (.insert k TOMBSTONE, "OK_DELETED\n".toList)
  | .compact => some (.compact .openTemp, "OK_COMPACTED\n".toList)
  | _ => none

/-- A message was read. A message without words ends the thread, with no guard held. -/
def receive (s : System) (p : Process) (m : Message) : System :=
  match m.command with
  | none => s.moveTo p (.stopped [])
  | some c =>
    match c with
    | .ping => ((s.hears p c).record p m.order c "PONG\n".toList).moveTo p
        (.replying c "PONG\n".toList)
    | .unknown => ((s.hears p c).record p m.order c "ERR_UNKNOWN_COMMAND\n".toList).moveTo p
        (.replying c "ERR_UNKNOWN_COMMAND\n".toList)
    | c => (s.hears p c).moveTo p (.waiting c m.order)

def acquire (s : System) (p : Process) (c : Command) (t : Traversal Text Text) : System :=
  match c with
  | .get k =>
    if s.lock.writer = none then
      { s with lock := { s.lock with readers := insert p s.lock.readers } }.moveTo p
        (.looking t k)
    else s
  | c =>
    match firstWork c with
    | some (work, response) =>
      if s.lock.writer = none ∧ s.lock.readers = ∅ then
        { s with lock := { s.lock with writer := some p } }.moveTo p (.writing c t work response)
      else s
    | none => s

def appendFragment (db : Db) (fragment : Text) : Db :=
  let data := encode fragment
  ⟨db.fs.put db.engine.logFile data,
    { db.engine with
      logFile := { db.engine.logFile with pos := db.engine.logFile.pos + data.length } }⟩

def finish (s : System) (p : Process) (c : Command) (t : Traversal Text Text) (response : Text) :
    System :=
  (s.record p t c response).moveTo p (.holding .write c response)

def workOn (s : System) (p : Process) (c : Command) (t : Traversal Text Text) (work : Work)
    (response : Text) (n : ℕ) : System :=
  match work with
  | .insert k v =>
    { s with db := { s.db with engine :=
      { s.db.engine with map := s.db.engine.map.insert k v } } }.moveTo p
        (.writing c t (.append (recordFragments k v)) response)
  | .append [] => finish s p c t response
  | .append (f :: fragments) =>
    { s with db := appendFragment s.db f }.moveTo p (.writing c t (.append fragments) response)
  | .compact .returned => finish s p c t response
  | .compact point =>
    let after := compactStep t ⟨s.db, point⟩ n
    { s with db := after.db }.moveTo p (.writing c t (.compact after.point) response)

def advance (s : System) (p : Process) (n : ℕ) : System :=
  match s.threads p with
  | .looking t k =>
    let response := answer (s.db.engine.get k)
    (s.record p t (.get k) response).moveTo p (.holding .read (.get k) response)
  | .writing c t work response => workOn s p c t work response n
  | _ => s

/-- An event whose thread stands elsewhere changes nothing. -/
def move (s : System) : Event → System
  | .receive i m =>
    match s.threads (some i) with
    | .reading => receive s (some i) m
    | _ => s
  | .disconnect i =>
    match s.threads (some i) with
    | .reading => s.moveTo (some i) (.stopped [])
    | _ => s
  | .interrupt t =>
    match s.threads none with
    | .reading => (s.hears none .compact).moveTo none (.waiting .compact t)
    | _ => s
  | .acquire p =>
    match s.threads p with
    | .waiting c t => acquire s p c t
    | _ => s
  | .advance p n => advance s p n
  | .release i =>
    match s.threads (some i) with
    | .holding g c response =>
      { s with lock := s.lock.unlock (some i) g }.moveTo (some i) (.replying c response)
    | _ => s
  | .reply i delivered =>
    match s.threads (some i) with
    | .replying c response =>
      if delivered then (s.answers (some i) c response).moveTo (some i) .reading
      else s.moveTo (some i) (.stopped [(c, response)])
    | _ => s
  | .exit =>
    match s.threads none with
    | .holding _ _ _ => { s with exited := true }
    | _ => s

/-- Nothing moves once the process has exited. -/
def next (s : System) (e : Event) : System := if s.exited then s else move s e

structure Connection where
  client : ℕ
  peerAddr : Except IoError Text
  spawned : Bool

/-- The whole process. `clients` are those whose threads were spawned. -/
structure Chronos where
  system : System
  clients : Finset ℕ
  panicked : Bool

inductive ProcessEvent where
  | incoming (stream : Except IoError Connection)
  | thread (e : Event)

def listening (db : Db) : Chronos := ⟨started db, ∅, false⟩

def Chronos.processes (s : Chronos) : Finset Process := insert none (s.clients.image some)

/-- One turn of the loop of `start_server`. It has two ways to panic, in `unwrap` and in `spawn`. -/
def Chronos.accept (s : Chronos) : Except IoError Connection → Chronos
  | .error _ => s
  | .ok stream =>
    match stream.peerAddr with
    | .error _ => { s with panicked := true }
    | .ok _ =>
      if stream.spawned then { s with clients := insert stream.client s.clients }
      else { s with panicked := true }

/-- A panic of the main thread ends the process, whatever the other threads are doing. -/
def Chronos.next (s : Chronos) (e : ProcessEvent) : Chronos :=
  if s.panicked ∨ s.system.exited then s
  else
    match e with
    | .incoming stream => s.accept stream
    | .thread e =>
      if e.process ∈ s.processes then { s with system := ChronosThreads.next s.system e } else s

/-- The sequential execution of a history: one command after the other, nothing in between. -/
def perform (db : Db) (e : Entry) : Db × Text := execute db (healthy e.order) e.command

def sequential (db : Db) (history : List Entry) : Db :=
  run (fun db e => (perform db e).1) db history

def own (history : List Entry) (p : Process) : List (Command × Text) :=
  (history.filter fun e => e.process = p).map fun e => (e.command, e.response)

def Point.guard : Point → Option Guard
  | .looking _ _ => some .read
  | .writing _ _ _ _ => some .write
  | .holding g _ _ => some g
  | _ => none

def Point.pending : Point → List Command
  | .waiting c _ => [c]
  | .looking _ k => [.get k]
  | .writing c _ _ _ => [c]
  | _ => []

def Point.unsent : Point → List (Command × Text)
  | .holding _ c response => [(c, response)]
  | .replying c response => [(c, response)]
  | .stopped undelivered => undelivered
  | _ => []

theorem sequential_snoc (db : Db) (history : List Entry) (e : Entry) :
    sequential db (history ++ [e]) = (perform (sequential db history) e).1 := by
  rw [sequential, run_append]
  rfl

theorem own_snoc_self (history : List Entry) (p : Process) (t : Traversal Text Text) (c : Command)
    (response : Text) :
    own (history ++ [⟨p, t, c, response⟩]) p = own history p ++ [(c, response)] := by
  simp [own]

theorem own_snoc_of_ne {history : List Entry} {p q : Process} (h : q ≠ p)
    (t : Traversal Text Text) (c : Command) (response : Text) :
    own (history ++ [⟨p, t, c, response⟩]) q = own history q := by
  simp [own, Ne.symm h]

end ChronosThreads

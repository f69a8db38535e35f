import Vanguard.ChronosStore
import Vanguard.ChronosParser

/-! The server of Chronos: one message is one read, dispatched under the lock of the engine.
Messages of all clients reach the engine one after the other. -/
namespace ChronosServer

open Utf8Text FileSystems LastWriterMaps SeparatedWords StateMachines ChronosEngine
open ChronosLogFormat ChronosStore ChronosParser

def TOMBSTONE : Text := "__TOMBSTONE__".toList

/-- The order in which a compaction meets the entries, and the failures of the disk while one
message is handled. -/
structure Environment where
  order : Traversal Text Text
  set : Option (ℕ × IoError)
  compact : Option CompactFailure

def healthy (t : Traversal Text Text) : Environment := ⟨t, none, none⟩

def answer : Option Text → Text
  | some v => if v = TOMBSTONE then "NULL\n".toList else v ++ ['\n']
  | none => "NULL\n".toList

def execute (db : Db) (env : Environment) : Command → Db × Text
  | .set key value =>
    match db.set key value env.set with
    | (.ok (), db) => (db, "OK\n".toList)
    | (.error err, db) => (db, "ERR ".toList ++ err.display ++ ['\n'])
  | .del key =>
    match db.set key TOMBSTONE env.set with
    | (.ok (), db) => (db, "OK_DELETED\n".toList)
    | (.error err, db) => (db, "ERR ".toList ++ err.display ++ ['\n'])
  | .get key => (db, answer (db.engine.get key))
  | .compact =>
    match db.compact env.order env.compact with
    | (.ok (), db) => (db, "OK_COMPACTED\n".toList)
    | (.error err, db) => (db, "ERR_COMPACT ".toList ++ err.display ++ ['\n'])
  | .ping => (db, "PONG\n".toList)
  | .unknown => (db, "ERR_UNKNOWN_COMMAND\n".toList)

/-- From the bytes of one read to the reply. A panic of the parser comes before the engine is
locked, so it costs the client its connection and nobody anything else. -/
def handleMessage (db : Db) (env : Environment) (raw : Bytes) : Db × Option Text :=
  match parse (decodeLossy raw) with
  | none => (db, none)
  | some command =>
    let (db, response) := execute db env command
    (db, some response)

inductive Ending where
  | disconnected
  | readFailed
  | replyFailed
  | panicked
  deriving DecidableEq, Repr

/-- One turn of the loop: the result of `read`, the disk, and how many bytes of the reply get
through when `write_all` fails. -/
structure Exchange where
  received : Except IoError Bytes
  env : Environment
  cut : Option ℕ

structure Session where
  db : Db
  executed : List Command
  output : Bytes
  ending : Option Ending

/-- The body of the loop of `handle_client`. Nothing happens once the loop was left. -/
def loopBody (s : Session) (x : Exchange) : Session :=
  match s.ending with
  | some _ => s
  | none =>
    match x.received with
    | .error _ => { s with ending := some .readFailed }
    | .ok [] => { s with ending := some .disconnected }
    | .ok (b :: bs) =>
      match parse (decodeLossy (b :: bs)) with
      | none => { s with ending := some .panicked }
      | some command =>
        let (db, response) := execute s.db x.env command
        let executed := s.executed ++ [command]
        match x.cut with
        | none => ⟨db, executed, s.output ++ encode response, none⟩
        | some n => ⟨db, executed, s.output ++ (encode response).take n, some .replyFailed⟩

def handleClient (db : Db) (xs : List Exchange) : Session := run loopBody ⟨db, [], [], none⟩ xs

section Turns

variable {db : Db} {executed : List Command} {output : Bytes} {env : Environment} {raw : Bytes}

theorem loopBody_panicked (hne : raw ≠ []) (h : parse (decodeLossy raw) = none)
    (cut : Option ℕ) : loopBody ⟨db, executed, output, none⟩ ⟨.ok raw, env, cut⟩ =
      ⟨db, executed, output, some .panicked⟩ := by
  obtain ⟨b, bs, rfl⟩ := List.exists_cons_of_ne_nil hne
  simp only [loopBody, h]

theorem loopBody_answered {c : Command} (hne : raw ≠ []) (h : parse (decodeLossy raw) = some c) :
    loopBody ⟨db, executed, output, none⟩ ⟨.ok raw, env, none⟩ =
      ⟨(execute db env c).1, executed ++ [c], output ++ encode (execute db env c).2, none⟩ := by
  obtain ⟨b, bs, rfl⟩ := List.exists_cons_of_ne_nil hne
  simp only [loopBody, h]

theorem run_ended {s : Session} {e : Ending} (h : s.ending = some e) (xs : List Exchange) :
    run loopBody s xs = s := by
  induction xs with
  | nil => rfl
  | cons x xs ih =>
    have hstay : loopBody s x = s := by rw [loopBody, h]
    rw [run_cons, hstay, ih]

end Turns

/-- A message on a healthy disk, with the order in which a compaction would meet the entries. -/
structure Message where
  order : Traversal Text Text
  raw : Bytes

def Message.command (m : Message) : Option Command := parse (decodeLossy m.raw)

def serve (db : Db) (m : Message) : Db × Option Text := handleMessage db (healthy m.order) m.raw

/-- What a command hands to `Engine::set`. -/
def writes : Command → Option (Text × Text)
  | .set k v => some (k, v)
  | .del k => some (k, TOMBSTONE)
  | _ => none

def storeOps (t : Traversal Text Text) : Command → List Op
  | .set k v => [.set k v]
  | .del k => [.set k TOMBSTONE]
  | .compact => [.compact t]
  | _ => []

theorem sets_storeOps (t : Traversal Text Text) (c : Command) :
    (storeOps t c).flatMap Op.sets = (writes c).toList := by
  cases c <;> rfl

theorem execute_store (db : Db) (t : Traversal Text Text) (c : Command) :
    (execute db (healthy t) c).1 = run step db (storeOps t c) := by
  cases c with
  | set k v => rfl
  | del k => rfl
  | get k => rfl
  | compact =>
    simp only [execute, healthy, storeOps, run_cons, run_nil, step]
    obtain ⟨result, db'⟩ := db.compact t none
    cases result <;> rfl
  | ping => rfl
  | unknown => rfl

theorem serve_command {db : Db} {m : Message} {c : Command} (h : m.command = some c) :
    serve db m = ((execute db (healthy m.order) c).1, some (execute db (healthy m.order) c).2) := by
  rw [Message.command] at h
  simp only [serve, handleMessage, h]

theorem serve_panic {db : Db} {m : Message} (h : m.command = none) : serve db m = (db, none) := by
  rw [Message.command] at h
  simp only [serve, handleMessage, h]

def Message.storeOps (m : Message) : List Op :=
  match m.command with
  | none => []
  | some c => ChronosServer.storeOps m.order c

theorem run_serve (db : Db) (ms : List Message) :
    run (fun db m => (serve db m).1) db ms = run step db (ms.flatMap Message.storeOps) := by
  induction ms generalizing db with
  | nil => rfl
  | cons m ms ih =>
    rw [run_cons, ih, List.flatMap_cons, run_append]
    congr 1
    cases hc : m.command with
    | none =>
      rw [serve_panic hc, Message.storeOps, hc]
      rfl
    | some c =>
      rw [serve_command hc, execute_store, Message.storeOps, hc]

theorem compact_reply (db : Db) (t : Traversal Text Text) :
    (execute db (healthy t) .compact).2 = "OK_COMPACTED\n".toList := by
  obtain ⟨j, fs', hrun, _⟩ := compact_spec db.engine db.fs t
  simp only [execute, healthy, Db.compact, hrun]

theorem execute_map (db : Db) (env : Environment) (c : Command) :
    (execute db env c).1.engine.map = writeAll db.engine.map (writes c).toList := by
  cases c with
  | set k v =>
    have hmap : (db.set k v env.set).2.engine.map = write db.engine.map (k, v) := rfl
    simp only [execute]
    generalize db.set k v env.set = answer at hmap ⊢
    obtain ⟨result, db'⟩ := answer
    cases result <;> exact hmap
  | del k =>
    have hmap : (db.set k TOMBSTONE env.set).2.engine.map = write db.engine.map (k, TOMBSTONE) :=
      rfl
    simp only [execute]
    generalize db.set k TOMBSTONE env.set = answer at hmap ⊢
    obtain ⟨result, db'⟩ := answer
    cases result <;> exact hmap
  | get k => rfl
  | compact =>
    have hmap := compact_map db env.order env.compact
    simp only [execute]
    generalize db.compact env.order env.compact = answer at hmap ⊢
    obtain ⟨result, db'⟩ := answer
    cases result <;> exact hmap
  | ping => rfl
  | unknown => rfl

theorem storable_of_writes {input : Text} {c : Command} (h : parse input = some c)
    {r : Text × Text} (hr : writes c = some r) (hk : ',' ∉ r.1) : Storable r := by
  cases c with
  | set k v =>
    cases hr
    exact storable_of_set h hk
  | del k =>
    cases hr
    have hline : '\n' ∉ TOMBSTONE := by decide
    have hlast : TOMBSTONE.getLast? ≠ some '\r' := by decide
    exact ⟨hk, notMem_of_isWord (by decide) (isWord_of_del h), hline, hlast⟩
  | get k => cases hr
  | compact => cases hr
  | ping => cases hr
  | unknown => cases hr

end ChronosServer

import Vanguard.ChronosServer

/-! The server as a key-value map. Deletion is a value of its own, so a client cannot store that
value; absence is a reply of its own, so a client cannot tell it from that text. -/
namespace ChronosKeyValue

open Utf8Text FileSystems LastWriterMaps StateMachines ChronosEngine ChronosStore ChronosParser
open ChronosServer

/-- What a command makes of a key: a value, no value, or nothing new. -/
def effect (k : Text) : Command → Option (Option Text)
  | .set key value => if key = k then some (some value) else none
  | .del key => if key = k then some none else none
  | _ => none

/-- The value of a key whose latest `SET` or `DEL` is a `SET`. The latest command comes first. -/
def lastValue (history : List Command) (k : Text) : Option Text :=
  (history.findSome? (effect k)).join

def visible : Option Text → Option Text
  | some v => if v = TOMBSTONE then none else some v
  | none => none

/-- The tombstone as a value counts as none. -/
def live (history : List Command) (k : Text) : Option Text := visible (lastValue history k)

/-- The reply of a map that remembers only the commands so far. -/
def reference (value : List Command → Text → Option Text) (history : List Command) :
    Command → Text
  | .set _ _ => "OK\n".toList
  | .del _ => "OK_DELETED\n".toList
  | .get k =>
    match value history k with
    | some v => v ++ ['\n']
    | none => "NULL\n".toList
  | .compact => "OK_COMPACTED\n".toList
  | .ping => "PONG\n".toList
  | .unknown => "ERR_UNKNOWN_COMMAND\n".toList

def referenceServe (value : List Command → Text → Option Text) (history : List Command)
    (m : Message) : List Command × Option Text :=
  match m.command with
  | none => (history, none)
  | some c => (c :: history, some (reference value history c))

def commandsOf (ms : List Message) : List Command := (ms.filterMap Message.command).reverse

theorem lastValue_cons (c : Command) (history : List Command) (k : Text) :
    lastValue (c :: history) k = ((effect k c).map id).getD (lastValue history k) := by
  rw [lastValue, List.findSome?_cons]
  cases effect k c with
  | none => rfl
  | some o => rfl

theorem answer_visible (o : Option Text) :
    answer o = match visible o with
      | some v => v ++ ['\n']
      | none => "NULL\n".toList := by
  cases o with
  | none => rfl
  | some v =>
    by_cases hv : v = TOMBSTONE
    · simp [answer, visible, hv]
    · simp [answer, visible, hv]

def Agrees (db : Db) (history : List Command) : Prop :=
  ∀ k, visible (db.engine.map.lookup k) = live history k

theorem writes_effect {c : Command} {key v : Text} (h : writes c = some (key, v)) (k : Text) :
    ∃ o, visible o = visible (some v) ∧ effect k c = if key = k then some o else none := by
  cases c with
  | set _ _ =>
    cases h
    exact ⟨some v, rfl, rfl⟩
  | del _ =>
    cases h
    exact ⟨none, rfl, rfl⟩
  | get _ => cases h
  | compact => cases h
  | ping => cases h
  | unknown => cases h

theorem effect_of_writes_none {c : Command} (h : writes c = none) (k : Text) :
    effect k c = none := by
  cases c with
  | set key v => cases h
  | del key => cases h
  | get key => rfl
  | compact => rfl
  | ping => rfl
  | unknown => rfl

theorem Agrees.execute {db : Db} {history : List Command} (h : Agrees db history)
    (t : Traversal Text Text) (c : Command) :
    Agrees (execute db (healthy t) c).1 (c :: history) := by
  intro k
  rw [execute_map, live, lastValue_cons]
  cases hw : writes c with
  | none =>
    rw [effect_of_writes_none hw]
    exact h k
  | some pair =>
    obtain ⟨key, v⟩ := pair
    obtain ⟨o, hvisible, heffect⟩ := writes_effect hw k
    rw [heffect, Option.toList_some, writeAll_cons, writeAll_nil, lookup_write]
    by_cases hk : k = key
    · rw [if_pos hk, if_pos hk.symm]
      exact hvisible.symm
    · rw [if_neg hk, if_neg (Ne.symm hk)]
      exact h k

theorem Agrees.reply {db : Db} {history : List Command} (h : Agrees db history)
    (t : Traversal Text Text) (c : Command) :
    (ChronosServer.execute db (healthy t) c).2 = reference live history c := by
  cases c with
  | set key v => rfl
  | del key => rfl
  | get k =>
    show answer (db.engine.map.lookup k) = _
    rw [answer_visible, h k]
    rfl
  | compact => exact compact_reply db t
  | ping => rfl
  | unknown => rfl

theorem agrees_simulation :
    Simulation serve (referenceServe live) (fun _ _ => True) Agrees := by
  constructor
  · intro db history m h _
    rw [referenceServe]
    cases hc : m.command with
    | none => rw [serve_panic hc]
    | some c =>
      rw [serve_command hc]
      exact congrArg some (h.reply m.order c)
  · intro db history m h _
    rw [referenceServe]
    cases hc : m.command with
    | none =>
      rw [serve_panic hc]
      exact h
    | some c =>
      rw [serve_command hc]
      exact h.execute m.order c

theorem run_referenceServe (value : List Command → Text → Option Text) (history : List Command)
    (ms : List Message) :
    run (fun h m => (referenceServe value h m).1) history ms = commandsOf ms ++ history := by
  induction ms generalizing history with
  | nil => rfl
  | cons m ms ih =>
    rw [run_cons, ih]
    cases hc : m.command with
    | none => simp [referenceServe, commandsOf, hc]
    | some c => simp [referenceServe, commandsOf, hc]

theorem answer_null_iff (o : Option Text) :
    answer o = "NULL\n".toList ↔ visible o = none ∨ visible o = some "NULL".toList := by
  rw [answer_visible]
  cases visible o with
  | none => simp
  | some v =>
    have hsplit : "NULL\n".toList = "NULL".toList ++ ['\n'] := rfl
    simp only [hsplit, List.append_cancel_right_eq, reduceCtorEq, Option.some.injEq, false_or]

/-- The replies are those of the reference map. After any messages `GET` answers `NULL` just
for the keys which are not live and for those whose value is that text. -/
theorem serves_live_values (fs : FileSystem) (hempty : fs.read DB_PATH = [])
    (ms : List Message) :
    ∃ db₀, boot fs = some db₀ ∧
      replies serve db₀ ms = replies (referenceServe live) [] ms ∧
      ∀ k, answer ((run (fun db m => (serve db m).1) db₀ ms).engine.get k) = "NULL\n".toList ↔
        live (commandsOf ms) k = none ∨ live (commandsOf ms) k = some "NULL".toList := by
  have hlog : fs.read DB_PATH = ChronosLogFormat.encodeLog [] := hempty
  obtain ⟨db₀, hboot, hcarries⟩ := boot_carries hlog (by simp)
  have hstart : Agrees db₀ [] := by
    intro k
    rw [hcarries.map]
    rfl
  have hall := stepsMeet_true (fun h m => (referenceServe live h m).1) [] ms
  have hend := agrees_simulation.run_related hstart hall
  rw [run_referenceServe, List.append_nil] at hend
  refine ⟨db₀, hboot, agrees_simulation.replies_eq hstart hall, ?_⟩
  intro k
  rw [answer_null_iff]
  exact iff_of_eq (congrArg (fun o => o = none ∨ o = some "NULL".toList) (hend k))

theorem serves_live_values_set_del_set :
    ∃ db₀, boot emptyFileSystem = some db₀ ∧
      let ms : List Message := [⟨someTraversal, encode "SET k a\n".toList⟩,
        ⟨someTraversal, encode "DEL k\n".toList⟩, ⟨someTraversal, encode "GET k\n".toList⟩,
        ⟨someTraversal, encode "set k b  c\n".toList⟩]
      replies serve db₀ ms = replies (referenceServe live) [] ms ∧
      ∀ k, answer ((run (fun db m => (serve db m).1) db₀ ms).engine.get k) = "NULL\n".toList ↔
        live (commandsOf ms) k = none ∨ live (commandsOf ms) k = some "NULL".toList :=
  serves_live_values emptyFileSystem rfl _

theorem stored_tombstone_reads_deleted :
    ∃ db₀, boot emptyFileSystem = some db₀ ∧
      (let ms : List Message := [⟨someTraversal, encode "SET k __TOMBSTONE__\n".toList⟩,
        ⟨someTraversal, encode "GET k\n".toList⟩]
      replies serve db₀ ms ≠ replies (referenceServe lastValue) [] ms) ∧
      (let ms : List Message := [⟨someTraversal, encode "SET k NULL\n".toList⟩]
      ¬ (answer ((run (fun db m => (serve db m).1) db₀ ms).engine.get ['k']) = "NULL\n".toList ↔
        lastValue (commandsOf ms) ['k'] = none)) := by
  refine ⟨_, rfl, ?_, ?_⟩
  · decide
  · decide

end ChronosKeyValue

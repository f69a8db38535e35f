import Vanguard.ChronosServer

/-! What clients write survives a restart, as long as no key has a comma: the log separates key
and value at the first comma, and the parser lets commas into keys. -/
namespace ChronosDurability

open Utf8Text FileSystems LastWriterMaps TerminatedLines StateMachines ChronosEngine
open ChronosLogFormat ChronosStore ChronosParser ChronosServer

/-- What a message hands to `Engine::set`, if it does at all. -/
def written (m : Message) : List (Text × Text) := (m.command.bind writes).toList

def CommaFree (m : Message) : Prop := ∀ r ∈ written m, ',' ∉ r.1

instance (m : Message) : Decidable (CommaFree m) := inferInstanceAs (Decidable (∀ r ∈ _, _))

/-- A new engine over the same files answers `GET` as the running one does. -/
def SurvivesRestart (db : Db) : Prop :=
  ∃ db', boot db.fs = some db' ∧ ∀ k, answer (db'.engine.get k) = answer (db.engine.get k)

def served (db : Db) (ms : List Message) : Db := run (fun db m => (serve db m).1) db ms

theorem sets_message (m : Message) : m.storeOps.flatMap Op.sets = written m := by
  rw [Message.storeOps, written]
  cases m.command with
  | none => rfl
  | some c => exact sets_storeOps m.order c

theorem storable_written {m : Message} (h : CommaFree m) : ∀ r ∈ written m, Storable r := by
  intro r hr
  have hk := h r hr
  rw [written, Option.mem_toList, Option.bind_eq_some_iff] at hr
  obtain ⟨c, hc, hw⟩ := hr
  exact storable_of_writes hc hw hk

theorem served_carries {db : Db} {rs : List (Text × Text)} (h : Carries db rs) {ms : List Message}
    (hm : ∀ m ∈ ms, CommaFree m) : ∃ ts, Carries (served db ms) ts := by
  have hs : ∀ r ∈ (ms.flatMap Message.storeOps).flatMap Op.sets, Storable r := by
    intro r hr
    rw [List.flatMap_assoc] at hr
    obtain ⟨m, hmem, hr⟩ := List.mem_flatMap.mp hr
    rw [sets_message] at hr
    exact storable_written (hm m hmem) r hr
  obtain ⟨ts, hts, _⟩ := run_carries h _ hs
  rw [served, run_serve]
  exact ⟨ts, hts⟩

theorem survives_of_carries {db : Db} {rs : List (Text × Text)} (h : Carries db rs) :
    SurvivesRestart db := by
  obtain ⟨db', hboot, hcarries⟩ := h.reboot
  refine ⟨db', hboot, fun k => ?_⟩
  have hmap : db'.engine.map = db.engine.map := hcarries.map.trans h.map.symm
  rw [Engine.get, hmap]
  rfl

/-- The record of a comma key reads back under the part of the key before the comma. -/
theorem replay_comma_key {data : Bytes} (hd : Closed 0x0A data) {a b v : Text} (ha : ',' ∉ a)
    (hn : '\n' ∉ body (a ++ ',' :: b, v)) (hv : v.getLast? ≠ some '\r') :
    replay (data ++ record (a ++ ',' :: b, v)) = write (replay data) (a, b ++ ',' :: v) := by
  have hline : lines (record (a ++ ',' :: b, v)) = [some (body (a ++ ',' :: b, v))] := by
    rw [lines, record_eq, pieces_terminated ((newline_mem_encode _).not.mpr hn),
      List.map_singleton, ← record_eq, readLine]
    have hr : record (a ++ ',' :: b, v) = encode (body (a ++ ',' :: b, v) ++ ['\n']) := by
      rw [record_eq, encode_append]
      rfl
    rw [hr, decode_encode, Option.map_some, stripTerminator_newline (body_getLast hv)]
  have hbody : body (a ++ ',' :: b, v) = a ++ ',' :: (b ++ ',' :: v) := by simp [body]
  rw [replay_append hd, hline, List.foldl_cons, List.foldl_nil, replayLine, hbody,
    splitOnce_append ha]
  rfl

theorem key_of_carries {db : Db} {rs : List (Text × Text)} (h : Carries db rs) {k : Text}
    (hk : ',' ∈ k) : db.engine.map.lookup k = none := by
  cases hl : db.engine.map.lookup k with
  | none => rfl
  | some v =>
    rw [h.map] at hl
    exact absurd hk (h.storable _ (mem_of_lookup_writeAll hl)).key_comma

theorem comma_key_lost {db : Db} {rs : List (Text × Text)} (h : Carries db rs) {k v : Text}
    (hk : ',' ∈ k) (hn : '\n' ∉ body (k, v)) (hv : v.getLast? ≠ some '\r')
    (hseen : answer (some v) ≠ answer none) : ¬ SurvivesRestart (db.set k v none).2 := by
  rintro ⟨db', hboot, hanswer⟩
  obtain ⟨a, b, rfl, ha⟩ := List.eq_append_cons_of_mem hk
  have hlog : replay ((db.set (a ++ ',' :: b) v none).2.fs.content db.engine.logFile.inode) =
      write db.engine.map (a, b ++ ',' :: v) := by
    simp only [Db.set, Engine.set, writeAll_none]
    rw [content_put_append h.appending, h.content,
      replay_comma_key (closed_encodeLog rs) ha hn hv, replay_encodeLog h.storable, ← h.map]
  have hmap : db'.engine.map = write db.engine.map (a, b ++ ',' :: v) := by
    have hdir : (db.set (a ++ ',' :: b) v none).2.fs.directory DB_PATH =
        some db.engine.logFile.inode := h.handle
    simp only [boot, Engine.new, FileSystem.openFile, hdir, logOptions] at hboot
    cases hboot
    exact hlog
  have hne : a ++ ',' :: b ≠ a := by
    intro he
    rw [he] at hk
    exact ha hk
  have hgone : db'.engine.get (a ++ ',' :: b) = none := by
    rw [Engine.get, hmap, lookup_write, if_neg hne, key_of_carries h hk]
  have hkept : (db.set (a ++ ',' :: b) v none).2.engine.get (a ++ ',' :: b) = some v :=
    Finmap.lookup_insert _
  have hsame := hanswer (a ++ ',' :: b)
  rw [hgone, hkept] at hsame
  exact hseen hsame.symm

theorem served_snoc (db : Db) (ms : List Message) (m : Message) :
    served db (ms ++ [m]) = (serve (served db ms) m).1 := by
  rw [served, run_append]
  rfl

/-- Whatever was sent before, a restart changes no answer. The first comma key with a value
that a client can see ends this. -/
theorem comma_free_messages_survive_restart (fs : FileSystem) (hempty : fs.read DB_PATH = [])
    (ms : List Message) (hm : ∀ m ∈ ms, CommaFree m) :
    ∃ db₀, boot fs = some db₀ ∧ SurvivesRestart (served db₀ ms) ∧
      ∀ m k v, m.command = some (.set k v) → ',' ∈ k → answer (some v) ≠ answer none →
        ¬ SurvivesRestart (served db₀ (ms ++ [m])) := by
  have hlog : fs.read DB_PATH = encodeLog [] := hempty
  obtain ⟨db₀, hboot, hcarries⟩ := boot_carries hlog (by simp)
  obtain ⟨ts, hts⟩ := served_carries hcarries hm
  refine ⟨db₀, hboot, survives_of_carries hts, ?_⟩
  intro m k v hc hk hseen
  obtain ⟨hnk, hnv, hlast⟩ := set_free_of_newline hc
  have hn : '\n' ∉ body (k, v) := by simp [body, hnk, hnv]
  rw [served_snoc, serve_command hc, execute_store]
  exact comma_key_lost hts hk hn hlast hseen

theorem comma_free_messages_survive_restart_four :
    ∃ db₀, boot emptyFileSystem = some db₀ ∧
      let ms : List Message := [⟨someTraversal, encode "SET k a,b\n".toList⟩,
        ⟨someTraversal, encode "COMPACT\n".toList⟩, ⟨someTraversal, encode "SET j  x y\n".toList⟩,
        ⟨someTraversal, encode "DEL k\n".toList⟩]
      SurvivesRestart (served db₀ ms) ∧
        ∀ m k v, m.command = some (.set k v) → ',' ∈ k → answer (some v) ≠ answer none →
          ¬ SurvivesRestart (served db₀ (ms ++ [m])) :=
  comma_free_messages_survive_restart emptyFileSystem rfl _ (by
    intro m hm
    simp only [List.mem_cons, List.not_mem_nil, or_false] at hm
    rcases hm with rfl | rfl | rfl | rfl <;> decide)

theorem restart_forgets_comma_key :
    ∃ db₀, boot emptyFileSystem = some db₀ ∧
      ¬ SurvivesRestart (served db₀ [⟨someTraversal, encode "SET a,b v\n".toList⟩]) := by
  refine ⟨_, rfl, ?_⟩
  rintro ⟨db', hboot, hanswer⟩
  have h := hanswer "a,b".toList
  cases hboot
  revert h
  decide

end ChronosDurability

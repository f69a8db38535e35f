import Vanguard.ChronosCompaction
import Vanguard.ChronosTornSets
import Vanguard.ChronosServer

/-! Sets that fail. `Engine::set` has changed the map before it writes the record, and takes
nothing back when the write fails, neither in the map nor in the log. -/
namespace ChronosFailedSets

open Utf8Text FileSystems LastWriterMaps TerminatedLines StateMachines ChronosEngine
open ChronosLogFormat ChronosStore ChronosCompaction ChronosTornLog ChronosTornSets ChronosServer

/-- The engine with the map that it would have if failed sets had no effect. -/
structure Ledger where
  db : Db
  expected : HashMap

/-- `DEL` is a set of the tombstone. -/
inductive Call where
  | set (key value : Text) (failure : Option (ℕ × IoError))
  | compact (t : Traversal Text Text)
  | restart

def perform (s : Ledger) : Call → Ledger
  | .set k v failure =>
    match s.db.set k v failure with
    | (.ok (), db) => ⟨db, s.expected.insert k v⟩
    | (.error _, db) => ⟨db, s.expected⟩
  | .compact t => ⟨(s.db.compact t none).2, s.expected⟩
  | .restart => ⟨reopen s.db, s.expected⟩

def cut (k v : Text) : Option (ℕ × IoError) → Option ℕ
  | none => none
  | some (n, _) => if n < (record (k, v)).length then some n else none

def Serves (m expected : HashMap) : Prop :=
  ∀ k, answer (m.lookup k) = answer (expected.lookup k)

/-- No failed set can be seen, now or after a restart. -/
structure NoEffect (s : Ledger) : Prop where
  running : Serves s.db.engine.map s.expected
  restarted : ∃ db, boot s.db.fs = some db ∧ Serves db.engine.map s.expected

/-- A set that works goes behind a whole line. One that fails shows the client nothing new: its
value answers as the old one, and either no byte was written, or what was written went behind a
whole line and has no part of the value in it that answers in another way. -/
def Unseen (s : Ledger) : Call → Prop
  | .set k v failure =>
    Storable (k, v) ∧
      match cut k v failure with
      | none => Closed 0x0A (log s.db)
      | some n =>
        answer (some v) = answer (s.db.engine.get k) ∧
          (n = 0 ∨ Closed 0x0A (log s.db) ∧
            ∀ part, (record (k, v)).take n = encode (body (k, part)) →
              answer (some part) = answer (s.db.engine.get k))
  | .compact _ => True
  | .restart => True

/-- Memory and log agree, and the log format can carry what they hold. -/
structure Consistent (db : Db) : Prop where
  attached : Attached db
  replays : replay (log db) = db.engine.map
  storable : AllStorable db.engine.map

structure Settled (s : Ledger) : Prop where
  attached : Attached s.db
  running : Serves s.db.engine.map s.expected
  logged : Serves (replay (log s.db)) s.expected
  storable : AllStorable s.db.engine.map
  storableLog : AllStorable (replay (log s.db))

theorem set_of_cut_none (db : Db) {k v : Text} {failure : Option (ℕ × IoError)}
    (h : cut k v failure = none) : db.set k v failure = db.set k v none := by
  cases failure with
  | none => rfl
  | some reached =>
    obtain ⟨n, err⟩ := reached
    have hn : ¬ n < (record (k, v)).length := by
      intro hlt
      rw [cut, if_pos hlt] at h
      cases h
    simp only [Db.set, Engine.set, FileSystem.writeAll, if_neg hn]

theorem eq_of_cut_some {k v : Text} {failure : Option (ℕ × IoError)} {n : ℕ}
    (h : cut k v failure = some n) :
    ∃ err, failure = some (n, err) ∧ n < (record (k, v)).length := by
  cases failure with
  | none => cases h
  | some reached =>
    obtain ⟨m, err⟩ := reached
    rw [cut] at h
    split at h
    · next hlt =>
      cases h
      exact ⟨err, rfl, hlt⟩
    · cases h

theorem perform_of_cut_some (s : Ledger) {k v : Text} {failure : Option (ℕ × IoError)} {n : ℕ}
    (h : cut k v failure = some n) :
    perform s (.set k v failure) = ⟨(s.db.set k v failure).2, s.expected⟩ ∧
      (s.db.set k v failure).2.engine.map = write s.db.engine.map (k, v) ∧
      (Event.set k v failure).written = (record (k, v)).take n := by
  obtain ⟨err, rfl, hn⟩ := eq_of_cut_some h
  refine ⟨?_, rfl, rfl⟩
  simp only [perform, Db.set, Engine.set, FileSystem.writeAll, if_pos hn]

theorem perform_of_cut_none (s : Ledger) {k v : Text} {failure : Option (ℕ × IoError)}
    (h : cut k v failure = none) :
    perform s (.set k v failure) = ⟨(s.db.set k v none).2, write s.expected (k, v)⟩ := by
  rw [perform, set_of_cut_none s.db h]
  rfl

theorem storable_of_answer {k part : Text} {o : Option Text} (hk : ',' ∉ k ∧ '\n' ∉ k)
    (ho : ∀ w, o = some w → Storable (k, w)) (h : answer (some part) = answer o) :
    Storable (k, part) := by
  have hnull : ∀ w : Text, w = TOMBSTONE ∨ w = "NULL".toList → Storable (k, w) := by
    intro w hw
    have hvalue : '\n' ∉ w ∧ w.getLast? ≠ some '\r' := by
      rcases hw with rfl | rfl
      · decide
      · decide
    exact ⟨hk.1, hk.2, hvalue.1, hvalue.2⟩
  by_cases hpart : part = TOMBSTONE
  · exact hnull part (Or.inl hpart)
  · rw [answer, if_neg hpart] at h
    have hsplit : "NULL\n".toList = "NULL".toList ++ ['\n'] := rfl
    cases o with
    | none =>
      rw [answer, hsplit, List.append_cancel_right_eq] at h
      exact hnull part (Or.inr h)
    | some w =>
      rw [answer] at h
      split at h
      · rw [hsplit, List.append_cancel_right_eq] at h
        exact hnull part (Or.inr h)
      · rw [List.append_cancel_right_eq] at h
        rw [h]
        exact ho w rfl

theorem serves_write {m expected : HashMap} (h : Serves m expected) (r : Text × Text) :
    Serves (write m r) (write expected r) := by
  intro k
  rw [lookup_write, lookup_write]
  split
  · rfl
  · exact h k

theorem serves_write_unseen {m expected : HashMap} (h : Serves m expected) {k v : Text}
    (hv : answer (some v) = answer (expected.lookup k)) : Serves (write m (k, v)) expected := by
  intro j
  rw [lookup_write]
  split
  · next hj => rw [hj, hv]
  · exact h j

theorem take_record {k v : Text} {n : ℕ} (h : n < (record (k, v)).length) :
    (record (k, v)).take n <+: encode (body (k, v)) := by
  rw [record_eq, List.length_append, List.length_singleton] at h
  rw [record_eq, List.take_append_of_le_length (by omega)]
  exact List.take_prefix _ _

theorem logged_part {data : Bytes} {m expected : HashMap} {k v : Text} {n : ℕ}
    (hlogged : Serves (replay data) expected) (hstorable : AllStorable (replay data))
    (hrunning : Serves m expected) (hm : AllStorable m) (hs : Storable (k, v))
    (hn : n < (record (k, v)).length)
    (hc : n = 0 ∨ Closed 0x0A data ∧ ∀ part, (record (k, v)).take n = encode (body (k, part)) →
      answer (some part) = answer (m.lookup k)) :
    Serves (replay (data ++ (record (k, v)).take n)) expected ∧
      AllStorable (replay (data ++ (record (k, v)).take n)) := by
  rcases hc with hzero | ⟨hclosed, hpart⟩
  · rw [hzero, List.take_zero, List.append_nil]
    exact ⟨hlogged, hstorable⟩
  · rcases replay_torn hclosed hs (take_record hn) with hsame | ⟨part, _, hbytes, hread⟩
    · rw [hsame]
      exact ⟨hlogged, hstorable⟩
    · have hanswer := hpart part hbytes
      have hcarried : Storable (k, part) :=
        storable_of_answer ⟨hs.key_comma, hs.key_newline⟩ (hm k) hanswer
      rw [hread]
      exact ⟨serves_write_unseen hlogged (hanswer.trans (hrunning k)),
        allStorable_insert hstorable hcarried⟩

theorem settled_set {s : Ledger} (h : Settled s) {k v : Text} {failure : Option (ℕ × IoError)}
    (hc : Unseen s (.set k v failure)) : Settled (perform s (.set k v failure)) := by
  obtain ⟨hs, hc⟩ := hc
  cases hcut : cut k v failure with
  | none =>
    rw [hcut] at hc
    have hclosed : Closed 0x0A (log s.db) := hc
    obtain ⟨hattached, hrecord, _⟩ := h.attached.set k v none
    have hread : replay (log (s.db.set k v none).2) = write (replay (log s.db)) (k, v) := by
      rw [hrecord]
      exact replay_record hclosed hs
    rw [perform_of_cut_none s hcut]
    constructor
    · exact hattached
    · exact serves_write h.running (k, v)
    · show Serves (replay (log (s.db.set k v none).2)) _
      rw [hread]
      exact serves_write h.logged (k, v)
    · exact allStorable_insert h.storable hs
    · show AllStorable (replay (log (s.db.set k v none).2))
      rw [hread]
      exact allStorable_insert h.storableLog hs
  | some n =>
    rw [hcut] at hc
    obtain ⟨hseen, hpart⟩ := hc
    obtain ⟨_, _, hn⟩ := eq_of_cut_some hcut
    obtain ⟨hattached, hlog, _⟩ := h.attached.set k v failure
    obtain ⟨hnext, hmap, hwritten⟩ := perform_of_cut_some s hcut
    obtain ⟨hlogged, hstorableLog⟩ :=
      logged_part h.logged h.storableLog h.running h.storable hs hn hpart
    rw [← hwritten, ← hlog] at hlogged hstorableLog
    rw [hnext]
    constructor
    · exact hattached
    · show Serves (s.db.set k v failure).2.engine.map s.expected
      rw [hmap]
      exact serves_write_unseen h.running (hseen.trans (h.running k))
    · exact hlogged
    · exact allStorable_insert h.storable hs
    · exact hstorableLog

theorem compact_log {db : Db} (hm : AllStorable db.engine.map) (t : Traversal Text Text) :
    Attached (db.compact t none).2 ∧ (db.compact t none).2.engine.map = db.engine.map ∧
      replay (log (db.compact t none).2) = db.engine.map := by
  obtain ⟨j, fs, hrun, hdir, hcontent, _⟩ := compact_spec db.engine db.fs t
  have hlog : log ⟨fs, { db.engine with logFile := ⟨j, true, 0⟩ }⟩ =
      encodeLog (t.order db.engine.map) := by
    rw [log, read_of_directory hdir, hcontent]
  simp only [Db.compact, hrun]
  refine ⟨⟨hdir, rfl⟩, trivial, ?_⟩
  rw [hlog]
  exact replay_order hm t

theorem reopen_map (db : Db) : (reopen db).engine.map = replay (log db) := by
  obtain ⟨db', hboot, _, _, _, hmap⟩ := boot_spec db.fs
  rw [reopen, hboot]
  exact hmap

theorem settled_perform {s : Ledger} (h : Settled s) {c : Call} (hc : Unseen s c) :
    Settled (perform s c) := by
  cases c with
  | set k v failure => exact settled_set h hc
  | compact t =>
    obtain ⟨hattached, hmap, hreplay⟩ := compact_log h.storable t
    constructor
    · exact hattached
    · show Serves (s.db.compact t none).2.engine.map s.expected
      rw [hmap]
      exact h.running
    · show Serves (replay (log (s.db.compact t none).2)) s.expected
      rw [hreplay]
      exact h.running
    · show AllStorable (s.db.compact t none).2.engine.map
      rw [hmap]
      exact h.storable
    · show AllStorable (replay (log (s.db.compact t none).2))
      rw [hreplay]
      exact h.storable
  | restart =>
    obtain ⟨hattached, hlog⟩ := reopen_spec s.db
    have hmap := reopen_map s.db
    constructor
    · exact hattached
    · show Serves (reopen s.db).engine.map s.expected
      rw [hmap]
      exact h.logged
    · show Serves (replay (log (reopen s.db))) s.expected
      rw [hlog]
      exact h.logged
    · show AllStorable (reopen s.db).engine.map
      rw [hmap]
      exact h.storableLog
    · show AllStorable (replay (log (reopen s.db)))
      rw [hlog]
      exact h.storableLog

theorem noEffect_iff (s : Ledger) :
    NoEffect s ↔ Serves s.db.engine.map s.expected ∧ Serves (replay (log s.db)) s.expected := by
  obtain ⟨db, hboot, _, _, _, hmap⟩ := boot_spec s.db.fs
  have hread : db.engine.map = replay (log s.db) := hmap
  constructor
  · rintro ⟨hrunning, db', hboot', hserves⟩
    have hdb : db = db' := Option.some.inj (hboot.symm.trans hboot')
    rw [← hdb, hread] at hserves
    exact ⟨hrunning, hserves⟩
  · rintro ⟨hrunning, hserves⟩
    rw [← hread] at hserves
    exact ⟨hrunning, db, hboot, hserves⟩

theorem noEffect_failed_iff {s : Ledger} (h : Settled s) (hclosed : Closed 0x0A (log s.db))
    {k v : Text} (hs : Storable (k, v)) {failure : Option (ℕ × IoError)} {n : ℕ}
    (hcut : cut k v failure = some n) :
    NoEffect (perform s (.set k v failure)) ↔ Unseen s (.set k v failure) := by
  obtain ⟨_, _, hn⟩ := eq_of_cut_some hcut
  obtain ⟨_, hlog, _⟩ := h.attached.set k v failure
  obtain ⟨hnext, hmap, hwritten⟩ := perform_of_cut_some s hcut
  constructor
  · intro hnoEffect
    obtain ⟨hrunning, hlogged⟩ := (noEffect_iff _).mp hnoEffect
    rw [hnext] at hrunning hlogged
    have hold :
        answer ((write s.db.engine.map (k, v)).lookup k) = answer (s.expected.lookup k) := by
      rw [← hmap]
      exact hrunning k
    refine ⟨hs, ?_⟩
    rw [hcut]
    refine ⟨?_, Or.inr ⟨hclosed, ?_⟩⟩
    · rw [lookup_write, if_pos rfl] at hold
      exact hold.trans (h.running k).symm
    · intro part hpart
      have hopen : 0x0A ∉ encode (body (k, part)) := by
        intro hmem
        rw [← hpart] at hmem
        exact body_newline hs ((newline_mem_encode _).mp ((take_record hn).subset hmem))
      have hkey : ',' ∉ (k, part).1 := hs.key_comma
      have hread : replay (log (s.db.set k v failure).2) = write (replay (log s.db)) (k, part) := by
        rw [hlog, hwritten, hpart, replay_tail hclosed hopen, decode_encode, replayLine_body hkey]
      have hshown := hlogged k
      change answer ((replay (log (s.db.set k v failure).2)).lookup k) = _ at hshown
      rw [hread, lookup_write, if_pos rfl] at hshown
      exact hshown.trans (h.running k).symm
  · intro hunseen
    have hnext := settled_set h hunseen
    exact (noEffect_iff _).mpr ⟨hnext.running, hnext.logged⟩

/-- As long as every call meets the condition, failed sets have no effect. The first one that
fails behind a whole line and does not meet it has one. -/
theorem failed_sets_unseen {db : Db} (h : Consistent db) (cs : List Call)
    (hc : StepsMeet perform Unseen ⟨db, db.engine.map⟩ cs) :
    let s := run perform ⟨db, db.engine.map⟩ cs
    NoEffect s ∧ ∀ k v failure n, Storable (k, v) → cut k v failure = some n →
      Closed 0x0A (log s.db) →
        (NoEffect (perform s (.set k v failure)) ↔ Unseen s (.set k v failure)) := by
  have hstart : Settled ⟨db, db.engine.map⟩ := by
    refine ⟨h.attached, fun _ => rfl, ?_, h.storable, ?_⟩
    · show Serves (replay (log db)) db.engine.map
      rw [h.replays]
      exact fun _ => rfl
    · show AllStorable (replay (log db))
      rw [h.replays]
      exact h.storable
  have hstep : ∀ s c, Settled s → Unseen s c → Settled (perform s c) :=
    fun _ _ hs hu => settled_perform hs hu
  have hend : Settled (run perform ⟨db, db.engine.map⟩ cs) :=
    run_preserves_of_steps hstep hstart hc
  refine ⟨(noEffect_iff _).mpr ⟨hend.running, hend.logged⟩, ?_⟩
  intro k v failure n hs hcut hclosed
  exact noEffect_failed_iff hend hclosed hs hcut

theorem consistent_of_carries {db : Db} {rs : List (Text × Text)} (h : Carries db rs) :
    Consistent db := ⟨⟨h.handle, h.appending⟩, h.replay_log, allStorable_of_carries h⟩

theorem failed_sets_unseen_same_value :
    ∃ db, boot emptyFileSystem = some db ∧
      let cs := [Call.set ['k'] ['v'] none, .set ['k'] ['v'] (some (0, ⟨['x']⟩)),
        .compact someTraversal]
      let s := run perform ⟨db, db.engine.map⟩ cs
      NoEffect s ∧ ∀ k v failure n, Storable (k, v) → cut k v failure = some n →
        Closed 0x0A (log s.db) →
          (NoEffect (perform s (.set k v failure)) ↔ Unseen s (.set k v failure)) := by
  have hlog : emptyFileSystem.read DB_PATH = encodeLog [] := rfl
  obtain ⟨db, hboot, hcarries⟩ := boot_carries hlog (by simp)
  have hclosed : Closed 0x0A (log db) := by
    rw [log, hcarries.read]
    exact closed_encodeLog []
  have hfound : (db.set ['k'] ['v'] none).2.engine.get ['k'] = some ['v'] :=
    Finmap.lookup_insert _
  have hsame : answer (some ['v']) = answer ((db.set ['k'] ['v'] none).2.engine.get ['k']) := by
    rw [hfound]
  exact ⟨db, hboot, failed_sets_unseen (consistent_of_carries hcarries) _
    ⟨⟨by decide, hclosed⟩, ⟨by decide, hsame, Or.inl rfl⟩, trivial, trivial⟩⟩

/-- Nothing was written and the client was told so; the running engine serves the value, and
the next one does not. -/
theorem failed_set_seen :
    ∃ db, boot emptyFileSystem = some db ∧
      let answered := db.set ['k'] ['v'] (some (0, ⟨['x']⟩))
      answered.1 = .error ⟨['x']⟩ ∧ answer (db.engine.get ['k']) = "NULL\n".toList ∧
        answer (answered.2.engine.get ['k']) = ['v', '\n'] ∧
        answer ((reopen answered.2).engine.get ['k']) = "NULL\n".toList ∧
        ¬ NoEffect (perform ⟨db, db.engine.map⟩ (.set ['k'] ['v'] (some (0, ⟨['x']⟩)))) := by
  refine ⟨_, rfl, by decide, by decide, by decide, by decide, ?_⟩
  rintro ⟨hrunning, _⟩
  have hk := hrunning ['k']
  revert hk
  decide

end ChronosFailedSets

import Vanguard.ChronosRecordDomain
import Vanguard.ChronosServer

/-! Replies on the wire. A client takes a reply up to its first newline, so every reply has to be
one line, whatever the values are that were stored. -/
namespace ChronosReplies

open Utf8Text FileSystems LastWriterMaps SeparatedWords StateMachines ChronosEngine
open ChronosLogFormat ChronosStore ChronosParser ChronosServer ChronosRecordDomain

/-- What happens to one database: a message on any connection, or a restart of the process. -/
inductive Happening where
  | message (env : Environment) (raw : Bytes)
  | restart

def happen (db : Db) : Happening → Db
  | .message env raw => (handleMessage db env raw).1
  | .restart => (boot db.fs).getD db

/-- The errors of the disk are displayed without a newline. -/
structure Plain (env : Environment) : Prop where
  set : ∀ n err, env.set = some (n, err) → '\n' ∉ err.display
  compact : ∀ failure, env.compact = some failure → '\n' ∉ failure.error.display

def OneLine (m : HashMap) : Prop := ∀ k v, m.lookup k = some v → '\n' ∉ v

def IsReply (response : Text) : Prop := ∃ line, response = line ++ ['\n'] ∧ '\n' ∉ line

variable {m : HashMap} {db : Db} {env : Environment} {raw : Bytes} {c : Command}

theorem oneLine_replay (data : Bytes) : OneLine (replay data) :=
  fun k v hl => (allReadable_replay data k v hl).value_newline

theorem OneLine.write (h : OneLine m) {k v : Text} (hv : '\n' ∉ v) :
    OneLine (LastWriterMaps.write m (k, v)) := by
  intro key value hl
  rw [lookup_write] at hl
  split at hl
  · cases hl
    exact hv
  · exact h key value hl

theorem value_newline_of_writes {input : Text} {r : Text × Text} (h : parse input = some c)
    (hr : writes c = some r) : '\n' ∉ r.2 := by
  cases c with
  | set k v =>
    cases hr
    exact (set_free_of_newline h).2.1
  | del k =>
    cases hr
    have htombstone : '\n' ∉ TOMBSTONE := by decide
    exact htombstone
  | get k => cases hr
  | compact => cases hr
  | ping => cases hr
  | unknown => cases hr

theorem happen_oneLine (h : OneLine db.engine.map) (x : Happening) :
    OneLine (happen db x).engine.map := by
  cases x with
  | restart =>
    obtain ⟨db', hboot, _, _, _, hmap⟩ := boot_spec db.fs
    rw [happen, hboot, Option.getD_some, hmap]
    exact oneLine_replay _
  | message env raw =>
    simp only [happen, handleMessage]
    cases hparse : parse (decodeLossy raw) with
    | none => exact h
    | some c =>
      simp only [execute_map]
      cases hwrites : writes c with
      | none => exact h
      | some r =>
        exact h.write (value_newline_of_writes hparse hwrites)

theorem writeEntries_error {fs fs' : FileSystem} {f : File} {failure : Option CompactFailure}
    {i : ℕ} {rs : List (Text × Text)} {err : IoError}
    (h : writeEntries fs f failure i rs = (.error err, fs')) :
    ∃ k n, failure = some (.write k n err) := by
  induction rs generalizing fs f i with
  | nil => cases h
  | cons r rs ih =>
    rw [writeEntries] at h
    split at h
    · next hwrite =>
      cases h
      obtain ⟨n, hat⟩ := writeAll_error hwrite
      exact ⟨i, n, CompactFailure.eq_of_atWrite hat⟩
    · exact ih h

theorem set_error {k v : Text} {failure : Option (ℕ × IoError)} {err : IoError} {db' : Db}
    (h : db.set k v failure = (.error err, db')) : ∃ n, failure = some (n, err) := by
  simp only [Db.set, Engine.set] at h
  generalize hwrite : db.fs.writeAll db.engine.logFile (record (k, v)) failure = answer at h
  obtain ⟨result, file, fs⟩ := answer
  cases h
  exact writeAll_error hwrite

theorem compact_error {e e' : Engine} {fs fs' : FileSystem} {t : Traversal Text Text}
    {failure : Option CompactFailure} {err : IoError}
    (h : e.compact fs t failure = (.error err, e', fs')) :
    err = notFound ∨ ∃ f, failure = some f ∧ f.error = err := by
  rw [Engine.compact] at h
  split at h
  · next hopen =>
    cases h
    rcases openFile_error hopen with hat | hfound
    · exact Or.inr (CompactFailure.error_of_at (Or.inl hat))
    · exact Or.inl hfound
  · split at h
    · next hwrite =>
      cases h
      obtain ⟨k, n, rfl⟩ := writeEntries_error hwrite
      exact Or.inr ⟨_, rfl, rfl⟩
    · split at h
      · next hsync =>
        cases h
        exact Or.inr (CompactFailure.error_of_at (Or.inr (Or.inl (syncAll_error hsync))))
      · split at h
        · next hrename =>
          cases h
          rcases rename_error hrename with hat | hfound
          · exact Or.inr (CompactFailure.error_of_at (Or.inr (Or.inr (Or.inl hat))))
          · exact Or.inl hfound
        · split at h
          · next hreopen =>
            cases h
            rcases openFile_error hreopen with hat | hfound
            · exact Or.inr (CompactFailure.error_of_at (Or.inr (Or.inr (Or.inr hat))))
            · exact Or.inl hfound
          · cases h

theorem isReply_error {label display : Text} (hlabel : '\n' ∉ label) (h : '\n' ∉ display) :
    IsReply (label ++ display ++ ['\n']) := by
  refine ⟨label ++ display, rfl, ?_⟩
  simp [hlabel, h]

theorem isReply_answer (h : OneLine m) (k : Text) : IsReply (answer (m.lookup k)) := by
  have hnull : IsReply "NULL\n".toList := ⟨"NULL".toList, rfl, by decide⟩
  cases hv : m.lookup k with
  | none => exact hnull
  | some v =>
    rw [answer]
    split
    · exact hnull
    · exact ⟨v, rfl, h k v hv⟩

theorem Plain.set_display (hplain : Plain env) {k v : Text} {err : IoError} {db' : Db}
    (h : db.set k v env.set = (.error err, db')) : '\n' ∉ err.display := by
  obtain ⟨n, hset⟩ := set_error h
  exact hplain.set n err hset

theorem Plain.compact_display (hplain : Plain env) {err : IoError} {db' : Db}
    (h : db.compact env.order env.compact = (.error err, db')) : '\n' ∉ err.display := by
  simp only [Db.compact] at h
  generalize hrun : db.engine.compact db.fs env.order env.compact = answer at h
  obtain ⟨result, engine, fs⟩ := answer
  cases h
  rcases compact_error hrun with rfl | ⟨failure, hfailure, rfl⟩
  · have hfound : '\n' ∉ notFound.display := by decide
    exact hfound
  · exact hplain.compact failure hfailure

theorem execute_reply (h : OneLine db.engine.map) (hplain : Plain env) (c : Command) :
    IsReply (execute db env c).2 := by
  have hprefix : '\n' ∉ "ERR ".toList ∧ '\n' ∉ "ERR_COMPACT ".toList := by decide
  cases c with
  | set k v =>
    simp only [execute]
    split
    · exact ⟨"OK".toList, rfl, by decide⟩
    · next hset => exact isReply_error hprefix.1 (hplain.set_display hset)
  | del k =>
    simp only [execute]
    split
    · exact ⟨"OK_DELETED".toList, rfl, by decide⟩
    · next hset => exact isReply_error hprefix.1 (hplain.set_display hset)
  | get k => exact isReply_answer h k
  | compact =>
    simp only [execute]
    split
    · exact ⟨"OK_COMPACTED".toList, rfl, by decide⟩
    · next hcompact => exact isReply_error hprefix.2 (hplain.compact_display hcompact)
  | ping => exact ⟨"PONG".toList, rfl, by decide⟩
  | unknown => exact ⟨"ERR_UNKNOWN_COMMAND".toList, rfl, by decide⟩

/-- Whatever the file held when the process started, and whatever was sent to it since, a message
with a word in it is answered by one line. -/
theorem one_line_replies (fs : FileSystem) (history : List Happening) :
    ∃ db₀, boot fs = some db₀ ∧
      ∀ (env : Environment) (raw : Bytes) (executed : List Command) (output : Bytes), Plain env →
        (∃ c ∈ decodeLossy raw, ¬ isWhitespace c) →
        let s := loopBody ⟨run happen db₀ history, executed, output, none⟩ ⟨.ok raw, env, none⟩
        ∃ line, s.output = output ++ (line ++ [0x0A]) ∧ 0x0A ∉ line ∧ s.ending = none := by
  obtain ⟨db₀, hboot, _, _, _, hmap⟩ := boot_spec fs
  refine ⟨db₀, hboot, ?_⟩
  rintro env raw executed output hplain ⟨c, hc, hspace⟩
  have hstored : OneLine (run happen db₀ history).engine.map := by
    apply run_preserves (P := fun db : Db => OneLine db.engine.map)
    · exact fun db x h => happen_oneLine h x
    · rw [hmap]
      exact oneLine_replay _
  generalize run happen db₀ history = db at hstored
  have hne : raw ≠ [] := by
    rintro rfl
    cases hc
  cases hparse : parse (decodeLossy raw) with
  | none =>
    have hblank := words_eq_nil_iff.mp ((parse_eq_none_iff _).mp hparse)
    exact absurd (hblank c hc) hspace
  | some command =>
    obtain ⟨line, hline, hfree⟩ := execute_reply hstored hplain command
    rw [loopBody_answered hne hparse, hline, encode_append]
    exact ⟨encode line, rfl, (newline_mem_encode line).not.mpr hfree, rfl⟩

theorem one_line_reply_get : ∃ db₀, boot emptyFileSystem = some db₀ ∧
    let s := loopBody ⟨run happen db₀ [.restart], [], [], none⟩
      ⟨.ok [0x67, 0x65, 0x74, 0x20, 0x6B], healthy someTraversal, none⟩
    ∃ line, s.output = [] ++ (line ++ [0x0A]) ∧ 0x0A ∉ line ∧ s.ending = none := by
  obtain ⟨db₀, hboot, hreplies⟩ := one_line_replies emptyFileSystem [.restart]
  refine ⟨db₀, hboot, hreplies _ _ _ _ ?_ ?_⟩
  · constructor
    · simp [healthy]
    · simp [healthy]
  · exact ⟨'k', by decide, by decide⟩

end ChronosReplies

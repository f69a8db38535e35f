import Vanguard.ChronosServer

/-! What ends the handler of a connection. The parser takes the first word of a read for its verb
without looking whether there is one, and its panic takes the handler along. -/
namespace ChronosHandlers

open Utf8Text FileSystems SeparatedWords StateMachines ChronosEngine ChronosStore ChronosParser
open ChronosServer

def accepted (db : Db) : Session := ⟨db, [], [], none⟩

/-- A read that finds the handler waiting leads to a command and to an attempt to send its reply,
and only a failed attempt ends the handler. -/
def Replies (s : Session) (x : Exchange) : Prop :=
  s.ending = none → ∀ raw, raw ≠ [] → x.received = .ok raw →
    ∃ command, (loopBody s x).executed = s.executed ++ [command] ∧
      (loopBody s x).ending = if x.cut.isSome then some .replyFailed else none

def HasWord (s : Session) (x : Exchange) : Prop :=
  s.ending = none → ∀ raw, raw ≠ [] → x.received = .ok raw →
    ∃ c ∈ decodeLossy raw, ¬ isWhitespace c

/-- All reads are answered, and the handler ends with the stream or an error of the socket. -/
structure Survives (db : Db) (xs : List Exchange) : Prop where
  replies : StepsMeet loopBody Replies (accepted db) xs
  ending : (handleClient db xs).ending ≠ some .panicked

variable {s : Session} {x : Exchange} {input : Text}

theorem parse_ne_none_iff : parse input ≠ none ↔ ∃ c ∈ input, ¬ isWhitespace c := by
  rw [ne_eq, parse_eq_none_iff, words_eq_nil_iff]
  push Not
  rfl

theorem hasWord_of_replies (h : Replies s x) : HasWord s x := by
  intro hopen raw hne hreceived
  obtain ⟨command, hexecuted, _⟩ := h hopen raw hne hreceived
  rw [← parse_ne_none_iff]
  intro hparse
  obtain ⟨db, executed, output, ending⟩ := s
  obtain ⟨received, env, cut⟩ := x
  subst hopen hreceived
  rw [loopBody_panicked hne hparse] at hexecuted
  simp at hexecuted

theorem replies_of_hasWord (h : HasWord s x) : Replies s x := by
  intro hopen raw hne hreceived
  have hparse := parse_ne_none_iff.mpr (h hopen raw hne hreceived)
  obtain ⟨command, hcommand⟩ := Option.ne_none_iff_exists'.mp hparse
  obtain ⟨db, executed, output, ending⟩ := s
  obtain ⟨received, env, cut⟩ := x
  subst hopen hreceived
  obtain ⟨b, bs, rfl⟩ := List.exists_cons_of_ne_nil hne
  refine ⟨command, ?_⟩
  cases cut with
  | none => simp only [loopBody, hcommand]; simp
  | some n => simp only [loopBody, hcommand]; simp

theorem ending_step (hs : s.ending ≠ some .panicked) (h : HasWord s x) :
    (loopBody s x).ending ≠ some .panicked := by
  cases hending : s.ending with
  | some e =>
    have hstay : loopBody s x = s := by rw [loopBody, hending]
    rwa [hstay]
  | none =>
    cases hreceived : x.received with
    | error err => simp [loopBody, hending, hreceived]
    | ok raw =>
      cases raw with
      | nil => simp [loopBody, hending, hreceived]
      | cons b bs =>
        obtain ⟨command, _, hafter⟩ := replies_of_hasWord h hending (b :: bs) (by simp) hreceived
        rw [hafter]
        split <;> simp

/-- The handler survives just if each read that it takes has a word in it. -/
theorem survives_iff (db : Db) (xs : List Exchange) :
    Survives db xs ↔ StepsMeet loopBody HasWord (accepted db) xs := by
  constructor
  · intro h
    exact h.replies.mono fun s x => hasWord_of_replies
  · intro h
    constructor
    · exact h.mono fun s x => replies_of_hasWord
    · exact run_preserves_of_steps (P := fun s : Session => s.ending ≠ some .panicked)
        (fun s x => ending_step) (by simp) h

theorem line_end_kills : ¬ ∀ (db : Db) (xs : List Exchange),
    (∀ x ∈ xs, ∃ raw, raw ≠ [] ∧ x.received = .ok raw) → Survives db xs := by
  intro h
  let db : Db := ⟨emptyFileSystem, ⟨∅, ⟨0, true, 0⟩⟩⟩
  let read : Exchange := ⟨.ok [0x0A], ⟨LastWriterMaps.someTraversal, none, none⟩, none⟩
  have hsurvives := h db [read] (by simp [read])
  have hparse : parse (decodeLossy [0x0A]) = none := by decide
  have hdead : loopBody (accepted db) read = ⟨db, [], [], some .panicked⟩ :=
    loopBody_panicked (by simp) hparse none
  exact hsurvives.ending (congrArg Session.ending hdead)

end ChronosHandlers

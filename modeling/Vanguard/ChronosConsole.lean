import Vanguard.AegisKeyValue

/-! The console of Chronos. It sends a line and waits for one read of the reply before it takes the
next line, while other clients use the store. -/
namespace ChronosConsole

open Utf8Text FileSystems LastWriterMaps SeparatedWords StateMachines AegisPairing
open ChronosEngine ChronosStore ChronosParser ChronosServer AegisKeyValue

/-- What `read_line` yields. -/
inductive Input where
  | line (input : Text)
  | eof
  | error

inductive Phase where
  | prompt
  | awaiting
  | ended
  deriving DecidableEq, Repr

/-- The console, its connection and the handler at the other end. The replies to all clients, the
lines that did not end the session and what was printed are ghost observations. -/
structure System where
  db : Db
  phase : Phase
  up : Bytes
  down : Bytes
  dead : Bool
  replies : List Reply
  typed : List Text
  printed : List Text

inductive Event where
  | typed (input : Input)
  | handle (n : ℕ) (env : Environment)
  | received (n : ℕ)
  | fails
  | other (client : ℕ) (env : Environment) (raw : Bytes)

/-- The task under which the replies to the console are recorded; the other clients come after. -/
def console : ℕ := 0

def connected (db : Db) : System := ⟨db, .prompt, [], [], false, [], [], []⟩

def eqIgnoreAsciiCase (a b : Text) : Bool := a.map Char.toLower = b.map Char.toLower

def IsExit (command : Text) : Bool :=
  eqIgnoreAsciiCase command "exit".toList || eqIgnoreAsciiCase command "quit".toList

def enter (s : System) (input : Text) : System :=
  let command := trim isWhitespace input
  if command = [] then { s with typed := s.typed ++ [input] }
  else if IsExit command then { s with phase := .ended }
  else
    { s with
      phase := .awaiting
      up := s.up ++ encode (command ++ ['\n'])
      typed := s.typed ++ [input] }

def handle (s : System) (n : ℕ) (env : Environment) : System :=
  if 0 < n ∧ n ≤ min 512 s.up.length ∧ s.dead = false then
    match handleMessage s.db env (s.up.take n) with
    | (_, none) => { s with up := s.up.drop n, dead := true }
    | (db, some response) =>
      { s with
        db := db
        up := s.up.drop n
        down := s.down ++ encode response
        replies := s.replies ++ [⟨console, s.up.take n, response⟩] }
  else s

/-- One `read` into the buffer of 512 bytes; no bytes are the end of the stream. -/
def receive (s : System) (n : ℕ) : System :=
  if n = 0 then { s with phase := .ended }
  else
    { s with
      phase := .prompt
      down := s.down.drop n
      printed := s.printed ++ [decodeLossy (s.down.take n)] }

def next (s : System) : Event → System
  | .typed input =>
    if s.phase = .prompt then
      match input with
      | .line input => enter s input
      | .eof => { s with phase := .ended }
      | .error => { s with phase := .ended }
    else s
  | .handle n env => handle s n env
  | .received n =>
    if s.phase = .awaiting ∧ n ≤ min 512 s.down.length ∧
        (0 < n ∨ s.dead = true ∧ s.down = []) then
      receive s n
    else s
  | .fails => { s with phase := .ended }
  | .other client env raw =>
    match handleMessage s.db env raw with
    | (_, none) => s
    | (db, some response) =>
      { s with db := db, replies := s.replies ++ [⟨client + 1, raw, response⟩] }

/-- Every read takes all that was sent. -/
def Whole (s : System) : Event → Prop
  | .handle n _ => n = s.up.length
  | .received n => n = s.down.length
  | _ => True

def Healthy : Event → Prop
  | .handle _ env => ∃ t, env = healthy t
  | .other _ env _ => ∃ t, env = healthy t
  | _ => True

def own (s : System) : List Reply := s.replies.filter fun r => r.task = console

def asked (s : System) : List Command := s.typed.filterMap parse

/-- What was sent is answered, or is one command on its way. -/
def Pending (s : System) : Prop :=
  (s.up = [] ∧ commands (own s) = asked s) ∨
    ∃ text c, s.up = encode text ∧ s.up ≠ [] ∧ parse text = some c ∧
      commands (own s) ++ [c] = asked s

/-- What was answered is printed, or is one reply on its way. -/
def Shown (s : System) : Prop :=
  match s.phase with
  | .prompt => s.up = [] ∧ s.down = [] ∧ s.printed = (own s).map Reply.response
  | .awaiting =>
    (s.up ≠ [] ∧ s.down = [] ∧ s.printed = (own s).map Reply.response) ∨
      (s.up = [] ∧ ∃ earlier r, own s = earlier ++ [r] ∧ s.down = encode r.response ∧
        s.printed = earlier.map Reply.response)
  | .ended => s.printed <+: (own s).map Reply.response

structure InStep (s : System) : Prop where
  alive : s.dead = false
  pending : Pending s
  shown : Shown s

variable {s : System}

theorem inStep_connected (db : Db) : InStep (connected db) where
  alive := rfl
  pending := Or.inl ⟨rfl, rfl⟩
  shown := ⟨rfl, rfl, rfl⟩

theorem parse_trimmed (input : Text) : parse (trim isWhitespace input ++ ['\n']) = parse input := by
  rw [parse_words, words_snoc_sep (by decide), words_trim, ← parse_words]

theorem parse_blank_iff {input : Text} : parse input = none ↔ trim isWhitespace input = [] := by
  rw [parse_eq_none_iff, trim_eq_nil_iff]

theorem asked_blank {input : Text} (h : trim isWhitespace input = []) :
    (s.typed ++ [input]).filterMap parse = asked s := by
  simp [asked, parse_blank_iff.2 h]

theorem encode_ne_nil (command : Text) : encode (command ++ ['\n']) ≠ [] := by
  have hmem := (mem_encode_ascii (c := '\n') (by decide) (command ++ ['\n'])).2 (by simp)
  exact List.ne_nil_of_mem hmem

theorem inStep_enter (h : InStep s) (hprompt : s.phase = .prompt) (input : Text) :
    InStep (enter s input) := by
  have hshown := h.shown
  simp only [Shown, hprompt] at hshown
  obtain ⟨hup, hdown, hprinted⟩ := hshown
  have hanswered : commands (own s) = asked s := by
    rcases h.pending with ⟨_, hcommands⟩ | ⟨_, _, _, hne, _⟩
    · exact hcommands
    · exact absurd hup hne
  unfold enter
  dsimp only
  split
  · next hblank =>
    refine ⟨h.alive, Or.inl ⟨hup, ?_⟩, ?_⟩
    · exact hanswered.trans (asked_blank hblank).symm
    · simp only [Shown, hprompt]
      exact ⟨hup, hdown, hprinted⟩
  · next hcommand =>
    split
    · refine ⟨h.alive, Or.inl ⟨hup, hanswered⟩, ?_⟩
      simp only [Shown]
      exact hprinted ▸ List.prefix_rfl
    · have hne := encode_ne_nil (trim isWhitespace input)
      obtain ⟨c, hc⟩ := Option.ne_none_iff_exists'.1 (parse_blank_iff.not.2 hcommand)
      refine ⟨h.alive, Or.inr ⟨trim isWhitespace input ++ ['\n'], c, ?_, ?_, ?_, ?_⟩, ?_⟩
      · simp only [hup, List.nil_append]
      · simpa only [hup, List.nil_append] using hne
      · rw [parse_trimmed, hc]
      · simp only [asked, List.filterMap_append, List.filterMap_cons, hc, List.filterMap_nil]
        exact congrArg (· ++ [c]) hanswered
      · simp only [Shown]
        exact Or.inl ⟨by simpa only [hup, List.nil_append] using hne, hdown, hprinted⟩

theorem own_snoc_console (s : System) (raw : Bytes) (response : Text) :
    (s.replies ++ [(⟨console, raw, response⟩ : Reply)]).filter (fun r => r.task = console) =
      own s ++ [⟨console, raw, response⟩] := by
  simp [own]

theorem own_snoc_other (s : System) (client : ℕ) (raw : Bytes) (response : Text) :
    (s.replies ++ [(⟨client + 1, raw, response⟩ : Reply)]).filter (fun r => r.task = console) =
      own s := by
  simp [own, console]

theorem inStep_handle (h : InStep s) {n : ℕ} (hwhole : n = s.up.length) (env : Environment) :
    InStep (handle s n env) := by
  unfold handle
  split
  · next hn =>
    have hsent : s.up ≠ [] := by
      intro hnil
      rw [hnil] at hwhole
      simp [hwhole] at hn
    obtain ⟨text, c, hup, -, hparse, hcommands⟩ := h.pending.resolve_left fun hidle =>
      hsent hidle.1
    have htake : s.up.take n = s.up := by rw [hwhole, List.take_length]
    have hdrop : s.up.drop n = [] := by rw [hwhole, List.drop_length]
    have hraw : parse (decodeLossy s.up) = some c := by rw [hup, decodeLossy_encode, hparse]
    have hmessage : handleMessage s.db env s.up =
        ((execute s.db env c).1, some (execute s.db env c).2) := by
      simp only [handleMessage, hraw]
    simp only [htake, hdrop, hmessage]
    have hown := own_snoc_console s s.up (execute s.db env c).2
    refine ⟨h.alive, Or.inl ⟨rfl, ?_⟩, ?_⟩
    · simp only [own, hown]
      simp only [asked, commands, List.filterMap_append, List.filterMap_cons, hraw,
        List.filterMap_nil]
      exact hcommands
    · have hshown := h.shown
      unfold Shown at hshown ⊢
      simp only [own, hown]
      cases hphase : s.phase with
      | prompt =>
        simp only [hphase] at hshown
        exact absurd hshown.1 hsent
      | awaiting =>
        simp only [hphase] at hshown ⊢
        rcases hshown with ⟨_, hdown, hprinted⟩ | ⟨hidle, _⟩
        · exact Or.inr ⟨trivial, own s, _, rfl, by rw [hdown, List.nil_append], hprinted⟩
        · exact absurd hidle hsent
      | ended =>
        simp only [hphase] at hshown ⊢
        rw [List.map_append]
        exact hshown.trans (List.prefix_append _ _)
  · exact h

theorem inStep_receive (h : InStep s) (hawaiting : s.phase = .awaiting) {n : ℕ}
    (hwhole : n = s.down.length) (hlive : 0 < n ∨ s.dead = true ∧ s.down = []) :
    InStep (receive s n) := by
  have hpos : 0 < n := hlive.resolve_right fun hdead => by simp [h.alive] at hdead
  have hshown := h.shown
  simp only [Shown, hawaiting] at hshown
  rcases hshown with ⟨_, hdown, _⟩ | ⟨hup, earlier, r, hown, hdown, hprinted⟩
  · rw [hdown] at hwhole
    simp [hwhole] at hpos
  · unfold receive
    rw [if_neg hpos.ne']
    refine ⟨h.alive, h.pending, ?_⟩
    have htake : s.down.take n = encode r.response := by rw [hwhole, List.take_length, hdown]
    have hdrop : s.down.drop n = [] := by rw [hwhole, List.drop_length]
    simp only [Shown, htake, hdrop, decodeLossy_encode, hprinted]
    refine ⟨hup, trivial, ?_⟩
    change _ = (own s).map Reply.response
    simp [hown]

theorem inStep_ended (h : InStep s) : InStep { s with phase := .ended } := by
  refine ⟨h.alive, h.pending, ?_⟩
  have hshown := h.shown
  unfold Shown at hshown ⊢
  cases hphase : s.phase with
  | prompt =>
    simp only [hphase] at hshown
    exact hshown.2.2 ▸ List.prefix_rfl
  | awaiting =>
    simp only [hphase] at hshown
    rcases hshown with ⟨_, _, hprinted⟩ | ⟨_, earlier, r, hown, _, hprinted⟩
    · exact hprinted ▸ List.prefix_rfl
    · change s.printed <+: (own s).map Reply.response
      rw [hown, hprinted, List.map_append]
      exact List.prefix_append _ _
  | ended =>
    simp only [hphase] at hshown
    exact hshown

theorem inStep_other (h : InStep s) (client : ℕ) (env : Environment) (raw : Bytes) :
    InStep (next s (.other client env raw)) := by
  simp only [next]
  split
  · exact h
  · next db response _ =>
    have hown := own_snoc_other s client raw response
    refine ⟨h.alive, ?_, ?_⟩
    · have hpending := h.pending
      simp only [Pending, own, asked] at hpending ⊢
      simp only [own] at hown
      rwa [hown]
    · have hshown := h.shown
      simp only [Shown, own] at hshown ⊢
      simp only [own] at hown
      rwa [hown]

theorem inStep_next (h : InStep s) {e : Event} (hwhole : Whole s e) : InStep (next s e) := by
  cases e with
  | typed input =>
    simp only [next]
    split
    · next hprompt =>
      cases input with
      | line input => exact inStep_enter h hprompt input
      | eof => exact inStep_ended h
      | error => exact inStep_ended h
    · exact h
  | handle n env => exact inStep_handle h hwhole env
  | received n =>
    simp only [next]
    split
    · next hread => exact inStep_receive h hread.1 hwhole hread.2.2
    · exact h
  | fails => exact inStep_ended h
  | other client env raw => exact inStep_other h client env raw

theorem mapped_next (h : Mapped s.db s.replies) {e : Event} (hhealthy : Healthy e) :
    Mapped (next s e).db (next s e).replies := by
  cases e with
  | typed input =>
    simp only [next]
    split
    · cases input with
      | line input =>
        simp only [enter]
        split
        · exact h
        · split <;> exact h
      | eof => exact h
      | error => exact h
    · exact h
  | handle n env =>
    obtain ⟨t, rfl⟩ := hhealthy
    simp only [next, handle]
    split
    · have hhandled := h.handled t console (s.up.take n)
      generalize handleMessage s.db (healthy t) (s.up.take n) = outcome at hhandled ⊢
      obtain ⟨db, _ | response⟩ := outcome
      · exact h
      · exact hhandled
    · exact h
  | received n =>
    simp only [next]
    split
    · simp only [receive]
      split <;> exact h
    · exact h
  | fails => exact h
  | other client env raw =>
    obtain ⟨t, rfl⟩ := hhealthy
    simp only [next]
    have hhandled := h.handled t (client + 1) raw
    generalize handleMessage s.db (healthy t) raw = outcome at hhandled ⊢
    obtain ⟨db, _ | response⟩ := outcome
    · exact h
    · exact hhandled

theorem InStep.commands_asked (h : InStep s) : commands (own s) <+: asked s := by
  rcases h.pending with ⟨_, hcommands⟩ | ⟨_, c, _, _, _, hcommands⟩
  · exact hcommands ▸ List.prefix_rfl
  · exact ⟨[c], hcommands⟩

theorem InStep.at_prompt (h : InStep s) (hprompt : s.phase = .prompt) :
    commands (own s) = asked s ∧ s.printed = (own s).map Reply.response := by
  have hshown := h.shown
  simp only [Shown, hprompt] at hshown
  obtain ⟨hup, _, hprinted⟩ := hshown
  rcases h.pending with ⟨_, hcommands⟩ | ⟨_, _, _, hne, _⟩
  · exact ⟨hcommands, hprinted⟩
  · exact absurd hup hne

/-- While the reads take all that was sent, the console stays in step: the store executes the
commands of the lines that were typed, in order, the console prints their replies, in order, and at
each prompt none of them is missing. The replies to it and to everybody else are those of one map,
and no line costs the console its handler. -/
theorem console_stays_in_step (fs : FileSystem) (hempty : fs.read DB_PATH = [])
    (es : List Event) : ∃ db₀, boot fs = some db₀ ∧
      (StepsMeet next (fun s e => Whole s e ∧ Healthy e) (connected db₀) es →
        let s := run next (connected db₀) es
        s.dead = false ∧ Serial s.replies ∧ commands (own s) <+: asked s ∧
          s.printed <+: (own s).map Reply.response ∧
          (s.phase = .prompt →
            commands (own s) = asked s ∧ s.printed = (own s).map Reply.response)) := by
  obtain ⟨db₀, hboot, hmapped⟩ := mapped_boot hempty
  refine ⟨db₀, hboot, fun hmeet => ?_⟩
  intro s
  have h : InStep s := run_preserves_of_steps (P := InStep) (fun _ _ h hc => inStep_next h hc.1)
    (inStep_connected db₀) hmeet
  have hmap : Mapped s.db s.replies :=
    run_preserves_of_steps (P := fun s : System => Mapped s.db s.replies)
      (fun _ _ h hc => mapped_next h hc.2) hmapped hmeet
  have hover := (inStep_ended h).shown
  exact ⟨h.alive, hmap.serial, h.commands_asked, hover, h.at_prompt⟩

def setThenGet (t : Traversal Text Text) : List Event :=
  [.typed (.line " set k v \n".toList), .handle 8 (healthy t), .received 3,
    .typed (.line "\n".toList), .other 0 (healthy t) (encode "DEL k\n".toList),
    .typed (.line "GET k\n".toList), .handle 6 (healthy t), .received 5,
    .typed (.line "Exit\n".toList)]

theorem console_stays_in_step_set_then_get :
    ∃ db₀, boot emptyFileSystem = some db₀ ∧
      (let s := run next (connected db₀) (setThenGet someTraversal)
      s.dead = false ∧ Serial s.replies ∧ commands (own s) <+: asked s ∧
        s.printed <+: (own s).map Reply.response ∧
        (s.phase = .prompt →
          commands (own s) = asked s ∧ s.printed = (own s).map Reply.response)) := by
  obtain ⟨db₀, hboot, h⟩ := console_stays_in_step emptyFileSystem rfl (setThenGet someTraversal)
  refine ⟨db₀, hboot, h ?_⟩
  cases hboot
  have hhealthy : ∃ t, healthy someTraversal = healthy t := ⟨someTraversal, rfl⟩
  simp only [setThenGet, stepsMeet_cons, stepsMeet_nil]
  refine ⟨⟨trivial, trivial⟩, ⟨?_, hhealthy⟩, ⟨?_, trivial⟩, ⟨trivial, trivial⟩,
    ⟨trivial, hhealthy⟩, ⟨trivial, trivial⟩, ⟨?_, hhealthy⟩, ⟨?_, trivial⟩, ⟨trivial, trivial⟩,
    trivial⟩
  · change 8 = _
    decide
  · change 3 = _
    decide
  · change 6 = _
    decide
  · change 5 = _
    decide

end ChronosConsole

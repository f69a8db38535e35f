import Vanguard.SeparatedWords
import Vanguard.Utf8Text
import Vanguard.ChronosLogFormat

/-! The parser of Chronos. It sees a message only through its words. -/
namespace ChronosParser

open Utf8Text SeparatedWords ChronosLogFormat

inductive Command where
  | set (key value : Text)
  | get (key : Text)
  | del (key : Text)
  | compact
  | ping
  | unknown
  deriving DecidableEq, Repr

/-- The characters with the property White_Space. -/
def isWhitespace (c : Char) : Bool :=
  let n := c.toNat
  (9 ≤ n && n ≤ 13) || n == 0x20 || n == 0x85 || n == 0xA0 || n == 0x1680 ||
    (0x2000 ≤ n && n ≤ 0x200A) || n == 0x2028 || n == 0x2029 || n == 0x202F || n == 0x205F ||
    n == 0x3000

/-- Exact where the uppercase form is ASCII. Every other form has a character outside ASCII, so
it is part of no verb; such a character stays as it is here. -/
def uppercaseChar (c : Char) : Text :=
  match c.toNat with
  | 0xDF => ['S', 'S']
  | 0x131 => ['I']
  | 0x17F => ['S']
  | 0xFB00 => ['F', 'F']
  | 0xFB01 => ['F', 'I']
  | 0xFB02 => ['F', 'L']
  | 0xFB03 => ['F', 'F', 'I']
  | 0xFB04 => ['F', 'F', 'L']
  | 0xFB05 => ['S', 'T']
  | 0xFB06 => ['S', 'T']
  | _ => [c.toUpper]

def toUppercase (s : Text) : Text := s.flatMap uppercaseChar

/-- The match on `parts`. A guard that fails falls through to `Unknown`. -/
def commandOf (verb : Text) (args : List Text) : Command :=
  let verb := toUppercase verb
  if verb = "SET".toList then
    match args with
    | key :: word :: rest => .set key (join ' ' (word :: rest))
    | _ => .unknown
  else if verb = "GET".toList then
    match args with
    | [key] => .get key
    | _ => .unknown
  else if verb = "DEL".toList then
    match args with
    | [key] => .del key
    | _ => .unknown
  else if verb = "PING".toList then .ping
  else if verb = "COMPACT".toList then .compact
  else .unknown

/-- `none` is the panic of `parts[0]` on an input without words. -/
def parse (input : Text) : Option Command :=
  match words isWhitespace (trim isWhitespace input) with
  | [] => none
  | verb :: args => some (commandOf verb args)

def meaning : List Text → Option Command
  | [] => none
  | verb :: args => some (commandOf verb args)

theorem parse_words (input : Text) : parse input = meaning (words isWhitespace input) := by
  rw [parse, words_trim]
  rfl

theorem parse_eq_none_iff (input : Text) : parse input = none ↔ words isWhitespace input = [] := by
  rw [parse_words]
  cases words isWhitespace input with
  | nil => simp [meaning]
  | cons verb args => simp [meaning]

def Accepted (verb : Text) (args : List Text) : Prop :=
  toUppercase verb = "SET".toList ∧ 2 ≤ args.length ∨
    toUppercase verb = "GET".toList ∧ args.length = 1 ∨
    toUppercase verb = "DEL".toList ∧ args.length = 1 ∨
    toUppercase verb = "PING".toList ∨ toUppercase verb = "COMPACT".toList

instance (verb : Text) (args : List Text) : Decidable (Accepted verb args) :=
  inferInstanceAs (Decidable (_ ∨ _))

inductive Says (verb : Text) : List Text → Command → Prop where
  | set (k w : Text) (ws : List Text) (h : toUppercase verb = "SET".toList) :
      Says verb (k :: w :: ws) (.set k (join ' ' (w :: ws)))
  | get (k : Text) (h : toUppercase verb = "GET".toList) : Says verb [k] (.get k)
  | del (k : Text) (h : toUppercase verb = "DEL".toList) : Says verb [k] (.del k)
  | ping (args : List Text) (h : toUppercase verb = "PING".toList) : Says verb args .ping
  | compact (args : List Text) (h : toUppercase verb = "COMPACT".toList) : Says verb args .compact
  | unknown (args : List Text) (h : ¬ Accepted verb args) : Says verb args .unknown

theorem says_commandOf (verb : Text) (args : List Text) : Says verb args (commandOf verb args) := by
  simp only [commandOf]
  split_ifs with hset hget hdel hping hcompact
  · rcases args with _ | ⟨k, _ | ⟨w, ws⟩⟩
    · exact .unknown _ (by simp [Accepted, hset])
    · exact .unknown _ (by simp [Accepted, hset])
    · exact .set k w ws hset
  · rcases args with _ | ⟨k, _ | ⟨w, ws⟩⟩
    · exact .unknown _ (by simp [Accepted, hget])
    · exact .get k hget
    · exact .unknown _ (by simp [Accepted, hget])
  · rcases args with _ | ⟨k, _ | ⟨w, ws⟩⟩
    · exact .unknown _ (by simp [Accepted, hdel])
    · exact .del k hdel
    · exact .unknown _ (by simp [Accepted, hdel])
  · exact .ping args hping
  · exact .compact args hcompact
  · apply Says.unknown
    rintro (h | h | h | h | h)
    · exact hset h.1
    · exact hget h.1
    · exact hdel h.1
    · exact hping h
    · exact hcompact h

theorem Says.accepted {verb : Text} {args : List Text} {c : Command} (h : Says verb args c)
    (hc : c ≠ .unknown) : Accepted verb args := by
  cases h with
  | set k w ws h => exact Or.inl ⟨h, by simp⟩
  | get k h => exact Or.inr (Or.inl ⟨h, rfl⟩)
  | del k h => exact Or.inr (Or.inr (Or.inl ⟨h, rfl⟩))
  | ping args h => exact Or.inr (Or.inr (Or.inr (Or.inl h)))
  | compact args h => exact Or.inr (Or.inr (Or.inr (Or.inr h)))
  | unknown args _ => exact absurd rfl hc

theorem commandOf_unknown {verb : Text} {args : List Text} (h : ¬ Accepted verb args) :
    commandOf verb args = .unknown := by
  by_contra hc
  exact h ((says_commandOf verb args).accepted hc)

theorem commandOf_set {verb : Text} {args : List Text} {k v : Text}
    (h : commandOf verb args = .set k v) :
    ∃ w ws, args = k :: w :: ws ∧ v = join ' ' (w :: ws) := by
  have hsays := says_commandOf verb args
  rw [h] at hsays
  cases hsays with
  | set _ w ws _ => exact ⟨w, ws, rfl, rfl⟩

theorem commandOf_del {verb : Text} {args : List Text} {k : Text}
    (h : commandOf verb args = .del k) : args = [k] := by
  have hsays := says_commandOf verb args
  rw [h] at hsays
  cases hsays with
  | del _ _ => rfl

theorem parse_cases {input : Text} {c : Command} (h : parse input = some c) :
    ∃ verb args, words isWhitespace input = verb :: args ∧ commandOf verb args = c := by
  rw [parse_words] at h
  cases hw : words isWhitespace input with
  | nil =>
    rw [hw] at h
    cases h
  | cons verb args =>
    rw [hw] at h
    cases h
    exact ⟨verb, args, rfl, rfl⟩

theorem notMem_of_isWord {c : Char} (hc : isWhitespace c = true) {w : Text}
    (hw : IsWord isWhitespace w) : c ∉ w := by
  intro hm
  exact hw.2 c hm hc

/-- Whitespace ends a key, and inside a value it is a single space. -/
theorem set_free_of_newline {input k v : Text} (h : parse input = some (.set k v)) :
    '\n' ∉ k ∧ '\n' ∉ v ∧ v.getLast? ≠ some '\r' := by
  obtain ⟨verb, args, hwords, hcommand⟩ := parse_cases h
  obtain ⟨w, ws, rfl, rfl⟩ := commandOf_set hcommand
  have hword : ∀ u ∈ k :: w :: ws, IsWord isWhitespace u := by
    intro u hu
    have hm : u ∈ words isWhitespace input := by
      rw [hwords]
      exact List.mem_cons_of_mem _ hu
    exact isWord_of_mem_words hm
  have hvalue : ∀ u ∈ w :: ws, IsWord isWhitespace u := fun u hu =>
    hword u (List.mem_cons_of_mem _ hu)
  refine ⟨notMem_of_isWord (by decide) (hword k List.mem_cons_self), ?_, ?_⟩
  · intro hm
    rcases mem_join hm with hm | ⟨u, hu, hm⟩
    · exact absurd hm (by decide)
    · exact notMem_of_isWord (by decide) (hvalue u hu) hm
  · intro hl
    obtain ⟨u, hu, hm⟩ := getLast_join (fun u hu => (hvalue u hu).1) hl
    exact notMem_of_isWord (by decide) (hvalue u hu) hm

theorem storable_of_set {input k v : Text} (h : parse input = some (.set k v)) (hk : ',' ∉ k) :
    Storable (k, v) := by
  obtain ⟨hnk, hnv, hlast⟩ := set_free_of_newline h
  exact ⟨hk, hnk, hnv, hlast⟩

theorem isWord_of_del {input k : Text} (h : parse input = some (.del k)) :
    IsWord isWhitespace k := by
  obtain ⟨verb, args, hwords, hcommand⟩ := parse_cases h
  have hargs := commandOf_del hcommand
  have hm : k ∈ words isWhitespace input := by
    rw [hwords, hargs]
    simp
  exact isWord_of_mem_words hm

example : parse "  set k  a\tb \r\n".toList = some (.set ['k'] ['a', ' ', 'b']) := by decide

end ChronosParser

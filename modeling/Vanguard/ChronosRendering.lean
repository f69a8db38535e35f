import Vanguard.ChronosParser

/-! Commands as text. What the parser makes of a message can be written down again, and is read
back however its words are spaced and in whichever case its verb is. -/
namespace ChronosRendering

open Utf8Text SeparatedWords ChronosParser

/-- The name, each letter of it in either case. -/
def Cased (verb name : Text) : Prop := List.Forall₂ (fun c d => c = d ∨ c = d.toLower) verb name

/-- A single-space join of words. -/
def IsValue (v : Text) : Prop :=
  ∃ ws, ws ≠ [] ∧ (∀ w ∈ ws, IsWord isWhitespace w) ∧ v = join ' ' ws

/-- The keys and values that a parser can deliver. -/
def WellFormed : Command → Prop
  | .set k v => IsWord isWhitespace k ∧ IsValue v
  | .get k => IsWord isWhitespace k
  | .del k => IsWord isWhitespace k
  | _ => True

def texts : Command → List Text
  | .set k v => [k, v]
  | .get k => [k]
  | .del k => [k]
  | _ => []

def render : Command → Text
  | .set k v => "SET".toList ++ ' ' :: (k ++ ' ' :: v)
  | .get k => "GET".toList ++ ' ' :: k
  | .del k => "DEL".toList ++ ' ' :: k
  | .compact => "COMPACT".toList
  | .ping => "PING".toList
  | .unknown => ['?']

variable {verb k v input : Text} {c : Command}

theorem letter_cases : ∀ d ∈ "ABCDEFGHIJKLMNOPQRSTUVWXYZ".toList, ∀ c ∈ [d, d.toLower],
    uppercaseChar c = [d] ∧ ¬ isWhitespace c := by
  have hall : ("ABCDEFGHIJKLMNOPQRSTUVWXYZ".toList.all fun d => [d, d.toLower].all fun c =>
      decide (uppercaseChar c = [d] ∧ ¬ isWhitespace c)) = true := by decide
  simp only [List.all_eq_true, decide_eq_true_eq] at hall
  exact hall

theorem toUppercase_cased {name : Text} (h : Cased verb name)
    (hname : ∀ d ∈ name, d ∈ "ABCDEFGHIJKLMNOPQRSTUVWXYZ".toList) :
    toUppercase verb = name ∧ ∀ c ∈ verb, ¬ isWhitespace c := by
  induction h with
  | nil => exact ⟨rfl, by simp⟩
  | @cons c d verb name hc _ ih =>
    obtain ⟨hd, hname⟩ := List.forall_mem_cons.mp hname
    obtain ⟨hupper, hspace⟩ := letter_cases d hd c (by simpa using hc)
    obtain ⟨htail, hspaces⟩ := ih hname
    constructor
    · simpa [toUppercase, hupper] using htail
    · exact List.forall_mem_cons.mpr ⟨hspace, hspaces⟩

theorem isWord_cased {name : Text} (h : Cased verb name) (hne : name ≠ [])
    (hname : ∀ d ∈ name, d ∈ "ABCDEFGHIJKLMNOPQRSTUVWXYZ".toList) : IsWord isWhitespace verb := by
  refine ⟨?_, (toUppercase_cased h hname).2⟩
  rintro rfl
  cases h
  exact hne rfl

theorem parse_laidOut {args : List Text} {name : Text} (hverb : Cased verb name)
    (hne : name ≠ []) (hname : ∀ d ∈ name, d ∈ "ABCDEFGHIJKLMNOPQRSTUVWXYZ".toList)
    (hargs : ∀ w ∈ args, IsWord isWhitespace w) (h : LaidOut isWhitespace (verb :: args) input) :
    parse input = some (commandOf verb args) ∧ toUppercase verb = name := by
  have hwords : words isWhitespace input = verb :: args :=
    h.words_eq (List.forall_mem_cons.mpr ⟨isWord_cased hverb hne hname, hargs⟩)
  rw [parse_words, hwords]
  exact ⟨rfl, (toUppercase_cased hverb hname).1⟩

theorem parse_set {ws : List Text} (hverb : Cased verb "SET".toList)
    (hk : IsWord isWhitespace k) (hne : ws ≠ []) (hws : ∀ w ∈ ws, IsWord isWhitespace w)
    (h : LaidOut isWhitespace (verb :: k :: ws) input) :
    parse input = some (.set k (join ' ' ws)) := by
  obtain ⟨hparse, hupper⟩ := parse_laidOut hverb (by decide) (by simp)
    (List.forall_mem_cons.mpr ⟨hk, hws⟩) h
  obtain ⟨w, ws, rfl⟩ := List.exists_cons_of_ne_nil hne
  rw [hparse, commandOf, hupper]
  rfl

theorem parse_get (hverb : Cased verb "GET".toList) (hk : IsWord isWhitespace k)
    (h : LaidOut isWhitespace [verb, k] input) : parse input = some (.get k) := by
  obtain ⟨hparse, hupper⟩ := parse_laidOut hverb (by decide) (by simp) (by simpa using hk) h
  rw [hparse, commandOf, hupper]
  rfl

theorem parse_del (hverb : Cased verb "DEL".toList) (hk : IsWord isWhitespace k)
    (h : LaidOut isWhitespace [verb, k] input) : parse input = some (.del k) := by
  obtain ⟨hparse, hupper⟩ := parse_laidOut hverb (by decide) (by simp) (by simpa using hk) h
  rw [hparse, commandOf, hupper]
  rfl

theorem wellFormed_of_parse (h : parse input = some c) : WellFormed c := by
  obtain ⟨name, args, hwords, hcommand⟩ := parse_cases h
  have hword : ∀ w ∈ args, IsWord isWhitespace w := by
    intro w hw
    have hm : w ∈ words isWhitespace input := by
      rw [hwords]
      exact List.mem_cons_of_mem _ hw
    exact isWord_of_mem_words hm
  have hsays := says_commandOf name args
  rw [hcommand] at hsays
  cases hsays with
  | set k w ws _ =>
    obtain ⟨hk, hws⟩ := List.forall_mem_cons.mp hword
    exact ⟨hk, w :: ws, by simp, hws, rfl⟩
  | get k _ => exact hword k List.mem_cons_self
  | del k _ => exact hword k List.mem_cons_self
  | ping => trivial
  | compact => trivial
  | unknown => trivial

theorem WellFormed.one_line (h : WellFormed c) : ∀ t ∈ texts c, '\n' ∉ t ∧ '\r' ∉ t := by
  have hword : ∀ w, IsWord isWhitespace w → '\n' ∉ w ∧ '\r' ∉ w := fun w hw =>
    ⟨notMem_of_isWord (by decide) hw, notMem_of_isWord (by decide) hw⟩
  have hvalue : ∀ v, IsValue v → '\n' ∉ v ∧ '\r' ∉ v := by
    rintro v ⟨ws, _, hws, rfl⟩
    constructor
    · intro hm
      rcases mem_join hm with hm | ⟨w, hw, hm⟩
      · exact absurd hm (by decide)
      · exact (hword w (hws w hw)).1 hm
    · intro hm
      rcases mem_join hm with hm | ⟨w, hw, hm⟩
      · exact absurd hm (by decide)
      · exact (hword w (hws w hw)).2 hm
  cases c with
  | set k v =>
    rintro t ht
    rcases List.mem_pair.mp ht with rfl | rfl
    · exact hword t h.1
    · exact hvalue t h.2
  | get k => simpa [texts] using hword k h
  | del k => simpa [texts] using hword k h
  | compact => simp [texts]
  | ping => simp [texts]
  | unknown => simp [texts]

theorem cased_refl (name : Text) : Cased name name := List.forall₂_same.mpr fun _ _ => Or.inl rfl

theorem parse_render (h : WellFormed c) : parse (render c) = some c := by
  have hspace : isWhitespace ' ' = true := by decide
  cases c with
  | set k v =>
    obtain ⟨hk, ws, hne, hws, rfl⟩ := h
    obtain ⟨w, ws, rfl⟩ := List.exists_cons_of_ne_nil hne
    apply parse_set (cased_refl _) hk hne hws
    exact (((spaced_join hspace w ws).cons hspace).cons hspace).laidOut
  | get k =>
    apply parse_get (cased_refl _) h
    exact ((spaced_singleton k).cons hspace).laidOut
  | del k =>
    apply parse_del (cased_refl _) h
    exact ((spaced_singleton k).cons hspace).laidOut
  | compact => decide
  | ping => decide
  | unknown => decide

/-- The parser undoes every way to write a command, and what it delivers can be written. -/
theorem parser_inverse :
    (∀ verb k ws input, Cased verb "SET".toList → IsWord isWhitespace k → ws ≠ [] →
      (∀ w ∈ ws, IsWord isWhitespace w) → LaidOut isWhitespace (verb :: k :: ws) input →
      parse input = some (.set k (join ' ' ws))) ∧
    (∀ verb k input, Cased verb "GET".toList → IsWord isWhitespace k →
      LaidOut isWhitespace [verb, k] input → parse input = some (.get k)) ∧
    (∀ verb k input, Cased verb "DEL".toList → IsWord isWhitespace k →
      LaidOut isWhitespace [verb, k] input → parse input = some (.del k)) ∧
    ∀ input c, parse input = some c →
      WellFormed c ∧ (∀ t ∈ texts c, '\n' ∉ t ∧ '\r' ∉ t) ∧ parse (render c) = some c := by
  refine ⟨?_, ?_, ?_, ?_⟩
  · exact fun verb k ws input hverb hk hne hws h => parse_set hverb hk hne hws h
  · exact fun verb k input hverb hk h => parse_get hverb hk h
  · exact fun verb k input hverb hk h => parse_del hverb hk h
  · intro input c h
    have hwell := wellFormed_of_parse h
    exact ⟨hwell, hwell.one_line, parse_render hwell⟩

theorem stored_again : parse (render (.set ['k'] ['a', ' ', 'b'])) =
    some (.set ['k'] ['a', ' ', 'b']) :=
  (parser_inverse.2.2.2 "\tsEt k  a b\r\n".toList _ (by decide)).2.2

end ChronosRendering

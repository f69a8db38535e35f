import Vanguard.SeparatedWords
import Vanguard.TerminatedLines
import Vanguard.Utf8Text

/-! The answer of the metrics endpoint, and what a reader of its text format finds in it. -/
namespace AegisMetrics

open Utf8Text (Text)
open SeparatedWords TerminatedLines

def isBlank (c : Char) : Bool := c = ' ' || c = '\n'

/-- A metric whose name is one word and whose other texts are of one line. -/
structure Metric where
  name : Text
  help : Text
  kind : Text
  named : name ≠ [] ∧ name.head? ≠ some '#' ∧ name.all (fun c => !isBlank c) = true
  one_line : help.contains '\n' = false ∧ kind.contains '\n' = false

def activeConnections : Metric where
  name := "aegis_active_connections".toList
  help := "Numero de conexiones activas".toList
  kind := "gauge".toList
  named := by decide
  one_line := by decide

def totalBytes : Metric where
  name := "aegis_total_bytes".toList
  help := "Total de bytes".toList
  kind := "counter".toList
  named := by decide
  one_line := by decide

def totalRequests : Metric where
  name := "aegis_total_requests".toList
  help := "Total de peticiones completadas".toList
  kind := "counter".toList
  named := by decide
  one_line := by decide

def decimal (n : UInt64) : Text := Nat.toDigits 10 n.toNat

def line (text : Text) : Text := text ++ ['\n']

def Metric.text (m : Metric) (value : UInt64) : Text :=
  line ("# HELP ".toList ++ m.name ++ ' ' :: m.help) ++
    line ("# TYPE ".toList ++ m.name ++ ' ' :: m.kind) ++ line (m.name ++ ' ' :: decimal value)

def head : Text :=
  "HTTP/1.1 200 OK\r\nContent-Type: text/plain; version=0.0.4\r\nConnection: close\r\n\r\n".toList

def response (conns bytes reqs : UInt64) : Text :=
  head ++ (activeConnections.text conns ++ totalBytes.text bytes ++ totalRequests.text reqs)

/-- What follows the first empty line. -/
def body : Text → Text
  | '\r' :: '\n' :: '\r' :: '\n' :: rest => rest
  | _ :: rest => body rest
  | [] => []

/-- A line of the text format is a comment, or a name and a number. -/
def sampleOf (text : Text) : Option (Text × ℕ) :=
  match words isBlank text with
  | [name, value] =>
    if name.head? ≠ some '#' ∧ value.all Char.isDigit = true then
      some (name, Nat.ofDigitChars 10 value 0)
    else none
  | _ => none

def samples (text : Text) : List (Text × ℕ) := (pieces '\n' (body text)).filterMap sampleOf

example : totalRequests.text 7 =
    "# HELP aegis_total_requests Total de peticiones completadas\n".toList ++
      ("# TYPE aegis_total_requests counter\n".toList ++ "aegis_total_requests 7\n".toList) := rfl

theorem body_response (conns bytes reqs : UInt64) : body (response conns bytes reqs) =
    activeConnections.text conns ++ totalBytes.text bytes ++ totalRequests.text reqs := rfl

theorem digits_decimal (n : UInt64) : (decimal n).all Char.isDigit = true :=
  List.all_eq_true.mpr fun _ h => Nat.isDigit_of_mem_toDigits (by decide) (by decide) h

theorem isWord_decimal (n : UInt64) : IsWord isBlank (decimal n) := by
  refine ⟨Nat.toDigits_ne_nil, ?_⟩
  intro c hc hblank
  have hdigit := List.all_eq_true.mp (digits_decimal n) c hc
  simp only [isBlank, Bool.or_eq_true, decide_eq_true_eq] at hblank
  rcases hblank with rfl | rfl
  · exact absurd hdigit (by decide)
  · exact absurd hdigit (by decide)

theorem Metric.isWord_name (m : Metric) : IsWord isBlank m.name := by
  refine ⟨m.named.1, ?_⟩
  intro c hc
  simpa using List.all_eq_true.mp m.named.2.2 c hc

theorem notMem_newline {w : Text} (h : IsWord isBlank w) : '\n' ∉ w :=
  fun hmem => h.2 '\n' hmem rfl

theorem closed_line (text : Text) : Closed '\n' (line text) := closed_snoc text

theorem samples_line {text : Text} (h : '\n' ∉ text) :
    (pieces '\n' (line text)).filterMap sampleOf = (sampleOf (line text)).toList := by
  rw [line, pieces_terminated h]
  cases hsample : sampleOf (text ++ ['\n']) with
  | none => rw [List.filterMap_cons_none hsample]; rfl
  | some sample => rw [List.filterMap_cons_some hsample]; rfl

/-- A line whose first word starts with a number sign holds no sample. -/
theorem sampleOf_comment (rest : Text) : sampleOf ('#' :: ' ' :: rest) = none := by
  have hwords : words isBlank ('#' :: ' ' :: rest) = ['#'] :: words isBlank rest :=
    words_append_sep (p := isBlank) (x := ' ') rfl ['#'] rest
  rw [sampleOf, hwords]
  cases words isBlank rest with
  | nil => rfl
  | cons value more =>
    cases more with
    | nil => exact if_neg fun h => h.1 rfl
    | cons _ _ => rfl

theorem Metric.sampleOf_value (m : Metric) (value : UInt64) :
    sampleOf (line (m.name ++ ' ' :: decimal value)) = some (m.name, value.toNat) := by
  have hwords : words isBlank (line (m.name ++ ' ' :: decimal value)) =
      [m.name, decimal value] := by
    rw [line, words_snoc_sep rfl, words_append_sep rfl, words_word m.isWord_name,
      words_word (isWord_decimal value)]
    rfl
  rw [sampleOf, hwords]
  simp only [if_pos (And.intro m.named.2.1 (digits_decimal value))]
  rw [decimal, Nat.ofDigitChars_ten_toDigits]

theorem Metric.samples_text (m : Metric) (value : UInt64) :
    (pieces '\n' (m.text value)).filterMap sampleOf = [(m.name, value.toNat)] := by
  have hname := notMem_newline m.isWord_name
  have hhelp : '\n' ∉ "# HELP ".toList ++ m.name ++ ' ' :: m.help := by
    have := m.one_line.1
    simp_all
  have hkind : '\n' ∉ "# TYPE ".toList ++ m.name ++ ' ' :: m.kind := by
    have := m.one_line.2
    simp_all
  have hvalue : '\n' ∉ m.name ++ ' ' :: decimal value := by
    have := notMem_newline (isWord_decimal value)
    simp_all
  rw [Metric.text, pieces_append ((closed_line _).append (closed_line _)),
    pieces_append (closed_line _), List.filterMap_append, List.filterMap_append,
    samples_line hhelp, samples_line hkind, samples_line hvalue, m.sampleOf_value]
  have hcomments : sampleOf (line ("# HELP ".toList ++ m.name ++ ' ' :: m.help)) = none ∧
      sampleOf (line ("# TYPE ".toList ++ m.name ++ ' ' :: m.kind)) = none :=
    ⟨sampleOf_comment _, sampleOf_comment _⟩
  rw [hcomments.1, hcomments.2]
  rfl

theorem Metric.closed_text (m : Metric) (value : UInt64) : Closed '\n' (m.text value) :=
  ((closed_line _).append (closed_line _)).append (closed_line _)

/-- The reader finds the three metrics with their values. -/
theorem samples_response (conns bytes reqs : UInt64) : samples (response conns bytes reqs) =
    [(activeConnections.name, conns.toNat), (totalBytes.name, bytes.toNat),
      (totalRequests.name, reqs.toNat)] := by
  rw [samples, body_response,
    pieces_append ((activeConnections.closed_text conns).append (totalBytes.closed_text bytes)),
    pieces_append (activeConnections.closed_text conns), List.filterMap_append,
    List.filterMap_append, activeConnections.samples_text, totalBytes.samples_text,
    totalRequests.samples_text]
  rfl

end AegisMetrics

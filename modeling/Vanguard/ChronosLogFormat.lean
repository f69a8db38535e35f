import Vanguard.ChronosEngine

/-! What the log means: records that the format can carry are read back one by one, and what
follows the last newline is read as a line of its own. -/
namespace ChronosLogFormat

open Utf8Text LastWriterMaps TerminatedLines ChronosEngine

/-- The pairs whose record reads back as the pair. -/
structure Storable (r : Text × Text) : Prop where
  key_comma : ',' ∉ r.1
  key_newline : '\n' ∉ r.1
  value_newline : '\n' ∉ r.2
  value_return : r.2.getLast? ≠ some '\r'

instance (r : Text × Text) : Decidable (Storable r) :=
  decidable_of_iff (',' ∉ r.1 ∧ '\n' ∉ r.1 ∧ '\n' ∉ r.2 ∧ r.2.getLast? ≠ some '\r')
    ⟨fun ⟨h1, h2, h3, h4⟩ => ⟨h1, h2, h3, h4⟩, fun ⟨h1, h2, h3, h4⟩ => ⟨h1, h2, h3, h4⟩⟩

/-- The text of a record, without its newline. -/
def body (r : Text × Text) : Text := r.1 ++ ',' :: r.2

def encodeLog (rs : List (Text × Text)) : Bytes := rs.flatMap record

@[simp] theorem encodeLog_nil : encodeLog [] = [] := rfl
@[simp] theorem encodeLog_cons (r : Text × Text) (rs : List (Text × Text)) :
    encodeLog (r :: rs) = record r ++ encodeLog rs := rfl
@[simp] theorem encodeLog_append (rs ts : List (Text × Text)) :
    encodeLog (rs ++ ts) = encodeLog rs ++ encodeLog ts := List.flatMap_append

theorem record_eq (r : Text × Text) : record r = encode (body r) ++ [0x0A] := by
  have h : (recordFragments r.1 r.2).flatten = body r ++ ['\n'] := by
    simp [recordFragments, body]
  rw [record, h, encode_append]
  rfl

theorem newline_mem_encode (cs : Text) : 0x0A ∈ encode cs ↔ '\n' ∈ cs :=
  mem_encode_ascii (c := '\n') (by decide) cs

theorem closed_encodeLog (rs : List (Text × Text)) : Closed 0x0A (encodeLog rs) := by
  induction rs with
  | nil => exact closed_nil
  | cons r rs ih =>
    rw [encodeLog_cons, record_eq]
    exact (closed_snoc _).append ih

theorem splitOnce_append {sep : Char} {k v : Text} (h : sep ∉ k) :
    splitOnce sep (k ++ sep :: v) = some (k, v) := by
  induction k with
  | nil => simp [splitOnce]
  | cons c k ih =>
    simp only [List.mem_cons, not_or] at h
    rw [List.cons_append, splitOnce, if_neg (Ne.symm h.1), ih h.2]
    rfl

theorem splitOnce_of_notMem {sep : Char} {cs : Text} (h : sep ∉ cs) : splitOnce sep cs = none := by
  induction cs with
  | nil => rfl
  | cons c cs ih =>
    simp only [List.mem_cons, not_or] at h
    rw [splitOnce, if_neg (Ne.symm h.1), ih h.2]
    rfl

theorem eq_of_splitOnce {sep : Char} {cs k v : Text} (h : splitOnce sep cs = some (k, v)) :
    cs = k ++ sep :: v := by
  induction cs generalizing k with
  | nil => cases h
  | cons c cs ih =>
    rw [splitOnce] at h
    split at h
    · next hc =>
      cases h
      rw [hc]
      rfl
    · obtain ⟨⟨a, b⟩, hab, he⟩ := Option.map_eq_some_iff.mp h
      cases he
      rw [ih hab]
      rfl

theorem stripTerminator_cases (cs : Text) :
    cs = stripTerminator cs ∨ cs = stripTerminator cs ++ ['\n'] ∨
      cs = stripTerminator cs ++ ['\r'] ++ ['\n'] := by
  rw [stripTerminator]
  split_ifs with hn hr
  · obtain ⟨ds, rfl⟩ := List.getLast?_eq_some_iff.mp hn
    rw [List.dropLast_concat] at hr ⊢
    obtain ⟨es, rfl⟩ := List.getLast?_eq_some_iff.mp hr
    right; right
    rw [List.dropLast_concat]
  · obtain ⟨ds, rfl⟩ := List.getLast?_eq_some_iff.mp hn
    right; left
    rw [List.dropLast_concat]
  · exact Or.inl rfl

/-- A line that is still open keeps every character. -/
theorem stripTerminator_open {cs : Text} (h : '\n' ∉ cs) : stripTerminator cs = cs := by
  rw [stripTerminator, if_neg]
  intro hl
  exact h (List.mem_of_getLast? hl)

theorem stripTerminator_newline {cs : Text} (h : cs.getLast? ≠ some '\r') :
    stripTerminator (cs ++ ['\n']) = cs := by
  rw [stripTerminator, if_pos (by simp), List.dropLast_concat, if_neg h]

theorem body_getLast {r : Text × Text} (h : r.2.getLast? ≠ some '\r') :
    (body r).getLast? ≠ some '\r' := by
  cases hv : r.2 with
  | nil => simp [body, hv]
  | cons c cs =>
    rw [hv] at h
    simpa [body, hv, List.getLast?_append] using h

theorem body_newline {r : Text × Text} (h : Storable r) : '\n' ∉ body r := by
  simp [body, h.key_newline, h.value_newline]

theorem readLine_record {r : Text × Text} (h : Storable r) :
    readLine (record r) = some (body r) := by
  have hr : record r = encode (body r ++ ['\n']) := by
    rw [record_eq, encode_append]
    rfl
  rw [readLine, hr, decode_encode, Option.map_some,
    stripTerminator_newline (body_getLast h.value_return)]

theorem pieces_record {r : Text × Text} (h : Storable r) : pieces 0x0A (record r) = [record r] := by
  rw [record_eq]
  exact pieces_terminated ((newline_mem_encode _).not.mpr (body_newline h))

theorem replay_append {as bs : Bytes} (h : Closed 0x0A as) :
    replay (as ++ bs) = (lines bs).foldl replayLine (replay as) := by
  simp only [replay, lines, pieces_append h, List.map_append, List.foldl_append]

theorem lines_append {as bs : Bytes} (h : Closed 0x0A as) :
    lines (as ++ bs) = lines as ++ lines bs := by
  simp only [lines, pieces_append h, List.map_append]

theorem replayLine_body {r : Text × Text} (h : ',' ∉ r.1) (m : HashMap) :
    replayLine m (some (body r)) = write m r := by
  simp only [replayLine, body, splitOnce_append h]
  rfl

theorem lines_record {r : Text × Text} (h : Storable r) : lines (record r) = [some (body r)] := by
  rw [lines, pieces_record h, List.map_singleton, readLine_record h]

/-- One record more in the log is one write more in the map. -/
theorem replay_record {data : Bytes} (hd : Closed 0x0A data) {r : Text × Text} (h : Storable r) :
    replay (data ++ record r) = write (replay data) r := by
  rw [replay_append hd, lines_record h, List.foldl_cons, List.foldl_nil,
    replayLine_body h.key_comma]

theorem lines_encodeLog {rs : List (Text × Text)} (h : ∀ r ∈ rs, Storable r) :
    lines (encodeLog rs) = rs.map fun r => some (body r) := by
  induction rs with
  | nil => rfl
  | cons r rs ih =>
    have hc : Closed 0x0A (record r) := by
      rw [record_eq]
      exact closed_snoc _
    rw [encodeLog_cons, lines_append hc, lines_record (h r List.mem_cons_self),
      ih fun t ht => h t (List.mem_cons_of_mem _ ht)]
    rfl

/-- Rehydration of a log of storable records performs its writes in order. -/
theorem replay_encodeLog {rs : List (Text × Text)} (h : ∀ r ∈ rs, Storable r) :
    replay (encodeLog rs) = writeAll ∅ rs := by
  rw [replay, lines_encodeLog h, List.foldl_map, writeAll]
  refine List.foldl_ext _ _ _ fun m r hr => ?_
  exact replayLine_body (h r hr).key_comma m

/-- An unterminated tail is one more line, if there is one at all. -/
theorem lines_tail {tail : Bytes} (h : 0x0A ∉ tail) (hne : tail ≠ []) :
    lines tail = [decode tail] := by
  rw [lines, pieces_open h hne, List.map_singleton, readLine]
  cases hd : decode tail with
  | none => rfl
  | some cs =>
    have hcs : '\n' ∉ cs := by
      rw [decode_eq_some_iff.mp hd, newline_mem_encode] at h
      exact h
    rw [Option.map_some, stripTerminator_open hcs]

theorem replay_tail {data tail : Bytes} (hd : Closed 0x0A data) (h : 0x0A ∉ tail) :
    replay (data ++ tail) = replayLine (replay data) (decode tail) := by
  rw [replay_append hd]
  by_cases hne : tail = []
  · subst hne
    rfl
  · rw [lines_tail h hne]
    rfl

end ChronosLogFormat

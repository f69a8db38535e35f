import Vanguard.ChronosLogFormat

/-! Which pairs the log can carry. What a replay finds was cut out of one line at its first
comma, so a pair that cannot be cut out of a line is never found. -/
namespace ChronosRecordDomain

open Utf8Text LastWriterMaps TerminatedLines ChronosEngine ChronosLogFormat

/-- Keys end at a comma, and neither keys nor values go beyond a line. -/
structure Readable (r : Text × Text) : Prop where
  key_comma : ',' ∉ r.1
  key_newline : '\n' ∉ r.1
  value_newline : '\n' ∉ r.2

def AllReadable (m : HashMap) : Prop := ∀ k v, m.lookup k = some v → Readable (k, v)

variable {m : HashMap} {r : Text × Text} {piece : Bytes} {text : Text}

theorem notMem_of_splitOnce {sep : Char} {cs k v : Text} (h : splitOnce sep cs = some (k, v)) :
    sep ∉ k := by
  induction cs generalizing k with
  | nil => cases h
  | cons c cs ih =>
    rw [splitOnce] at h
    split at h
    · cases h
      simp
    · next hc =>
      obtain ⟨⟨a, b⟩, hab, he⟩ := Option.map_eq_some_iff.mp h
      cases he
      simpa [Ne.symm hc] using ih hab

theorem newline_of_dropLast {cs ds : Text} (hne : ds ≠ [])
    (h : 0x0A ∉ (encode (cs ++ ds)).dropLast) : '\n' ∉ cs := by
  intro hm
  apply h
  have hbytes : encode ds ≠ [] := by
    obtain ⟨d, ds, rfl⟩ := List.exists_cons_of_ne_nil hne
    simp [String.utf8EncodeChar_ne_nil]
  rw [encode_append, List.dropLast_append_of_ne_nil hbytes]
  exact List.mem_append_left _ ((newline_mem_encode cs).mpr hm)

theorem newline_readLine (h : readLine piece = some text) (hpiece : 0x0A ∉ piece.dropLast) :
    '\n' ∉ text := by
  obtain ⟨cs, hcs, rfl⟩ := Option.map_eq_some_iff.mp h
  rw [decode_eq_some_iff.mp hcs] at hpiece
  rcases stripTerminator_cases cs with hsame | hline | hline
  · cases cs using List.reverseRecOn with
    | nil => simp [stripTerminator]
    | append_singleton ds c =>
      have hlast : c ≠ '\n' := by
        rintro rfl
        have hlength := congrArg List.length hsame
        rw [stripTerminator, if_pos (by simp), List.dropLast_concat] at hlength
        split at hlength
        · simp at hlength
          omega
        · simp at hlength
      have hbefore : '\n' ∉ ds := newline_of_dropLast (by simp) hpiece
      rw [← hsame]
      simp [hbefore, Ne.symm hlast]
  · rw [hline] at hpiece
    exact newline_of_dropLast (by simp) hpiece
  · rw [hline, List.append_assoc] at hpiece
    exact newline_of_dropLast (by simp) hpiece

theorem AllReadable.write (h : AllReadable m) (hr : Readable r) :
    AllReadable (LastWriterMaps.write m r) := by
  intro k v hl
  rw [lookup_write] at hl
  split at hl
  · next hk =>
    cases hl
    rw [hk]
    exact hr
  · exact h k v hl

theorem AllReadable.line {line : Option Text} (h : AllReadable m)
    (hline : ∀ text, line = some text → '\n' ∉ text) : AllReadable (replayLine m line) := by
  cases line with
  | none => exact h
  | some text =>
    cases hsplit : splitOnce ',' text with
    | none =>
      simp only [replayLine, hsplit]
      exact h
    | some r =>
      have htext := hline text rfl
      rw [eq_of_splitOnce hsplit] at htext
      simp only [replayLine, hsplit]
      apply h.write
      refine ⟨notMem_of_splitOnce hsplit, ?_, ?_⟩
      · exact fun hm => htext (List.mem_append_left _ hm)
      · exact fun hm => htext (List.mem_append_right _ (List.mem_cons_of_mem _ hm))

theorem allReadable_replay (data : Bytes) : AllReadable (replay data) := by
  apply List.foldlRecOn (motive := AllReadable)
  · intro k v hl
    cases hl
  · intro m hm line hline
    apply hm.line
    rintro text rfl
    obtain ⟨piece, hpiece, hread⟩ := List.mem_map.mp hline
    exact newline_readLine hread (notMem_dropLast hpiece)

/-- A carriage return at the end of a value is taken for a part of the line end. -/
theorem lines_record_return {k v : Text} (hk : '\n' ∉ k) (hv : '\n' ∉ v ++ ['\r']) :
    lines (record (k, v ++ ['\r'])) = [some (body (k, v))] := by
  have hline : '\n' ∉ body (k, v ++ ['\r']) := by
    simp only [body, List.mem_append, List.mem_cons, not_or]
    exact ⟨hk, by decide, by simpa using hv⟩
  have hbody : body (k, v ++ ['\r']) = body (k, v) ++ ['\r'] := by simp [body]
  have hrecord : record (k, v ++ ['\r']) = encode (body (k, v) ++ ['\r'] ++ ['\n']) := by
    rw [record_eq, hbody, encode_append _ ['\n']]
    rfl
  have hpieces : pieces 0x0A (record (k, v ++ ['\r'])) = [record (k, v ++ ['\r'])] := by
    rw [record_eq]
    exact pieces_terminated ((newline_mem_encode _).not.mpr hline)
  rw [lines, hpieces, List.map_singleton, readLine, hrecord, decode_encode, Option.map_some,
    stripTerminator, if_pos (by simp), List.dropLast_concat, if_pos (by simp),
    List.dropLast_concat]

/-- Replaying a closed log and one more record writes the pair of this record just if the pair is
storable. -/
theorem replay_record_iff {data : Bytes} (hd : Closed 0x0A data) (k v : Text) :
    replay (data ++ record (k, v)) = write (replay data) (k, v) ↔
      ',' ∉ k ∧ '\n' ∉ k ∧ '\n' ∉ v ∧ v.getLast? ≠ some '\r' := by
  constructor
  · intro heq
    have hfound : (replay (data ++ record (k, v))).lookup k = some v := by
      rw [heq, lookup_write, if_pos rfl]
    have hreadable := allReadable_replay _ k v hfound
    refine ⟨hreadable.key_comma, hreadable.key_newline, hreadable.value_newline, ?_⟩
    intro hlast
    obtain ⟨w, rfl⟩ := List.getLast?_eq_some_iff.mp hlast
    have hlines := lines_record_return hreadable.key_newline hreadable.value_newline
    rw [replay_append hd, hlines, List.foldl_cons, List.foldl_nil] at hfound
    have hcut := replayLine_body (r := (k, w)) hreadable.key_comma (replay data)
    rw [hcut, lookup_write, if_pos rfl] at hfound
    simp at hfound
  · rintro ⟨hkc, hkn, hvn, hvr⟩
    exact replay_record hd ⟨hkc, hkn, hvn, hvr⟩

theorem replay_record_over : replay ([0x6B, 0x2C, 0x0A] ++ record (['k'], [',', '\r', 'x'])) =
    write (replay [0x6B, 0x2C, 0x0A]) (['k'], [',', '\r', 'x']) :=
  (replay_record_iff (by decide) _ _).mpr (by decide)

end ChronosRecordDomain

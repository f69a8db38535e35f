import Vanguard.ChronosLogFormat
import Vanguard.StateMachines

/-! Rehydration from a file whose reads may fail. `BufRead::lines` hands on what one failed read
has cost, and the loop of `Engine::new` looks at whole lines only. -/
namespace ChronosRehydration

open Utf8Text FileSystems TerminatedLines StateMachines ChronosEngine ChronosLogFormat

/-- The outcome of one read of the file: at most `n + 1` bytes, or an error. An interrupted read
is made again, and has no outcome of its own. -/
inductive ReadResult where
  | bytes (n : ℕ)
  | failed (err : IoError)

def DEFAULT_BUF_SIZE : ℕ := 8192

/-- The loop of `Engine::new` between two reads, when nothing is buffered: what the file has not
given yet, the bytes of the line in progress, the lines taken so far, and the result. -/
structure Loading where
  unread : Bytes
  line : Bytes
  taken : List Bytes
  map : HashMap
  result : Option (Except IoError Engine)

def opened (data : Bytes) : Loading := ⟨data, [], [], ∅, none⟩

def Loading.take (s : Loading) (piece : Bytes) : Loading :=
  { s with
    line := []
    taken := s.taken ++ [piece]
    map := replayLine s.map (readLine piece) }

def takeByte (s : Loading) (b : UInt8) : Loading :=
  if b = 0x0A then s.take (s.line ++ [b]) else { s with line := s.line ++ [b] }

/-- One read, and all that the loop does before the next one. The error of a failed read is an
item of `lines`, which drops the line in progress and matches nothing in the loop. The end of the
file ends the line in progress first, and the loop when there is none. -/
def poll (logFile : File) (s : Loading) (r : ReadResult) : Loading :=
  match s.result with
  | some _ => s
  | none =>
    match r with
    | .failed _ => { s with line := [] }
    | .bytes n =>
      match s.unread with
      | [] =>
        if s.line = [] then { s with result := some (.ok ⟨s.map, logFile⟩) } else s.take s.line
      | b :: bs =>
        let chunk := (b :: bs).take (min (n + 1) DEFAULT_BUF_SIZE)
        { chunk.foldl takeByte s with unread := (b :: bs).drop chunk.length }

/-- The reads of one call, in order. The calls after its end are not made. -/
abbrev Script := ℕ → ReadResult

def after (logFile : File) (data : Bytes) (script : Script) (n : ℕ) : Loading :=
  run (poll logFile) (opened data) ((List.range n).map script)

/-- The call returns, and with `Ok` only if every byte of the file was in a line that it took. -/
def AllOrNothing (logFile : File) (data : Bytes) (script : Script) : Prop :=
  ∃ n result, (after logFile data script n).result = some result ∧
    ∀ engine, result = .ok engine →
      (after logFile data script n).taken.flatten = data ∧ engine.map = replay data

def Succeeds : ReadResult → Prop
  | .bytes _ => True
  | .failed _ => False

def offset (len : ℕ) (script : Script) : ℕ → ℕ
  | 0 => 0
  | i + 1 =>
    match script i with
    | .bytes n => min len (offset len script i + min (n + 1) DEFAULT_BUF_SIZE)
    | .failed _ => offset len script i

def FindsEnd (data : Bytes) (script : Script) (i : ℕ) : Prop :=
  Succeeds (script i) ∧ offset data.length script i = data.length

structure Cut (s : Loading) : Prop where
  pieces : pieces 0x0A s.taken.flatten = s.taken
  line : 0x0A ∉ s.line
  map : s.map = s.taken.foldl (fun m piece => replayLine m (readLine piece)) ∅

variable {s : Loading} {b : UInt8} {piece data : Bytes} {script : Script} {n : ℕ}
  {logFile : File}

theorem cut_opened (data : Bytes) : Cut (opened data) := ⟨rfl, by simp [opened], rfl⟩

theorem Cut.take (h : Cut s) (hc : Closed 0x0A s.taken.flatten)
    (hpiece : TerminatedLines.pieces 0x0A piece = [piece]) : Cut (s.take piece) := by
  constructor
  · simp only [Loading.take, List.flatten_append, List.flatten_singleton]
    rw [pieces_append hc, h.pieces, hpiece]
  · simp [Loading.take]
  · simp [Loading.take, h.map, List.foldl_append]

theorem bytes_takeByte (s : Loading) (b : UInt8) :
    (takeByte s b).taken.flatten ++ (takeByte s b).line = s.taken.flatten ++ s.line ++ [b] := by
  rw [takeByte]
  split
  · simp [Loading.take]
  · simp

theorem bytes_chunk (s : Loading) (chunk : Bytes) :
    (chunk.foldl takeByte s).taken.flatten ++ (chunk.foldl takeByte s).line =
      s.taken.flatten ++ s.line ++ chunk := by
  induction chunk generalizing s with
  | nil => simp
  | cons b chunk ih =>
    rw [List.foldl_cons, ih, bytes_takeByte, List.append_assoc]
    rfl

theorem result_chunk (s : Loading) (chunk : Bytes) :
    (chunk.foldl takeByte s).result = s.result := by
  induction chunk generalizing s with
  | nil => rfl
  | cons b chunk ih =>
    rw [List.foldl_cons, ih, takeByte]
    split
    · rfl
    · rfl

theorem cut_chunk (h : Cut s) (hc : Closed 0x0A s.taken.flatten) (chunk : Bytes) :
    Cut (chunk.foldl takeByte s) ∧ Closed 0x0A (chunk.foldl takeByte s).taken.flatten := by
  induction chunk generalizing s with
  | nil => exact ⟨h, hc⟩
  | cons b chunk ih =>
    rw [List.foldl_cons, takeByte]
    split
    · next hb =>
      subst hb
      apply ih (h.take hc (pieces_terminated h.line))
      simp only [Loading.take, List.flatten_append, List.flatten_singleton, ← List.append_assoc]
      exact closed_snoc _
    · next hb => exact ih ⟨h.pieces, by simp [h.line, Ne.symm hb], h.map⟩ hc

theorem after_succ (logFile : File) (data : Bytes) (script : Script) (n : ℕ) :
    after logFile data script (n + 1) = poll logFile (after logFile data script n) (script n) := by
  rw [after, List.range_succ, List.map_append, run_append]
  rfl

theorem offset_le (len : ℕ) (script : Script) (n : ℕ) : offset len script n ≤ len := by
  induction n with
  | zero => exact Nat.zero_le _
  | succ n ih =>
    rw [offset]
    split
    · exact Nat.min_le_left _ _
    · exact ih

def Ended (data : Bytes) (script : Script) (n : ℕ) : Prop := ∃ j < n, FindsEnd data script j

theorem offset_of_end {i : ℕ} (h : offset data.length script i = data.length) (hle : i ≤ n) :
    offset data.length script n = data.length := by
  induction n, hle using Nat.le_induction with
  | base => exact h
  | succ n _ ih =>
    rw [offset]
    split
    · rw [ih]
      omega
    · exact ih

theorem Ended.offset_eq (h : Ended data script n) :
    offset data.length script n = data.length := by
  obtain ⟨j, hj, _, hend⟩ := h
  exact offset_of_end hend hj.le

theorem Ended.succ (h : Ended data script n) : Ended data script (n + 1) := by
  obtain ⟨j, hj, hend⟩ := h
  exact ⟨j, Nat.lt_succ_of_lt hj, hend⟩

theorem Ended.mono {i : ℕ} (h : Ended data script n) (hle : n ≤ i) : Ended data script i := by
  obtain ⟨j, hj, hend⟩ := h
  exact ⟨j, lt_of_lt_of_le hj hle, hend⟩

theorem ended_succ_iff : Ended data script (n + 1) ↔
    Ended data script n ∨ FindsEnd data script n := by
  constructor
  · rintro ⟨j, hj, hend⟩
    rcases Nat.lt_succ_iff_lt_or_eq.mp hj with hlt | rfl
    · exact Or.inl ⟨j, hlt, hend⟩
    · exact Or.inr hend
  · rintro (h | h)
    · exact h.succ
    · exact ⟨n, Nat.lt_succ_self n, h⟩

/-- No byte has been lost so far. -/
structure Intact (logFile : File) (data : Bytes) (script : Script) (n : ℕ) (s : Loading) :
    Prop where
  cut : Cut s
  bytes : s.taken.flatten ++ s.line = data.take (offset data.length script n)
  unread : s.unread = data.drop (offset data.length script n)
  closed : Closed 0x0A s.taken.flatten ∨ Ended data script n
  ended : Ended data script n → s.line = []
  result : s.result = none ∨
    s.result = some (.ok ⟨s.map, logFile⟩) ∧ s.line = [] ∧ Ended data script n

def Lost (data : Bytes) (s : Loading) : Prop :=
  (s.taken.flatten ++ s.line ++ s.unread).length < data.length

theorem intact_opened (logFile : File) (data : Bytes) (script : Script) :
    Intact logFile data script 0 (opened data) := by
  constructor
  · exact cut_opened data
  · rfl
  · rfl
  · exact Or.inl closed_nil
  · exact fun _ => rfl
  · exact Or.inl rfl

section Polls

variable {r : ReadResult}

theorem eq_bytes (h : Succeeds r) : ∃ n, r = .bytes n := by
  cases r with
  | bytes n => exact ⟨n, rfl⟩
  | failed err => exact absurd h id

theorem eq_failed (h : ¬ Succeeds r) : ∃ err, r = .failed err := by
  cases r with
  | bytes n => exact absurd trivial h
  | failed err => exact ⟨err, rfl⟩

theorem poll_returned (h : s.result ≠ none) : poll logFile s r = s := by
  obtain ⟨result, hresult⟩ := Option.ne_none_iff_exists'.mp h
  simp only [poll, hresult]

theorem poll_failed (h : s.result = none) (hr : ¬ Succeeds r) :
    poll logFile s r = { s with line := [] } := by
  obtain ⟨err, rfl⟩ := eq_failed hr
  simp only [poll, h]

theorem poll_end (h : s.result = none) (hr : Succeeds r) (hunread : s.unread = []) :
    poll logFile s r = if s.line = [] then { s with result := some (.ok ⟨s.map, logFile⟩) }
      else s.take s.line := by
  obtain ⟨n, rfl⟩ := eq_bytes hr
  simp only [poll, h, hunread]

theorem poll_chunk (h : s.result = none) (hunread : s.unread ≠ []) :
    poll logFile s (.bytes n) =
      { (s.unread.take (min (n + 1) DEFAULT_BUF_SIZE)).foldl takeByte s with
        unread := s.unread.drop (s.unread.take (min (n + 1) DEFAULT_BUF_SIZE)).length } := by
  obtain ⟨b, bs, hbs⟩ := List.exists_cons_of_ne_nil hunread
  simp only [poll, h, hbs]

end Polls

theorem Lost.again (h : Lost data s) (r : ReadResult) : Lost data (poll logFile s r) := by
  unfold Lost at h ⊢
  by_cases hresult : s.result = none
  · by_cases hr : Succeeds r
    · by_cases hunread : s.unread = []
      · rw [poll_end hresult hr hunread]
        split
        · exact h
        · simpa [Loading.take] using h
      · obtain ⟨n, rfl⟩ := eq_bytes hr
        rw [poll_chunk hresult hunread]
        simp only [bytes_chunk]
        simp only [List.length_append, List.length_drop, List.length_take] at h ⊢
        omega
    · rw [poll_failed hresult hr]
      simp only [List.length_append, List.append_nil] at h ⊢
      omega
  · rwa [poll_returned hresult]

theorem Intact.stay (h : Intact logFile data script n s) (hline : s.line = [])
    (hoffset : offset data.length script (n + 1) = offset data.length script n) :
    Intact logFile data script (n + 1) s := by
  constructor
  · exact h.cut
  · rw [hoffset]
    exact h.bytes
  · rw [hoffset]
    exact h.unread
  · rcases h.closed with hclosed | hended
    · exact Or.inl hclosed
    · exact Or.inr hended.succ
  · exact fun _ => hline
  · rcases h.result with hnone | ⟨hsome, _, hended⟩
    · exact Or.inl hnone
    · exact Or.inr ⟨hsome, hline, hended.succ⟩

theorem Intact.returned (h : Intact logFile data script n s) (hresult : s.result ≠ none) :
    Intact logFile data script (n + 1) s := by
  obtain ⟨_, hline, hended⟩ := h.result.resolve_left hresult
  apply h.stay hline
  rw [hended.offset_eq, hended.succ.offset_eq]

theorem Intact.failed (h : Intact logFile data script n s) (hr : ¬ Succeeds (script n))
    (hline : s.line = []) : Intact logFile data script (n + 1) s := by
  apply h.stay hline
  obtain ⟨err, hs⟩ := eq_failed hr
  rw [offset, hs]

/-- A read that fails inside a line costs what was read of the line. -/
theorem Intact.lost (h : Intact logFile data script n s) (hr : ¬ Succeeds (script n))
    (hresult : s.result = none) (hline : s.line ≠ []) :
    Lost data (poll logFile s (script n)) := by
  have hall : (s.taken.flatten ++ s.line ++ s.unread).length = data.length := by
    rw [h.bytes, h.unread, List.take_append_drop]
  have hpos := List.length_pos_iff.mpr hline
  rw [poll_failed hresult hr, Lost]
  simp only [List.length_append, List.append_nil] at hall ⊢
  omega

theorem Intact.offset_eq (h : Intact logFile data script n s) (hunread : s.unread = []) :
    offset data.length script n = data.length := by
  have hle := offset_le data.length script n
  have hdrop := h.unread.symm.trans hunread
  rw [List.drop_eq_nil_iff] at hdrop
  omega

theorem Intact.atEnd (h : Intact logFile data script n s) (hr : Succeeds (script n))
    (hresult : s.result = none) (hunread : s.unread = []) :
    Intact logFile data script (n + 1) (poll logFile s (script n)) := by
  have hend := h.offset_eq hunread
  have hnow : Ended data script (n + 1) := ended_succ_iff.mpr (Or.inr ⟨hr, hend⟩)
  have hoffset := hnow.offset_eq
  rw [poll_end hresult hr hunread]
  split
  · next hline =>
    constructor
    · exact ⟨h.cut.pieces, h.cut.line, h.cut.map⟩
    · rw [hoffset, ← hend]
      exact h.bytes
    · rw [hoffset, ← hend]
      exact h.unread
    · exact Or.inr hnow
    · exact fun _ => hline
    · exact Or.inr ⟨rfl, hline, hnow⟩
  · next hline =>
    have hclosed : Closed 0x0A s.taken.flatten := by
      rcases h.closed with hclosed | hended
      · exact hclosed
      · exact absurd (h.ended hended) hline
    constructor
    · exact h.cut.take hclosed (pieces_open h.cut.line hline)
    · rw [hoffset, ← hend, ← h.bytes]
      simp [Loading.take]
    · rw [hoffset, ← hend]
      exact h.unread
    · exact Or.inr hnow
    · exact fun _ => rfl
    · exact Or.inl hresult

theorem take_min (data : Bytes) (n : ℕ) : data.take (min data.length n) = data.take n := by
  rcases Nat.le_total data.length n with h | h
  · rw [Nat.min_eq_left h, List.take_length, List.take_of_length_le h]
  · rw [Nat.min_eq_right h]

theorem drop_min (data : Bytes) (o k : ℕ) :
    (data.drop o).drop ((data.drop o).take k).length = data.drop (min data.length (o + k)) := by
  rw [List.drop_drop, List.length_take, List.length_drop]
  by_cases h : o + k ≤ data.length
  · congr 1
    omega
  · rw [List.drop_eq_nil_of_le (by omega), List.drop_eq_nil_of_le (by omega)]

theorem Intact.inside (h : Intact logFile data script n s) {m : ℕ} (hr : script n = .bytes m)
    (hresult : s.result = none) (hunread : s.unread ≠ []) :
    Intact logFile data script (n + 1) (poll logFile s (script n)) := by
  have hlt : offset data.length script n < data.length := by
    rw [h.unread, ne_eq, List.drop_eq_nil_iff] at hunread
    omega
  have hnot : ¬ Ended data script (n + 1) := by
    intro hended
    rcases ended_succ_iff.mp hended with hbefore | ⟨_, hend⟩
    · exact absurd hbefore.offset_eq hlt.ne
    · exact hlt.ne hend
  have hclosed : Closed 0x0A s.taken.flatten := by
    rcases h.closed with hclosed | hended
    · exact hclosed
    · exact absurd hended.succ hnot
  have hoffset : offset data.length script (n + 1) =
      min data.length (offset data.length script n + min (m + 1) DEFAULT_BUF_SIZE) := by
    rw [offset, hr]
  obtain ⟨hcut, hclosed'⟩ := cut_chunk h.cut hclosed
    (s.unread.take (min (m + 1) DEFAULT_BUF_SIZE))
  rw [hr, poll_chunk hresult hunread]
  constructor
  · exact ⟨hcut.pieces, hcut.line, hcut.map⟩
  · simp only [bytes_chunk]
    rw [h.bytes, h.unread, hoffset, take_min, List.take_add]
  · simp only
    rw [h.unread, hoffset, drop_min]
  · exact Or.inl hclosed'
  · exact fun hended => absurd hended hnot
  · left
    simp only [result_chunk]
    exact hresult

/-- A read that fails now finds no line begun, or no line left to read. -/
def Spared (data : Bytes) (script : Script) (i : ℕ) : Prop :=
  Closed 0x0A (data.take (offset data.length script i)) ∨ Ended data script i

theorem Intact.spared (h : Intact logFile data script n s) (hline : s.line = []) :
    Spared data script n := by
  have hbytes := h.bytes
  rw [hline, List.append_nil] at hbytes
  rcases h.closed with hclosed | hended
  · left
    rwa [← hbytes]
  · exact Or.inr hended

theorem Intact.line_nil (h : Intact logFile data script n s) (hspared : Spared data script n) :
    s.line = [] := by
  rcases hspared with hclosed | hended
  · rw [← h.bytes] at hclosed
    by_contra hne
    obtain ⟨front, b, hfront⟩ := List.eq_nil_or_concat s.line |>.resolve_left hne
    have hb : b = 0x0A := by
      rcases hclosed with hnil | ⟨ys, hys⟩
      · simp [hfront] at hnil
      · rw [hfront] at hys
        simpa using congrArg List.getLast? hys
    apply h.cut.line
    simp [hfront, hb]
  · exact h.ended hended

theorem Intact.step (h : Intact logFile data script n s)
    (hspared : ¬ Succeeds (script n) → s.result = none → s.line = []) :
    Intact logFile data script (n + 1) (poll logFile s (script n)) := by
  by_cases hresult : s.result = none
  · by_cases hr : Succeeds (script n)
    · by_cases hunread : s.unread = []
      · exact h.atEnd hr hresult hunread
      · obtain ⟨m, hs⟩ := eq_bytes hr
        exact h.inside hs hresult hunread
    · have hline := hspared hr hresult
      rw [poll_failed hresult hr, ← hline]
      exact h.failed hr hline
  · rw [poll_returned hresult]
    exact h.returned hresult

theorem lost_after {i : ℕ} (h : Lost data (after logFile data script i)) (hle : i ≤ n) :
    Lost data (after logFile data script n) := by
  induction n, hle using Nat.le_induction with
  | base => exact h
  | succ n _ ih =>
    rw [after_succ]
    exact ih.again (script n)

theorem line_nil_of_not_lost (h : ¬ Lost data (after logFile data script n)) {i : ℕ} (hlt : i < n)
    (hintact : Intact logFile data script i (after logFile data script i))
    (hr : ¬ Succeeds (script i)) (hresult : (after logFile data script i).result = none) :
    (after logFile data script i).line = [] := by
  by_contra hline
  have hlost := hintact.lost hr hresult hline
  rw [← after_succ] at hlost
  exact h (lost_after hlost hlt)

theorem intact_of_not_lost (h : ¬ Lost data (after logFile data script n)) {i : ℕ} (hle : i ≤ n) :
    Intact logFile data script i (after logFile data script i) := by
  induction i with
  | zero => exact intact_opened logFile data script
  | succ i ih =>
    have hi := ih (Nat.le_of_succ_le hle)
    rw [after_succ]
    exact hi.step (line_nil_of_not_lost h hle hi)

theorem intact_of_spared (h : ∀ i, ¬ Succeeds (script i) → Spared data script i) (n : ℕ) :
    Intact logFile data script n (after logFile data script n) := by
  induction n with
  | zero => exact intact_opened logFile data script
  | succ n ih =>
    rw [after_succ]
    apply ih.step
    intro hr _
    exact ih.line_nil (h n hr)

theorem last_read (h : (after logFile data script n).result ≠ none) :
    ∃ i < n, (after logFile data script i).result = none ∧
      (after logFile data script (i + 1)).result ≠ none := by
  induction n with
  | zero => exact absurd rfl h
  | succ n ih =>
    by_cases hn : (after logFile data script n).result = none
    · exact ⟨n, Nat.lt_succ_self n, hn, h⟩
    · obtain ⟨i, hi, hlast⟩ := ih hn
      exact ⟨i, Nat.lt_succ_of_lt hi, hlast⟩

theorem poll_ends {r : ReadResult} (hbefore : s.result = none)
    (hafter : (poll logFile s r).result ≠ none) :
    Succeeds r ∧ s.unread = [] ∧ s.line = [] := by
  by_cases hr : Succeeds r
  · by_cases hunread : s.unread = []
    · refine ⟨hr, hunread, ?_⟩
      rw [poll_end hbefore hr hunread] at hafter
      by_contra hline
      rw [if_neg hline] at hafter
      exact hafter hbefore
    · obtain ⟨m, rfl⟩ := eq_bytes hr
      rw [poll_chunk hbefore hunread] at hafter
      simp only [result_chunk] at hafter
      exact absurd hbefore hafter
  · rw [poll_failed hbefore hr] at hafter
    exact absurd hbefore hafter

theorem poll_ok {r : ReadResult} {result : Except IoError Engine} (hbefore : s.result = none)
    (h : (poll logFile s r).result = some result) : result = .ok ⟨s.map, logFile⟩ := by
  obtain ⟨hr, hunread, hline⟩ := poll_ends hbefore (by rw [h]; simp)
  rw [poll_end hbefore hr hunread, if_pos hline] at h
  cases h
  rfl

theorem Cut.replay_eq (h : Cut s) : s.map = replay s.taken.flatten := by
  rw [h.map, replay, lines, h.pieces, List.foldl_map]

theorem result_ok {result : Except IoError Engine}
    (h : (after logFile data script n).result = some result) : ∃ engine, result = .ok engine := by
  induction n with
  | zero => cases h
  | succ n ih =>
    rw [after_succ] at h
    by_cases hn : (after logFile data script n).result = none
    · exact ⟨_, poll_ok hn h⟩
    · rw [poll_returned hn] at h
      exact ih h

theorem spared_of_kept (hresult : (after logFile data script n).result ≠ none)
    (hkept : ¬ Lost data (after logFile data script n)) (i : ℕ) (hi : ¬ Succeeds (script i)) :
    Spared data script i := by
  rcases Nat.lt_or_ge i n with hlt | hge
  · have hintact := intact_of_not_lost hkept hlt.le
    rcases hintact.result with hnone | ⟨_, _, hended⟩
    · exact hintact.spared (line_nil_of_not_lost hkept hlt hintact hi hnone)
    · exact Or.inr hended
  · have hintact := intact_of_not_lost hkept le_rfl
    obtain ⟨_, _, hended⟩ := hintact.result.resolve_left hresult
    exact Or.inr (hended.mono hge)

theorem end_of_kept (hresult : (after logFile data script n).result ≠ none)
    (hkept : ¬ Lost data (after logFile data script n)) :
    ∃ i, FindsEnd data script i ∧ (Closed 0x0A data ∨ Ended data script i) := by
  obtain ⟨i, hlt, hbefore, hafter⟩ := last_read hresult
  rw [after_succ] at hafter
  obtain ⟨hr, hunread, hline⟩ := poll_ends hbefore hafter
  have hintact := intact_of_not_lost hkept hlt.le
  have hend := hintact.offset_eq hunread
  refine ⟨i, ⟨hr, hend⟩, ?_⟩
  rcases hintact.spared hline with hclosed | hended
  · left
    rwa [hend, List.take_length] at hclosed
  · exact Or.inr hended

theorem Intact.ends (h : Intact logFile data script n s) (hend : FindsEnd data script n)
    (hlast : Closed 0x0A data ∨ Ended data script n) :
    (poll logFile s (script n)).result ≠ none := by
  obtain ⟨hr, hoffset⟩ := hend
  have hline : s.line = [] := by
    apply h.line_nil
    rcases hlast with hclosed | hended
    · left
      rwa [hoffset, List.take_length]
    · exact Or.inr hended
  have hunread : s.unread = [] := by
    rw [h.unread, hoffset, List.drop_length]
  by_cases hresult : s.result = none
  · rw [poll_end hresult hr hunread, if_pos hline]
    simp
  · rwa [poll_returned hresult]

theorem Intact.complete (h : Intact logFile data script n s) (hresult : s.result ≠ none) :
    s.result = some (.ok ⟨replay data, logFile⟩) ∧ s.taken.flatten = data := by
  obtain ⟨hok, hline, hended⟩ := h.result.resolve_left hresult
  have hall := h.bytes
  rw [hline, List.append_nil, hended.offset_eq, List.take_length] at hall
  refine ⟨?_, hall⟩
  rw [hok, h.cut.replay_eq, hall]

theorem min_le_offset (h : ∀ i, Succeeds (script i)) (len n : ℕ) :
    min len n ≤ offset len script n := by
  induction n with
  | zero => simp
  | succ n ih =>
    obtain ⟨m, hs⟩ := eq_bytes (h n)
    simp only [offset, hs, DEFAULT_BUF_SIZE]
    omega

/-- On a healthy disk the reads come to what `Engine::new` returns for the whole file at once. -/
theorem new_of_healthy_reads {fs fs' : FileSystem} {filepath : String} {file : File}
    (hopen : fs.openFile filepath logOptions none = (.ok file, fs'))
    (h : ∀ i, Succeeds (script i)) :
    ∃ n, (after file (fs'.content file.inode) script n).result =
      some (Engine.new fs filepath none).1 := by
  generalize hdata : fs'.content file.inode = data
  have hnew : (Engine.new fs filepath none).1 = .ok ⟨replay data, file⟩ := by
    simp only [Engine.new, hopen, hdata]
  have hspared : ∀ i, ¬ Succeeds (script i) → Spared data script i := by
    intro i hi
    exact absurd (h i) hi
  have hoffset : ∀ n ≥ data.length, offset data.length script n = data.length := by
    intro n hn
    have hmin := min_le_offset h data.length n
    have hle := offset_le data.length script n
    omega
  have hend : FindsEnd data script (data.length + 1) :=
    ⟨h _, hoffset _ (Nat.le_succ _)⟩
  have hended : Ended data script (data.length + 1) :=
    ⟨data.length, Nat.lt_succ_self _, h _, hoffset _ le_rfl⟩
  have hsome : (after file data script (data.length + 2)).result ≠ none := by
    rw [after_succ]
    exact (intact_of_spared hspared _).ends hend (Or.inr hended)
  obtain ⟨hok, _⟩ := (intact_of_spared hspared _).complete hsome
  exact ⟨_, by rw [hok, hnew]⟩

/-- No read error is reported, so rehydration is all or nothing just if the reads find the end of
the file, once more after a last line without its newline, and fail only between lines. -/
theorem all_or_nothing_iff (logFile : File) (data : Bytes) (script : Script) :
    AllOrNothing logFile data script ↔
      (∃ n, FindsEnd data script n ∧ (Closed 0x0A data ∨ Ended data script n)) ∧
        ∀ i, ¬ Succeeds (script i) →
          Closed 0x0A (data.take (offset data.length script i)) ∨ Ended data script i := by
  constructor
  · rintro ⟨n, result, hresult, hall⟩
    obtain ⟨engine, hok⟩ := result_ok hresult
    obtain ⟨hbytes, _⟩ := hall engine hok
    have hsome : (after logFile data script n).result ≠ none := by simp [hresult]
    have hkept : ¬ Lost data (after logFile data script n) := by simp [Lost, hbytes]
    constructor
    · exact end_of_kept hsome hkept
    · exact spared_of_kept hsome hkept
  · rintro ⟨⟨n, hend, hlast⟩, hspared⟩
    have hsome : (after logFile data script (n + 1)).result ≠ none := by
      rw [after_succ]
      exact (intact_of_spared hspared n).ends hend hlast
    obtain ⟨hok, hbytes⟩ := (intact_of_spared hspared (n + 1)).complete hsome
    refine ⟨n + 1, _, hok, ?_⟩
    intro engine hengine
    cases hengine
    exact ⟨hbytes, rfl⟩

/-- While every read fails the loop goes on. -/
theorem never_returns (h : ∀ i, ¬ Succeeds (script i)) (n : ℕ) :
    (after logFile data script n).result = none := by
  induction n with
  | zero => rfl
  | succ n ih =>
    rw [after_succ, poll_failed ih (h n)]
    exact ih

def badSector : IoError := ⟨"Input/output error (os error 5)".toList⟩

def tornRead : Script
  | 0 => .bytes 0
  | 1 => .failed badSector
  | _ + 2 => .bytes 8191

/-- The key of the only record is lost, and a record that nobody wrote is loaded. -/
theorem torn_read_accepted :
    (after ⟨0, true, 0⟩ (record (['k'], ['v'])) tornRead 4).result =
        some (.ok ⟨(∅ : HashMap).insert [] ['v'], ⟨0, true, 0⟩⟩) ∧
      ¬ AllOrNothing ⟨0, true, 0⟩ (record (['k'], ['v'])) tornRead := by
  have hok : (after ⟨0, true, 0⟩ (record (['k'], ['v'])) tornRead 4).result =
      some (.ok ⟨(∅ : HashMap).insert [] ['v'], ⟨0, true, 0⟩⟩) := by
    rfl
  refine ⟨hok, ?_⟩
  rintro ⟨n, result, hresult, hall⟩
  obtain ⟨engine, rfl⟩ := result_ok hresult
  obtain ⟨hbytes, _⟩ := hall engine rfl
  have hlost : Lost (record (['k'], ['v']))
      (after ⟨0, true, 0⟩ (record (['k'], ['v'])) tornRead 2) := by
    unfold Lost
    decide
  rcases Nat.lt_or_ge n 2 with hlt | hge
  · obtain rfl | rfl : n = 0 ∨ n = 1 := by omega
    · cases hresult
    · cases hresult
  · have hgone := lost_after hlost hge
    simp only [Lost, List.length_append, hbytes] at hgone
    omega

end ChronosRehydration

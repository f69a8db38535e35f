import Vanguard.ChronosStore

/-! A log cut short. A crash may leave any prefix of the bytes; the rehydration takes what
follows the last newline for a record as soon as it has a comma and is UTF-8. -/
namespace ChronosTornLog

open Utf8Text FileSystems LastWriterMaps TerminatedLines StateMachines ChronosEngine
open ChronosLogFormat ChronosStore

theorem take_encodeLog (rs : List (Text × Text)) (n : ℕ) :
    ∃ i tail, (encodeLog rs).take n = encodeLog (rs.take i) ++ tail ∧
      (tail = [] ∨ ∃ r, rs[i]? = some r ∧ tail <+: encode (body r)) := by
  induction rs generalizing n with
  | nil => exact ⟨0, [], by simp, Or.inl rfl⟩
  | cons r rs ih =>
    rcases Nat.lt_or_ge n (record r).length with hlt | hge
    · refine ⟨0, (record r).take n, ?_, Or.inr ⟨r, rfl, ?_⟩⟩
      · rw [encodeLog_cons, List.take_append_of_le_length hlt.le]
        rfl
      · rw [record_eq, List.length_append, List.length_singleton] at hlt
        rw [record_eq, List.take_append_of_le_length (by omega)]
        exact List.take_prefix _ _
    · obtain ⟨i, tail, htake, htail⟩ := ih (n - (record r).length)
      refine ⟨i + 1, tail, ?_, htail⟩
      rw [encodeLog_cons, List.take_append, htake, List.take_of_length_le hge,
        List.take_succ_cons, encodeLog_cons, List.append_assoc]

theorem prefix_body {cs k v : Text} (h : cs <+: body (k, v)) :
    cs <+: k ∨ ∃ v', v' <+: v ∧ cs = body (k, v') := by
  obtain ⟨rest, hrest⟩ := h
  rcases List.append_eq_append_iff.mp hrest with ⟨t, hk, _⟩ | ⟨t, hcs, ht⟩
  · exact Or.inl ⟨t, hk.symm⟩
  · cases t with
    | nil =>
      left
      rw [hcs, List.append_nil]
    | cons c t =>
      rw [List.cons_append, List.cons.injEq] at ht
      obtain ⟨rfl, ht⟩ := ht
      exact Or.inr ⟨t, ⟨rest, ht.symm⟩, hcs⟩

theorem replay_torn {data tail : Bytes} (hd : Closed 0x0A data) {k v : Text}
    (hs : Storable (k, v)) (ht : tail <+: encode (body (k, v))) :
    replay (data ++ tail) = replay data ∨
      ∃ v', v' <+: v ∧ tail = encode (body (k, v')) ∧
        replay (data ++ tail) = write (replay data) (k, v') := by
  have hopen : 0x0A ∉ tail := by
    intro hm
    exact body_newline hs ((newline_mem_encode _).mp (ht.subset hm))
  rw [replay_tail hd hopen]
  cases hdecode : decode tail with
  | none => exact Or.inl rfl
  | some cs =>
    have htail := decode_eq_some_iff.mp hdecode
    rw [htail] at ht
    rcases prefix_body (prefix_of_encode ht) with hk | ⟨v', hv, rfl⟩
    · have hcomma : ',' ∉ cs := fun hm => hs.key_comma (hk.subset hm)
      left
      rw [replayLine, splitOnce_of_notMem hcomma]
    · right
      have hkey : ',' ∉ (k, v').1 := hs.key_comma
      exact ⟨v', hv, htail, replayLine_body hkey _⟩

def sets (db : Db) (rs : List (Text × Text)) : Db := run (fun db r => (db.set r.1 r.2 none).2) db rs

theorem sets_carries {db : Db} {ts : List (Text × Text)} (h : Carries db ts)
    {rs : List (Text × Text)} (hs : ∀ r ∈ rs, Storable r) : Carries (sets db rs) (ts ++ rs) := by
  induction rs generalizing db ts with
  | nil =>
    rw [List.append_nil]
    exact h
  | cons r rs ih =>
    have hset := (h.set (hs r List.mem_cons_self)).2
    have hrest := ih hset fun t ht => hs t (List.mem_cons_of_mem _ ht)
    rw [List.append_assoc] at hrest
    exact hrest

def InitialSegment (m : HashMap) (rs : List (Text × Text)) : Prop :=
  ∃ j, m = writeAll ∅ (rs.take j)

/-- The first `n` bytes of the log end inside the value of a record, after a whole character:
they hold `i` records, the key and the comma of the next one, and a part of its value. -/
structure EndsInValue (rs : List (Text × Text)) (n i : ℕ) (k part : Text) : Prop where
  torn : ∃ v, rs[i]? = some (k, v) ∧ part <+: v ∧ part ≠ v
  bytes : (encodeLog rs).take n = encodeLog (rs.take i) ++ encode (body (k, part))

/-- No part of a value is left, unless the map with it is one that the history had anyway. -/
def Harmless (rs : List (Text × Text)) (n : ℕ) : Prop :=
  ∀ i k part, EndsInValue rs n i k part →
    InitialSegment (write (writeAll ∅ (rs.take i)) (k, part)) rs

theorem replay_take_iff {rs : List (Text × Text)} (hs : ∀ r ∈ rs, Storable r) (n : ℕ) :
    InitialSegment (replay ((encodeLog rs).take n)) rs ↔ Harmless rs n := by
  have hwhole : ∀ i, replay (encodeLog (rs.take i)) = writeAll ∅ (rs.take i) := fun i =>
    replay_encodeLog fun r hr => hs r (List.mem_of_mem_take hr)
  constructor
  · rintro h i k part ⟨⟨v, hi, hpart, hne⟩, hbytes⟩
    have hv := hs (k, v) (List.mem_of_getElem? hi)
    have hcut : encode (body (k, part)) <+: encode (body (k, v)) := by
      obtain ⟨rest, rfl⟩ := hpart
      have happend : body (k, part ++ rest) = body (k, part) ++ rest := by simp [body]
      rw [happend, encode_append]
      exact List.prefix_append _ _
    have hopen : 0x0A ∉ encode (body (k, part)) := by
      intro hm
      exact body_newline hv ((newline_mem_encode _).mp (hcut.subset hm))
    have hkey : ',' ∉ (k, part).1 := hv.key_comma
    rw [hbytes, replay_tail (closed_encodeLog _) hopen, decode_encode, hwhole,
      replayLine_body hkey] at h
    exact h
  · intro h
    obtain ⟨i, tail, htake, htail⟩ := take_encodeLog rs n
    rcases htail with rfl | ⟨⟨k, v⟩, hi, htail⟩
    · refine ⟨i, ?_⟩
      rw [htake, List.append_nil, hwhole]
    · have hv := hs (k, v) (List.mem_of_getElem? hi)
      rcases replay_torn (closed_encodeLog (rs.take i)) hv htail with hr | ⟨part, hpart, he, hr⟩
      · refine ⟨i, ?_⟩
        rw [htake, hr, hwhole]
      · rw [htake, hr, hwhole]
        by_cases hne : part = v
        · -- Only the newline is missing.
          refine ⟨i + 1, ?_⟩
          subst hne
          rw [List.take_add_one, hi, writeAll_append]
          rfl
        · exact h i k part ⟨⟨v, hi, hpart, hne⟩, by rw [htake, he]⟩

/-- After a crash that leaves the first `n` bytes of the log, a new engine has a map of the
history just where the cut is harmless. -/
theorem crash_prefix_iff_harmless (fs : FileSystem) (hempty : fs.read DB_PATH = [])
    (rs : List (Text × Text)) (hs : ∀ r ∈ rs, Storable r) (n : ℕ) :
    ∃ db₀, boot fs = some db₀ ∧
      ∀ crashed : FileSystem, crashed.read DB_PATH = ((sets db₀ rs).fs.read DB_PATH).take n →
        ∃ db, boot crashed = some db ∧ (InitialSegment db.engine.map rs ↔ Harmless rs n) := by
  have hlog : fs.read DB_PATH = encodeLog [] := hempty
  obtain ⟨db₀, hboot, hcarries⟩ := boot_carries hlog (by simp)
  have hend : Carries (sets db₀ rs) rs := sets_carries hcarries hs
  refine ⟨db₀, hboot, ?_⟩
  intro crashed hcrashed
  obtain ⟨db, hreboot, _, _, _, hmap⟩ := boot_spec crashed
  refine ⟨db, hreboot, ?_⟩
  rw [hmap, hcrashed, hend.read]
  exact replay_take_iff hs n

theorem crash_prefix_iff_harmless_two :
    ∃ db₀, boot emptyFileSystem = some db₀ ∧
      let rs : List (Text × Text) := [(['k'], ['a']), (['k'], ['b', 'c'])]
      ∀ crashed : FileSystem, crashed.read DB_PATH = ((sets db₀ rs).fs.read DB_PATH).take 5 →
        ∃ db, boot crashed = some db ∧ (InitialSegment db.engine.map rs ↔ Harmless rs 5) :=
  crash_prefix_iff_harmless emptyFileSystem rfl _ (by decide) 5

theorem shortened_value_surfaces :
    ∃ db₀, boot emptyFileSystem = some db₀ ∧
      let rs : List (Text × Text) := [(['k'], ['v', 'a', 'l'])]
      let left := ((sets db₀ rs).fs.read DB_PATH).take 4
      ∃ db, boot ((sets db₀ rs).fs.setContent db₀.engine.logFile.inode left) = some db ∧
        db.engine.get ['k'] = some ['v', 'a'] ∧ ¬ InitialSegment db.engine.map rs := by
  refine ⟨_, rfl, _, rfl, by decide, ?_⟩
  rintro ⟨j, hj⟩
  have hk := congrArg (Finmap.lookup ['k']) hj
  revert hk
  cases j with
  | zero => decide
  | succ j =>
    rw [List.take_succ_cons, List.take_nil]
    decide

end ChronosTornLog

import Vanguard.ChronosTornLog

/-! Sets that stop in the middle of their record. The engine neither removes nor terminates what
such a set leaves in the log, so the next record is appended to it. -/
namespace ChronosTornSets

open Utf8Text FileSystems LastWriterMaps TerminatedLines StateMachines ChronosEngine
open ChronosLogFormat ChronosStore ChronosTornLog

/-- The engine with, for each key, the value of its most recent set if that returned `Ok`. -/
structure Journal where
  db : Db
  acknowledged : Text → Option Text

/-- A set that returns, a set during which the process stops, or a restart between sets. After
a stop, `Engine::new` opens the same file. -/
inductive Event where
  | set (key value : Text) (failure : Option (ℕ × IoError))
  | crash (key value : Text) (bytes : ℕ)
  | restart

def Event.pair : Event → Option (Text × Text)
  | .set k v _ => some (k, v)
  | .crash k v _ => some (k, v)
  | .restart => none

def Event.written : Event → Bytes
  | .set k v none => record (k, v)
  | .set k v (some (n, _)) => (record (k, v)).take n
  | .crash k v n => (record (k, v)).take n
  | .restart => []

def reopen (db : Db) : Db := (boot db.fs).getD db

def stopped : IoError := ⟨[]⟩

def next (s : Journal) : Event → Journal
  | .set k v failure =>
    match s.db.set k v failure with
    | (.ok (), db) => ⟨db, Function.update s.acknowledged k (some v)⟩
    | (.error _, db) => ⟨db, Function.update s.acknowledged k none⟩
  | .crash k v n =>
    ⟨reopen (s.db.set k v (some (n, stopped))).2, Function.update s.acknowledged k none⟩
  | .restart => ⟨reopen s.db, s.acknowledged⟩

def log (db : Db) : Bytes := db.fs.read DB_PATH

/-- Nothing is appended while the log ends in a part of a record. -/
def OnWholeLines (s : Journal) (e : Event) : Prop := Closed 0x0A (log s.db) ∨ e.written = []

instance (s : Journal) (e : Event) : Decidable (OnWholeLines s e) :=
  inferInstanceAs (Decidable (_ ∨ _))

/-- After the next `Engine::new` every acknowledged value is there. -/
def Kept (s : Journal) : Prop :=
  ∀ k v, s.acknowledged k = some v → ∃ db, boot s.db.fs = some db ∧ db.engine.get k = some v

structure Attached (db : Db) : Prop where
  handle : db.fs.directory DB_PATH = some db.engine.logFile.inode
  appending : db.engine.logFile.append = true

theorem Attached.log_eq {db : Db} (h : Attached db) :
    log db = db.fs.content db.engine.logFile.inode := read_of_directory h.handle

theorem Attached.set {db : Db} (h : Attached db) (k v : Text) (failure : Option (ℕ × IoError)) :
    Attached (db.set k v failure).2 ∧
      log (db.set k v failure).2 = log db ++ (Event.set k v failure).written ∧
      ((db.set k v failure).1 = .ok () → (Event.set k v failure).written = record (k, v)) := by
  have happend : ∀ data, (db.fs.put db.engine.logFile data).read DB_PATH = log db ++ data := by
    intro data
    have hdir : (db.fs.put db.engine.logFile data).directory DB_PATH =
        some db.engine.logFile.inode := h.handle
    rw [read_of_directory hdir, content_put_append h.appending, h.log_eq]
  cases failure with
  | none => exact ⟨⟨h.handle, h.appending⟩, happend _, fun _ => rfl⟩
  | some cut =>
    obtain ⟨n, err⟩ := cut
    rcases Nat.lt_or_ge n (record (k, v)).length with hlt | hge
    · have hset : db.set k v (some (n, err)) = (.error err,
          ⟨db.fs.put db.engine.logFile ((record (k, v)).take n),
            ⟨db.engine.map.insert k v, { db.engine.logFile with
              pos := db.engine.logFile.pos + n }⟩⟩) := by
        simp only [Db.set, Engine.set, FileSystem.writeAll, if_pos hlt]
      rw [hset]
      exact ⟨⟨h.handle, h.appending⟩, happend _, (by simp)⟩
    · have hset : db.set k v (some (n, err)) = db.set k v none := by
        simp only [Db.set, Engine.set, FileSystem.writeAll, if_neg (Nat.not_lt.mpr hge)]
      have hall : (Event.set k v (some (n, err))).written = record (k, v) :=
        List.take_of_length_le hge
      rw [hset, hall]
      exact ⟨⟨h.handle, h.appending⟩, happend _, fun _ => rfl⟩

theorem reopen_spec (db : Db) : Attached (reopen db) ∧ log (reopen db) = log db := by
  obtain ⟨db', hboot, hdir, happend, hcontent, _⟩ := boot_spec db.fs
  have hreopen : reopen db = db' := by rw [reopen, hboot]; rfl
  rw [hreopen, log, read_of_directory hdir]
  exact ⟨⟨hdir, happend⟩, hcontent⟩

structure Readable (s : Journal) : Prop where
  attached : Attached s.db
  found : ∀ k v, s.acknowledged k = some v → (replay (log s.db)).lookup k = some v

theorem lookup_part {data part : Bytes} (hd : Closed 0x0A data) {k v j : Text}
    (hs : Storable (k, v)) (hp : part <+: record (k, v)) (hj : j ≠ k) :
    (replay (data ++ part)).lookup j = (replay data).lookup j := by
  rw [record_eq, List.prefix_concat_iff] at hp
  rcases hp with rfl | hp
  · rw [← record_eq, replay_record hd hs, lookup_write, if_neg hj]
  · rcases replay_torn hd hs hp with hr | ⟨v', _, _, hr⟩
    · rw [hr]
    · rw [hr, lookup_write, if_neg hj]

theorem prefix_of_written {e : Event} {k v : Text} (h : e.pair = some (k, v)) :
    e.written <+: record (k, v) := by
  cases e with
  | set key value failure =>
    cases h
    cases failure with
    | none => exact List.prefix_refl _
    | some cut => exact List.take_prefix _ _
  | crash key value n =>
    cases h
    exact List.take_prefix _ _
  | restart => cases h

theorem Readable.found_after {s : Journal} (h : Readable s) {e : Event}
    (hc : OnWholeLines s e) {k v : Text} (he : e.pair = some (k, v)) (hs : Storable (k, v))
    {j w : Text} (hj : j ≠ k) (hw : s.acknowledged j = some w) :
    (replay (log s.db ++ e.written)).lookup j = some w := by
  rcases hc with hclosed | hnone
  · rw [lookup_part hclosed hs (prefix_of_written he) hj]
    exact h.found j w hw
  · rw [hnone, List.append_nil]
    exact h.found j w hw

theorem record_ne_nil (r : Text × Text) : record r ≠ [] := by
  rw [record_eq]
  simp

theorem readable_next {s : Journal} (h : Readable s) {e : Event}
    (hs : ∀ r ∈ e.pair, Storable r) (hc : OnWholeLines s e) : Readable (next s e) := by
  cases e with
  | set k v failure =>
    obtain ⟨hattached, hlog, hok⟩ := h.attached.set k v failure
    have hstore := hs (k, v) rfl
    rw [next]
    rcases hset : s.db.set k v failure with ⟨result, db⟩
    rw [hset] at hattached hlog hok
    cases result with
    | ok _ =>
      refine ⟨hattached, fun j w hw => ?_⟩
      have hall := hok rfl
      have hclosed : Closed 0x0A (log s.db) := by
        rcases hc with hclosed | hnone
        · exact hclosed
        · exact absurd (hall.symm.trans hnone) (record_ne_nil _)
      change Function.update s.acknowledged k (some v) j = some w at hw
      show (replay (log db)).lookup j = some w
      rw [hlog, hall, replay_record hclosed hstore, lookup_write]
      by_cases hj : j = k
      · subst hj
        rw [if_pos rfl]
        rwa [Function.update_self] at hw
      · rw [if_neg hj]
        rw [Function.update_of_ne hj] at hw
        exact h.found j w hw
    | error err =>
      refine ⟨hattached, fun j w hw => ?_⟩
      change Function.update s.acknowledged k none j = some w at hw
      show (replay (log db)).lookup j = some w
      by_cases hj : j = k
      · subst hj
        rw [Function.update_self] at hw
        cases hw
      · rw [Function.update_of_ne hj] at hw
        rw [hlog]
        exact h.found_after hc rfl hstore hj hw
  | crash k v n =>
    obtain ⟨_, hlog, _⟩ := h.attached.set k v (some (n, stopped))
    obtain ⟨hattached, hsame⟩ := reopen_spec (s.db.set k v (some (n, stopped))).2
    refine ⟨hattached, fun j w hw => ?_⟩
    change Function.update s.acknowledged k none j = some w at hw
    show (replay (log (reopen _))).lookup j = some w
    by_cases hj : j = k
    · subst hj
      rw [Function.update_self] at hw
      cases hw
    · rw [Function.update_of_ne hj] at hw
      rw [hsame, hlog]
      exact h.found_after hc rfl (hs (k, v) rfl) hj hw
  | restart =>
    obtain ⟨hattached, hsame⟩ := reopen_spec s.db
    refine ⟨hattached, fun j w hw => ?_⟩
    show (replay (log (reopen s.db))).lookup j = some w
    rw [hsame]
    exact h.found j w hw

theorem Readable.kept {s : Journal} (h : Readable s) : Kept s := by
  intro k v hk
  obtain ⟨db, hboot, _, _, _, hmap⟩ := boot_spec s.db.fs
  refine ⟨db, hboot, ?_⟩
  rw [Engine.get, hmap]
  exact h.found k v hk

theorem getLast_encode {cs : Text} {bs : Bytes} (h : encode cs = bs ++ [0x0D]) :
    cs.getLast? = some '\r' := by
  induction cs using List.reverseRecOn with
  | nil => simp at h
  | append_singleton cs c _ =>
    have hsplit : encode (cs ++ [c]) = encode cs ++ String.utf8EncodeChar c := by simp
    have hlast := congrArg List.getLast? (hsplit.symm.trans h)
    rw [List.getLast?_append_of_ne_nil _ String.utf8EncodeChar_ne_nil,
      List.getLast?_concat] at hlast
    have hmem := List.mem_of_getLast? hlast
    have hc : c.toNat = '\r'.toNat := mem_encodeChar_ascii (by decide) hmem
    rw [List.getLast?_concat, Char.toNat_inj.mp hc]

theorem line_of_fragment {fragment : Bytes} {k v : Text} (hs : Storable (k, v))
    (hne : fragment ≠ []) {cs : Text} (hcs : fragment ++ record (k, v) = encode cs) :
    stripTerminator cs ≠ body (k, v) := by
  intro hline
  have hlength : 0 < fragment.length := List.length_pos_of_ne_nil hne
  rw [record_eq, ← List.append_assoc] at hcs
  rcases stripTerminator_cases cs with h | h | h
  · rw [hline] at h
    rw [h] at hcs
    have := congrArg List.length hcs
    simp only [List.length_append, List.length_singleton] at this
    omega
  · rw [h, hline, encode_append] at hcs
    have := congrArg List.length hcs
    simp only [List.length_append] at this
    have hone : (encode ['\n']).length = 1 := rfl
    simp only [List.length_singleton, hone] at this
    omega
  · rw [h, hline, encode_append] at hcs
    have hsame : fragment ++ encode (body (k, v)) = encode (body (k, v) ++ ['\r']) :=
      List.append_cancel_right hcs
    rw [encode_append] at hsame
    have hbody : encode (body (k, v)) ≠ [] := by
      intro hnil
      have := (mem_encode_ascii (c := ',') (by decide) (body (k, v))).mpr (by simp [body])
      rw [hnil] at this
      cases this
    have hlast := congrArg List.getLast? hsame
    rw [List.getLast?_append_of_ne_nil _ hbody] at hlast
    have hreturn : (encode (body (k, v))).getLast? = some 0x0D := by
      rw [hlast]
      exact List.getLast?_concat
    obtain ⟨bs, hbs⟩ := List.getLast?_eq_some_iff.mp hreturn
    exact body_getLast hs.value_return (getLast_encode hbs)

/-- A set whose record is appended to a fragment is lost, whatever it returns. -/
theorem lost_after_fragment {data fragment : Bytes} (hd : Closed 0x0A data)
    (hf : 0x0A ∉ fragment) (hne : fragment ≠ []) {k v : Text} (hs : Storable (k, v))
    (h : (replay (data ++ (fragment ++ record (k, v)))).lookup k = some v) :
    (replay data).lookup k = some v := by
  have hopen : 0x0A ∉ fragment ++ encode (body (k, v)) := by
    simp [hf, (newline_mem_encode _).not.mpr (body_newline hs)]
  have hlines : lines (fragment ++ record (k, v)) = [readLine (fragment ++ record (k, v))] := by
    rw [record_eq, ← List.append_assoc, lines, pieces_terminated hopen, List.map_singleton]
  rw [replay_append hd, hlines, List.foldl_cons, List.foldl_nil, readLine] at h
  cases hdecode : decode (fragment ++ record (k, v)) with
  | none =>
    rw [hdecode] at h
    exact h
  | some cs =>
    rw [hdecode, Option.map_some, replayLine] at h
    cases hsplit : splitOnce ',' (stripTerminator cs) with
    | none =>
      rw [hsplit] at h
      exact h
    | some pair =>
      obtain ⟨j, w⟩ := pair
      rw [hsplit] at h
      change (write (replay data) (j, w)).lookup k = some v at h
      rw [lookup_write] at h
      by_cases hj : k = j
      · rw [if_pos hj] at h
        cases h
        subst hj
        exact absurd (eq_of_splitOnce hsplit)
          (line_of_fragment hs hne (decode_eq_some_iff.mp hdecode))
      · rw [if_neg hj] at h
        exact h

theorem Attached.set_on_fragment {s : Journal} (h : Attached s.db) {whole fragment : Bytes}
    (hlog : log s.db = whole ++ fragment) (hwhole : Closed 0x0A whole) (hf : 0x0A ∉ fragment)
    (hne : fragment ≠ []) {k v : Text} (hs : Storable (k, v))
    (hkept : Kept (next s (.set k v none))) : (replay whole).lookup k = some v := by
  obtain ⟨_, hwritten, _⟩ := h.set k v none
  obtain ⟨db, hboot, hget⟩ := hkept k v (Function.update_self _ _ _)
  obtain ⟨db', hboot', _, _, _, hmap⟩ := boot_spec (s.db.set k v none).2.fs
  have hdb : db' = db := Option.some.inj (hboot'.symm.trans hboot)
  subst hdb
  have hread : (s.db.set k v none).2.fs.read DB_PATH = whole ++ (fragment ++ record (k, v)) := by
    rw [← List.append_assoc, ← hlog]
    exact hwritten
  rw [Engine.get, hmap, hread] at hget
  exact lost_after_fragment hwhole hf hne hs hget

def started (db : Db) : Journal := ⟨db, fun _ => none⟩

/-- While no record is appended to a part of another one, the engine keeps what it has
acknowledged. A set that does append to one is lost, unless the lines before held its pair. -/
theorem acknowledged_sets_kept {fs : FileSystem} {db₀ : Db} (hboot : boot fs = some db₀)
    (es : List Event) (hs : ∀ r ∈ es.filterMap Event.pair, Storable r)
    (hc : StepsMeet next OnWholeLines (started db₀) es) :
    let s := run next (started db₀) es
    Kept s ∧
      ∀ whole fragment, log s.db = whole ++ fragment → Closed 0x0A whole → 0x0A ∉ fragment →
        fragment ≠ [] → ∀ k v, Storable (k, v) → Kept (next s (.set k v none)) →
          (replay whole).lookup k = some v := by
  have hstart : Readable (started db₀) := by
    obtain ⟨db, hdb, hdir, happend, _, _⟩ := boot_spec fs
    rw [hboot, Option.some.injEq] at hdb
    subst hdb
    exact ⟨⟨hdir, happend⟩, by simp [started]⟩
  have hstore : ∀ e ∈ es, ∀ r ∈ e.pair, Storable r := fun e he r hr =>
    hs r (List.mem_filterMap.mpr ⟨e, he, hr⟩)
  have hstep : ∀ s e, Readable s → (OnWholeLines s e ∧ ∀ r ∈ e.pair, Storable r) →
      Readable (next s e) := fun _ _ h hmeets => readable_next h hmeets.2 hmeets.1
  have hend : Readable (run next (started db₀) es) :=
    run_preserves_of_steps hstep hstart (hc.and_all hstore)
  refine ⟨hend.kept, ?_⟩
  intro whole fragment hlog hwhole hf hne k v hpair hkept
  exact hend.attached.set_on_fragment hlog hwhole hf hne hpair hkept

theorem acknowledged_sets_kept_torn_value :
    ∃ db₀, boot emptyFileSystem = some db₀ ∧
      Kept (run next (started db₀) [.set ['a'] ['1'] none, .set ['b'] ['2'] (some (0, ⟨['x']⟩)),
        .crash ['c'] ['3', '4'] 3, .restart]) := by
  have hboot : boot emptyFileSystem = some _ := rfl
  exact ⟨_, hboot, (acknowledged_sets_kept hboot _ (by decide) (by decide)).1⟩

/-- The record of `j` ends the line that the torn record of `k` began. -/
theorem acknowledged_set_lost :
    ∃ db₀, boot emptyFileSystem = some db₀ ∧
      let s := run next (started db₀) [.crash ['k'] ['v', 'a', 'l'] 4, .set ['j'] ['w'] none]
      s.acknowledged ['j'] = some ['w'] ∧ ¬ Kept s := by
  refine ⟨_, rfl, rfl, ?_⟩
  intro hkept
  obtain ⟨db, hboot, hget⟩ := hkept ['j'] ['w'] rfl
  cases hboot
  revert hget
  decide

end ChronosTornSets

import Vanguard.ChronosStore

/-! A compaction call by call. A crash can fall between any two calls and inside each write, and
what was written to the temp file is safe from it only after the sync. -/
namespace ChronosCompaction

open Utf8Text FileSystems LastWriterMaps StateMachines ChronosEngine ChronosLogFormat ChronosStore

/-- The next call of a running `compact`, with its locals. `pending` is what is left of the
record on its way to the temp file, `rest` the entries after it. -/
inductive CompactPoint where
  | openTemp
  | write (temp : File) (pending : Bytes) (rest : List (Text × Text))
  | sync (temp : File)
  | rename
  | reopen
  | returned

structure Compaction where
  db : Db
  point : CompactPoint

def called (db : Db) : Compaction := ⟨db, .openTemp⟩

/-- No call fails. A `write` takes at least one byte, and as many more as `n` says. -/
def compactStep (t : Traversal Text Text) (s : Compaction) (n : ℕ) : Compaction :=
  let ⟨⟨fs, engine⟩, point⟩ := s
  match point with
  | .openTemp =>
    match fs.openFile TEMP_PATH tempOptions none with
    | (.error _, _) => s
    | (.ok temp, fs) => ⟨⟨fs, engine⟩, .write temp [] (t.order engine.map)⟩
  | .write temp [] [] => ⟨⟨fs, engine⟩, .sync temp⟩
  | .write temp [] (r :: rest) => ⟨⟨fs, engine⟩, .write temp (record r) rest⟩
  | .write temp (b :: bs) rest =>
    let chunk := b :: bs.take n
    ⟨⟨fs.put temp chunk, engine⟩,
      .write { temp with pos := temp.pos + chunk.length } (bs.drop n) rest⟩
  | .sync _ => ⟨⟨fs, engine⟩, .rename⟩
  | .rename =>
    match fs.rename TEMP_PATH DB_PATH none with
    | (.error _, _) => s
    | (.ok (), fs) => ⟨⟨fs, engine⟩, .reopen⟩
  | .reopen =>
    match fs.openFile DB_PATH logOptions none with
    | (.error _, _) => s
    | (.ok file, fs) => ⟨⟨fs, { engine with logFile := file }⟩, .returned⟩
  | .returned => s

def CompactPoint.unsynced : CompactPoint → Option ℕ
  | .write temp _ _ => some temp.inode
  | .sync temp => some temp.inode
  | _ => none

/-- A crash leaves the directory and all bytes, those apart that were not synced: of them
anything may be left. -/
structure CrashLeaves (s : Compaction) (after : FileSystem) : Prop where
  directory : after.directory = s.db.fs.directory
  content : ∀ i, s.point.unsynced ≠ some i → after.content i = s.db.fs.content i

/-- How far a compaction of a map with the given entries has come. Up to the rename the file at
`DB_PATH` has its old bytes, and from then on one record for each entry. -/
def Progress (log : Bytes) (entries : List (Text × Text)) (s : Compaction) : Prop :=
  let fs := s.db.fs
  match s.point with
  | .openTemp => fs.read DB_PATH = log
  | .write temp pending rest =>
    fs.read DB_PATH = log ∧ fs.directory TEMP_PATH = some temp.inode ∧
      temp.pos = (fs.content temp.inode).length ∧
      fs.content temp.inode ++ pending ++ encodeLog rest = encodeLog entries
  | .sync temp =>
    fs.read DB_PATH = log ∧ fs.directory TEMP_PATH = some temp.inode ∧
      fs.content temp.inode = encodeLog entries
  | .rename => fs.read DB_PATH = log ∧ fs.directory TEMP_PATH ≠ none ∧
      fs.read TEMP_PATH = encodeLog entries
  | .reopen => fs.read DB_PATH = encodeLog entries
  | .returned => fs.read DB_PATH = encodeLog entries

variable {log : Bytes} {entries : List (Text × Text)} {t : Traversal Text Text} {s : Compaction}

theorem other_inode {fs : FileSystem} {i : ℕ} (h : fs.directory TEMP_PATH = some i) :
    fs.directory DB_PATH ≠ some i := by
  intro hd
  exact absurd (fs.single _ _ i hd h) (by decide)

theorem compactStep_engine (s : Compaction) (n : ℕ) :
    (compactStep t s n).db.engine.map = s.db.engine.map := by
  obtain ⟨⟨fs, engine⟩, point⟩ := s
  cases point with
  | openTemp =>
    simp only [compactStep]
    split <;> rfl
  | write temp pending rest =>
    cases pending with
    | cons b bs => rfl
    | nil => cases rest <;> rfl
  | sync temp => rfl
  | rename =>
    simp only [compactStep]
    split <;> rfl
  | reopen =>
    simp only [compactStep]
    split <;> rfl
  | returned => rfl

theorem progress_step (h : Progress log entries s) (he : t.order s.db.engine.map = entries)
    (n : ℕ) : Progress log entries (compactStep t s n) := by
  obtain ⟨⟨fs, engine⟩, point⟩ := s
  cases point with
  | openTemp =>
    obtain ⟨i, fs', hopen, hdir, hcontent, hpaths, hothers⟩ :=
      openFile_create fs TEMP_PATH tempOptions rfl
    have hempty : fs'.content i = [] := hcontent
    have hlog : fs'.read DB_PATH = fs.read DB_PATH :=
      read_congr (hpaths _ (by decide)) fun j hj => hothers DB_PATH j (by decide) hj
    simp only [compactStep, hopen]
    refine ⟨hlog.trans h, hdir, ?_, ?_⟩
    · rw [hempty]
      rfl
    · rw [hempty, ← he]
      rfl
  | write temp pending rest =>
    obtain ⟨hlog, hdir, hpos, hbytes⟩ := h
    cases pending with
    | cons b bs =>
      have hput : (fs.put temp (b :: bs.take n)).content temp.inode =
          fs.content temp.inode ++ (b :: bs.take n) := content_put_end hpos
      refine ⟨(read_put_of_ne (other_inode hdir)).trans hlog, hdir, ?_, ?_⟩
      · simp only [compactStep, hput, List.length_append, hpos]
      · simp only [compactStep, hput]
        rw [← hbytes]
        simp
    | nil =>
      cases rest with
      | cons r rest =>
        rw [List.append_nil] at hbytes
        exact ⟨hlog, hdir, hpos, (List.append_assoc _ _ _).trans hbytes⟩
      | nil =>
        rw [List.append_nil, encodeLog_nil, List.append_nil] at hbytes
        exact ⟨hlog, hdir, hbytes⟩
  | sync temp =>
    obtain ⟨hlog, hdir, hbytes⟩ := h
    have hnamed : fs.directory TEMP_PATH ≠ none := by
      intro hnone
      exact absurd (hdir.symm.trans hnone) (by simp)
    exact ⟨hlog, hnamed, (read_of_directory hdir).trans hbytes⟩
  | rename =>
    obtain ⟨_, hnamed, hbytes⟩ := h
    obtain ⟨i, hdir⟩ := Option.ne_none_iff_exists'.mp hnamed
    obtain ⟨fs', hrename, hdir', hcontent, _⟩ := rename_exists DB_PATH hdir
    simp only [compactStep, hrename]
    show fs'.read DB_PATH = encodeLog entries
    rw [read_of_directory hdir', hcontent, ← read_of_directory hdir]
    exact hbytes
  | reopen =>
    obtain ⟨i, fs', hopen, hdir, hcontent, _, _⟩ := openFile_create fs DB_PATH logOptions rfl
    simp only [compactStep, hopen]
    show fs'.read DB_PATH = encodeLog entries
    rw [read_of_directory hdir]
    exact hcontent.trans h
  | returned => exact h

theorem read_after_crash (h : Progress log entries s) {after : FileSystem}
    (hcrash : CrashLeaves s after) : after.read DB_PATH = s.db.fs.read DB_PATH := by
  apply read_congr (congrFun hcrash.directory DB_PATH)
  intro i hi
  apply hcrash.content
  intro hunsynced
  obtain ⟨⟨fs, engine⟩, point⟩ := s
  cases point with
  | write temp pending rest =>
    cases hunsynced
    exact other_inode h.2.1 hi
  | sync temp =>
    cases hunsynced
    exact other_inode h.2.1 hi
  | _ => cases hunsynced

theorem progress_read (h : Progress log entries s) :
    s.db.fs.read DB_PATH = log ∨ s.db.fs.read DB_PATH = encodeLog entries := by
  obtain ⟨⟨fs, engine⟩, point⟩ := s
  cases point with
  | openTemp => exact Or.inl h
  | write temp pending rest => exact Or.inl h.1
  | sync temp => exact Or.inl h.1
  | rename => exact Or.inl h.1
  | reopen => exact Or.inr h
  | returned => exact Or.inr h

def reopened (db : Db) : Db :=
  match db.fs.openFile DB_PATH logOptions none with
  | (.error _, fs) => { db with fs := fs }
  | (.ok file, fs) => ⟨fs, { db.engine with logFile := file }⟩

def renamed (db : Db) : Db :=
  match db.fs.rename TEMP_PATH DB_PATH none with
  | (.error _, fs) => { db with fs := fs }
  | (.ok (), fs) => reopened ⟨fs, db.engine⟩

def writeRest (fs : FileSystem) (f : File) : List (Text × Text) → FileSystem
  | [] => fs
  | r :: rs => writeRest (fs.put f (record r)) { f with pos := f.pos + (record r).length } rs

def remaining (t : Traversal Text Text) (s : Compaction) : Db :=
  match s.point with
  | .openTemp => (s.db.compact t none).2
  | .write temp pending rest =>
    renamed ⟨writeRest (s.db.fs.put temp pending) { temp with pos := temp.pos + pending.length }
      rest, s.db.engine⟩
  | .sync _ => renamed s.db
  | .rename => renamed s.db
  | .reopen => reopened s.db
  | .returned => s.db

theorem writeEntries_none (fs : FileSystem) (f : File) (i : ℕ) (rs : List (Text × Text)) :
    writeEntries fs f none i rs = (.ok (), writeRest fs f rs) := by
  induction rs generalizing fs f i with
  | nil => rfl
  | cons r rs ih =>
    simp only [writeEntries, CompactFailure.atWrite, writeAll_none]
    exact ih _ _ _

theorem compact_remaining (db : Db) (t : Traversal Text Text) {temp : File} {fs : FileSystem}
    (hopen : db.fs.openFile TEMP_PATH tempOptions none = (.ok temp, fs)) :
    (db.compact t none).2 = renamed ⟨writeRest fs temp (t.order db.engine.map), db.engine⟩ := by
  simp only [Db.compact, Engine.compact, CompactFailure.atOpen, hopen, writeEntries_none,
    CompactFailure.atSync, FileSystem.syncAll, CompactFailure.atRename, renamed,
    CompactFailure.atReopen]
  rcases (writeRest fs temp (t.order db.engine.map)).rename TEMP_PATH DB_PATH none with
    ⟨_ | _, fs'⟩
  · rfl
  · simp only [reopened]
    rcases fs'.openFile DB_PATH logOptions none with ⟨_ | _, fs''⟩
    · rfl
    · rfl

theorem remaining_step (h : Progress log entries s) (n : ℕ) :
    remaining t (compactStep t s n) = remaining t s := by
  obtain ⟨⟨fs, engine⟩, point⟩ := s
  cases point with
  | openTemp =>
    obtain ⟨i, fs', hopen, _⟩ := openFile_create fs TEMP_PATH tempOptions rfl
    simp only [compactStep, hopen, remaining, compact_remaining ⟨fs, engine⟩ t hopen, put_nil]
    rfl
  | write temp pending rest =>
    obtain ⟨_, _, hpos, _⟩ := h
    cases pending with
    | cons b bs =>
      have hall : b :: bs.take n ++ bs.drop n = b :: bs := by
        rw [List.cons_append, List.take_append_drop]
      have hlength := congrArg List.length hall
      rw [List.length_append] at hlength
      simp only [compactStep, remaining]
      rw [put_put (Or.inr hpos), hall, Nat.add_assoc, hlength]
    | nil =>
      cases rest with
      | cons r rest =>
        simp only [compactStep, remaining, writeRest, put_nil]
        rfl
      | nil =>
        simp only [compactStep, remaining, writeRest, put_nil]
  | sync temp => rfl
  | rename =>
    obtain ⟨_, hnamed, _⟩ := h
    obtain ⟨i, hdir⟩ := Option.ne_none_iff_exists'.mp hnamed
    obtain ⟨fs', hrename, _⟩ := rename_exists DB_PATH hdir
    simp only [compactStep, hrename, remaining, renamed]
  | reopen =>
    obtain ⟨i, fs', hopen, _⟩ := openFile_create fs DB_PATH logOptions rfl
    simp only [compactStep, hopen, remaining, reopened]
  | returned => rfl

theorem run_progress (db : Db) (t : Traversal Text Text) (steps : List ℕ) :
    let s := run (compactStep t) (called db) steps
    Progress (db.fs.read DB_PATH) (t.order db.engine.map) s ∧
      s.db.engine.map = db.engine.map ∧ remaining t s = (db.compact t none).2 := by
  refine run_preserves (P := fun s => Progress (db.fs.read DB_PATH) (t.order db.engine.map) s ∧
    s.db.engine.map = db.engine.map ∧ remaining t s = (db.compact t none).2) ?_ ?_ steps
  · rintro s n ⟨hprogress, hmap, hrest⟩
    have horder : t.order s.db.engine.map = t.order db.engine.map := by rw [hmap]
    exact ⟨progress_step hprogress horder n, (compactStep_engine s n).trans hmap,
      (remaining_step hprogress n).trans hrest⟩
  · exact ⟨rfl, rfl, rfl⟩

theorem compaction_returned (db : Db) (t : Traversal Text Text) {steps : List ℕ}
    (h : (run (compactStep t) (called db) steps).point = .returned) :
    (run (compactStep t) (called db) steps).db = (db.compact t none).2 := by
  obtain ⟨_, _, hrest⟩ := run_progress db t steps
  rw [remaining, h] at hrest
  exact hrest

theorem write_flushes (engine : Engine) (rest : List (Text × Text)) (fs : FileSystem)
    (temp : File) (pending : Bytes) : ∃ steps fs' temp',
      run (compactStep t) ⟨⟨fs, engine⟩, .write temp pending rest⟩ steps =
        ⟨⟨fs', engine⟩, .write temp' [] rest⟩ := by
  cases pending with
  | nil => exact ⟨[], fs, temp, rfl⟩
  | cons b bs =>
    refine ⟨[bs.length], fs.put temp (b :: bs.take bs.length),
      { temp with pos := temp.pos + (b :: bs.take bs.length).length }, ?_⟩
    rw [run_cons, run_nil, compactStep, List.drop_length]

theorem writes_end (engine : Engine) (rest : List (Text × Text)) (fs : FileSystem) (temp : File)
    (pending : Bytes) : ∃ steps fs' temp',
      run (compactStep t) ⟨⟨fs, engine⟩, .write temp pending rest⟩ steps =
        ⟨⟨fs', engine⟩, .sync temp'⟩ := by
  induction rest generalizing fs temp pending with
  | nil =>
    obtain ⟨steps, fs', temp', hrun⟩ := write_flushes engine [] fs temp pending
    refine ⟨steps ++ [0], fs', temp', ?_⟩
    rw [run_append, hrun]
    rfl
  | cons r rest ih =>
    obtain ⟨steps, fs₁, temp₁, hrun⟩ := write_flushes engine (r :: rest) fs temp pending
    obtain ⟨more, fs', temp', hmore⟩ := ih fs₁ temp₁ (record r)
    refine ⟨steps ++ 0 :: more, fs', temp', ?_⟩
    rw [run_append, hrun, run_cons]
    exact hmore

/-- A compaction returns when enough of its calls are made. -/
theorem compaction_returns (db : Db) (t : Traversal Text Text) :
    ∃ steps, (run (compactStep t) (called db) steps).point = .returned := by
  obtain ⟨fs, engine⟩ := db
  obtain ⟨i, fs₁, hopen, _⟩ := openFile_create fs TEMP_PATH tempOptions rfl
  have hfirst : compactStep t (called ⟨fs, engine⟩) 0 =
      ⟨⟨fs₁, engine⟩, .write ⟨i, false, 0⟩ [] (t.order engine.map)⟩ := by
    simp only [compactStep, called, hopen]
    rfl
  obtain ⟨steps, fs₂, temp, hwrites⟩ :=
    writes_end (t := t) engine (t.order engine.map) fs₁ ⟨i, false, 0⟩ []
  have hsynced : run (compactStep t) (called ⟨fs, engine⟩) (0 :: steps ++ [0]) =
      ⟨⟨fs₂, engine⟩, .rename⟩ := by
    rw [List.cons_append, run_cons, run_append, hfirst, hwrites]
    rfl
  obtain ⟨hprogress, _⟩ := run_progress ⟨fs, engine⟩ t (0 :: steps ++ [0])
  rw [hsynced] at hprogress
  obtain ⟨j, hdir⟩ := Option.ne_none_iff_exists'.mp hprogress.2.1
  obtain ⟨fs₃, hrename, _⟩ := rename_exists DB_PATH hdir
  obtain ⟨k, fs₄, hreopen, _⟩ := openFile_create fs₃ DB_PATH logOptions rfl
  refine ⟨(0 :: steps ++ [0]) ++ [0, 0], ?_⟩
  rw [run_append, hsynced]
  simp only [run_cons, run_nil, compactStep, hrename, hreopen]

def AllStorable (m : HashMap) : Prop := ∀ k v, m.lookup k = some v → Storable (k, v)

theorem allStorable_of_carries {db : Db} {rs : List (Text × Text)} (h : Carries db rs) :
    AllStorable db.engine.map := by
  intro k v hl
  rw [h.map] at hl
  exact h.storable _ (mem_of_lookup_writeAll hl)

theorem allStorable_insert {m : HashMap} (h : AllStorable m) {k v : Text} (hs : Storable (k, v)) :
    AllStorable (m.insert k v) := by
  intro j w hl
  change (write m (k, v)).lookup j = some w at hl
  rw [lookup_write] at hl
  split at hl
  · next hj =>
    cases hl
    rw [hj]
    exact hs
  · exact h j w hl

theorem replay_order {m : HashMap} (hm : AllStorable m) (t : Traversal Text Text) :
    replay (encodeLog (t.order m)) = m := by
  have henum := t.enumerates m
  rw [replay_encodeLog, henum.writeAll_empty]
  rintro ⟨k, v⟩ hr
  exact hm k v ((henum.complete k v).mp hr)

/-- Wherever a crash falls, the next engine has the map that was to be compacted. -/
theorem compaction_crash_atomic (db : Db) (hreplay : replay (db.fs.read DB_PATH) = db.engine.map)
    (hm : AllStorable db.engine.map) (t : Traversal Text Text) (steps : List ℕ)
    (after : FileSystem)
    (hcrash : CrashLeaves (run (compactStep t) (called db) steps) after) :
    ∃ db', boot after = some db' ∧ db'.engine.map = db.engine.map := by
  obtain ⟨hprogress, _, _⟩ := run_progress db t steps
  obtain ⟨db', hboot, _, _, _, hmap⟩ := boot_spec after
  refine ⟨db', hboot, ?_⟩
  rw [hmap, read_after_crash hprogress hcrash]
  rcases progress_read hprogress with hlog | hlog
  · rw [hlog, hreplay]
  · rw [hlog, replay_order hm t]

theorem compaction_crash_atomic_first_write :
    ∃ db₀, boot emptyFileSystem = some db₀ ∧
      let db := (db₀.set ['k'] ['v'] none).2
      let s := run (compactStep someTraversal) (called db) [0, 0, 1]
      CrashLeaves s s.db.fs ∧ ∃ db', boot s.db.fs = some db' ∧ db'.engine.map = db.engine.map := by
  have hlog : emptyFileSystem.read DB_PATH = encodeLog [] := rfl
  obtain ⟨db₀, hboot, hempty⟩ := boot_carries hlog (by simp)
  have hcarries := (hempty.set (k := ['k']) (v := ['v']) (by decide)).2
  have hcrash : ∀ s, CrashLeaves s s.db.fs := fun s => ⟨rfl, fun _ _ => rfl⟩
  refine ⟨db₀, hboot, hcrash _, ?_⟩
  exact compaction_crash_atomic _ hcarries.replay_log (allStorable_of_carries hcarries)
    someTraversal [0, 0, 1] _ (hcrash _)

end ChronosCompaction

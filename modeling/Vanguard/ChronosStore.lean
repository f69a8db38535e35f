import Vanguard.StateMachines
import Vanguard.ChronosLogFormat

/-! The engine together with its files. While every pair set is storable, the log at `DB_PATH`
is a list of records whose writes give the map in memory, through compactions and restarts. -/
namespace ChronosStore

open Utf8Text FileSystems LastWriterMaps TerminatedLines StateMachines ChronosEngine
open ChronosLogFormat

structure Db where
  fs : FileSystem
  engine : Engine

/-- `Engine::new(DB_PATH)` on a healthy disk. -/
def boot (fs : FileSystem) : Option Db :=
  match Engine.new fs DB_PATH none with
  | (.ok engine, fs) => some ⟨fs, engine⟩
  | (.error _, _) => none

def Db.set (db : Db) (key value : Text) (failure : Option (ℕ × IoError)) :
    Except IoError Unit × Db :=
  let (result, engine, fs) := db.engine.set db.fs key value failure
  (result, ⟨fs, engine⟩)

def Db.compact (db : Db) (t : Traversal Text Text) (failure : Option CompactFailure) :
    Except IoError Unit × Db :=
  let (result, engine, fs) := db.engine.compact db.fs t failure
  (result, ⟨fs, engine⟩)

/-- The log holds the records `rs` and the map is what they write. -/
structure Carries (db : Db) (rs : List (Text × Text)) : Prop where
  handle : db.fs.directory DB_PATH = some db.engine.logFile.inode
  appending : db.engine.logFile.append = true
  content : db.fs.content db.engine.logFile.inode = encodeLog rs
  storable : ∀ r ∈ rs, Storable r
  map : db.engine.map = writeAll ∅ rs

variable {db : Db} {rs : List (Text × Text)}

theorem Carries.read (h : Carries db rs) : db.fs.read DB_PATH = encodeLog rs := by
  rw [read_of_directory h.handle, h.content]

theorem Carries.replay_log (h : Carries db rs) : replay (db.fs.read DB_PATH) = db.engine.map := by
  rw [h.read, replay_encodeLog h.storable, h.map]

theorem new_spec (fs : FileSystem) (path : String) :
    ∃ e fs', Engine.new fs path none = (.ok e, fs') ∧
      fs'.directory path = some e.logFile.inode ∧ e.logFile.append = true ∧
      e.map = replay (fs.read path) ∧ (∀ q, fs'.read q = fs.read q) ∧
      ∀ q, q ≠ path → fs'.directory q = fs.directory q := by
  obtain ⟨j, fs', hopen, hdir, hcontent, hdirs, hcontents⟩ := openFile_create fs path logOptions rfl
  have hlog : fs'.content j = fs.read path := hcontent
  refine ⟨⟨replay (fs'.content j), ⟨j, true, 0⟩⟩, fs', ?_, hdir, rfl, ?_, ?_, hdirs⟩
  · simp only [Engine.new, hopen]
    rfl
  · rw [hlog]
  · intro q
    by_cases hq : q = path
    · rw [hq, read_of_directory hdir, hlog]
    · apply read_congr (hdirs q hq)
      intro i hi
      exact hcontents q i hq hi

theorem boot_spec (fs : FileSystem) :
    ∃ db, boot fs = some db ∧ db.fs.directory DB_PATH = some db.engine.logFile.inode ∧
      db.engine.logFile.append = true ∧
      db.fs.content db.engine.logFile.inode = fs.read DB_PATH ∧
      db.engine.map = replay (fs.read DB_PATH) := by
  obtain ⟨e, fs', hnew, hdir, happend, hmap, hread, _⟩ := new_spec fs DB_PATH
  refine ⟨⟨fs', e⟩, ?_, hdir, happend, ?_, hmap⟩
  · rw [boot, hnew]
  · rw [← read_of_directory hdir, hread]

theorem boot_carries {fs : FileSystem} (hread : fs.read DB_PATH = encodeLog rs)
    (hs : ∀ r ∈ rs, Storable r) : ∃ db, boot fs = some db ∧ Carries db rs := by
  obtain ⟨db, hboot, hdir, happend, hcontent, hmap⟩ := boot_spec fs
  refine ⟨db, hboot, hdir, happend, hcontent.trans hread, hs, ?_⟩
  rw [hmap, hread, replay_encodeLog hs]

theorem Carries.reboot (h : Carries db rs) : ∃ db', boot db.fs = some db' ∧ Carries db' rs :=
  boot_carries h.read h.storable

theorem Carries.set (h : Carries db rs) {k v : Text} (hs : Storable (k, v)) :
    (db.set k v none).1 = .ok () ∧ Carries (db.set k v none).2 (rs ++ [(k, v)]) := by
  constructor
  · rfl
  constructor
  · exact h.handle
  · exact h.appending
  · simp only [Db.set, Engine.set, writeAll_none]
    rw [content_put_append h.appending, h.content, encodeLog_append, encodeLog_cons,
      encodeLog_nil, List.append_nil]
  · intro r hr
    rcases List.mem_append.mp hr with hr | hr
    · exact h.storable r hr
    · rw [List.mem_singleton.mp hr]
      exact hs
  · rw [writeAll_append, ← h.map]
    rfl

theorem mem_of_lookup_writeAll {k v : Text} (hl : (writeAll (∅ : HashMap) rs).lookup k = some v) :
    (k, v) ∈ rs := by
  induction rs using List.reverseRecOn with
  | nil => cases hl
  | append_singleton rs r ih =>
    rw [writeAll_append, writeAll_cons, writeAll_nil, lookup_write] at hl
    split at hl
    · next he =>
      cases hl
      simp [he]
    · exact List.mem_append_left _ (ih hl)

theorem writeEntries_spec (fs : FileSystem) (f : File) (i : ℕ) (rs : List (Text × Text))
    (hpos : f.pos = (fs.content f.inode).length) :
    ∃ fs', writeEntries fs f none i rs = (.ok (), fs') ∧ fs'.directory = fs.directory ∧
      fs'.content f.inode = fs.content f.inode ++ encodeLog rs ∧
      ∀ j, j ≠ f.inode → fs'.content j = fs.content j := by
  induction rs generalizing fs f i with
  | nil => exact ⟨fs, rfl, rfl, by simp, fun _ _ => rfl⟩
  | cons r rs ih =>
    have hput : (fs.put f (record r)).content f.inode = fs.content f.inode ++ record r :=
      content_put_end hpos
    obtain ⟨fs', hrun, hdir, hown, hother⟩ := ih (fs.put f (record r))
      { f with pos := f.pos + (record r).length } (i + 1) (by simp [hput, hpos])
    refine ⟨fs', ?_, hdir, ?_, fun j hj => ?_⟩
    · simp only [writeEntries, CompactFailure.atWrite, writeAll_none]
      exact hrun
    · rw [hown, hput, List.append_assoc]
      rfl
    · rw [hother j hj, content_put_of_ne hj]

/-- A compaction without failure puts one record for each entry of the map in the log at
`DB_PATH`, and leaves every file alone which is not there. -/
theorem compact_spec (e : Engine) (fs : FileSystem) (t : Traversal Text Text) :
    ∃ j fs', e.compact fs t none = (.ok (), { e with logFile := ⟨j, true, 0⟩ }, fs') ∧
      fs'.directory DB_PATH = some j ∧ fs'.content j = encodeLog (t.order e.map) ∧
      ∀ q, q ≠ TEMP_PATH → q ≠ DB_PATH →
        fs'.read q = fs.read q ∧ fs'.directory q = fs.directory q := by
  obtain ⟨i, fs₁, hopen, hdir₁, hcontent₁, hdirs₁, hother₁⟩ :=
    openFile_create fs TEMP_PATH tempOptions rfl
  have hempty : fs₁.content i = [] := hcontent₁
  obtain ⟨fs₂, hwrite, hdir₂, hcontent₂, hother₂⟩ :=
    writeEntries_spec fs₁ ⟨i, false, 0⟩ 0 (t.order e.map) (by simp [hempty])
  have htemp : fs₂.directory TEMP_PATH = some i := by rw [hdir₂, hdir₁]
  obtain ⟨fs₃, hrename, hdir₃, hcontent₃, hdirs₃⟩ := rename_exists DB_PATH htemp
  have hlog : fs₃.content i = encodeLog (t.order e.map) := by
    rw [hcontent₃, hcontent₂, hempty, List.nil_append]
  have hothers : ∀ q, q ≠ TEMP_PATH → q ≠ DB_PATH →
      fs₃.read q = fs.read q ∧ fs₃.directory q = fs.directory q := by
    intro q hq hdb
    have hdir : fs₃.directory q = fs.directory q := by rw [hdirs₃ q hq hdb, hdir₂, hdirs₁ q hq]
    refine ⟨read_congr hdir ?_, hdir⟩
    intro k hk
    have hne : k ≠ i := by
      intro he
      rw [he, ← hdirs₁ q hq] at hk
      exact hq (fs₁.single q TEMP_PATH i hk hdir₁)
    rw [hcontent₃, hother₂ k hne, hother₁ q k hq hk]
  refine ⟨i, fs₃, ?_, hdir₃, hlog, hothers⟩
  have hreopen : fs₃.openFile DB_PATH logOptions none = (.ok ⟨i, true, 0⟩, fs₃) := by
    simp [FileSystem.openFile, hdir₃, logOptions]
  simp only [Engine.compact, CompactFailure.atOpen, hopen]
  simp only [tempOptions, hwrite, CompactFailure.atSync, FileSystem.syncAll,
    CompactFailure.atRename, hrename, CompactFailure.atReopen, hreopen]

theorem compact_map (db : Db) (t : Traversal Text Text) (failure : Option CompactFailure) :
    (db.compact t failure).2.engine.map = db.engine.map := by
  simp only [Db.compact, Engine.compact]
  repeat' split
  all_goals rfl

theorem Carries.compact (h : Carries db rs) (t : Traversal Text Text) :
    (db.compact t none).1 = .ok () ∧ (db.compact t none).2.engine.map = db.engine.map ∧
      Carries (db.compact t none).2 (t.order db.engine.map) := by
  obtain ⟨j, fs', hrun, hdir, hcontent, _⟩ := compact_spec db.engine db.fs t
  have henum := t.enumerates db.engine.map
  simp only [Db.compact, hrun]
  refine ⟨trivial, trivial, hdir, rfl, hcontent, ?_, henum.writeAll_empty.symm⟩
  rintro ⟨k, v⟩ hr
  have hl := (henum.complete k v).mp hr
  rw [h.map] at hl
  exact h.storable _ (mem_of_lookup_writeAll hl)

inductive Op where
  | set (key value : Text)
  | compact (t : Traversal Text Text)
  | restart

def Op.sets : Op → List (Text × Text)
  | .set k v => [(k, v)]
  | _ => []

/-- Nothing fails. A restart drops the engine and opens the file again. -/
def step (db : Db) : Op → Db
  | .set k v => (db.set k v none).2
  | .compact t => (db.compact t none).2
  | .restart => (boot db.fs).getD db

theorem step_carries {db : Db} {rs : List (Text × Text)} (h : Carries db rs) (op : Op)
    (hs : ∀ r ∈ op.sets, Storable r) :
    ∃ ts, Carries (step db op) ts ∧ writeAll ∅ ts = writeAll (writeAll ∅ rs) op.sets := by
  cases op with
  | set k v =>
    have hset := (h.set (hs (k, v) (List.mem_singleton_self _))).2
    exact ⟨_, hset, writeAll_append _ _ _⟩
  | compact t =>
    obtain ⟨_, hmap, hcarries⟩ := h.compact t
    refine ⟨_, hcarries, ?_⟩
    rw [(t.enumerates _).writeAll_empty, h.map]
    rfl
  | restart =>
    obtain ⟨db', hboot, hcarries⟩ := h.reboot
    refine ⟨rs, ?_, rfl⟩
    rw [step, hboot]
    exact hcarries

theorem run_carries {db : Db} {rs : List (Text × Text)} (h : Carries db rs) (ops : List Op)
    (hs : ∀ r ∈ ops.flatMap Op.sets, Storable r) :
    ∃ ts, Carries (run step db ops) ts ∧
      writeAll ∅ ts = writeAll (writeAll ∅ rs) (ops.flatMap Op.sets) := by
  induction ops generalizing db rs with
  | nil => exact ⟨rs, h, rfl⟩
  | cons op ops ih =>
    simp only [List.flatMap_cons, List.mem_append] at hs
    obtain ⟨ts, hts, hw⟩ := step_carries h op fun r hr => hs r (Or.inl hr)
    obtain ⟨us, hus, hw'⟩ := ih hts fun r hr => hs r (Or.inr hr)
    refine ⟨us, hus, ?_⟩
    rw [hw', hw, List.flatMap_cons, writeAll_append]

/-- Log, map and history agree after every step. In particular the append handle is on the
file that the last rename put at `DB_PATH`. -/
theorem log_memory_agreement (fs : FileSystem) (hempty : fs.read DB_PATH = [])
    (ops : List Op) (hs : ∀ r ∈ ops.flatMap Op.sets, Storable r) :
    ∃ db₀, boot fs = some db₀ ∧
      let db := run step db₀ ops
      replay (db.fs.read DB_PATH) = db.engine.map ∧
      db.engine.map = writeAll ∅ (ops.flatMap Op.sets) ∧
      db.fs.directory DB_PATH = some db.engine.logFile.inode := by
  have hlog : fs.read DB_PATH = encodeLog [] := hempty
  obtain ⟨db₀, hboot, hcarries⟩ := boot_carries hlog (by simp)
  obtain ⟨ts, hts, hw⟩ := run_carries hcarries ops hs
  refine ⟨db₀, hboot, hts.replay_log, ?_, hts.handle⟩
  rw [hts.map, hw]
  rfl

theorem log_memory_agreement_set_compact_set_restart :
    ∃ db₀, boot emptyFileSystem = some db₀ ∧
      let db := run step db₀ [.set ['k'] ['a', ',', '\r', 'b'], .compact someTraversal,
        .set ['k'] ['c'], .restart]
      replay (db.fs.read DB_PATH) = db.engine.map ∧
      db.engine.map = writeAll ∅ [(['k'], ['a', ',', '\r', 'b']), (['k'], ['c'])] ∧
      db.fs.directory DB_PATH = some db.engine.logFile.inode :=
  log_memory_agreement emptyFileSystem rfl _ (by
    intro r hr
    simp only [Op.sets, List.flatMap_cons, List.flatMap_nil, List.append_nil,
      List.singleton_append, List.nil_append, List.mem_cons, List.not_mem_nil, or_false] at hr
    rcases hr with rfl | rfl <;> decide)

end ChronosStore

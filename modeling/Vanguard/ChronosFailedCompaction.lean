import Vanguard.ChronosCompaction
import Vanguard.ChronosTornSets

/-! Compactions that fail. Up to the rename nothing has changed but the temp file. When only the
last call fails, `DB_PATH` already names the new file and the engine still appends to the old
one, which no path names any more. -/
namespace ChronosFailedCompaction

open Utf8Text FileSystems LastWriterMaps TerminatedLines StateMachines ChronosEngine
open ChronosLogFormat ChronosStore ChronosCompaction ChronosTornLog ChronosTornSets

/-- An engine whose file at `DB_PATH` replays to its map, with a handle that was opened to
append and is not on the temp file. -/
structure Faithful (db : Db) : Prop where
  appending : db.engine.logFile.append = true
  allocated : db.engine.logFile.inode < db.fs.fresh
  elsewhere : db.fs.directory TEMP_PATH ≠ some db.engine.logFile.inode
  replays : replay (db.fs.read DB_PATH) = db.engine.map
  storable : AllStorable db.engine.map

/-- The call that is to fail is made, and fails before its last byte if it is a write. -/
def Occurs (db : Db) (t : Traversal Text Text) : CompactFailure → Prop
  | .write i n _ => ∃ r, (t.order db.engine.map)[i]? = some r ∧ n < (record r).length
  | _ => True

structure OnlyTemp (fs fs' : FileSystem) : Prop where
  directory : ∀ q, q ≠ TEMP_PATH → fs'.directory q = fs.directory q
  content : ∀ q i, q ≠ TEMP_PATH → fs.directory q = some i → fs'.content i = fs.content i

/-- What a call of `compact` comes to. -/
inductive Outcome (db : Db) (t : Traversal Text Text) (failure : Option CompactFailure) :
    Except IoError Unit × Db → Prop where
  | compacted (i : ℕ) (fs : FileSystem) (hnone : ∀ f, failure = some f → ¬ Occurs db t f)
      (hdir : fs.directory DB_PATH = some i)
      (hbytes : fs.content i = encodeLog (t.order db.engine.map)) :
      Outcome db t failure (.ok (), ⟨fs, { db.engine with logFile := ⟨i, true, 0⟩ }⟩)
  | stopped (err : IoError) (fs : FileSystem) (hfailure : ∀ err, failure ≠ some (.reopen err))
      (hfs : OnlyTemp db.fs fs) : Outcome db t failure (.error err, ⟨fs, db.engine⟩)
  | unattached (err : IoError) (i : ℕ) (fs : FileSystem) (hfailure : failure = some (.reopen err))
      (hdir : fs.directory DB_PATH = some i)
      (hbytes : fs.content i = encodeLog (t.order db.engine.map))
      (hinode : db.fs.directory TEMP_PATH = some i ∨ i = db.fs.fresh) :
      Outcome db t failure (.error err, ⟨fs, db.engine⟩)

variable {db : Db} {t : Traversal Text Text} {failure : Option CompactFailure}

theorem writeEntries_cases (failure : Option CompactFailure) (fs : FileSystem) (f : File) (i : ℕ)
    (rs : List (Text × Text)) :
    writeEntries fs f failure i rs = (.ok (), writeRest fs f rs) ∨
      ∃ k n err fs', failure = some (.write k n err) ∧
        writeEntries fs f failure i rs = (.error err, fs') ∧
        fs'.directory = fs.directory ∧ ∀ j, j ≠ f.inode → fs'.content j = fs.content j := by
  induction rs generalizing fs f i with
  | nil => exact Or.inl rfl
  | cons r rs ih =>
    rw [writeEntries]
    rcases writeAll_cases fs f (record r) (CompactFailure.atWrite i failure) with
      hwrite | ⟨n, err, hat, _, hwrite⟩
    · rw [hwrite, writeAll_none]
      rcases ih (fs.put f (record r)) { f with pos := f.pos + (record r).length } (i + 1) with
        hrest | ⟨k, n, err, fs', hfailure, hrest, hdir, hcontent⟩
      · exact Or.inl hrest
      · refine Or.inr ⟨k, n, err, fs', hfailure, hrest, hdir, ?_⟩
        intro j hj
        rw [hcontent j hj, content_put_of_ne hj]
    · rw [hwrite]
      have hfailure := CompactFailure.eq_of_atWrite hat
      exact Or.inr ⟨i, n, err, _, hfailure, rfl, rfl, fun j hj => content_put_of_ne hj⟩

theorem writeEntries_fails (fs : FileSystem) (f : File) (err : IoError) {n : ℕ}
    (i j : ℕ) {rs : List (Text × Text)} {r : Text × Text} (hr : rs[j]? = some r)
    (hn : n < (record r).length) :
    ∃ fs', writeEntries fs f (some (.write (i + j) n err)) i rs = (.error err, fs') := by
  induction rs generalizing fs f i j with
  | nil => cases hr
  | cons q rs ih =>
    cases j with
    | zero =>
      cases hr
      simp only [writeEntries, CompactFailure.atWrite, Nat.add_zero, if_true, FileSystem.writeAll,
        if_pos hn]
      exact ⟨_, rfl⟩
    | succ j =>
      have hlater : CompactFailure.atWrite i (some (.write (i + (j + 1)) n err)) = none := by
        simp only [CompactFailure.atWrite]
        exact if_neg (by omega)
      rw [writeEntries, hlater, writeAll_none]
      have hnext := ih (fs.put f (record q)) { f with pos := f.pos + (record q).length } (i + 1) j
        hr
      rwa [Nat.add_right_comm, Nat.add_assoc] at hnext

theorem OnlyTemp.read {fs fs' : FileSystem} (h : OnlyTemp fs fs') :
    fs'.read DB_PATH = fs.read DB_PATH :=
  read_congr (h.directory DB_PATH (by decide)) fun i hi => h.content DB_PATH i (by decide) hi

theorem OnlyTemp.writes {fs fs₁ fs₂ : FileSystem} {i : ℕ} (h : OnlyTemp fs fs₁)
    (htemp : fs₁.directory TEMP_PATH = some i) (hdir : fs₂.directory = fs₁.directory)
    (hcontent : ∀ j, j ≠ i → fs₂.content j = fs₁.content j) : OnlyTemp fs fs₂ := by
  constructor
  · intro q hq
    rw [hdir]
    exact h.directory q hq
  · intro q j hq hj
    have hne : j ≠ i := by
      intro he
      rw [he, ← h.directory q hq] at hj
      exact hq (fs₁.single q TEMP_PATH i hj htemp)
    rw [hcontent j hne]
    exact h.content q j hq hj

theorem compact_outcome (db : Db) (t : Traversal Text Text) (failure : Option CompactFailure) :
    Outcome db t failure (db.compact t failure) := by
  obtain ⟨fs, engine⟩ := db
  obtain ⟨i, fs₁, hopen, hdir₁, hcontent₁, hpaths, hothers⟩ :=
    openFile_create fs TEMP_PATH tempOptions rfl
  have hinode : fs.directory TEMP_PATH = some i ∨ i = fs.fresh := openFile_inode hopen
  have hempty : fs₁.content i = [] := hcontent₁
  have hopened : OnlyTemp fs fs₁ := ⟨hpaths, hothers⟩
  obtain ⟨fs₂, hwrites, hdir₂, hcontent₂, hother₂⟩ :=
    writeEntries_spec fs₁ ⟨i, false, 0⟩ 0 (t.order engine.map) (by simp [hempty])
  have hrest : writeRest fs₁ ⟨i, false, 0⟩ (t.order engine.map) = fs₂ := by
    rw [writeEntries_none] at hwrites
    exact congrArg Prod.snd hwrites
  have hwritten : OnlyTemp fs fs₂ := hopened.writes hdir₁ hdir₂ hother₂
  have htemp : fs₂.directory TEMP_PATH = some i := by rw [hdir₂, hdir₁]
  obtain ⟨fs₃, hrename, hdir₃, hcontent₃, _⟩ := rename_exists DB_PATH htemp
  have hlog : fs₃.content i = encodeLog (t.order engine.map) := by
    rw [hcontent₃, hcontent₂, hempty, List.nil_append]
  have hreopen : fs₃.openFile DB_PATH logOptions none = (.ok ⟨i, true, 0⟩, fs₃) := by
    simp [FileSystem.openFile, hdir₃, logOptions]
  have hloop : (∀ k n err, failure ≠ some (.write k n err)) →
      writeEntries fs₁ ⟨i, false, 0⟩ failure 0 (t.order engine.map) = (.ok (), fs₂) := by
    intro hnever
    rcases writeEntries_cases failure fs₁ ⟨i, false, 0⟩ 0 (t.order engine.map) with
      hrun | ⟨k, n, err, _, hfailure, _⟩
    · rw [hrun, hrest]
    · exact absurd hfailure (hnever k n err)
  cases failure with
  | none =>
    have hrun := hloop (by simp)
    simp only [Db.compact, Engine.compact, CompactFailure.atOpen, hopen]
    simp only [tempOptions, hrun, CompactFailure.atSync, FileSystem.syncAll,
      CompactFailure.atRename, hrename, CompactFailure.atReopen, hreopen]
    exact Outcome.compacted i fs₃ (by simp) hdir₃ hlog
  | some failure =>
    cases failure with
    | openTemp err =>
      exact Outcome.stopped err fs (by simp) ⟨fun _ _ => rfl, fun _ _ _ _ => rfl⟩
    | write k n err =>
      rcases writeEntries_cases (some (.write k n err)) fs₁ ⟨i, false, 0⟩ 0
          (t.order engine.map) with hrun | ⟨_, _, err', fs', _, hrun, hdir, hcontent⟩
      · have hnone : ∀ f, some (CompactFailure.write k n err) = some f →
            ¬ Occurs ⟨fs, engine⟩ t f := by
          intro f hf hoccurs
          cases hf
          obtain ⟨r, hr, hn⟩ := hoccurs
          obtain ⟨fs', hfails⟩ := writeEntries_fails fs₁ ⟨i, false, 0⟩ err 0 k hr hn
          rw [Nat.zero_add, hrun] at hfails
          cases hfails
        rw [hrest] at hrun
        simp only [Db.compact, Engine.compact, CompactFailure.atOpen, hopen]
        simp only [tempOptions, hrun, CompactFailure.atSync, FileSystem.syncAll,
          CompactFailure.atRename, hrename, CompactFailure.atReopen, hreopen]
        exact Outcome.compacted i fs₃ hnone hdir₃ hlog
      · simp only [Db.compact, Engine.compact, CompactFailure.atOpen, hopen]
        simp only [tempOptions, hrun]
        exact Outcome.stopped err' fs' (by simp) (hopened.writes hdir₁ hdir hcontent)
    | sync err =>
      have hrun := hloop (by simp)
      simp only [Db.compact, Engine.compact, CompactFailure.atOpen, hopen]
      simp only [tempOptions, hrun, CompactFailure.atSync, FileSystem.syncAll]
      exact Outcome.stopped err fs₂ (by simp) hwritten
    | rename err =>
      have hrun := hloop (by simp)
      simp only [Db.compact, Engine.compact, CompactFailure.atOpen, hopen]
      simp only [tempOptions, hrun, CompactFailure.atSync, FileSystem.syncAll,
        CompactFailure.atRename, FileSystem.rename]
      exact Outcome.stopped err fs₂ (by simp) hwritten
    | reopen err =>
      have hrun := hloop (by simp)
      simp only [Db.compact, Engine.compact, CompactFailure.atOpen, hopen]
      simp only [tempOptions, hrun, CompactFailure.atSync, FileSystem.syncAll,
        CompactFailure.atRename, hrename, CompactFailure.atReopen]
      exact Outcome.unattached err i fs₃ rfl hdir₃ hlog hinode

theorem compact_errs {f : CompactFailure} (h : Occurs db t f) :
    ∃ err, (db.compact t (some f)).1 = .error err := by
  have houtcome := compact_outcome db t (some f)
  generalize db.compact t (some f) = answer at houtcome ⊢
  cases houtcome with
  | compacted i fs hnone _ _ => exact absurd h (hnone f rfl)
  | stopped err fs _ _ => exact ⟨err, rfl⟩
  | unattached err i fs _ _ _ _ => exact ⟨err, rfl⟩

theorem Faithful.replays_after (h : Faithful db) (t : Traversal Text Text)
    (failure : Option CompactFailure) :
    replay ((db.compact t failure).2.fs.read DB_PATH) = db.engine.map := by
  have houtcome := compact_outcome db t failure
  generalize db.compact t failure = answer at houtcome ⊢
  cases houtcome with
  | compacted i fs _ hdir hbytes =>
    rw [read_of_directory hdir, hbytes, replay_order h.storable]
  | stopped err fs _ hfs =>
    rw [hfs.read]
    exact h.replays
  | unattached err i fs _ hdir hbytes _ =>
    rw [read_of_directory hdir, hbytes, replay_order h.storable]

inductive Later where
  | set (key value : Text) (failure : Option (ℕ × IoError))
  | compact (t : Traversal Text Text) (failure : Option CompactFailure)

def Later.pair : Later → Option (Text × Text)
  | .set k v _ => some (k, v)
  | .compact _ _ => none

/-- `torn` says that a set has left a part of its record at the end of the log. -/
structure Server where
  journal : Journal
  torn : Bool

def serving (db : Db) : Server := ⟨started db, false⟩

def serve (s : Server) : Later → Server
  | .set k v failure =>
    ⟨next s.journal (.set k v failure),
      s.torn || !decide (Closed 0x0A (Event.set k v failure).written)⟩
  | .compact t failure =>
    match s.journal.db.compact t failure with
    | (.ok (), db) => ⟨{ s.journal with db := db }, false⟩
    | (.error _, db) => ⟨{ s.journal with db := db }, s.torn⟩

/-- No later set is appended to what another one has torn, and no later compaction fails at its
last call. -/
def Sound (s : Server) : Later → Prop
  | .set k v failure => s.torn = false ∨ (Event.set k v failure).written = []
  | .compact _ failure => ∀ err, failure ≠ some (.reopen err)

/-- What is asked of a compaction that fails. -/
structure LosesNothing (db : Db) (t : Traversal Text Text) (f : CompactFailure) : Prop where
  fails : ∃ err, (db.compact t (some f)).1 = .error err
  unchanged : (db.compact t (some f)).2.engine.map = db.engine.map
  replays : replay ((db.compact t (some f)).2.fs.read DB_PATH) = db.engine.map
  recovered : ∀ es, (∀ r ∈ es.filterMap Later.pair, Storable r) →
    StepsMeet serve Sound (serving (db.compact t (some f)).2) es →
      Kept (run serve (serving (db.compact t (some f)).2) es).journal

structure Serving (s : Server) : Prop where
  readable : Readable s.journal
  storable : AllStorable s.journal.db.engine.map
  current : ∀ k v, s.journal.acknowledged k = some v →
    s.journal.db.engine.map.lookup k = some v
  closed : s.torn = false → Closed 0x0A (log s.journal.db)

theorem next_set (s : Journal) (k v : Text) (failure : Option (ℕ × IoError)) :
    ∃ value, next s (.set k v failure) =
      ⟨(s.db.set k v failure).2, Function.update s.acknowledged k value⟩ ∧
        (value = some v ∨ value = none) := by
  rw [next]
  cases hset : s.db.set k v failure with
  | mk result db =>
    cases result with
    | ok _ => exact ⟨some v, rfl, Or.inl rfl⟩
    | error err => exact ⟨none, rfl, Or.inr rfl⟩

theorem next_set_db (s : Journal) (k v : Text) (failure : Option (ℕ × IoError)) :
    (next s (.set k v failure)).db = (s.db.set k v failure).2 := by
  obtain ⟨_, hnext, _⟩ := next_set s k v failure
  rw [hnext]

theorem next_set_acknowledged (s : Journal) (k v : Text) (failure : Option (ℕ × IoError))
    {j w : Text} (h : (next s (.set k v failure)).acknowledged j = some w) :
    j = k ∧ w = v ∨ j ≠ k ∧ s.acknowledged j = some w := by
  obtain ⟨value, hnext, hvalue⟩ := next_set s k v failure
  rw [hnext] at h
  change Function.update s.acknowledged k value j = some w at h
  by_cases hj : j = k
  · rw [hj, Function.update_self] at h
    rcases hvalue with hv | hv
    · rw [hv] at h
      cases h
      exact Or.inl ⟨hj, rfl⟩
    · rw [hv] at h
      cases h
  · rw [Function.update_of_ne hj] at h
    exact Or.inr ⟨hj, h⟩

theorem serving_set {s : Server} (h : Serving s) {k v : Text} {failure : Option (ℕ × IoError)}
    (hs : Storable (k, v)) (hc : Sound s (.set k v failure)) :
    Serving (serve s (.set k v failure)) := by
  have hlines : OnWholeLines s.journal (.set k v failure) := hc.imp_left h.closed
  have hmap : (next s.journal (.set k v failure)).db.engine.map =
      s.journal.db.engine.map.insert k v := by
    rw [next_set_db]
    rfl
  constructor
  · refine readable_next h.readable ?_ hlines
    intro r hr
    cases hr
    exact hs
  · show AllStorable (next s.journal (.set k v failure)).db.engine.map
    rw [hmap]
    exact allStorable_insert h.storable hs
  · intro j w hw
    show (next s.journal (.set k v failure)).db.engine.map.lookup j = some w
    rw [hmap]
    change (write s.journal.db.engine.map (k, v)).lookup j = some w
    rw [lookup_write]
    rcases next_set_acknowledged s.journal k v failure hw with ⟨hj, hv⟩ | ⟨hj, hold⟩
    · rw [if_pos hj, hv]
    · rw [if_neg hj]
      exact h.current j w hold
  · intro htorn
    simp only [serve, Bool.or_eq_false_iff, Bool.not_eq_false', decide_eq_true_eq] at htorn
    show Closed 0x0A (log (next s.journal (.set k v failure)).db)
    rw [next_set_db, (h.readable.attached.set k v failure).2.1]
    exact (h.closed htorn.1).append htorn.2

theorem serving_compact {s : Server} (h : Serving s) {t : Traversal Text Text}
    {failure : Option CompactFailure} (hc : Sound s (.compact t failure)) :
    Serving (serve s (.compact t failure)) := by
  have houtcome := compact_outcome s.journal.db t failure
  rw [serve]
  generalize s.journal.db.compact t failure = answer at houtcome ⊢
  cases houtcome with
  | compacted i fs _ hdir hbytes =>
    have hlog : fs.read DB_PATH = encodeLog (t.order s.journal.db.engine.map) := by
      rw [read_of_directory hdir, hbytes]
    constructor
    · refine ⟨⟨hdir, rfl⟩, ?_⟩
      intro k v hk
      show (replay (fs.read DB_PATH)).lookup k = some v
      rw [hlog, replay_order h.storable]
      exact h.current k v hk
    · exact h.storable
    · exact h.current
    · intro _
      show Closed 0x0A (fs.read DB_PATH)
      rw [hlog]
      exact closed_encodeLog _
  | stopped err fs _ hfs =>
    have hlog : log ⟨fs, s.journal.db.engine⟩ = log s.journal.db := hfs.read
    constructor
    · refine ⟨⟨?_, h.readable.attached.appending⟩, ?_⟩
      · show fs.directory DB_PATH = _
        rw [hfs.directory DB_PATH (by decide)]
        exact h.readable.attached.handle
      · intro k v hk
        show (replay (log ⟨fs, s.journal.db.engine⟩)).lookup k = some v
        rw [hlog]
        exact h.readable.found k v hk
    · exact h.storable
    · exact h.current
    · intro htorn
      show Closed 0x0A (log ⟨fs, s.journal.db.engine⟩)
      rw [hlog]
      exact h.closed htorn
  | unattached err i fs hfailure _ _ _ => exact absurd hfailure (hc err)

theorem serving_run {s : Server} (h : Serving s) {es : List Later}
    (hs : ∀ r ∈ es.filterMap Later.pair, Storable r) (hc : StepsMeet serve Sound s es) :
    Serving (run serve s es) := by
  have hstore : ∀ e ∈ es, ∀ r ∈ e.pair, Storable r := fun e he r hr =>
    hs r (List.mem_filterMap.mpr ⟨e, he, hr⟩)
  refine run_preserves_of_steps ?_ h (hc.and_all hstore)
  rintro s e h ⟨hsound, hpair⟩
  cases e with
  | set k v failure => exact serving_set h (hpair (k, v) rfl) hsound
  | compact t failure => exact serving_compact h hsound

theorem serving_after (h : Faithful db) (hattached : Attached db) (hclosed : Closed 0x0A (log db))
    {f : CompactFailure} (hf : ∀ err, f ≠ .reopen err) :
    Serving (serving (db.compact t (some f)).2) := by
  have hstart : Serving (serving db) := by
    refine ⟨⟨hattached, ?_⟩, h.storable, ?_, fun _ => hclosed⟩
    · simp [serving, started]
    · simp [serving, started]
  have hsound : Sound (serving db) (.compact t (some f)) := by
    intro err he
    exact hf err (Option.some.inj he)
  have hnext := serving_compact hstart hsound
  rw [serve] at hnext
  rcases hcall : (serving db).journal.db.compact t (some f) with ⟨result, db'⟩
  have hdb : (db.compact t (some f)).2 = db' := congrArg Prod.snd hcall
  rw [hcall] at hnext
  rw [hdb]
  cases result with
  | ok _ => exact hnext
  | error err => exact hnext

theorem exists_whole_fragment (data : Bytes) :
    ∃ whole fragment, data = whole ++ fragment ∧ Closed 0x0A whole ∧ 0x0A ∉ fragment := by
  induction data using List.reverseRecOn with
  | nil => exact ⟨[], [], rfl, closed_nil, List.not_mem_nil⟩
  | append_singleton data b ih =>
    by_cases hb : b = 0x0A
    · refine ⟨data ++ [b], [], (List.append_nil _).symm, ?_, List.not_mem_nil⟩
      rw [hb]
      exact closed_snoc data
    · obtain ⟨whole, fragment, hdata, hwhole, hfragment⟩ := ih
      refine ⟨whole, fragment ++ [b], ?_, hwhole, ?_⟩
      · rw [hdata, List.append_assoc]
      · simp only [List.mem_append, List.mem_singleton, not_or]
        exact ⟨hfragment, fun he => hb he.symm⟩

theorem exists_new_pair (m : HashMap) : ∃ k v, Storable (k, v) ∧ m.lookup k ≠ some v := by
  by_cases hm : m.lookup ['k'] = some ['a']
  · refine ⟨['k'], ['b'], by decide, ?_⟩
    rw [hm]
    decide
  · exact ⟨['k'], ['a'], by decide, hm⟩

theorem LosesNothing.kept_set {f : CompactFailure} (h : LosesNothing db t f) {k v : Text}
    (hs : Storable (k, v)) :
    Kept (next (started (db.compact t (some f)).2) (.set k v none)) := by
  refine h.recovered [.set k v none] ?_ ⟨Or.inl rfl, trivial⟩
  intro r hr
  rw [List.mem_singleton.mp hr]
  exact hs

theorem detached_set_lost {db : Db} (h : db.fs.directory DB_PATH ≠ some db.engine.logFile.inode)
    {k v : Text} (hnew : (replay (log db)).lookup k ≠ some v) :
    ¬ Kept (next (started db) (.set k v none)) := by
  intro hkept
  obtain ⟨db', hboot, hget⟩ := hkept k v (Function.update_self _ _ _)
  obtain ⟨db'', hboot', _, _, _, hmap⟩ := boot_spec (next (started db) (.set k v none)).db.fs
  have hdb : db'' = db' := Option.some.inj (hboot'.symm.trans hboot)
  have hread : (next (started db) (.set k v none)).db.fs.read DB_PATH = log db := read_put_of_ne h
  rw [Engine.get, ← hdb, hmap, hread] at hget
  exact hnew hget

theorem attached_of_after (h : Faithful db) {f : CompactFailure} (hoccurs : Occurs db t f)
    (hafter : (db.compact t (some f)).2.fs.directory DB_PATH =
      some (db.compact t (some f)).2.engine.logFile.inode) :
    Attached db ∧ log (db.compact t (some f)).2 = log db ∧
      (db.compact t (some f)).2.engine.logFile = db.engine.logFile ∧ ∀ err, f ≠ .reopen err := by
  have houtcome := compact_outcome db t (some f)
  generalize db.compact t (some f) = answer at houtcome hafter ⊢
  cases houtcome with
  | compacted i fs hnone _ _ => exact absurd hoccurs (hnone f rfl)
  | stopped err fs hf hfs =>
    have hdir : db.fs.directory DB_PATH = some db.engine.logFile.inode := by
      rw [← hfs.directory DB_PATH (by decide)]
      exact hafter
    exact ⟨⟨hdir, h.appending⟩, hfs.read, rfl, fun err he => hf err (congrArg some he)⟩
  | unattached err i fs _ hdir _ hinode =>
    have hi : i = db.engine.logFile.inode := Option.some.inj (hdir.symm.trans hafter)
    rcases hinode with htemp | hfresh
    · rw [hi] at htemp
      exact absurd htemp h.elsewhere
    · have hlt := h.allocated
      omega

/-- A failed compaction loses nothing just where the engine goes on appending to the file at
`DB_PATH`, behind a whole line: the handle was there before, and the call that fails is not the
one that opens the new file. -/
theorem loses_nothing_iff {f : CompactFailure} (h : Faithful db) (hoccurs : Occurs db t f) :
    LosesNothing db t f ↔ db.fs.directory DB_PATH = some db.engine.logFile.inode ∧
      Closed 0x0A (log db) ∧ ∀ err, f ≠ .reopen err := by
  have hmap := compact_map db t (some f)
  have hreplays := h.replays_after t (some f)
  constructor
  · intro hloses
    have hhandle : (db.compact t (some f)).2.fs.directory DB_PATH =
        some (db.compact t (some f)).2.engine.logFile.inode := by
      by_contra hdetached
      obtain ⟨k, v, hs, hnew⟩ := exists_new_pair (replay (log (db.compact t (some f)).2))
      exact detached_set_lost hdetached hnew (hloses.kept_set hs)
    obtain ⟨hattached, hlog, hfile, hf⟩ := attached_of_after h hoccurs hhandle
    refine ⟨hattached.handle, ?_, hf⟩
    obtain ⟨whole, fragment, hdata, hwhole, hfragment⟩ := exists_whole_fragment (log db)
    by_cases hne : fragment = []
    · rw [hdata, hne, List.append_nil]
      exact hwhole
    · have hafter : Attached (db.compact t (some f)).2 := by
        refine ⟨hhandle, ?_⟩
        rw [hfile]
        exact h.appending
      obtain ⟨k, v, hs, hnew⟩ := exists_new_pair (replay whole)
      exact absurd (Attached.set_on_fragment (s := started _) hafter (hlog.trans hdata) hwhole
        hfragment hne hs (hloses.kept_set hs)) hnew
  · rintro ⟨hhandle, hclosed, hf⟩
    constructor
    · exact compact_errs hoccurs
    · exact hmap
    · exact hreplays
    · intro es hs hc
      have hstart := serving_after (t := t) h ⟨hhandle, h.appending⟩ hclosed hf
      exact (serving_run hstart hs hc).readable.kept

theorem faithful_of_carries {rs : List (Text × Text)} (h : Carries db rs) : Faithful db where
  appending := h.appending
  allocated := db.fs.allocated _ _ h.handle
  elsewhere := by
    intro htemp
    exact other_inode htemp h.handle
  replays := h.replay_log
  storable := allStorable_of_carries h

theorem loses_nothing_iff_failed_sync :
    ∃ db₀, boot emptyFileSystem = some db₀ ∧
      let db := (db₀.set ['k'] ['v'] none).2
      LosesNothing db someTraversal (.sync ⟨['x']⟩) ↔
        db.fs.directory DB_PATH = some db.engine.logFile.inode ∧ Closed 0x0A (log db) ∧
          ∀ err, CompactFailure.sync ⟨['x']⟩ ≠ .reopen err := by
  have hlog : emptyFileSystem.read DB_PATH = encodeLog [] := rfl
  obtain ⟨db₀, hboot, hempty⟩ := boot_carries hlog (by simp)
  have hcarries := (hempty.set (k := ['k']) (v := ['v']) (by decide)).2
  exact ⟨db₀, hboot, loses_nothing_iff (faithful_of_carries hcarries) trivial⟩

/-- Only the last call fails. The set of `j` is answered with `Ok`, and the next engine does not
find it. -/
theorem set_after_failed_reopen_lost :
    ∃ db₀, boot emptyFileSystem = some db₀ ∧
      let db := (db₀.set ['k'] ['v'] none).2
      let f := CompactFailure.reopen ⟨['x']⟩
      let after := (db.compact someTraversal (some f)).2
      Faithful db ∧ Occurs db someTraversal f ∧
        (after.set ['j'] ['w'] none).1 = .ok () ∧
        ¬ Kept (next (started after) (.set ['j'] ['w'] none)) ∧
        ¬ LosesNothing db someTraversal f := by
  have hlog : emptyFileSystem.read DB_PATH = encodeLog [] := rfl
  obtain ⟨db₀, hboot, hempty⟩ := boot_carries hlog (by simp)
  have hcarries := (hempty.set (k := ['k']) (v := ['v']) (by decide)).2
  have hfaithful := faithful_of_carries hcarries
  have hoccurs : Occurs (db₀.set ['k'] ['v'] none).2 someTraversal (.reopen ⟨['x']⟩) := trivial
  have hnew : (replay (log ((db₀.set ['k'] ['v'] none).2.compact someTraversal
      (some (.reopen ⟨['x']⟩))).2)).lookup ['j'] ≠ some ['w'] := by
    rw [log, hfaithful.replays_after, hcarries.map]
    decide
  have hlost := detached_set_lost (fun hafter =>
    (attached_of_after hfaithful hoccurs hafter).2.2.2 ⟨['x']⟩ rfl) hnew
  exact ⟨db₀, hboot, hfaithful, hoccurs, rfl, hlost,
    fun hloses => hlost (hloses.kept_set (by decide))⟩

end ChronosFailedCompaction

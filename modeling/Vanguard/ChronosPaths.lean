import Vanguard.ChronosStore

/-! Two engines in one process, opened at different paths. `Engine::new` takes the path of the log,
but `compact` renames its file to `DB_PATH` and goes on with the handle of that file. -/
namespace ChronosPaths

open Utf8Text FileSystems LastWriterMaps TerminatedLines StateMachines ChronosEngine
open ChronosLogFormat ChronosStore

structure Paths where
  left : String
  right : String
  distinct : left ≠ right
  left_temp : left ≠ TEMP_PATH
  right_temp : right ≠ TEMP_PATH

inductive Side where
  | left
  | right
  deriving DecidableEq

def Paths.path (paths : Paths) : Side → String
  | .left => paths.left
  | .right => paths.right

structure Pair where
  fs : FileSystem
  engine : Side → Engine

def openBoth (paths : Paths) (fs : FileSystem) : Option Pair :=
  match Engine.new fs paths.left none with
  | (.error _, _) => none
  | (.ok left, fs) =>
    match Engine.new fs paths.right none with
    | (.error _, _) => none
    | (.ok right, fs) => some ⟨fs, fun side => if side = .left then left else right⟩

abbrev Carriable := { r : Text × Text // Storable r }

inductive Event where
  | set (side : Side) (r : Carriable)
  | compact (side : Side) (t : Traversal Text Text)
  | reopen (side : Side)

/-- Nothing fails. To reopen is to drop the engine and open its path again. -/
def next (paths : Paths) (s : Pair) : Event → Pair
  | .set side r =>
    let (_, engine, fs) := (s.engine side).set s.fs r.1.1 r.1.2 none
    ⟨fs, Function.update s.engine side engine⟩
  | .compact side t =>
    let (_, engine, fs) := (s.engine side).compact s.fs t none
    ⟨fs, Function.update s.engine side engine⟩
  | .reopen side =>
    match Engine.new s.fs (paths.path side) none with
    | (.error _, fs) => ⟨fs, s.engine⟩
    | (.ok engine, fs) => ⟨fs, Function.update s.engine side engine⟩

/-- Reopening either path gives the map of the engine there. -/
def Separate (paths : Paths) (s : Pair) : Prop :=
  ∀ side, ∃ e fs', Engine.new s.fs (paths.path side) none = (.ok e, fs') ∧
    e.map = (s.engine side).map

/-- The append handle of one engine is on the file at the path of the other, or on its own. -/
def WritesTo (paths : Paths) (s : Pair) (side other : Side) : Prop :=
  s.fs.directory (paths.path other) = some (s.engine side).logFile.inode

instance (paths : Paths) (s : Pair) (side other : Side) : Decidable (WritesTo paths s side other) :=
  inferInstanceAs (Decidable (_ = _))

/-- A set goes to the engine's own file and to no other one, or it repeats a pair. A compaction
replaces the log at `DB_PATH`, where no engine with another map may be open. -/
def Confined (paths : Paths) (s : Pair) : Event → Prop
  | .set side r => ∀ other, (WritesTo paths s side other ↔ other = side) ∨
      (s.engine other).map.lookup r.1.1 = some r.1.2
  | .compact side _ => ∀ other, paths.path other = DB_PATH →
      (s.engine other).map = (s.engine side).map
  | .reopen _ => True

structure Steady (paths : Paths) (s : Pair) : Prop where
  appending : ∀ side, (s.engine side).logFile.append = true
  closed : ∀ side, Closed 0x0A (s.fs.read (paths.path side))
  storable : ∀ side k v, (s.engine side).map.lookup k = some v → Storable (k, v)
  synced : ∀ side, replay (s.fs.read (paths.path side)) = (s.engine side).map

variable {paths : Paths} {s : Pair}

theorem path_ne_temp (paths : Paths) (side : Side) : paths.path side ≠ TEMP_PATH := by
  cases side with
  | left => exact paths.left_temp
  | right => exact paths.right_temp

theorem separate_iff : Separate paths s ↔
    ∀ side, replay (s.fs.read (paths.path side)) = (s.engine side).map := by
  apply forall_congr'
  intro side
  obtain ⟨e, fs', hnew, _, _, hmap, _, _⟩ := new_spec s.fs (paths.path side)
  rw [hnew, ← hmap]
  constructor
  · rintro ⟨e', fs'', h, he⟩
    cases h
    exact he
  · intro h
    exact ⟨e, fs', rfl, h⟩

section Sets

variable {side : Side} {r : Carriable} (other : Side)

theorem map_set : ((next paths s (.set side r)).engine other).map =
    if other = side then write (s.engine other).map r.1 else (s.engine other).map := by
  by_cases h : other = side
  · subst h
    simp [next, Engine.set, write]
  · simp [next, h]

theorem logFile_set : ((next paths s (.set side r)).engine other).logFile.append =
    (s.engine other).logFile.append := by
  by_cases h : other = side
  · subst h
    simp [next, Engine.set, writeAll_none]
  · simp [next, h]

theorem read_set (h : Steady paths s) : (next paths s (.set side r)).fs.read (paths.path other) =
    if WritesTo paths s side other then s.fs.read (paths.path other) ++ record r.1
      else s.fs.read (paths.path other) := by
  have hfs : (next paths s (.set side r)).fs = s.fs.put (s.engine side).logFile (record r.1) := rfl
  rw [hfs]
  split
  · next hdir => exact read_put_append hdir (h.appending side)
  · next hdir => exact read_put_of_ne hdir

theorem closed_set (h : Steady paths s) :
    Closed 0x0A ((next paths s (.set side r)).fs.read (paths.path other)) := by
  rw [read_set other h]
  split
  · rw [record_eq]
    exact (h.closed other).append (closed_snoc _)
  · exact h.closed other

theorem synced_set (h : Steady paths s) :
    replay ((next paths s (.set side r)).fs.read (paths.path other)) =
        ((next paths s (.set side r)).engine other).map ↔
      (WritesTo paths s side other ↔ other = side) ∨
        (s.engine other).map.lookup r.1.1 = some r.1.2 := by
  rw [read_set other h, map_set]
  by_cases hdir : WritesTo paths s side other
  · rw [if_pos hdir, replay_record (h.closed other) r.2, h.synced other]
    by_cases hside : other = side
    · subst hside
      simp [hdir]
    · rw [if_neg hside, write_eq_self_iff]
      simp [hdir, hside]
  · rw [if_neg hdir, h.synced other]
    by_cases hside : other = side
    · subst hside
      rw [if_pos rfl, eq_comm, write_eq_self_iff]
      simp [hdir]
    · simp [hdir, hside]

theorem storable_set (h : Steady paths s) (k v : Text)
    (hl : ((next paths s (.set side r)).engine other).map.lookup k = some v) :
    Storable (k, v) := by
  rw [map_set] at hl
  split at hl
  · rw [lookup_write] at hl
    split at hl
    · next hk =>
      cases hl
      rw [hk]
      exact r.2
    · exact h.storable other k v hl
  · exact h.storable other k v hl

end Sets

theorem replay_order {m : HashMap} (h : ∀ k v, m.lookup k = some v → Storable (k, v))
    (t : Traversal Text Text) : replay (encodeLog (t.order m)) = m := by
  have henum := t.enumerates m
  rw [replay_encodeLog, henum.writeAll_empty]
  rintro ⟨k, v⟩ hr
  exact h k v ((henum.complete k v).mp hr)

theorem compact_reads (paths : Paths) (s : Pair) (side : Side) (t : Traversal Text Text) :
    let s' := next paths s (.compact side t)
    (∀ other, (s'.engine other).map = (s.engine other).map) ∧
      (∀ other, (s.engine other).logFile.append = true →
        (s'.engine other).logFile.append = true) ∧
      s'.fs.read DB_PATH = encodeLog (t.order (s.engine side).map) ∧
      ∀ other, paths.path other ≠ DB_PATH →
        s'.fs.read (paths.path other) = s.fs.read (paths.path other) := by
  obtain ⟨j, fs', hrun, hdir, hcontent, hothers⟩ := compact_spec (s.engine side) s.fs t
  simp only [next, hrun]
  refine ⟨?_, ?_, ?_, ?_⟩
  · intro other
    by_cases h : other = side
    · subst h
      simp
    · simp [h]
  · intro other happend
    by_cases h : other = side
    · subst h
      simp
    · simpa [h] using happend
  · rw [read_of_directory hdir, hcontent]
  · intro other hdb
    exact (hothers _ (path_ne_temp paths other) hdb).1

theorem reopen_reads (paths : Paths) (s : Pair) (side : Side) :
    let s' := next paths s (.reopen side)
    (∀ other, s'.fs.read (paths.path other) = s.fs.read (paths.path other)) ∧
      (∀ other, (s.engine other).logFile.append = true →
        (s'.engine other).logFile.append = true) ∧
      ∀ other, (s'.engine other).map =
        if other = side then replay (s.fs.read (paths.path side)) else (s.engine other).map := by
  obtain ⟨e, fs', hnew, _, happend, hmap, hread, _⟩ := new_spec s.fs (paths.path side)
  simp only [next, hnew]
  refine ⟨fun other => hread _, ?_, ?_⟩
  · intro other hother
    by_cases h : other = side
    · subst h
      simpa using happend
    · simpa [h] using hother
  · intro other
    by_cases h : other = side
    · subst h
      simp [hmap]
    · simp [h]

theorem Steady.synced_iff (h : Steady paths s) (e : Event) :
    (∀ other, replay ((next paths s e).fs.read (paths.path other)) =
      ((next paths s e).engine other).map) ↔ Confined paths s e := by
  cases e with
  | set side r =>
    apply forall_congr'
    intro other
    exact synced_set other h
  | compact side t =>
    obtain ⟨hmap, _, hdb, hothers⟩ := compact_reads paths s side t
    apply forall_congr'
    intro other
    rw [hmap]
    by_cases hpath : paths.path other = DB_PATH
    · rw [hpath, hdb, replay_order (h.storable side)]
      simp [eq_comm]
    · rw [hothers other hpath, h.synced other]
      simp [hpath]
  | reopen side =>
    obtain ⟨hread, _, hmap⟩ := reopen_reads paths s side
    refine iff_of_true ?_ trivial
    intro other
    rw [hread, hmap, h.synced other]
    split
    · next hside => rw [hside, h.synced side]
    · rfl

theorem Steady.next (h : Steady paths s) {e : Event} (hc : Confined paths s e) :
    Steady paths (next paths s e) := by
  have hsynced := (h.synced_iff e).mpr hc
  cases e with
  | set side r =>
    constructor
    · intro other
      rw [logFile_set]
      exact h.appending other
    · exact fun other => closed_set other h
    · exact fun other => storable_set other h
    · exact hsynced
  | compact side t =>
    obtain ⟨hmap, happend, hdb, hothers⟩ := compact_reads paths s side t
    constructor
    · exact fun other => happend other (h.appending other)
    · intro other
      by_cases hpath : paths.path other = DB_PATH
      · rw [hpath, hdb]
        exact closed_encodeLog _
      · rw [hothers other hpath]
        exact h.closed other
    · intro other
      rw [hmap]
      exact h.storable other
    · exact hsynced
  | reopen side =>
    obtain ⟨hread, happend, hmap⟩ := reopen_reads paths s side
    constructor
    · exact fun other => happend other (h.appending other)
    · intro other
      rw [hread]
      exact h.closed other
    · intro other
      rw [hmap, h.synced side]
      split
      · exact h.storable side
      · exact h.storable other
    · exact hsynced

/-- A log of whole lines, whose entries the format can carry. -/
structure Loadable (data : Bytes) : Prop where
  closed : Closed 0x0A data
  storable : ∀ k v, (replay data).lookup k = some v → Storable (k, v)

def Attached (paths : Paths) (s : Pair) : Prop := ∀ side, WritesTo paths s side side

theorem openBoth_spec (paths : Paths) (fs : FileSystem) :
    ∃ s, openBoth paths fs = some s ∧ Attached paths s ∧
      ∀ side, (s.engine side).logFile.append = true ∧
        s.fs.read (paths.path side) = fs.read (paths.path side) ∧
        (s.engine side).map = replay (fs.read (paths.path side)) := by
  obtain ⟨l, fs₁, hleft, hdirl, happendl, hmapl, hreadl, _⟩ := new_spec fs paths.left
  obtain ⟨r, fs₂, hright, hdirr, happendr, hmapr, hreadr, hdirs⟩ := new_spec fs₁ paths.right
  refine ⟨⟨fs₂, fun side => if side = .left then l else r⟩, ?_, ?_, ?_⟩
  · simp only [openBoth, hleft, hright]
  · intro side
    cases side with
    | left => exact (hdirs paths.left paths.distinct).trans hdirl
    | right => exact hdirr
  · intro side
    cases side with
    | left => exact ⟨happendl, by rw [hreadr, hreadl], hmapl⟩
    | right => exact ⟨happendr, by rw [hreadr, hreadl], by rw [← hreadl]; exact hmapr⟩

theorem steady_opened {fs : FileSystem} (hl : Loadable (fs.read paths.left))
    (hr : Loadable (fs.read paths.right)) :
    ∃ s, openBoth paths fs = some s ∧ Steady paths s ∧ Attached paths s := by
  obtain ⟨s, hopen, hattached, hspec⟩ := openBoth_spec paths fs
  have hload : ∀ side, Loadable (fs.read (paths.path side)) := by
    intro side
    cases side with
    | left => exact hl
    | right => exact hr
  refine ⟨s, hopen, ?_, hattached⟩
  constructor
  · exact fun side => (hspec side).1
  · intro side
    rw [(hspec side).2.1]
    exact (hload side).closed
  · intro side
    rw [(hspec side).2.2]
    exact (hload side).storable
  · intro side
    rw [(hspec side).2.1, (hspec side).2.2]

/-- The two engines keep apart in every state of a run just if every step of it is confined. -/
theorem separate_iff_confined (paths : Paths) {fs : FileSystem}
    (hl : Loadable (fs.read paths.left)) (hr : Loadable (fs.read paths.right)) :
    ∃ s, openBoth paths fs = some s ∧ ∀ es : List Event,
      (∀ as, as <+: es → Separate paths (run (next paths) s as)) ↔
        StepsMeet (next paths) (Confined paths) s es := by
  obtain ⟨s, hopen, hsteady, _⟩ := steady_opened hl hr
  have hholds : ∀ s, Steady paths s → Separate paths s := by
    intro s h
    exact separate_iff.mpr h.synced
  have hbreaks : ∀ s e, True → Steady paths s → ¬ Confined paths s e →
      ¬ Separate paths (next paths s e) := by
    intro s e _ h hc hsep
    exact hc ((h.synced_iff e).mp (separate_iff.mp hsep))
  refine ⟨s, hopen, ?_⟩
  intro es
  exact always_iff_stepsMeet (A := fun _ => True) hholds (fun s e _ h hc => h.next hc) hbreaks
    (fun _ _ => trivial) hsteady

def testPaths : Paths := ⟨"test.db", DB_PATH, by decide, by decide, by decide⟩

def firstSets : List Event :=
  [.set .left ⟨(['a'], ['1']), by decide⟩, .set .right ⟨(['b'], ['2']), by decide⟩]

theorem loadable_nil : Loadable [] := by
  constructor
  · exact closed_nil
  · intro k v hl
    cases hl

theorem separate_test_db : ∃ s, openBoth testPaths emptyFileSystem = some s ∧
    ∀ es, (∀ as, as <+: es → Separate testPaths (run (next testPaths) s as)) ↔
      StepsMeet (next testPaths) (Confined testPaths) s es :=
  separate_iff_confined testPaths loadable_nil loadable_nil

/-- A compaction of the test database replaces the log of the other one. -/
theorem test_db_replaces_log : ∃ s, openBoth testPaths emptyFileSystem = some s ∧
    ¬ ∀ as, as <+: firstSets ++ [.compact .left someTraversal] →
      Separate testPaths (run (next testPaths) s as) := by
  refine ⟨_, rfl, ?_⟩
  intro hall
  have hlast := separate_iff.mp (hall _ List.prefix_rfl) .right
  rw [run_append, run_cons, run_nil] at hlast
  generalize hs : run (next testPaths) _ firstSets = s at hlast
  have hleft : (s.engine .left).map = write ∅ (['a'], ['1']) := by
    rw [← hs]
    rfl
  have hright : (s.engine .right).map = write ∅ (['b'], ['2']) := by
    rw [← hs]
    rfl
  obtain ⟨hmap, _, hdb, _⟩ := compact_reads testPaths s .left someTraversal
  have hpath : testPaths.path .right = DB_PATH := rfl
  have hstorable : ∀ k v, (s.engine .left).map.lookup k = some v → Storable (k, v) := by
    intro k v hl
    rw [hleft, lookup_write] at hl
    split at hl
    · next hk =>
      cases hl
      rw [hk]
      decide
    · cases hl
  rw [hmap, hpath, hdb, replay_order hstorable, hleft, hright] at hlast
  have hlookup := congrArg (Finmap.lookup ['a']) hlast
  rw [lookup_write, lookup_write] at hlookup
  cases hlookup

theorem path_injective (paths : Paths) {side other : Side}
    (h : paths.path side = paths.path other) : side = other := by
  cases side with
  | left =>
    cases other with
    | left => rfl
    | right => exact absurd h paths.distinct
  | right =>
    cases other with
    | left => exact absurd h.symm paths.distinct
    | right => rfl

theorem Attached.writesTo_iff (h : Attached paths s) (side other : Side) :
    WritesTo paths s side other ↔ other = side := by
  constructor
  · intro hother
    exact path_injective paths (s.fs.single _ _ _ hother (h side))
  · rintro rfl
    exact h other

/-- A compaction takes the handle to `DB_PATH`, so it is for the engine there. -/
def Rightful (paths : Paths) : Event → Prop
  | .compact side _ => paths.path side = DB_PATH
  | _ => True

theorem Attached.confined (h : Attached paths s) {e : Event} (he : Rightful paths e) :
    Confined paths s e := by
  cases e with
  | set side r => exact fun other => Or.inl (h.writesTo_iff side other)
  | compact side t =>
    intro other hother
    rw [path_injective paths (hother.trans he.symm)]
  | reopen side => trivial

theorem Attached.next (h : Attached paths s) {e : Event} (he : Rightful paths e) :
    Attached paths (next paths s e) := by
  intro other
  cases e with
  | set side r =>
    by_cases hother : other = side
    · subst hother
      simpa [WritesTo, ChronosPaths.next, Engine.set, writeAll_none] using h other
    · simpa [WritesTo, ChronosPaths.next, Engine.set, writeAll_none, hother] using h other
  | compact side t =>
    obtain ⟨j, fs', hrun, hdir, _, hothers⟩ := compact_spec (s.engine side) s.fs t
    simp only [WritesTo, ChronosPaths.next, hrun]
    by_cases hother : other = side
    · subst hother
      have hpath : paths.path other = DB_PATH := he
      simpa [hpath] using hdir
    · have hpath : paths.path other ≠ DB_PATH := by
        intro hdb
        exact hother (path_injective paths (hdb.trans he.symm))
      rw [(hothers _ (path_ne_temp paths other) hpath).2, Function.update_of_ne hother]
      exact h other
  | reopen side =>
    obtain ⟨e, fs', hnew, hdir, _, _, _, hdirs⟩ := new_spec s.fs (paths.path side)
    simp only [WritesTo, ChronosPaths.next, hnew]
    by_cases hother : other = side
    · subst hother
      simpa using hdir
    · have hpath : paths.path other ≠ paths.path side := by
        intro heq
        exact hother (path_injective paths heq)
      rw [hdirs _ hpath, Function.update_of_ne hother]
      exact h other

/-- As long as only an engine at `DB_PATH` compacts, the engines keep apart. -/
theorem separate_of_rightful {fs : FileSystem} (hl : Loadable (fs.read paths.left))
    (hr : Loadable (fs.read paths.right)) :
    ∃ s, openBoth paths fs = some s ∧ ∀ es : List Event, (∀ e ∈ es, Rightful paths e) →
      Separate paths (run (next paths) s es) := by
  obtain ⟨s, hopen, hsteady, hattached⟩ := steady_opened hl hr
  refine ⟨s, hopen, ?_⟩
  intro es hes
  have hmeet : StepsMeet (next paths) (fun _ e => True ∧ Rightful paths e) s es :=
    (stepsMeet_true _ s es).and_all hes
  have hkept : Steady paths (run (next paths) s es) ∧ Attached paths (run (next paths) s es) := by
    apply run_preserves_of_steps (P := fun s => Steady paths s ∧ Attached paths s) _ _ hmeet
    · rintro s e ⟨h, ha⟩ ⟨_, he⟩
      exact ⟨h.next (ha.confined he), ha.next he⟩
    · exact ⟨hsteady, hattached⟩
  exact separate_iff.mpr hkept.1.synced

end ChronosPaths

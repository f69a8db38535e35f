import Vanguard.ChronosThreads
import Vanguard.ChronosDurability
import Mathlib.Data.Finset.Sort
import Mathlib.Data.List.Lex

/-! Concurrent commands are those of the history one after the other. What a thread has half
done under the write guard is measured by what the store will be when the guard is dropped. -/
namespace ChronosConcurrency

open Utf8Text FileSystems LastWriterMaps StateMachines ChronosEngine ChronosLogFormat ChronosStore
open ChronosCompaction ChronosParser ChronosServer ChronosDurability ChronosThreads

/-- What the store will be when the work is done. -/
def finished (db : Db) (t : Traversal Text Text) : Work → Db
  | .insert k v => (db.set k v none).2
  | .append fragments => run appendFragment db fragments
  | .compact point => remaining t ⟨db, point⟩

def Underway (db : Db) (t : Traversal Text Text) : Work → Prop
  | .compact point => ∃ log entries, Progress log entries ⟨db, point⟩ ∧
      t.order db.engine.map = entries
  | _ => db.engine.logFile.append = true

/-- The work on the store will have done what the command does to the store `now`. -/
structure Midway (now db : Db) (c : Command) (t : Traversal Text Text) (work : Work)
    (response : Text) : Prop where
  result : execute now (healthy t) c = (finished db t work, response)
  underway : Underway db t work

def work : Point → Option (Command × Traversal Text Text × Work × Text)
  | .writing c t w response => some (c, t, w, response)
  | _ => none

structure Local (s : System) (p : Process) : Prop where
  writer : s.lock.writer = some p ↔ (s.threads p).guard = some .write
  reader : p ∈ s.lock.readers ↔ (s.threads p).guard = some .read
  answered : own s.history p = s.received p ++ (s.threads p).unsent
  ordered : s.sent p = (own s.history p).map Prod.fst ++ (s.threads p).pending
  storable : ∀ c ∈ (s.threads p).pending, ∀ r, writes c = some r → Storable r

structure Global (db₀ : Db) (s : System) : Prop where
  exclusive : s.lock.writer ≠ none → s.lock.readers = ∅
  serial : s.history.map Entry.response = replies perform db₀ s.history
  storable : ∀ e ∈ s.history, ∀ r, writes e.command = some r → Storable r
  settled : (∀ p, s.lock.writer = some p → work (s.threads p) = none) →
    s.db = sequential db₀ s.history
  midway : ∀ p c t w response, work (s.threads p) = some (c, t, w, response) →
    Midway (sequential db₀ s.history) s.db c t w response

structure Invariant (db₀ : Db) (s : System) : Prop where
  each : ∀ p, Local s p
  all : Global db₀ s

variable {db₀ : Db} {s s' : System} {p q : Process} {c : Command} {t : Traversal Text Text}

/-- A step of `p` leaves the other threads, their guards and what is recorded of them alone. -/
structure Untouched (p : Process) (s s' : System) : Prop where
  threads : ∀ q, q ≠ p → s'.threads q = s.threads q
  writer : ∀ q, q ≠ p → (s'.lock.writer = some q ↔ s.lock.writer = some q)
  readers : ∀ q, q ≠ p → (q ∈ s'.lock.readers ↔ q ∈ s.lock.readers)
  history : ∀ q, q ≠ p → own s'.history q = own s.history q
  sent : ∀ q, q ≠ p → s'.sent q = s.sent q
  received : ∀ q, q ≠ p → s'.received q = s.received q

theorem Untouched.trans {s'' : System} (h : Untouched p s s') (h' : Untouched p s' s'') :
    Untouched p s s'' where
  threads := fun q hq => (h'.threads q hq).trans (h.threads q hq)
  writer := fun q hq => (h'.writer q hq).trans (h.writer q hq)
  readers := fun q hq => (h'.readers q hq).trans (h.readers q hq)
  history := fun q hq => (h'.history q hq).trans (h.history q hq)
  sent := fun q hq => (h'.sent q hq).trans (h.sent q hq)
  received := fun q hq => (h'.received q hq).trans (h.received q hq)

theorem untouched_moveTo (s : System) (p : Process) (point : Point) :
    Untouched p s (s.moveTo p point) := by
  constructor
  · exact fun q hq => Function.update_of_ne hq _ _
  all_goals intro q hq
  · exact Iff.rfl
  · exact Iff.rfl
  all_goals rfl

theorem untouched_hears (s : System) (p : Process) (c : Command) :
    Untouched p s (s.hears p c) := by
  constructor
  all_goals intro q hq
  · rfl
  · exact Iff.rfl
  · exact Iff.rfl
  · rfl
  · exact Function.update_of_ne hq _ _
  · rfl

theorem untouched_record (s : System) (p : Process) (t : Traversal Text Text) (c : Command)
    (response : Text) : Untouched p s (s.record p t c response) := by
  constructor
  all_goals intro q hq
  · rfl
  · exact Iff.rfl
  · exact Iff.rfl
  · exact own_snoc_of_ne hq t c response
  · rfl
  · rfl

theorem untouched_answers (s : System) (p : Process) (c : Command) (response : Text) :
    Untouched p s (s.answers p c response) := by
  constructor
  all_goals intro q hq
  · rfl
  · exact Iff.rfl
  · exact Iff.rfl
  · rfl
  · rfl
  · exact Function.update_of_ne hq _ _

theorem untouched_lock {lock : RwLock}
    (hwriter : ∀ q, q ≠ p → (lock.writer = some q ↔ s.lock.writer = some q))
    (hreaders : ∀ q, q ≠ p → (q ∈ lock.readers ↔ q ∈ s.lock.readers)) :
    Untouched p s { s with lock := lock } :=
  ⟨fun _ _ => rfl, hwriter, hreaders, fun _ _ => rfl, fun _ _ => rfl, fun _ _ => rfl⟩

theorem untouched_db (s : System) (p : Process) (db : Db) : Untouched p s { s with db := db } :=
  ⟨fun _ _ => rfl, fun _ _ => Iff.rfl, fun _ _ => Iff.rfl, fun _ _ => rfl, fun _ _ => rfl,
    fun _ _ => rfl⟩

theorem each_moved (h : ∀ q, Local s q) (hothers : Untouched p s s') (hself : Local s' p) :
    ∀ q, Local s' q := by
  intro q
  by_cases hq : q = p
  · rw [hq]
    exact hself
  · have hthreads := hothers.threads q hq
    constructor
    · rw [hothers.writer q hq, hthreads]
      exact (h q).writer
    · rw [hothers.readers q hq, hthreads]
      exact (h q).reader
    · rw [hothers.history q hq, hothers.received q hq, hthreads]
      exact (h q).answered
    · rw [hothers.sent q hq, hothers.history q hq, hthreads]
      exact (h q).ordered
    · rw [hthreads]
      exact (h q).storable

theorem work_moveTo (s : System) {point : Point} (hold : work (s.threads p) = none)
    (hnew : work point = none) (q : Process) :
    work ((s.moveTo p point).threads q) = work (s.threads q) := by
  by_cases hq : q = p
  · subst hq
    simp only [System.moveTo, Function.update_self, hnew, hold]
  · simp only [System.moveTo, Function.update_of_ne hq]

theorem Global.frame (h : Global db₀ s) (hdb : s'.db = s.db)
    (hnow : sequential db₀ s'.history = sequential db₀ s.history)
    (hwriter : s'.lock.writer = s.lock.writer)
    (hwork : ∀ q, work (s'.threads q) = work (s.threads q))
    (hexclusive : s'.lock.writer ≠ none → s'.lock.readers = ∅)
    (hserial : s'.history.map Entry.response = replies perform db₀ s'.history)
    (hstorable : ∀ e ∈ s'.history, ∀ r, writes e.command = some r → Storable r) :
    Global db₀ s' := by
  constructor
  · exact hexclusive
  · exact hserial
  · exact hstorable
  · intro hidle
    rw [hdb, hnow]
    apply h.settled
    intro p hp
    exact (hwork p).symm.trans (hidle p (hwriter.trans hp))
  · intro p c t w response hp
    rw [hdb, hnow]
    exact h.midway p c t w response ((hwork p).symm.trans hp)

theorem serial_record (h : Global db₀ s) (p : Process) {response : Text}
    (hresponse : (execute (sequential db₀ s.history) (healthy t) c).2 = response) :
    (s.record p t c response).history.map Entry.response =
      replies perform db₀ (s.record p t c response).history := by
  simp only [System.record, List.map_append, replies_snoc, h.serial]
  rw [← hresponse]
  rfl

theorem storable_record (h : Global db₀ s) (p : Process) (response : Text)
    (hc : ∀ r, writes c = some r → Storable r) :
    ∀ e ∈ (s.record p t c response).history, ∀ r, writes e.command = some r → Storable r := by
  intro e he
  rcases List.mem_append.mp he with he | he
  · exact h.storable e he
  · rw [List.mem_singleton.mp he]
    exact hc

theorem Global.moveTo (h : Global db₀ s) {point : Point} (hold : work (s.threads p) = none)
    (hnew : work point = none) : Global db₀ (s.moveTo p point) :=
  h.frame rfl rfl rfl (work_moveTo s hold hnew) h.exclusive h.serial h.storable

theorem Invariant.at_work (h : Invariant db₀ s) {x : Command × Traversal Text Text × Work × Text}
    (hp : work (s.threads p) = some x) : s.lock.writer = some p := by
  apply (h.each p).writer.mpr
  cases hpoint : s.threads p with
  | writing c t w response => rfl
  | _ =>
    rw [hpoint] at hp
    cases hp

theorem Invariant.one_writer (h : Invariant db₀ s) {x : Command × Traversal Text Text × Work × Text}
    (hp : s.lock.writer = some p) (hq : work (s.threads q) = some x) : q = p := by
  have hguard := h.at_work hq
  rw [hp, Option.some.injEq] at hguard
  exact hguard.symm

theorem Invariant.settled_of_free (h : Invariant db₀ s) (hfree : s.lock.writer = none) :
    s.db = sequential db₀ s.history := by
  apply h.all.settled
  intro p hp
  rw [hfree] at hp
  cases hp

theorem listen (h : Invariant db₀ s) (hp : s.threads p = .reading)
    (hc : ∀ r, writes c = some r → Storable r) (t : Traversal Text Text) :
    Invariant db₀ ((s.hears p c).moveTo p (.waiting c t)) := by
  have hlocal := h.each p
  have hidle : work (s.threads p) = none := by rw [hp]; rfl
  constructor
  · apply each_moved h.each ((untouched_hears s p c).trans (untouched_moveTo _ p _))
    constructor
    · simpa [System.moveTo, System.hears, Point.guard, hp] using hlocal.writer
    · simpa [System.moveTo, System.hears, Point.guard, hp] using hlocal.reader
    · simpa [System.moveTo, System.hears, Point.unsent, hp] using hlocal.answered
    · simpa [System.moveTo, System.hears, Point.pending, hp] using hlocal.ordered
    · simpa [System.moveTo, System.hears, Point.pending] using hc
  · exact h.all.frame rfl rfl rfl (work_moveTo (s.hears p c) hidle rfl) h.all.exclusive
      h.all.serial h.all.storable

theorem respond (h : Invariant db₀ s) (hp : s.threads p = .reading) {response : Text}
    (hc : execute (sequential db₀ s.history) (healthy t) c =
      (sequential db₀ s.history, response)) (hnone : writes c = none) :
    Invariant db₀ (((s.hears p c).record p t c response).moveTo p (.replying c response)) := by
  have hlocal := h.each p
  have hidle : work (s.threads p) = none := by rw [hp]; rfl
  constructor
  · have hrecorded := (untouched_hears s p c).trans (untouched_record _ p t c response)
    apply each_moved h.each (hrecorded.trans (untouched_moveTo _ p _))
    constructor
    · simpa [System.moveTo, System.hears, System.record, Point.guard, hp] using hlocal.writer
    · simpa [System.moveTo, System.hears, System.record, Point.guard, hp] using hlocal.reader
    · simpa [System.moveTo, System.hears, System.record, Point.unsent, hp, own_snoc_self]
        using hlocal.answered
    · simpa [System.moveTo, System.hears, System.record, Point.pending, hp, own_snoc_self]
        using hlocal.ordered
    · simp [System.moveTo, Point.pending]
  · have hsame : sequential db₀ (s.history ++ [⟨p, t, c, response⟩]) =
        sequential db₀ s.history := by
      rw [sequential_snoc]
      exact congrArg Prod.fst hc
    refine h.all.frame rfl hsame rfl (work_moveTo ((s.hears p c).record p t c response) hidle rfl)
      h.all.exclusive ?_ ?_
    · exact serial_record h.all p (congrArg Prod.snd hc)
    · refine storable_record h.all p response (t := t) ?_
      intro r hr
      rw [hnone] at hr
      cases hr

theorem stop (h : Invariant db₀ s) (hp : s.threads p = .reading) :
    Invariant db₀ (s.moveTo p (.stopped [])) := by
  have hlocal := h.each p
  have hidle : work (s.threads p) = none := by rw [hp]; rfl
  constructor
  · apply each_moved h.each (untouched_moveTo s p _)
    constructor
    · simpa [System.moveTo, Point.guard, hp] using hlocal.writer
    · simpa [System.moveTo, Point.guard, hp] using hlocal.reader
    · simpa [System.moveTo, Point.unsent, hp] using hlocal.answered
    · simpa [System.moveTo, Point.pending, hp] using hlocal.ordered
    · simp [System.moveTo, Point.pending]
  · exact h.all.moveTo hidle rfl

theorem acquire_read (h : Invariant db₀ s) {k : Text} (hp : s.threads p = .waiting (.get k) t)
    (hfree : s.lock.writer = none) :
    Invariant db₀ ({ s with lock := { s.lock with readers := insert p s.lock.readers } }.moveTo p
      (.looking t k)) := by
  have hlocal := h.each p
  have hidle : work (s.threads p) = none := by rw [hp]; rfl
  constructor
  · have hlock : Untouched p s
        { s with lock := { s.lock with readers := insert p s.lock.readers } } := by
      apply untouched_lock
      · exact fun q _ => Iff.rfl
      · exact fun q hq => Finset.mem_insert.trans (or_iff_right hq)
    apply each_moved h.each (hlock.trans (untouched_moveTo _ p _))
    constructor
    · simp [System.moveTo, Point.guard, hfree]
    · simp [System.moveTo, Point.guard]
    · simpa [System.moveTo, Point.unsent, hp] using hlocal.answered
    · simpa [System.moveTo, Point.pending, hp] using hlocal.ordered
    · simpa [System.moveTo, Point.pending, hp] using hlocal.storable
  · refine h.all.frame rfl rfl rfl ?_ (fun hw => absurd hfree hw) h.all.serial h.all.storable
    exact work_moveTo { s with lock := { s.lock with readers := insert p s.lock.readers } } hidle
      rfl

theorem acquire_write (h : Invariant db₀ s) (hp : s.threads p = .waiting c t)
    (hfree : s.lock.writer = none) (hreaders : s.lock.readers = ∅) {w : Work} {response : Text}
    (hmidway : Midway (sequential db₀ s.history) (sequential db₀ s.history) c t w response) :
    Invariant db₀ ({ s with lock := { s.lock with writer := some p } }.moveTo p
      (.writing c t w response)) := by
  have hlocal := h.each p
  have hnow := h.settled_of_free hfree
  constructor
  · have hlock : Untouched p s { s with lock := { s.lock with writer := some p } } := by
      apply untouched_lock
      · exact fun q hq => by simpa [hfree] using Ne.symm hq
      · exact fun q _ => Iff.rfl
    apply each_moved h.each (hlock.trans (untouched_moveTo _ p _))
    constructor
    · simp [System.moveTo, Point.guard]
    · simp [System.moveTo, Point.guard, hreaders]
    · simpa [System.moveTo, Point.unsent, hp] using hlocal.answered
    · simpa [System.moveTo, Point.pending, hp] using hlocal.ordered
    · simpa [System.moveTo, Point.pending, hp] using hlocal.storable
  · constructor
    · exact fun _ => hreaders
    · exact h.all.serial
    · exact h.all.storable
    · intro hidle
      exact absurd (hidle p rfl) (by simp [System.moveTo, work])
    · intro q c' t' w' response' hq
      by_cases hqp : q = p
      · subst hqp
        simp only [System.moveTo, Function.update_self, work, Option.some.injEq,
          Prod.mk.injEq] at hq
        obtain ⟨rfl, rfl, rfl, rfl⟩ := hq
        simpa [System.moveTo, hnow] using hmidway
      · -- Nobody else is at work, since nobody had the write guard.
        simp only [System.moveTo, Function.update_of_ne hqp] at hq
        have hguard := h.at_work hq
        rw [hfree] at hguard
        cases hguard

theorem midway_first (now : Db) (happend : now.engine.logFile.append = true)
    (c : Command) (t : Traversal Text Text) {w : Work} {response : Text}
    (h : firstWork c = some (w, response)) : Midway now now c t w response := by
  cases c with
  | set k v =>
    cases h
    exact ⟨rfl, happend⟩
  | del k =>
    cases h
    exact ⟨rfl, happend⟩
  | compact =>
    cases h
    constructor
    · exact Prod.ext (execute_store now t .compact) (compact_reply now t)
    · exact ⟨now.fs.read DB_PATH, _, rfl, rfl⟩
  | get k => cases h
  | ping => cases h
  | unknown => cases h

theorem look (h : Invariant db₀ s) {k : Text} (hp : s.threads p = .looking t k) :
    Invariant db₀ ((s.record p t (.get k) (answer (s.db.engine.get k))).moveTo p
      (.holding .read (.get k) (answer (s.db.engine.get k)))) := by
  have hlocal := h.each p
  have hidle : work (s.threads p) = none := by rw [hp]; rfl
  have hreader : p ∈ s.lock.readers := hlocal.reader.mpr (by rw [hp]; rfl)
  have hfree : s.lock.writer = none := by
    by_contra hw
    rw [h.all.exclusive hw] at hreader
    exact absurd hreader (Finset.notMem_empty p)
  have hnow := h.settled_of_free hfree
  have hresponse : (execute (sequential db₀ s.history) (healthy t) (.get k)).2 =
      answer (s.db.engine.get k) := by
    rw [hnow]
    rfl
  constructor
  · apply each_moved h.each ((untouched_record s p t _ _).trans (untouched_moveTo _ p _))
    constructor
    · simpa [System.moveTo, System.record, Point.guard, hp] using hlocal.writer
    · simpa [System.moveTo, System.record, Point.guard, hp] using hlocal.reader
    · simpa [System.moveTo, System.record, Point.unsent, hp, own_snoc_self]
        using hlocal.answered
    · simpa [System.moveTo, System.record, Point.pending, hp, own_snoc_self]
        using hlocal.ordered
    · simp [System.moveTo, Point.pending]
  · have hsame : sequential db₀ (s.history ++ [⟨p, t, .get k, answer (s.db.engine.get k)⟩]) =
        sequential db₀ s.history := sequential_snoc db₀ s.history _
    refine h.all.frame rfl hsame rfl ?_ h.all.exclusive ?_ ?_
    · exact work_moveTo (s.record p t (.get k) (answer (s.db.engine.get k))) hidle rfl
    · exact serial_record h.all p hresponse
    · exact storable_record h.all p _ (c := .get k) (t := t) (by simp [writes])

theorem finish_work (h : Invariant db₀ s) {w : Work} {response : Text}
    (hp : s.threads p = .writing c t w response) (hdone : finished s.db t w = s.db) :
    Invariant db₀ (finish s p c t response) := by
  have hlocal := h.each p
  have hwriter : s.lock.writer = some p := hlocal.writer.mpr (by rw [hp]; rfl)
  have hmidway := h.all.midway p c t w response (by rw [hp]; rfl)
  have hsequential : sequential db₀ (s.history ++ [⟨p, t, c, response⟩]) = s.db := by
    rw [sequential_snoc]
    exact (congrArg Prod.fst hmidway.result).trans hdone
  constructor
  · apply each_moved h.each ((untouched_record s p t _ _).trans (untouched_moveTo _ p _))
    constructor
    · simpa [finish, System.moveTo, System.record, Point.guard, hp] using hlocal.writer
    · simpa [finish, System.moveTo, System.record, Point.guard, hp] using hlocal.reader
    · simpa [finish, System.moveTo, System.record, Point.unsent, hp, own_snoc_self]
        using hlocal.answered
    · simpa [finish, System.moveTo, System.record, Point.pending, hp, own_snoc_self]
        using hlocal.ordered
    · simp [System.moveTo, Point.pending]
  · constructor
    · exact h.all.exclusive
    · exact serial_record h.all p (congrArg Prod.snd hmidway.result)
    · refine storable_record h.all p response (t := t) ?_
      apply hlocal.storable
      rw [hp]
      exact List.mem_singleton_self c
    · exact fun _ => hsequential.symm
    · intro q c' t' w' response' hq
      by_cases hqp : q = p
      · subst hqp
        simp [finish, System.moveTo, System.record, work] at hq
      · simp only [finish, System.moveTo, Function.update_of_ne hqp] at hq
        exact absurd (h.one_writer hwriter hq) hqp

theorem continue_work (h : Invariant db₀ s) {w w' : Work} {response : Text} {db : Db}
    (hp : s.threads p = .writing c t w response) (hfinished : finished db t w' = finished s.db t w)
    (hunderway : Underway db t w') :
    Invariant db₀ ({ s with db := db }.moveTo p (.writing c t w' response)) := by
  have hlocal := h.each p
  have hwriter : s.lock.writer = some p := hlocal.writer.mpr (by rw [hp]; rfl)
  have hmidway := h.all.midway p c t w response (by rw [hp]; rfl)
  constructor
  · apply each_moved h.each ((untouched_db s p db).trans (untouched_moveTo _ p _))
    constructor
    · simpa [System.moveTo, Point.guard, hp] using hlocal.writer
    · simpa [System.moveTo, Point.guard, hp] using hlocal.reader
    · simpa [System.moveTo, Point.unsent, hp] using hlocal.answered
    · simpa [System.moveTo, Point.pending, hp] using hlocal.ordered
    · simpa [System.moveTo, Point.pending, hp] using hlocal.storable
  · constructor
    · exact h.all.exclusive
    · exact h.all.serial
    · exact h.all.storable
    · intro hidle
      exact absurd (hidle p hwriter) (by simp [System.moveTo, work])
    · intro q c' t' w'' response' hq
      by_cases hqp : q = p
      · subst hqp
        simp only [System.moveTo, Function.update_self, work, Option.some.injEq,
          Prod.mk.injEq] at hq
        obtain ⟨rfl, rfl, rfl, rfl⟩ := hq
        constructor
        · exact hmidway.result.trans (congrArg (·, response) hfinished.symm)
        · exact hunderway
      · simp only [System.moveTo, Function.update_of_ne hqp] at hq
        exact absurd (h.one_writer hwriter hq) hqp

theorem append_fragments {db : Db} (happend : db.engine.logFile.append = true)
    (fragments : List Text) :
    run appendFragment db fragments = appendFragment db fragments.flatten := by
  induction fragments generalizing db with
  | nil =>
    simp only [run_nil, appendFragment, List.flatten_nil, encode_nil, put_nil]
    rfl
  | cons f fragments ih =>
    have hrest : run appendFragment (appendFragment db f) fragments =
        appendFragment (appendFragment db f) fragments.flatten := ih happend
    rw [run_cons, hrest]
    simp only [appendFragment, List.flatten_cons, encode_append, List.length_append,
      put_put (Or.inl happend), Nat.add_assoc]

theorem workOn_invariant (h : Invariant db₀ s) {w : Work} {response : Text}
    (hp : s.threads p = .writing c t w response) (n : ℕ) :
    Invariant db₀ (workOn s p c t w response n) := by
  have hmidway := h.all.midway p c t w response (by rw [hp]; rfl)
  have hunderway := hmidway.underway
  cases w with
  | insert k v =>
    have happend : s.db.engine.logFile.append = true := hunderway
    refine continue_work h hp ?_ happend
    have hrecord : ∀ db : Db, db.engine.logFile.append = true →
        run appendFragment db (recordFragments k v) =
          appendFragment db (recordFragments k v).flatten :=
      fun _ ha => append_fragments ha _
    exact hrecord ⟨s.db.fs, { s.db.engine with map := s.db.engine.map.insert k v }⟩ happend
  | append fragments =>
    have happend : s.db.engine.logFile.append = true := hunderway
    cases fragments with
    | nil => exact finish_work h hp rfl
    | cons f fragments => exact continue_work h hp rfl happend
  | compact point =>
    obtain ⟨log, entries, hprogress, horder⟩ := hunderway
    have hmap := compactStep_engine (t := t) ⟨s.db, point⟩ n
    have hstep : Underway (compactStep t ⟨s.db, point⟩ n).db t
        (.compact (compactStep t ⟨s.db, point⟩ n).point) := by
      refine ⟨log, entries, progress_step hprogress horder n, ?_⟩
      rw [hmap]
      exact horder
    have hrest : finished (compactStep t ⟨s.db, point⟩ n).db t
        (.compact (compactStep t ⟨s.db, point⟩ n).point) = finished s.db t (.compact point) :=
      remaining_step hprogress n
    cases point with
    | returned => exact finish_work h hp rfl
    | openTemp => exact continue_work h hp hrest hstep
    | write temp pending rest => exact continue_work h hp hrest hstep
    | sync temp => exact continue_work h hp hrest hstep
    | rename => exact continue_work h hp hrest hstep
    | reopen => exact continue_work h hp hrest hstep

theorem acquire_invariant (h : Invariant db₀ s)
    (happend : (sequential db₀ s.history).engine.logFile.append = true)
    (hp : s.threads p = .waiting c t) : Invariant db₀ (acquire s p c t) := by
  have hwrite : ∀ work response, firstWork c = some (work, response) →
      s.lock.writer = none ∧ s.lock.readers = ∅ →
        Invariant db₀ ({ s with lock := { s.lock with writer := some p } }.moveTo p
          (.writing c t work response)) := fun _ _ hfirst hfree =>
    acquire_write h hp hfree.1 hfree.2 (midway_first _ happend c t hfirst)
  cases c with
  | get k =>
    simp only [acquire]
    split
    · next hfree => exact acquire_read h hp hfree
    · exact h
  | set k v =>
    simp only [acquire, firstWork]
    split
    · next hfree => exact hwrite _ _ rfl hfree
    · exact h
  | del k =>
    simp only [acquire, firstWork]
    split
    · next hfree => exact hwrite _ _ rfl hfree
    · exact h
  | compact =>
    simp only [acquire, firstWork]
    split
    · next hfree => exact hwrite _ _ rfl hfree
    · exact h
  | ping => exact h
  | unknown => exact h

theorem receive_invariant (h : Invariant db₀ s) (hp : s.threads p = .reading) {m : Message}
    (hm : ∀ c, m.command = some c → ∀ r, writes c = some r → Storable r) :
    Invariant db₀ (receive s p m) := by
  rw [receive]
  cases hc : m.command with
  | none => exact stop h hp
  | some c =>
    have hstorable := hm c hc
    cases c with
    | ping => exact respond h hp rfl rfl
    | unknown => exact respond h hp rfl rfl
    | set k v => exact listen h hp hstorable m.order
    | get k => exact listen h hp hstorable m.order
    | del k => exact listen h hp hstorable m.order
    | compact => exact listen h hp hstorable m.order

theorem Invariant.settled_of_holding (h : Invariant db₀ s) {g : Guard} {response : Text}
    (hp : s.threads p = .holding g c response) : s.db = sequential db₀ s.history := by
  have hguard : (s.threads p).guard = some g := by rw [hp]; rfl
  have hidle : work (s.threads p) = none := by rw [hp]; rfl
  apply h.all.settled
  intro q hq
  cases g with
  | read =>
    have hreader : p ∈ s.lock.readers := (h.each p).reader.mpr hguard
    have hnone : s.lock.readers = ∅ := h.all.exclusive (by rw [hq]; exact Option.some_ne_none q)
    rw [hnone] at hreader
    exact absurd hreader (Finset.notMem_empty p)
  | write =>
    have hwriter : s.lock.writer = some p := (h.each p).writer.mpr hguard
    rw [hwriter, Option.some.injEq] at hq
    rwa [← hq]

theorem release_invariant (h : Invariant db₀ s) {g : Guard} {response : Text}
    (hp : s.threads p = .holding g c response) :
    Invariant db₀ ({ s with lock := s.lock.unlock p g }.moveTo p (.replying c response)) := by
  have hlocal := h.each p
  have hidle : work (s.threads p) = none := by rw [hp]; rfl
  have hguard : (s.threads p).guard = some g := by rw [hp]; rfl
  cases g with
  | read =>
    have hreader : p ∈ s.lock.readers := hlocal.reader.mpr hguard
    have hfree : s.lock.writer = none := by
      by_contra hw
      rw [h.all.exclusive hw] at hreader
      exact absurd hreader (Finset.notMem_empty p)
    constructor
    · have hlock : Untouched p s { s with lock := s.lock.unlock p .read } := by
        apply untouched_lock
        · exact fun q _ => Iff.rfl
        · exact fun q hq => Finset.mem_erase.trans (and_iff_right hq)
      apply each_moved h.each (hlock.trans (untouched_moveTo _ p _))
      constructor
      · simp [System.moveTo, RwLock.unlock, Point.guard, hfree]
      · simp [System.moveTo, RwLock.unlock, Point.guard]
      · simpa [System.moveTo, Point.unsent, hp] using hlocal.answered
      · simpa [System.moveTo, Point.pending, hp] using hlocal.ordered
      · simp [System.moveTo, Point.pending]
    · refine h.all.frame rfl rfl rfl ?_ (fun hw => absurd hfree hw) h.all.serial h.all.storable
      exact work_moveTo { s with lock := s.lock.unlock p .read } hidle rfl
  | write =>
    have hwriter : s.lock.writer = some p := hlocal.writer.mpr hguard
    have hnow := h.settled_of_holding hp
    constructor
    · have hlock : Untouched p s { s with lock := s.lock.unlock p .write } := by
        apply untouched_lock
        · exact fun q hq => by simpa [RwLock.unlock, hwriter] using Ne.symm hq
        · exact fun q _ => Iff.rfl
      apply each_moved h.each (hlock.trans (untouched_moveTo _ p _))
      constructor
      · simp [System.moveTo, RwLock.unlock, Point.guard]
      · simpa [System.moveTo, RwLock.unlock, Point.guard, hp] using hlocal.reader
      · simpa [System.moveTo, Point.unsent, hp] using hlocal.answered
      · simpa [System.moveTo, Point.pending, hp] using hlocal.ordered
      · simp [System.moveTo, Point.pending]
    · constructor
      · exact fun hw => absurd rfl hw
      · exact h.all.serial
      · exact h.all.storable
      · exact fun _ => hnow
      · intro q c' t' w' response' hq
        have hnone : work (.replying c response) = none := rfl
        have hsame := work_moveTo { s with lock := s.lock.unlock p .write } hidle hnone q
        exact h.all.midway q c' t' w' response' (hsame.symm.trans hq)

theorem reply_invariant (h : Invariant db₀ s) {response : Text}
    (hp : s.threads p = .replying c response) :
    Invariant db₀ ((s.answers p c response).moveTo p .reading) ∧
      Invariant db₀ (s.moveTo p (.stopped [(c, response)])) := by
  have hlocal := h.each p
  have hidle : work (s.threads p) = none := by rw [hp]; rfl
  constructor
  · constructor
    · apply each_moved h.each ((untouched_answers s p c response).trans (untouched_moveTo _ p _))
      constructor
      · simpa [System.moveTo, System.answers, Point.guard, hp] using hlocal.writer
      · simpa [System.moveTo, System.answers, Point.guard, hp] using hlocal.reader
      · simpa [System.moveTo, System.answers, Point.unsent, hp] using hlocal.answered
      · simpa [System.moveTo, System.answers, Point.pending, hp] using hlocal.ordered
      · simp [System.moveTo, Point.pending]
    · exact h.all.frame rfl rfl rfl (work_moveTo (s.answers p c response) hidle rfl)
        h.all.exclusive h.all.serial h.all.storable
  · constructor
    · apply each_moved h.each (untouched_moveTo s p _)
      constructor
      · simpa [System.moveTo, Point.guard, hp] using hlocal.writer
      · simpa [System.moveTo, Point.guard, hp] using hlocal.reader
      · simpa [System.moveTo, Point.unsent, hp] using hlocal.answered
      · simpa [System.moveTo, Point.pending, hp] using hlocal.ordered
      · simp [System.moveTo, Point.pending]
    · exact h.all.moveTo hidle rfl

theorem started_invariant (db₀ : Db) : Invariant db₀ (started db₀) := by
  constructor
  · intro p
    constructor
    · simp [started, Point.guard]
    · simp [started, Point.guard]
    · rfl
    · rfl
    · exact fun _ hc => absurd hc List.not_mem_nil
  · constructor
    · exact fun hw => absurd rfl hw
    · rfl
    · exact fun _ he => absurd he List.not_mem_nil
    · exact fun _ => rfl
    · simp [started, work]

def Event.message : Event → Option Message
  | .receive _ m => some m
  | _ => none

def effects (history : List Entry) : List (Text × Text) :=
  history.filterMap fun e => writes e.command

theorem sets_history {history : List Entry} :
    (history.flatMap fun e => storeOps e.order e.command).flatMap Op.sets = effects history := by
  induction history with
  | nil => rfl
  | cons e history ih =>
    rw [List.flatMap_cons, List.flatMap_append, sets_storeOps, ih, effects, effects]
    cases hw : writes e.command with
    | none => simp [hw]
    | some r => simp [hw]

theorem sequential_store (db : Db) (history : List Entry) :
    sequential db history = run step db (history.flatMap fun e => storeOps e.order e.command) := by
  induction history generalizing db with
  | nil => rfl
  | cons e history ih =>
    rw [List.flatMap_cons, run_append, ← execute_store]
    exact ih _

theorem sequential_carries {rs : List (Text × Text)} (h : Carries db₀ rs) {history : List Entry}
    (hs : ∀ e ∈ history, ∀ r, writes e.command = some r → Storable r) :
    ∃ ts, Carries (sequential db₀ history) ts ∧
      writeAll ∅ ts = writeAll db₀.engine.map (effects history) := by
  have heffects : ∀ r ∈ effects history, Storable r := by
    intro r hr
    obtain ⟨e, he, hw⟩ := List.mem_filterMap.mp hr
    exact hs e he r hw
  obtain ⟨ts, hcarries, hwrites⟩ := run_carries h
    (history.flatMap fun e => storeOps e.order e.command) (by rw [sets_history]; exact heffects)
  rw [← sequential_store] at hcarries
  rw [sets_history, ← h.map] at hwrites
  exact ⟨ts, hcarries, hwrites⟩

/-- The process goes on, and nothing is taken out of the history. -/
structure Extends (s s' : System) : Prop where
  exited : s'.exited = s.exited
  history : s.history <+: s'.history

theorem Extends.refl (s : System) : Extends s s := ⟨rfl, List.prefix_refl _⟩

theorem receive_extends (s : System) (p : Process) (m : Message) :
    Extends s (receive s p m) := by
  rw [receive]
  cases m.command with
  | none => exact ⟨rfl, List.prefix_refl _⟩
  | some c =>
    cases c with
    | ping => exact ⟨rfl, List.prefix_append _ _⟩
    | unknown => exact ⟨rfl, List.prefix_append _ _⟩
    | _ => exact ⟨rfl, List.prefix_refl _⟩

theorem acquire_extends (s : System) (p : Process) (c : Command) (t : Traversal Text Text) :
    Extends s (acquire s p c t) := by
  cases c with
  | ping => exact Extends.refl s
  | unknown => exact Extends.refl s
  | _ =>
    simp only [acquire, firstWork]
    split
    · exact ⟨rfl, List.prefix_refl _⟩
    · exact Extends.refl s

theorem workOn_extends (s : System) (p : Process) (c : Command) (t : Traversal Text Text)
    (w : Work) (response : Text) (n : ℕ) : Extends s (workOn s p c t w response n) := by
  cases w with
  | insert k v => exact ⟨rfl, List.prefix_refl _⟩
  | append fragments =>
    cases fragments with
    | nil => exact ⟨rfl, List.prefix_append _ _⟩
    | cons f fragments => exact ⟨rfl, List.prefix_refl _⟩
  | compact point =>
    cases point with
    | returned => exact ⟨rfl, List.prefix_append _ _⟩
    | _ => exact ⟨rfl, List.prefix_refl _⟩

/-- Every event keeps the invariant. Only the exit ends the process, and it comes when the
handler of Ctrl-C has done its compaction. -/
theorem move_invariant {rs : List (Text × Text)} (hdb : Carries db₀ rs) (h : Invariant db₀ s)
    (hrunning : s.exited = false) {e : Event} (hm : ∀ m ∈ Event.message e, CommaFree m) :
    Invariant db₀ (move s e) ∧ s.history <+: (move s e).history ∧
      ((move s e).exited = true → (move s e).db = sequential db₀ (move s e).history) := by
  have hstay : Invariant db₀ s ∧ s.history <+: s.history ∧
      (s.exited = true → s.db = sequential db₀ s.history) :=
    ⟨h, List.prefix_refl _, fun he => absurd (hrunning.symm.trans he) (by simp)⟩
  have hmove : ∀ s', Invariant db₀ s' → Extends s s' → Invariant db₀ s' ∧
      s.history <+: s'.history ∧ (s'.exited = true → s'.db = sequential db₀ s'.history) :=
    fun s' h' hextends => ⟨h', hextends.history, fun he =>
      absurd ((hextends.exited.trans hrunning).symm.trans he) (by simp)⟩
  cases e with
  | receive i m =>
    simp only [move]
    have hstorable : ∀ c, m.command = some c → ∀ r, writes c = some r → Storable r := by
      intro c hc r hr
      apply storable_written (hm m rfl)
      simp only [written, hc, Option.bind_some, hr, Option.toList_some, List.mem_singleton]
    cases hp : s.threads (some i) with
    | reading => exact hmove _ (receive_invariant h hp hstorable) (receive_extends _ _ _)
    | _ => exact hstay
  | disconnect i =>
    simp only [move]
    cases hp : s.threads (some i) with
    | reading => exact hmove _ (stop h hp) ⟨rfl, List.prefix_refl _⟩
    | _ => exact hstay
  | interrupt t =>
    simp only [move]
    cases hp : s.threads none with
    | reading =>
      have hnone : ∀ r, writes .compact = some r → Storable r := by simp [writes]
      exact hmove _ (listen h hp hnone t) ⟨rfl, List.prefix_refl _⟩
    | _ => exact hstay
  | acquire p =>
    simp only [move]
    obtain ⟨ts, hcarries, _⟩ := sequential_carries hdb h.all.storable
    cases hp : s.threads p with
    | waiting c t =>
      exact hmove _ (acquire_invariant h hcarries.appending hp) (acquire_extends _ _ _ _)
    | _ => exact hstay
  | advance p n =>
    simp only [move, advance]
    cases hp : s.threads p with
    | looking t k => exact hmove _ (look h hp) ⟨rfl, List.prefix_append _ _⟩
    | writing c t w response =>
      exact hmove _ (workOn_invariant h hp n) (workOn_extends _ _ _ _ _ _ _)
    | _ => exact hstay
  | release i =>
    simp only [move]
    cases hp : s.threads (some i) with
    | holding g c response => exact hmove _ (release_invariant h hp) ⟨rfl, List.prefix_refl _⟩
    | _ => exact hstay
  | reply i delivered =>
    simp only [move]
    cases hp : s.threads (some i) with
    | replying c response =>
      obtain ⟨hdelivered, hfailed⟩ := reply_invariant h hp
      cases delivered with
      | true => exact hmove _ hdelivered ⟨rfl, List.prefix_refl _⟩
      | false => exact hmove _ hfailed ⟨rfl, List.prefix_refl _⟩
    | _ => exact hstay
  | exit =>
    simp only [move]
    cases hp : s.threads none with
    | holding g c response =>
      refine ⟨?_, List.prefix_refl _, fun _ => h.settled_of_holding hp⟩
      constructor
      · intro q
        have hq := h.each q
        exact ⟨hq.writer, hq.reader, hq.answered, hq.ordered, hq.storable⟩
      · exact h.all.frame rfl rfl rfl (fun _ => rfl) h.all.exclusive h.all.serial h.all.storable
    | _ => exact hstay

/-- The responses are those of the history when its commands are executed one after the other,
and the history has the commands of each thread in the order in which it has read them. -/
structure Linearizes (db₀ : Db) (s : System) : Prop where
  serial : s.history.map Entry.response = replies perform db₀ s.history
  answered : ∀ p, s.received p <+: own s.history p
  ordered : ∀ p, (own s.history p).map Prod.fst <+: s.sent p

/-- The map is what the history has written. The key of an acknowledged write has its value, or
that of a write which took effect later. -/
structure Durable (db₀ : Db) (s : System) (m : HashMap) : Prop where
  map : m = writeAll db₀.engine.map (effects s.history)
  recovered : ∀ p c response r, (c, response) ∈ s.received p → writes c = some r →
    ∃ before after v, effects s.history = before ++ r :: after ∧ m.lookup r.1 = some v ∧
      (r.1, v) ∈ r :: after

theorem Invariant.linearizes (h : Invariant db₀ s) : Linearizes db₀ s := by
  constructor
  · exact h.all.serial
  · intro p
    rw [(h.each p).answered]
    exact List.prefix_append _ _
  · intro p
    rw [(h.each p).ordered]
    exact List.prefix_append _ _

theorem lookup_last_write (m : HashMap) (r : Text × Text) (rs : List (Text × Text)) :
    ∃ v, (writeAll m (r :: rs)).lookup r.1 = some v ∧ (r.1, v) ∈ r :: rs := by
  induction rs using List.reverseRecOn with
  | nil =>
    refine ⟨r.2, ?_, List.mem_singleton_self r⟩
    exact (lookup_write m r r.1).trans (if_pos rfl)
  | append_singleton rs last ih =>
    obtain ⟨v, hlookup, hmem⟩ := ih
    have hsplit : writeAll m (r :: (rs ++ [last])) = write (writeAll m (r :: rs)) last :=
      writeAll_append m (r :: rs) [last]
    rw [hsplit, lookup_write]
    split
    · next hkey =>
      refine ⟨last.2, rfl, ?_⟩
      rw [hkey]
      simp
    · exact ⟨v, hlookup, List.mem_append_left [last] hmem⟩

theorem Linearizes.durable (h : Linearizes db₀ s) {m : HashMap}
    (hm : m = writeAll db₀.engine.map (effects s.history)) : Durable db₀ s m := by
  refine ⟨hm, ?_⟩
  intro p c response r hreceived hwrites
  have hown := (h.answered p).subset hreceived
  obtain ⟨e, he, hentry⟩ := List.mem_map.mp hown
  cases hentry
  have hmem : r ∈ effects s.history :=
    List.mem_filterMap.mpr ⟨e, (List.mem_filter.mp he).1, hwrites⟩
  obtain ⟨before, after, hsplit⟩ := List.append_of_mem hmem
  obtain ⟨v, hlookup, hlast⟩ := lookup_last_write (writeAll db₀.engine.map before) r after
  rw [← writeAll_append, ← hsplit, ← hm] at hlookup
  exact ⟨before, after, v, hsplit, hlookup, hlast⟩

structure Sane (db₀ : Db) (s : System) : Prop where
  invariant : Invariant db₀ s
  exited : s.exited = true → s.db = sequential db₀ s.history

theorem sane_next {rs : List (Text × Text)} (hdb : Carries db₀ rs) (h : Sane db₀ s) {e : Event}
    (hm : ∀ m ∈ Event.message e, CommaFree m) :
    Sane db₀ (next s e) ∧ s.history <+: (next s e).history := by
  rw [next]
  split
  · exact ⟨h, List.prefix_refl _⟩
  · next hrunning =>
    obtain ⟨hinvariant, hhistory, hexited⟩ :=
      move_invariant hdb h.invariant (Bool.eq_false_iff.mpr hrunning) hm
    exact ⟨⟨hinvariant, hexited⟩, hhistory⟩

theorem sane_run {rs : List (Text × Text)} (hdb : Carries db₀ rs) (h : Sane db₀ s)
    {es : List Event} (hm : ∀ m ∈ es.filterMap Event.message, CommaFree m) :
    Sane db₀ (run next s es) ∧ s.history <+: (run next s es).history := by
  induction es generalizing s with
  | nil => exact ⟨h, List.prefix_refl _⟩
  | cons e es ih =>
    have hfirst : ∀ m ∈ Event.message e, CommaFree m := fun m he =>
      hm m (List.mem_filterMap.mpr ⟨e, List.mem_cons_self, he⟩)
    have hrest : ∀ m ∈ es.filterMap Event.message, CommaFree m := by
      intro m hmem
      obtain ⟨e', he', hmessage⟩ := List.mem_filterMap.mp hmem
      exact hm m (List.mem_filterMap.mpr ⟨e', List.mem_cons_of_mem e he', hmessage⟩)
    obtain ⟨hnext, hgrows⟩ := sane_next hdb h hfirst
    obtain ⟨hend, hmore⟩ := ih hnext hrest
    exact ⟨hend, hgrows.trans hmore⟩

/-- However the threads interleave and whenever Ctrl-C comes, the commands are those of one
history, which only grows. While nobody writes the log is the map, and when the process exits
the next engine has all that was acknowledged. -/
theorem commands_linearize (fs : FileSystem) {rs : List (Text × Text)}
    (hlog : fs.read DB_PATH = encodeLog rs) (hs : ∀ r ∈ rs, Storable r) :
    ∃ db₀, boot fs = some db₀ ∧
      ∀ as bs : List Event, (∀ m ∈ (as ++ bs).filterMap Event.message, CommaFree m) →
        let s := run next (started db₀) (as ++ bs)
        Linearizes db₀ s ∧ (run next (started db₀) as).history <+: s.history ∧
          (s.lock.writer = none → replay (s.db.fs.read DB_PATH) = s.db.engine.map) ∧
          (s.exited = true → ∃ db, boot s.db.fs = some db ∧ Durable db₀ s db.engine.map) := by
  obtain ⟨db₀, hboot, hcarries⟩ := boot_carries hlog hs
  refine ⟨db₀, hboot, ?_⟩
  intro as bs hm
  have hstart : Sane db₀ (started db₀) := ⟨started_invariant db₀, by simp [started]⟩
  rw [List.filterMap_append] at hm
  have hbefore : ∀ m ∈ as.filterMap Event.message, CommaFree m := fun m hmem =>
    hm m (List.mem_append_left _ hmem)
  have hafter : ∀ m ∈ bs.filterMap Event.message, CommaFree m := fun m hmem =>
    hm m (List.mem_append_right _ hmem)
  obtain ⟨hmiddle, _⟩ := sane_run hcarries hstart hbefore
  obtain ⟨hend, hgrows⟩ := sane_run hcarries hmiddle hafter
  rw [← run_append] at hend hgrows
  obtain ⟨ts, hts, hwrites⟩ := sequential_carries hcarries hend.invariant.all.storable
  have hlinearizes := hend.invariant.linearizes
  refine ⟨hlinearizes, hgrows, ?_, ?_⟩
  · intro hfree
    rw [hend.invariant.settled_of_free hfree]
    exact hts.replay_log
  · intro hexited
    rw [hend.exited hexited]
    obtain ⟨db, hreboot, hafter⟩ := hts.reboot
    exact ⟨db, hreboot, hlinearizes.durable (hafter.map.trans hwrites)⟩

def keyOrder : Traversal Text Text where
  order m := entriesAt m (m.keys.sort (· ≤ ·))
  enumerates m :=
    enumerates_entriesAt (m.keys.sort_nodup _) fun _ hk => (m.keys.mem_sort _).mpr hk

/-- Two clients set one key. The signal comes while one of them is between the map and the log, and
the process exits while the other waits for the lock. -/
theorem commands_linearize_two_clients :
    let as : List Event := [.receive 0 ⟨keyOrder, encode "SET k a\n".toList⟩,
      .receive 1 ⟨keyOrder, encode "SET k b\n".toList⟩, .acquire (some 1), .advance (some 1) 0,
      .interrupt keyOrder, .advance (some 1) 0, .advance (some 1) 0, .advance (some 1) 0,
      .advance (some 1) 0, .advance (some 1) 0, .release 1]
    let bs : List Event :=
      [.acquire none, .reply 1 true] ++ List.replicate 8 (.advance none 10) ++ [.exit]
    ∃ db₀, boot emptyFileSystem = some db₀ ∧
      let r := run next (started db₀) as
      let s := run next (started db₀) (as ++ bs)
      r.lock.writer = none ∧ replay (r.db.fs.read DB_PATH) = r.db.engine.map ∧
        Linearizes db₀ s ∧ r.history <+: s.history ∧
        s.exited = true ∧ ∃ db, boot s.db.fs = some db ∧ Durable db₀ s db.engine.map := by
  intro as bs
  have hlog : emptyFileSystem.read DB_PATH = encodeLog [] := rfl
  obtain ⟨db₀, hboot, hall⟩ := commands_linearize emptyFileSystem hlog (by simp)
  have hclean : ∀ m ∈ (as ++ bs).filterMap Event.message, CommaFree m := by
    intro m hm
    have hmessages : (as ++ bs).filterMap Event.message =
        [⟨keyOrder, encode "SET k a\n".toList⟩, ⟨keyOrder, encode "SET k b\n".toList⟩] := rfl
    rw [hmessages] at hm
    simp only [List.mem_cons, List.not_mem_nil, or_false] at hm
    rcases hm with rfl | rfl
    · decide
    · decide
  have hfirst : ∀ m ∈ (as ++ []).filterMap Event.message, CommaFree m := by
    intro m hm
    apply hclean
    rw [List.append_nil] at hm
    rw [List.filterMap_append]
    exact List.mem_append_left _ hm
  have hfree : ((boot emptyFileSystem).map fun db => (run next (started db) as).lock.writer) =
      some none := by
    decide +kernel
  have hexit : ((boot emptyFileSystem).map fun db => (run next (started db) (as ++ bs)).exited) =
      some true := by
    decide +kernel
  rw [hboot, Option.map_some, Option.some_inj] at hfree hexit
  obtain ⟨_, _, hsettled, _⟩ := hall as [] hfirst
  obtain ⟨hlinearizes, hgrows, _, hdurable⟩ := hall as bs hclean
  rw [List.append_nil] at hsettled
  exact ⟨db₀, hboot, hfree, hsettled hfree, hlinearizes, hgrows, hexit, hdurable hexit⟩

end ChronosConcurrency

import Mathlib.Algebra.Order.BigOperators.Group.Finset
import Mathlib.Data.List.GetD
import Mathlib.Data.Prod.Lex
import Vanguard.ChronosConcurrency

/-! No command waits for ever. The threads share one lock, and whoever has it gives it back, so once
the clients are silent every thread comes to the end of its command, unless Ctrl-C or a panic of the
main thread ends the process. -/
namespace ChronosProgress

open Utf8Text FileSystems LastWriterMaps StateMachines ChronosEngine ChronosLogFormat ChronosStore
open ChronosCompaction ChronosParser ChronosServer ChronosThreads
open ChronosConcurrency (Untouched untouched_moveTo untouched_hears untouched_record
  untouched_answers untouched_lock untouched_db)

def Event.input : Event → Bool
  | .receive _ _ => true
  | .disconnect _ => true
  | .interrupt _ => true
  | _ => false

def ProcessEvent.input : ProcessEvent → Bool
  | .incoming _ => true
  | .thread e => Event.input e

/-- An incoming stream that makes the main thread panic. -/
def Fatal : ProcessEvent → Prop
  | .incoming (.ok stream) => (∃ err, stream.peerAddr = .error err) ∨ stream.spawned = false
  | _ => False

def Busy : Point → Prop
  | .reading => False
  | .stopped _ => False
  | _ => True

instance (x : Point) : Decidable (Busy x) := by
  cases x <;> first | exact instDecidableTrue | exact instDecidableFalse

/-- The event is what a thread that stands at the point does next. -/
def Moves (p : Process) : Point → Event → Prop
  | .waiting _ _, .acquire q => q = p
  | .looking _ _, .advance q _ => q = p
  | .writing _ _ _ _, .advance q _ => q = p
  | .holding _ _ _, .release i => some i = p
  | .holding _ _ _, .exit => none = p
  | .replying _ _, .reply i _ => some i = p
  | _, _ => False

instance (p : Process) (x : Point) (e : Event) : Decidable (Moves p x e) := by
  cases x <;> cases e <;>
    first | exact instDecidableFalse | exact Option.instDecidableEq _ _

def Runs (p : Process) (x : Point) : ProcessEvent → Prop
  | .incoming _ => False
  | .thread e => Moves p x e

instance (p : Process) (x : Point) (e : ProcessEvent) : Decidable (Runs p x e) := by
  cases e <;> simp only [Runs] <;> infer_instance

/-- A thread that has something to do is run again, whether or not it finds the lock free then, as
long as there is the process. -/
def Fair (s : Chronos) (schedule : ℕ → ProcessEvent) : Prop :=
  ∀ p n, Busy ((along Chronos.next schedule s n).system.threads p) → ∃ m, n ≤ m ∧
    ((along Chronos.next schedule s m).panicked = true ∨
      (along Chronos.next schedule s m).system.exited = true ∨
      Runs p ((along Chronos.next schedule s m).system.threads p) (schedule m))

def Blocked (lock : RwLock) : Point → Prop
  | .waiting (.get _) _ => lock.writer ≠ none
  | .waiting _ _ => lock.writer ≠ none ∨ lock.readers ≠ ∅
  | _ => False

def Guarded : Command → Prop
  | .ping => False
  | .unknown => False
  | _ => True

def Fit (db : Db) (p : Process) : Point → Prop
  | .waiting c _ => Guarded c
  | .writing _ t (.compact point) _ => ∃ log entries, Progress log entries ⟨db, point⟩ ∧
      t.order db.engine.map = entries
  | .replying _ _ => p ≠ none
  | .stopped undelivered => p ≠ none ∧ undelivered.length ≤ 1
  | _ => True

/-- The guards that the threads hold are those that the lock has given out. -/
structure Locked (s : System) : Prop where
  writer : ∀ p, s.lock.writer = some p ↔ (s.threads p).guard = some .write
  readers : ∀ p, p ∈ s.lock.readers ↔ (s.threads p).guard = some .read
  exclusive : s.lock.writer ≠ none → s.lock.readers = ∅

/-- What a thread has heard was executed or is pending, and what was executed was answered or is
still to be sent. -/
structure Booked (s : System) (p : Process) : Prop where
  answered : own s.history p = s.received p ++ (s.threads p).unsent
  ordered : s.sent p = (own s.history p).map Prod.fst ++ (s.threads p).pending

structure Orderly (s : System) : Prop where
  locked : Locked s
  booked : ∀ p, Booked s p
  fit : ∀ p, Fit s.db p (s.threads p)
  silent : s.received none = []
  exited : s.exited = true → ∃ g c response, s.threads none = .holding g c response

/-- How many calls a compaction has to make. What comes after the first call depends on the map
that it finds. -/
def calls : CompactPoint → ℕ
  | .openTemp => 0
  | .write _ pending rest => pending.length + (encodeLog rest).length + rest.length + 4
  | .sync _ => 3
  | .rename => 2
  | .reopen => 1
  | .returned => 0

def effort : Point → ℕ
  | .writing _ _ (.insert k v) _ => (recordFragments k v).length + 1
  | .writing _ _ (.append fragments) _ => fragments.length
  | .writing _ _ (.compact point) _ => calls point
  | _ => 0

def stage : Point → ℕ
  | .waiting _ _ => 5
  | .writing _ _ (.compact .openTemp) _ => 4
  | .writing _ _ _ _ => 3
  | .looking _ _ => 3
  | .holding _ _ _ => 2
  | .replying _ _ => 1
  | _ => 0

def Nearer (x y : Point) : Prop := stage x < stage y ∨ stage x = stage y ∧ effort x < effort y

inductive Heard (s : System) (p : Process) : System → Prop where
  | command (c : Command) (t : Traversal Text Text) (hp : s.threads p = .reading)
      (hc : Guarded c) : Heard s p ((s.hears p c).moveTo p (.waiting c t))
  | instant (c : Command) (t : Traversal Text Text) (response : Text)
      (hp : s.threads p = .reading) (hclient : p ≠ none) :
      Heard s p (((s.hears p c).record p t c response).moveTo p (.replying c response))
  | quit (hp : s.threads p = .reading) (hclient : p ≠ none) : Heard s p (s.moveTo p (.stopped []))

inductive Turn (s : System) (p : Process) : System → Prop where
  | read (k : Text) (t : Traversal Text Text) (hp : s.threads p = .waiting (.get k) t)
      (hfree : s.lock.writer = none) :
      Turn s p ({ s with lock := { s.lock with readers := insert p s.lock.readers } }.moveTo p
        (.looking t k))
  | write (c : Command) (t : Traversal Text Text) (work : Work) (response : Text)
      (hp : s.threads p = .waiting c t) (hfirst : firstWork c = some (work, response))
      (hfree : s.lock.writer = none ∧ s.lock.readers = ∅) :
      Turn s p ({ s with lock := { s.lock with writer := some p } }.moveTo p
        (.writing c t work response))
  | look (k : Text) (t : Traversal Text Text) (response : Text) (hp : s.threads p = .looking t k) :
      Turn s p ((s.record p t (.get k) response).moveTo p (.holding .read (.get k) response))
  | work (c : Command) (t : Traversal Text Text) (w w' : Work) (response : Text) (db : Db)
      (hp : s.threads p = .writing c t w response)
      (hfit : Fit db p (.writing c t w' response))
      (hnearer : Nearer (.writing c t w' response) (.writing c t w response)) :
      Turn s p ({ s with db := db }.moveTo p (.writing c t w' response))
  | finish (c : Command) (t : Traversal Text Text) (w : Work) (response : Text)
      (hp : s.threads p = .writing c t w response) : Turn s p (finish s p c t response)
  | release (g : Guard) (c : Command) (response : Text) (hp : s.threads p = .holding g c response)
      (hclient : p ≠ none) :
      Turn s p ({ s with lock := s.lock.unlock p g }.moveTo p (.replying c response))
  | answer (c : Command) (response : Text) (hp : s.threads p = .replying c response) :
      Turn s p ((s.answers p c response).moveTo p .reading)
  | fail (c : Command) (response : Text) (hp : s.threads p = .replying c response) :
      Turn s p (s.moveTo p (.stopped [(c, response)]))
  | exit (g : Guard) (c : Command) (response : Text) (hp : s.threads p = .holding g c response)
      (hhandler : p = none) : Turn s p { s with exited := true }

variable {s s' : System} {p q : Process} {c : Command} {t : Traversal Text Text}

theorem compactStep_nearer {db : Db} {point : CompactPoint} {response : Text}
    (hfit : Fit db p (.writing c t (.compact point) response)) (hreturned : point ≠ .returned)
    (n : ℕ) :
    Nearer (.writing c t (.compact (compactStep t ⟨db, point⟩ n).point) response)
      (.writing c t (.compact point) response) := by
  obtain ⟨log, entries, hprogress, _⟩ := hfit
  obtain ⟨fs, engine⟩ := db
  cases point with
  | openTemp =>
    obtain ⟨i, fs', hopen, _⟩ := openFile_create fs TEMP_PATH tempOptions rfl
    simp only [compactStep, hopen]
    exact Or.inl (by simp [stage])
  | write temp pending rest =>
    right
    cases pending with
    | nil =>
      cases rest with
      | nil => exact ⟨rfl, by simp [compactStep, effort, calls]⟩
      | cons r rest =>
        refine ⟨rfl, ?_⟩
        simp only [compactStep, effort, calls, encodeLog_cons, List.length_append,
          List.length_cons, List.length_nil]
        omega
    | cons b bs =>
      refine ⟨rfl, ?_⟩
      simp only [compactStep, effort, calls, List.length_drop, List.length_cons]
      omega
  | sync temp => exact Or.inr ⟨rfl, by simp [compactStep, effort, calls]⟩
  | rename =>
    obtain ⟨_, hnamed, _⟩ := hprogress
    obtain ⟨i, hdir⟩ := Option.ne_none_iff_exists'.mp hnamed
    obtain ⟨fs', hrename, _⟩ := rename_exists DB_PATH hdir
    simp only [compactStep, hrename]
    exact Or.inr ⟨rfl, by simp [effort, calls]⟩
  | reopen =>
    obtain ⟨i, fs', hopen, _⟩ := openFile_create fs DB_PATH logOptions rfl
    simp only [compactStep, hopen]
    exact Or.inr ⟨rfl, by simp [effort, calls]⟩
  | returned => exact absurd rfl hreturned

theorem workOn_turn {w : Work} {response : Text} (hp : s.threads p = .writing c t w response)
    (hfit : Fit s.db p (.writing c t w response)) (n : ℕ) :
    Turn s p (workOn s p c t w response n) := by
  cases w with
  | insert k v =>
    refine .work c t (.insert k v) (.append (recordFragments k v)) response _ hp trivial ?_
    exact Or.inr ⟨rfl, Nat.lt_succ_self _⟩
  | append fragments =>
    cases fragments with
    | nil => exact .finish c t _ response hp
    | cons f fragments =>
      refine .work c t _ (.append fragments) response _ hp trivial ?_
      exact Or.inr ⟨rfl, Nat.lt_succ_self _⟩
  | compact point =>
    have hstep : point ≠ .returned → Turn s p
        ({ s with db := (compactStep t ⟨s.db, point⟩ n).db }.moveTo p
          (.writing c t (.compact (compactStep t ⟨s.db, point⟩ n).point) response)) := by
      intro hreturned
      refine .work c t _ _ response _ hp ?_ (compactStep_nearer hfit hreturned n)
      obtain ⟨log, entries, hprogress, horder⟩ := hfit
      refine ⟨log, entries, progress_step hprogress horder n, ?_⟩
      rw [compactStep_engine]
      exact horder
    cases point with
    | returned => exact .finish c t _ response hp
    | openTemp => exact hstep (by simp)
    | write temp pending rest => exact hstep (by simp)
    | sync temp => exact hstep (by simp)
    | rename => exact hstep (by simp)
    | reopen => exact hstep (by simp)

theorem acquire_turn (hp : s.threads p = .waiting c t) (hc : Guarded c) :
    Turn s p (acquire s p c t) ∨ acquire s p c t = s ∧ Blocked s.lock (.waiting c t) := by
  have hwrite : ∀ work response, firstWork c = some (work, response) →
      s.lock.writer = none ∧ s.lock.readers = ∅ → Turn s p
        ({ s with lock := { s.lock with writer := some p } }.moveTo p
          (.writing c t work response)) :=
    fun work response hfirst hfree => .write c t work response hp hfirst hfree
  cases c with
  | get k =>
    simp only [acquire]
    split
    · next hfree => exact Or.inl (.read k t hp hfree)
    · next hheld => exact Or.inr ⟨rfl, hheld⟩
  | ping => exact hc.elim
  | unknown => exact hc.elim
  | set k v =>
    simp only [acquire, firstWork]
    split
    · next hfree => exact Or.inl (hwrite _ _ rfl hfree)
    · next hheld => exact Or.inr ⟨rfl, Classical.not_and_iff_not_or_not.mp hheld⟩
  | del k =>
    simp only [acquire, firstWork]
    split
    · next hfree => exact Or.inl (hwrite _ _ rfl hfree)
    · next hheld => exact Or.inr ⟨rfl, Classical.not_and_iff_not_or_not.mp hheld⟩
  | compact =>
    simp only [acquire, firstWork]
    split
    · next hfree => exact Or.inl (hwrite _ _ rfl hfree)
    · next hheld => exact Or.inr ⟨rfl, Classical.not_and_iff_not_or_not.mp hheld⟩

theorem Moves.process {x : Point} {e : Event} (h : Moves p x e) : Event.process e = p := by
  cases x <;> cases e <;> first | exact h | exact h.elim

/-- The thread that an event is about moves, or it has another event to come, or it waits. -/
theorem turn_or_still (h : Orderly s) {e : Event} (he : Event.input e = false) :
    Turn s (Event.process e) (move s e) ∨ move s e = s ∧
      (Moves (Event.process e) (s.threads (Event.process e)) e →
        Blocked s.lock (s.threads (Event.process e))) := by
  cases e with
  | receive i m => cases he
  | disconnect i => cases he
  | interrupt t => cases he
  | acquire p =>
    have hfit := h.fit p
    simp only [move, Event.process]
    cases hp : s.threads p with
    | waiting c t =>
      rw [hp] at hfit
      rcases acquire_turn hp hfit with hturn | ⟨hsame, hblocked⟩
      · exact Or.inl hturn
      · exact Or.inr ⟨hsame, fun _ => hblocked⟩
    | _ => exact Or.inr ⟨rfl, by simp [Moves]⟩
  | advance p n =>
    have hfit := h.fit p
    simp only [move, advance, Event.process]
    cases hp : s.threads p with
    | looking t k => exact Or.inl (.look k t _ hp)
    | writing c t w response =>
      rw [hp] at hfit
      exact Or.inl (workOn_turn hp hfit n)
    | _ => exact Or.inr ⟨rfl, by simp [Moves]⟩
  | release i =>
    simp only [move, Event.process]
    cases hp : s.threads (some i) with
    | holding g c response => exact Or.inl (.release g c response hp (by simp))
    | _ => exact Or.inr ⟨rfl, by simp [Moves]⟩
  | reply i delivered =>
    simp only [move, Event.process]
    cases hp : s.threads (some i) with
    | replying c response =>
      left
      cases delivered with
      | true => exact .answer c response hp
      | false => exact .fail c response hp
    | _ => exact Or.inr ⟨rfl, by simp [Moves]⟩
  | exit =>
    simp only [move, Event.process]
    cases hp : s.threads none with
    | holding g c response => exact Or.inl (.exit g c response hp rfl)
    | _ => exact Or.inr ⟨rfl, by simp [Moves]⟩

theorem heard_or_still (s : System) {e : Event} (he : Event.input e = true) :
    Heard s (Event.process e) (move s e) ∨ move s e = s := by
  cases e with
  | receive i m =>
    simp only [move, Event.process]
    cases hp : s.threads (some i) with
    | reading =>
      left
      rw [receive]
      cases hm : m.command with
      | none => exact .quit hp (by simp)
      | some c =>
        cases c with
        | ping => exact .instant _ m.order _ hp (by simp)
        | unknown => exact .instant _ m.order _ hp (by simp)
        | set k v => exact .command _ m.order hp trivial
        | get k => exact .command _ m.order hp trivial
        | del k => exact .command _ m.order hp trivial
        | compact => exact .command _ m.order hp trivial
    | _ => exact Or.inr rfl
  | disconnect i =>
    simp only [move, Event.process]
    cases hp : s.threads (some i) with
    | reading => exact Or.inl (.quit hp (by simp))
    | _ => exact Or.inr rfl
  | interrupt t =>
    simp only [move, Event.process]
    cases hp : s.threads none with
    | reading => exact Or.inl (.command _ t hp trivial)
    | _ => exact Or.inr rfl
  | acquire p => cases he
  | advance p n => cases he
  | release i => cases he
  | reply i delivered => cases he
  | exit => cases he

theorem Heard.untouched (h : Heard s p s') : Untouched p s s' := by
  cases h with
  | command c t hp hc => exact (untouched_hears s p c).trans (untouched_moveTo _ p _)
  | instant c t response hp hclient =>
    have hrecorded := (untouched_hears s p c).trans (untouched_record _ p t c response)
    exact hrecorded.trans (untouched_moveTo _ p _)
  | quit hp hclient => exact untouched_moveTo s p _

theorem Locked.keep (h : Locked s) {x y : Point} (hp : s.threads p = y)
    (hthreads : s'.threads = Function.update s.threads p x) (hlock : s'.lock = s.lock)
    (hguard : x.guard = y.guard) : Locked s' := by
  have hguards : ∀ q, (s'.threads q).guard = (s.threads q).guard := by
    intro q
    rw [hthreads]
    by_cases hq : q = p
    · subst hq
      rw [Function.update_self, hguard, hp]
    · rw [Function.update_of_ne hq]
  constructor
  · intro q
    rw [hlock, hguards]
    exact h.writer q
  · intro q
    rw [hlock, hguards]
    exact h.readers q
  · rw [hlock]
    exact h.exclusive

theorem Locked.free_of_reader (h : Locked s) (hp : (s.threads p).guard = some .read) :
    s.lock.writer = none := by
  by_contra hw
  have hmem := (h.readers p).mpr hp
  rw [h.exclusive hw] at hmem
  exact absurd hmem (Finset.notMem_empty p)

theorem Locked.read (h : Locked s) (hfree : s.lock.writer = none)
    (t : Traversal Text Text) (k : Text) :
    Locked ({ s with lock := { s.lock with readers := insert p s.lock.readers } }.moveTo p
      (.looking t k)) where
  writer := by
    intro q
    have hq := h.writer q
    by_cases hqp : q = p
    · subst hqp
      simp [System.moveTo, Point.guard, hfree]
    · simpa [System.moveTo, Function.update_of_ne hqp] using hq
  readers := by
    intro q
    have hq := h.readers q
    by_cases hqp : q = p
    · subst hqp
      simp [System.moveTo, Point.guard]
    · simpa [System.moveTo, Function.update_of_ne hqp, hqp] using hq
  exclusive := fun hw => absurd hfree hw

theorem Locked.write (h : Locked s) (hfree : s.lock.writer = none ∧ s.lock.readers = ∅)
    (c : Command) (t : Traversal Text Text) (w : Work) (response : Text) :
    Locked ({ s with lock := { s.lock with writer := some p } }.moveTo p
      (.writing c t w response)) where
  writer := by
    intro q
    have hq := h.writer q
    by_cases hqp : q = p
    · subst hqp
      simp [System.moveTo, Point.guard]
    · simpa [System.moveTo, Function.update_of_ne hqp, hfree.1, Ne.symm hqp] using hq
  readers := by
    intro q
    have hq := h.readers q
    by_cases hqp : q = p
    · subst hqp
      simp [System.moveTo, Point.guard, hfree.2]
    · simpa [System.moveTo, Function.update_of_ne hqp] using hq
  exclusive := fun _ => hfree.2

theorem Locked.release (h : Locked s) {g : Guard} {response : Text}
    (hp : s.threads p = .holding g c response) :
    Locked ({ s with lock := s.lock.unlock p g }.moveTo p (.replying c response)) := by
  have hguard : (s.threads p).guard = some g := by rw [hp]; rfl
  cases g with
  | read =>
    have hfree := h.free_of_reader hguard
    constructor
    · intro q
      have hq := h.writer q
      by_cases hqp : q = p
      · subst hqp
        simp [System.moveTo, RwLock.unlock, Point.guard, hfree]
      · simpa [System.moveTo, RwLock.unlock, Function.update_of_ne hqp] using hq
    · intro q
      have hq := h.readers q
      by_cases hqp : q = p
      · subst hqp
        simp [System.moveTo, RwLock.unlock, Point.guard]
      · simpa [System.moveTo, RwLock.unlock, Function.update_of_ne hqp, hqp] using hq
    · exact fun hw => absurd hfree hw
  | write =>
    have hwriter := (h.writer p).mpr hguard
    constructor
    · intro q
      have hq := h.writer q
      by_cases hqp : q = p
      · subst hqp
        simp [System.moveTo, RwLock.unlock, Point.guard]
      · simpa [System.moveTo, RwLock.unlock, Function.update_of_ne hqp, hwriter, Ne.symm hqp]
          using hq
    · intro q
      have hq := h.readers q
      by_cases hqp : q = p
      · subst hqp
        simpa [System.moveTo, RwLock.unlock, Point.guard, hp] using hq
      · simpa [System.moveTo, RwLock.unlock, Function.update_of_ne hqp] using hq
    · exact fun hw => absurd rfl hw

theorem Turn.untouched (ht : Turn s p s') (h : Locked s) : Untouched p s s' := by
  cases ht with
  | read k t hp hfree =>
    have hlock : Untouched p s
        { s with lock := { s.lock with readers := insert p s.lock.readers } } := by
      apply untouched_lock
      · exact fun q _ => Iff.rfl
      · exact fun q hq => Finset.mem_insert.trans (or_iff_right hq)
    exact hlock.trans (untouched_moveTo _ p _)
  | write c t work response hp hfirst hfree =>
    have hlock : Untouched p s { s with lock := { s.lock with writer := some p } } := by
      apply untouched_lock
      · exact fun q hq => by simpa [hfree.1] using Ne.symm hq
      · exact fun q _ => Iff.rfl
    exact hlock.trans (untouched_moveTo _ p _)
  | look k t response hp => exact (untouched_record s p t _ _).trans (untouched_moveTo _ p _)
  | work c t w w' response db hp hfit hnearer =>
    exact (untouched_db s p db).trans (untouched_moveTo _ p _)
  | finish c t w response hp =>
    exact (untouched_record s p t c response).trans (untouched_moveTo _ p _)
  | release g c response hp hclient =>
    have hguard : (s.threads p).guard = some g := by rw [hp]; rfl
    have hlock : Untouched p s { s with lock := s.lock.unlock p g } := by
      cases g with
      | read =>
        apply untouched_lock
        · exact fun q _ => Iff.rfl
        · exact fun q hq => Finset.mem_erase.trans (and_iff_right hq)
      | write =>
        have hwriter := (h.writer p).mpr hguard
        apply untouched_lock
        · exact fun q hq => by simpa [RwLock.unlock, hwriter] using Ne.symm hq
        · exact fun q _ => Iff.rfl
    exact hlock.trans (untouched_moveTo _ p _)
  | answer c response hp =>
    exact (untouched_answers s p c response).trans (untouched_moveTo _ p _)
  | fail c response hp => exact untouched_moveTo s p _
  | exit g c response hp hhandler =>
    exact ⟨fun _ _ => rfl, fun _ _ => Iff.rfl, fun _ _ => Iff.rfl, fun _ _ => rfl, fun _ _ => rfl,
      fun _ _ => rfl⟩

theorem booked_moved (h : ∀ q, Booked s q) (hothers : Untouched p s s') (hself : Booked s' p) :
    ∀ q, Booked s' q := by
  intro q
  by_cases hq : q = p
  · rw [hq]
    exact hself
  · constructor
    · rw [hothers.history q hq, hothers.received q hq, hothers.threads q hq]
      exact (h q).answered
    · rw [hothers.sent q hq, hothers.history q hq, hothers.threads q hq]
      exact (h q).ordered

theorem fit_moved (h : Orderly s) (hothers : Untouched p s s')
    (hdb : s'.db = s.db ∨ s.lock.writer = some p) (hself : Fit s'.db p (s'.threads p)) :
    ∀ q, Fit s'.db q (s'.threads q) := by
  intro q
  by_cases hq : q = p
  · rw [hq]
    exact hself
  · have hfit := h.fit q
    rw [hothers.threads q hq]
    rcases hdb with hdb | hwriter
    · rw [hdb]
      exact hfit
    · cases hx : s.threads q with
      | writing c t w response =>
        have hguard : (s.threads q).guard = some .write := by rw [hx]; rfl
        have hsame := (h.locked.writer q).mpr hguard
        rw [hwriter, Option.some.injEq] at hsame
        exact absurd hsame.symm hq
      | _ =>
        rw [hx] at hfit
        exact hfit

theorem Booked.keep (h : Booked s p) {x y : Point} (hp : s.threads p = y)
    (hthreads : s'.threads = Function.update s.threads p x) (hhistory : s'.history = s.history)
    (hsent : s'.sent = s.sent) (hreceived : s'.received = s.received)
    (hunsent : x.unsent = y.unsent) (hpending : x.pending = y.pending) : Booked s' p := by
  constructor
  · rw [hhistory, hreceived, hthreads, Function.update_self, hunsent, ← hp]
    exact h.answered
  · rw [hhistory, hsent, hthreads, Function.update_self, hpending, ← hp]
    exact h.ordered

theorem Heard.booked (ht : Heard s p s') (h : Booked s p) : Booked s' p := by
  have hanswered := h.answered
  have hordered := h.ordered
  cases ht with
  | command c t hp hc =>
    constructor
    · simpa [System.moveTo, System.hears, Point.unsent, hp] using hanswered
    · simpa [System.moveTo, System.hears, Point.pending, hp] using hordered
  | instant c t response hp hclient =>
    constructor
    · simpa [System.moveTo, System.hears, System.record, Point.unsent, hp, own_snoc_self]
        using hanswered
    · simpa [System.moveTo, System.hears, System.record, Point.pending, hp, own_snoc_self]
        using hordered
  | quit hp hclient => exact h.keep hp rfl rfl rfl rfl rfl rfl

theorem Booked.record (h : Booked s p) {x y : Point} (hp : s.threads p = y)
    (t : Traversal Text Text) {response : Text} (hunsent : y.unsent = [])
    (hpending : y.pending = [c]) (hanswers : x.unsent = [(c, response)]) (hnone : x.pending = []) :
    Booked ((s.record p t c response).moveTo p x) p := by
  have hanswered := h.answered
  have hordered := h.ordered
  rw [hp, hunsent, List.append_nil] at hanswered
  rw [hp, hpending] at hordered
  constructor
  · simp [System.moveTo, System.record, own_snoc_self, hanswers, hanswered]
  · simp [System.moveTo, System.record, own_snoc_self, hnone, hordered]

theorem Turn.booked (ht : Turn s p s') (h : Booked s p) : Booked s' p := by
  cases ht with
  | read k t hp hfree => exact h.keep hp rfl rfl rfl rfl rfl rfl
  | write c t work response hp hfirst hfree => exact h.keep hp rfl rfl rfl rfl rfl rfl
  | look k t response hp => exact h.record hp t rfl rfl rfl rfl
  | work c t w w' response db hp hfit hnearer => exact h.keep hp rfl rfl rfl rfl rfl rfl
  | finish c t w response hp => exact h.record hp t rfl rfl rfl rfl
  | release g c response hp hclient => exact h.keep hp rfl rfl rfl rfl rfl rfl
  | answer c response hp =>
    have hanswered := h.answered
    have hordered := h.ordered
    constructor
    · simpa [System.moveTo, System.answers, Point.unsent, hp] using hanswered
    · simpa [System.moveTo, System.answers, Point.pending, hp] using hordered
  | fail c response hp => exact h.keep hp rfl rfl rfl rfl rfl rfl
  | exit g c response hp hhandler => exact ⟨h.answered, h.ordered⟩

theorem Turn.locked (ht : Turn s p s') (h : Locked s) : Locked s' := by
  cases ht with
  | read k t hp hfree => exact h.read hfree t k
  | write c t work response hp hfirst hfree => exact h.write hfree c t work response
  | look k t response hp => exact h.keep hp rfl rfl rfl
  | work c t w w' response db hp hfit hnearer => exact h.keep hp rfl rfl rfl
  | finish c t w response hp => exact h.keep hp rfl rfl rfl
  | release g c response hp hclient => exact h.release hp
  | answer c response hp => exact h.keep hp rfl rfl rfl
  | fail c response hp => exact h.keep hp rfl rfl rfl
  | exit g c response hp hhandler => exact ⟨h.writer, h.readers, h.exclusive⟩

theorem Heard.locked (ht : Heard s p s') (h : Locked s) : Locked s' := by
  cases ht with
  | command c t hp hc => exact h.keep hp rfl rfl rfl
  | instant c t response hp hclient => exact h.keep hp rfl rfl rfl
  | quit hp hclient => exact h.keep hp rfl rfl rfl

theorem Heard.orderly (ht : Heard s p s') (h : Orderly s) (hrunning : s.exited = false) :
    Orderly s' where
  locked := ht.locked h.locked
  booked := booked_moved h.booked ht.untouched (ht.booked (h.booked p))
  fit := by
    cases ht with
    | command c t hp hc =>
      apply fit_moved h (Heard.command c t hp hc).untouched (Or.inl rfl)
      simpa [System.moveTo, Fit] using hc
    | instant c t response hp hclient =>
      apply fit_moved h (Heard.instant c t response hp hclient).untouched (Or.inl rfl)
      simpa [System.moveTo, Fit] using hclient
    | quit hp hclient =>
      apply fit_moved h (Heard.quit hp hclient).untouched (Or.inl rfl)
      simpa [System.moveTo, Fit] using hclient
  silent := by cases ht <;> exact h.silent
  exited := by
    cases ht <;> exact fun hexited => absurd (hrunning.symm.trans hexited) (by simp)

theorem Turn.orderly (ht : Turn s p s') (h : Orderly s) (hrunning : s.exited = false) :
    Orderly s' where
  locked := ht.locked h.locked
  booked := booked_moved h.booked (ht.untouched h.locked) (ht.booked (h.booked p))
  fit := by
    have huntouched := ht.untouched h.locked
    have hfit := h.fit p
    cases ht with
    | read k t hp hfree =>
      apply fit_moved h huntouched (Or.inl rfl)
      simp [System.moveTo, Fit]
    | write c t work response hp hfirst hfree =>
      apply fit_moved h huntouched (Or.inl rfl)
      simp only [System.moveTo, Function.update_self]
      cases c with
      | compact =>
        cases hfirst
        exact ⟨s.db.fs.read DB_PATH, _, rfl, rfl⟩
      | set k v =>
        cases hfirst
        trivial
      | del k =>
        cases hfirst
        trivial
      | get k => cases hfirst
      | ping => cases hfirst
      | unknown => cases hfirst
    | look k t response hp =>
      apply fit_moved h huntouched (Or.inl rfl)
      simp [System.moveTo, Fit]
    | work c t w w' response db hp hfit' hnearer =>
      have hguard : (s.threads p).guard = some .write := by rw [hp]; rfl
      apply fit_moved h huntouched (Or.inr ((h.locked.writer p).mpr hguard))
      simpa [System.moveTo] using hfit'
    | finish c t w response hp =>
      apply fit_moved h huntouched (Or.inl rfl)
      simp [ChronosThreads.finish, System.moveTo, Fit]
    | release g c response hp hclient =>
      apply fit_moved h huntouched (Or.inl rfl)
      simpa [System.moveTo, Fit] using hclient
    | answer c response hp =>
      apply fit_moved h huntouched (Or.inl rfl)
      simp [System.moveTo, Fit]
    | fail c response hp =>
      rw [hp] at hfit
      apply fit_moved h huntouched (Or.inl rfl)
      simpa [System.moveTo, Fit] using hfit
    | exit g c response hp hhandler => exact h.fit
  silent := by
    have hfit := h.fit p
    cases ht with
    | answer c response hp =>
      rw [hp] at hfit
      exact (Function.update_of_ne (Ne.symm hfit) _ _).trans h.silent
    | _ => exact h.silent
  exited := by
    cases ht with
    | exit g c response hp hhandler =>
      subst hhandler
      exact fun _ => ⟨g, c, response, hp⟩
    | _ => exact fun hexited => absurd (hrunning.symm.trans hexited) (by simp)

theorem orderly_next (h : Orderly s) (e : Event) : Orderly (next s e) := by
  rw [next]
  split
  · exact h
  · next hrunning =>
    have hrunning := Bool.eq_false_iff.mpr hrunning
    cases he : Event.input e with
    | true =>
      rcases heard_or_still s he with hheard | hsame
      · exact hheard.orderly h hrunning
      · rw [hsame]
        exact h
    | false =>
      rcases turn_or_still h he with hturn | ⟨hsame, _⟩
      · exact hturn.orderly h hrunning
      · rw [hsame]
        exact h

theorem orderly_started (db : Db) : Orderly (started db) where
  locked :=
    ⟨by simp [started, Point.guard], by simp [started, Point.guard], fun hw => absurd rfl hw⟩
  booked := fun _ => ⟨rfl, rfl⟩
  fit := fun _ => trivial
  silent := rfl
  exited := by simp [started]

theorem Turn.busy (ht : Turn s p s') : Busy (s.threads p) := by
  cases ht with
  | read k t hp hfree => rw [hp]; trivial
  | write c t work response hp hfirst hfree => rw [hp]; trivial
  | look k t response hp => rw [hp]; trivial
  | work c t w w' response db hp hfit hnearer => rw [hp]; trivial
  | finish c t w response hp => rw [hp]; trivial
  | release g c response hp hclient => rw [hp]; trivial
  | answer c response hp => rw [hp]; trivial
  | fail c response hp => rw [hp]; trivial
  | exit g c response hp hhandler => rw [hp]; trivial

theorem stage_writing (c : Command) (t : Traversal Text Text) (w : Work) (response : Text) :
    2 < stage (.writing c t w response) ∧ stage (.writing c t w response) < 5 := by
  cases w with
  | compact point => cases point <;> simp [stage]
  | _ => simp [stage]

/-- Every turn but the exit brings its thread nearer to the end of its command. -/
theorem Turn.nearer (ht : Turn s p s') : s' = { s with exited := true } ∨
    s'.exited = s.exited ∧ Nearer (s'.threads p) (s.threads p) := by
  cases ht with
  | read k t hp hfree =>
    refine Or.inr ⟨rfl, Or.inl ?_⟩
    simp [System.moveTo, stage, hp]
  | write c t work response hp hfirst hfree =>
    refine Or.inr ⟨rfl, Or.inl ?_⟩
    simp only [System.moveTo, Function.update_self, hp]
    exact (stage_writing c t work response).2
  | look k t response hp =>
    refine Or.inr ⟨rfl, Or.inl ?_⟩
    simp [System.moveTo, stage, hp]
  | work c t w w' response db hp hfit hnearer =>
    refine Or.inr ⟨rfl, ?_⟩
    simpa only [System.moveTo, Function.update_self, hp] using hnearer
  | finish c t w response hp =>
    refine Or.inr ⟨rfl, Or.inl ?_⟩
    simp only [ChronosThreads.finish, System.moveTo, Function.update_self, hp]
    exact (stage_writing c t w response).1
  | release g c response hp hclient =>
    refine Or.inr ⟨rfl, Or.inl ?_⟩
    simp [System.moveTo, stage, hp]
  | answer c response hp =>
    refine Or.inr ⟨rfl, Or.inl ?_⟩
    simp [System.moveTo, stage, hp]
  | fail c response hp =>
    refine Or.inr ⟨rfl, Or.inl ?_⟩
    simp [System.moveTo, stage, hp]
  | exit g c response hp hhandler => exact Or.inl rfl

/-- How far the threads are from the end of their commands. -/
def distance (P : Finset Process) (s : System) : ℕ ×ₗ ℕ :=
  toLex (∑ p ∈ P, stage (s.threads p) + (if s.exited then 0 else 1),
    ∑ p ∈ P, effort (s.threads p))

theorem distance_exited (P : Finset Process) (hrunning : s.exited = false) :
    distance P { s with exited := true } < distance P s := by
  rw [distance, distance, Prod.Lex.toLex_lt_toLex, hrunning]
  exact Or.inl (Nat.lt_succ_self _)

theorem distance_nearer {P : Finset Process} (hp : p ∈ P)
    (hothers : ∀ q, q ≠ p → s'.threads q = s.threads q) (hexited : s'.exited = s.exited)
    (hnearer : Nearer (s'.threads p) (s.threads p)) : distance P s' < distance P s := by
  have hstages : ∀ q, q ≠ p → stage (s'.threads q) = stage (s.threads q) := fun q hq => by
    rw [hothers q hq]
  have hefforts : ∀ q, q ≠ p → effort (s'.threads q) = effort (s.threads q) := fun q hq => by
    rw [hothers q hq]
  rw [distance, distance, Prod.Lex.toLex_lt_toLex, hexited]
  rcases hnearer with hstage | ⟨hstage, heffort⟩
  · left
    refine Nat.add_lt_add_right (Finset.sum_lt_sum ?_ ⟨p, hp, hstage⟩) _
    intro q _
    by_cases hq : q = p
    · rw [hq]
      exact hstage.le
    · exact (hstages q hq).le
  · right
    constructor
    · refine congrArg (· + _) (Finset.sum_congr rfl ?_)
      intro q _
      by_cases hq : q = p
      · rw [hq]
        exact hstage
      · exact hstages q hq
    · refine Finset.sum_lt_sum ?_ ⟨p, hp, heffort⟩
      intro q _
      by_cases hq : q = p
      · rw [hq]
        exact heffort.le
      · exact (hefforts q hq).le

def Within (P : Finset Process) (s : System) : Prop := ∀ p, Busy (s.threads p) → p ∈ P

theorem Turn.lowers (ht : Turn s p s') (h : Orderly s) (hrunning : s.exited = false)
    {P : Finset Process} (hP : Within P s) : distance P s' < distance P s := by
  rcases ht.nearer with rfl | ⟨hexited, hnearer⟩
  · exact distance_exited P hrunning
  · exact distance_nearer (hP p ht.busy) (ht.untouched h.locked).threads hexited hnearer

theorem not_blocked_of_guard {lock : RwLock} {x : Point} {g : Guard} (h : x.guard = some g) :
    Busy x ∧ ¬ Blocked lock x := by
  cases x with
  | looking t k => exact ⟨trivial, not_false⟩
  | writing c t w response => exact ⟨trivial, not_false⟩
  | holding g c response => exact ⟨trivial, not_false⟩
  | _ => cases h

/-- Whoever waits waits for a thread that does not. -/
theorem someone_moves (h : Locked s) (hp : Busy (s.threads p)) :
    ∃ q, Busy (s.threads q) ∧ ¬ Blocked s.lock (s.threads q) := by
  cases hwriter : s.lock.writer with
  | some q => exact ⟨q, not_blocked_of_guard ((h.writer q).mp hwriter)⟩
  | none =>
    rcases s.lock.readers.eq_empty_or_nonempty with hreaders | ⟨q, hq⟩
    · refine ⟨p, hp, ?_⟩
      cases s.threads p with
      | waiting c t => cases c <;> simp [Blocked, hwriter, hreaders]
      | _ => exact not_false
    · exact ⟨q, not_blocked_of_guard ((h.readers q).mp hq)⟩

theorem next_lowers (h : Orderly s) {P : Finset Process} (hP : Within P s) {e : Event}
    (he : Event.input e = false) : next s e = s ∨ distance P (next s e) < distance P s := by
  rw [next]
  split
  · exact Or.inl rfl
  · next hrunning =>
    rcases turn_or_still h he with hturn | ⟨hsame, _⟩
    · exact Or.inr (hturn.lowers h (Bool.eq_false_iff.mpr hrunning) hP)
    · exact Or.inl hsame

theorem next_moves (h : Orderly s) (hrunning : ¬ s.exited = true) {P : Finset Process}
    (hP : Within P s) {e : Event} (he : Event.input e = false) (hmoves : Moves p (s.threads p) e)
    (hfree : ¬ Blocked s.lock (s.threads p)) : next s e ≠ s := by
  intro hsame
  rw [next, if_neg hrunning] at hsame
  have hprocess := hmoves.process
  rcases turn_or_still h he with hturn | ⟨_, hblocked⟩
  · have hlower := hturn.lowers h (Bool.eq_false_iff.mpr hrunning) hP
    rw [hsame] at hlower
    exact lt_irrefl _ hlower
  · rw [hprocess] at hblocked
    exact hfree (hblocked hmoves)

theorem within_next (h : Orderly s) {P : Finset Process} (hP : Within P s) (e : Event) :
    Within (insert (Event.process e) P) (next s e) := by
  have hother : ∀ s', (s' = s ∨ Untouched (Event.process e) s s') →
      Within (insert (Event.process e) P) s' := by
    intro s' hs' q hq
    by_cases hqp : q = Event.process e
    · exact Finset.mem_insert.mpr (Or.inl hqp)
    · rcases hs' with rfl | hothers
      · exact Finset.mem_insert_of_mem (hP q hq)
      · rw [hothers.threads q hqp] at hq
        exact Finset.mem_insert_of_mem (hP q hq)
  apply hother
  rw [next]
  split
  · exact Or.inl rfl
  · cases he : Event.input e with
    | true => exact (heard_or_still s he).symm.imp id Heard.untouched
    | false =>
      rcases turn_or_still h he with hturn | ⟨hsame, _⟩
      · exact Or.inr (hturn.untouched h.locked)
      · exact Or.inl hsame

def Over (s : System) : Prop := s.exited = true ∨ ∀ p, ¬ Busy (s.threads p)

theorem Over.stays (hover : Over s) (h : Orderly s) {e : Event} (he : Event.input e = false) :
    next s e = s := by
  rw [next]
  split
  · rfl
  · next hrunning =>
    have hidle := hover.resolve_left hrunning
    rcases turn_or_still h he with hturn | ⟨hsame, _⟩
    · exact absurd hturn.busy (hidle _)
    · exact hsame

/-- Every command that was read has been executed, and its response was sent, or could not be sent
when the connection broke. -/
structure Drained (s : System) : Prop where
  free : s.lock.writer = none ∧ s.lock.readers = ∅
  executed : ∀ p, s.sent p = (own s.history p).map Prod.fst
  answered : ∀ p, own s.history p = s.received p ∨
    ∃ last, s.threads p = .stopped [last] ∧ own s.history p = s.received p ++ [last]

theorem idle_cases {x : Point} (h : ¬ Busy x) :
    x = .reading ∨ ∃ undelivered, x = .stopped undelivered := by
  cases x with
  | reading => exact Or.inl rfl
  | stopped undelivered => exact Or.inr ⟨undelivered, rfl⟩
  | _ => exact absurd trivial h

theorem guard_of_idle {x : Point} (h : ¬ Busy x) : x.guard = none ∧ x.pending = [] := by
  rcases idle_cases h with rfl | ⟨undelivered, rfl⟩
  · exact ⟨rfl, rfl⟩
  · exact ⟨rfl, rfl⟩

theorem Orderly.drained (h : Orderly s) (hidle : ∀ p, ¬ Busy (s.threads p)) : Drained s := by
  refine ⟨⟨?_, ?_⟩, ?_, ?_⟩
  · cases hw : s.lock.writer with
    | none => rfl
    | some p =>
      have hheld := (h.locked.writer p).mp hw
      rw [(guard_of_idle (hidle p)).1] at hheld
      cases hheld
  · refine Finset.eq_empty_of_forall_notMem ?_
    intro p hp
    have hheld := (h.locked.readers p).mp hp
    rw [(guard_of_idle (hidle p)).1] at hheld
    cases hheld
  · intro p
    have hordered := (h.booked p).ordered
    rwa [(guard_of_idle (hidle p)).2, List.append_nil] at hordered
  · intro p
    have hfit := h.fit p
    have hanswered := (h.booked p).answered
    rcases idle_cases (hidle p) with hx | ⟨undelivered, hx⟩
    · rw [hx] at hanswered
      exact Or.inl (hanswered.trans (List.append_nil _))
    · rw [hx] at hfit hanswered
      rcases undelivered with _ | ⟨last, _ | ⟨more, undelivered⟩⟩
      · exact Or.inl (hanswered.trans (List.append_nil _))
      · exact Or.inr ⟨last, hx, hanswered⟩
      · exact absurd hfit.2 (by simp)

theorem Orderly.exited_iff (h : Orderly s) (hover : Over s) :
    s.exited = true ↔ s.sent none ≠ [] := by
  have hanswered := (h.booked none).answered
  have hordered := (h.booked none).ordered
  rw [h.silent, List.nil_append] at hanswered
  constructor
  · intro hexited
    obtain ⟨g, c, response, hp⟩ := h.exited hexited
    rw [hordered, hanswered, hp]
    simp [Point.unsent]
  · intro hsent
    rcases hover with hexited | hidle
    · exact hexited
    · have hfit := h.fit none
      rcases idle_cases (hidle none) with hx | ⟨undelivered, hx⟩
      · rw [hx] at hanswered hordered
        rw [hordered, hanswered] at hsent
        exact absurd rfl hsent
      · rw [hx] at hfit
        exact absurd rfl hfit.1

theorem Orderly.handler_done (h : Orderly s) (hover : Over s) :
    s.sent none = (own s.history none).map Prod.fst := by
  rcases hover with hexited | hidle
  · obtain ⟨g, c, response, hp⟩ := h.exited hexited
    have hordered := (h.booked none).ordered
    rw [hp] at hordered
    exact hordered.trans (List.append_nil _)
  · exact (h.drained hidle).executed none

/-- Only threads that were spawned have anything to do. -/
structure Sound (s : Chronos) : Prop where
  orderly : Orderly s.system
  staffed : Within s.processes s.system

theorem sound_listening (db : Db) : Sound (listening db) :=
  ⟨orderly_started db, fun _ hp => hp.elim⟩

theorem accept_cases (s : Chronos) (stream : Except IoError Connection) :
    (s.accept stream).system = s.system ∧ s.processes ⊆ (s.accept stream).processes ∧
      ((s.accept stream).panicked = true ↔ s.panicked = true ∨ Fatal (.incoming stream)) := by
  cases stream with
  | error err => exact ⟨rfl, Finset.Subset.refl _, by simp [Chronos.accept, Fatal]⟩
  | ok stream =>
    obtain ⟨client, peerAddr, spawned⟩ := stream
    cases peerAddr with
    | error err => exact ⟨rfl, Finset.Subset.refl _, by simp [Chronos.accept, Fatal]⟩
    | ok peer =>
      cases spawned with
      | false => exact ⟨rfl, Finset.Subset.refl _, by simp [Chronos.accept, Fatal]⟩
      | true =>
        refine ⟨rfl, ?_, by simp [Chronos.accept, Fatal]⟩
        exact Finset.insert_subset_insert _ (Finset.image_subset_image (Finset.subset_insert _ _))

section Process

variable {s : Chronos}

/-- What a turn of the process can be. -/
inductive Step (s : Chronos) : ProcessEvent → Chronos → Prop where
  | gone {e : ProcessEvent} (hgone : s.panicked = true ∨ s.system.exited = true) : Step s e s
  | accept (stream : Except IoError Connection) (hruns : s.system.exited = false) :
      Step s (.incoming stream) (s.accept stream)
  | thread {e : Event} (hmem : e.process ∈ s.processes) :
      Step s (.thread e) { s with system := ChronosThreads.next s.system e }
  | stranger {e : Event} : Step s (.thread e) s

theorem step_next (s : Chronos) (e : ProcessEvent) : Step s e (s.next e) := by
  unfold Chronos.next
  split
  · next hgone => exact .gone hgone
  · next hruns =>
    rw [not_or, Bool.not_eq_true, Bool.not_eq_true] at hruns
    cases e with
    | incoming stream => exact .accept stream hruns.2
    | thread e =>
      dsimp only
      split
      · next hmem => exact .thread hmem
      · exact .stranger

variable {s' : Chronos} {e : ProcessEvent}

theorem Step.sound (hstep : Step s e s') (h : Sound s) : Sound s' := by
  cases hstep with
  | gone => exact h
  | stranger => exact h
  | accept stream =>
    obtain ⟨hsystem, hprocesses, _⟩ := accept_cases s stream
    constructor
    · simpa only [hsystem] using h.orderly
    · intro p hp
      simp only [hsystem] at hp
      exact hprocesses (h.staffed p hp)
  | @thread e hmem =>
    refine ⟨orderly_next h.orderly e, ?_⟩
    have hwithin := within_next h.orderly h.staffed e
    rwa [Finset.insert_eq_of_mem hmem] at hwithin

theorem Step.panicked_iff (hstep : Step s e s') :
    s'.panicked = true ↔ s.panicked = true ∨ (s.system.exited = false ∧ Fatal e) := by
  cases hstep with
  | gone hgone =>
    rcases hgone with hpanicked | hexited
    · simp [hpanicked]
    · simp [hexited]
  | accept stream hruns => simp [(accept_cases s stream).2.2, hruns]
  | thread => simp [Fatal]
  | stranger => simp [Fatal]

def Chronos.left (s : Chronos) : ℕ ×ₗ ℕ := distance s.processes s.system

theorem Step.lowers (hstep : Step s e s') (h : Sound s) (he : ProcessEvent.input e = false) :
    s' = s ∨ Chronos.left s' < Chronos.left s := by
  cases hstep with
  | gone => exact Or.inl rfl
  | stranger => exact Or.inl rfl
  | accept => cases he
  | @thread e hmem =>
    rcases next_lowers h.orderly h.staffed (e := e) he with hsame | hlower
    · left
      rw [hsame]
    · exact Or.inr hlower

def Finished (s : Chronos) : Prop := s.panicked = true ∨ Over s.system

theorem Finished.stays (hfinished : Finished s) (h : Sound s)
    (he : ProcessEvent.input e = false) : s.next e = s := by
  rcases hfinished with hpanicked | hover
  · exact if_pos (Or.inl hpanicked)
  · have hstep := step_next s e
    generalize s.next e = s' at hstep
    cases hstep with
    | gone => rfl
    | stranger => rfl
    | accept => cases he
    | @thread e hmem => rw [hover.stays h.orderly (e := e) he]

theorem sound_along (db : Db) (schedule : ℕ → ProcessEvent) (n : ℕ) :
    Sound (along Chronos.next schedule (listening db) n) :=
  along_preserves (P := Sound) (fun s e h => (step_next s e).sound h) (sound_listening db) schedule n

theorem along_finished {db : Db} {schedule : ℕ → ProcessEvent} {M : ℕ}
    (hsilent : ∀ n, M ≤ n → ProcessEvent.input (schedule n) = false)
    (hfinished : Finished (along Chronos.next schedule (listening db) M)) {n : ℕ} (hn : M ≤ n) :
    along Chronos.next schedule (listening db) n =
      along Chronos.next schedule (listening db) M := by
  induction n, hn using Nat.le_induction with
  | base => rfl
  | succ n hn ih =>
    rw [along, ih]
    exact hfinished.stays (sound_along db schedule M) (hsilent n hn)

theorem panicked_along (db : Db) (schedule : ℕ → ProcessEvent) (n : ℕ) :
    (along Chronos.next schedule (listening db) n).panicked = true ↔
      ∃ k, k < n ∧ (along Chronos.next schedule (listening db) k).system.exited = false ∧
        Fatal (schedule k) := by
  induction n with
  | zero => simp [along, listening]
  | succ n ih =>
    rw [along, (step_next _ _).panicked_iff, ih]
    constructor
    · rintro (⟨k, hk, hfatal⟩ | hfatal)
      · exact ⟨k, Nat.lt_succ_of_lt hk, hfatal⟩
      · exact ⟨n, Nat.lt_succ_self n, hfatal⟩
    · rintro ⟨k, hk, hfatal⟩
      rcases Nat.lt_succ_iff_lt_or_eq.mp hk with hlt | rfl
      · exact Or.inl ⟨k, hlt, hfatal⟩
      · exact Or.inr hfatal

theorem someone_is_run {db : Db} {schedule : ℕ → ProcessEvent} {N : ℕ}
    (hsilent : ∀ n, N ≤ n → ProcessEvent.input (schedule n) = false)
    (hfair : Fair (listening db) schedule) {n : ℕ} (hn : N ≤ n)
    (hunfinished : ¬ Finished (along Chronos.next schedule (listening db) n)) : ∃ m, n ≤ m ∧
      (along Chronos.next schedule (listening db) m =
          along Chronos.next schedule (listening db) n →
        along Chronos.next schedule (listening db) (m + 1) ≠
          along Chronos.next schedule (listening db) m) := by
  have hsound := sound_along db schedule n
  rw [Finished, Over, not_or, not_or, not_forall] at hunfinished
  obtain ⟨hcalm, hrunning, p, hp⟩ := hunfinished
  obtain ⟨q, hq, hfree⟩ := someone_moves hsound.orderly.locked (not_not.mp hp)
  obtain ⟨m, hm, hrun⟩ := hfair q n hq
  refine ⟨m, hm, ?_⟩
  intro hsame hstill
  change Chronos.next (along Chronos.next schedule (listening db) m) (schedule m) = _ at hstill
  rw [hsame] at hrun hstill
  have hruns := (hrun.resolve_left hcalm).resolve_left hrunning
  have hinput := hsilent m (hn.trans hm)
  cases he : schedule m with
  | incoming stream =>
    rw [he] at hruns
    exact hruns.elim
  | thread e =>
    rw [he] at hruns hinput hstill
    have hstaff : e.process ∈ (along Chronos.next schedule (listening db) n).processes := by
      rw [Moves.process hruns]
      exact hsound.staffed q hq
    rw [Chronos.next, if_neg (not_or.mpr ⟨hcalm, hrunning⟩)] at hstill
    simp only [hstaff, if_true] at hstill
    exact next_moves hsound.orderly hrunning hsound.staffed hinput hruns hfree
      (congrArg Chronos.system hstill)

end Process

/-- One client reads a key while another sets it and has to wait. -/
def getAndSet (t : Traversal Text Text) (n : ℕ) : ProcessEvent :=
  [.incoming (.ok ⟨0, .ok "127.0.0.1:40000".toList, true⟩),
    .incoming (.ok ⟨1, .ok "127.0.0.1:40001".toList, true⟩),
    .thread (.receive 0 ⟨t, encode "GET k\n".toList⟩),
    .thread (.receive 1 ⟨t, encode "SET k a\n".toList⟩), .thread (.acquire (some 0)),
    .thread (.acquire (some 1)), .thread (.advance (some 0) 0), .thread (.release 0),
    .thread (.acquire (some 1)), .thread (.reply 0 true), .thread (.advance (some 1) 0),
    .thread (.advance (some 1) 0), .thread (.advance (some 1) 0), .thread (.advance (some 1) 0),
    .thread (.advance (some 1) 0), .thread (.advance (some 1) 0), .thread (.release 1),
    .thread (.reply 1 true)].getD n (.thread .exit)

/-- What `boot` makes of an empty disk. -/
def emptyStore : Db := ⟨emptyFileSystem.create DB_PATH, ⟨∅, ⟨0, true, 0⟩⟩⟩

theorem getAndSet_rest (t : Traversal Text Text) {n : ℕ} (hn : 18 ≤ n) :
    getAndSet t n = .thread .exit := by
  rw [getAndSet]
  exact List.getD_eq_default _ _ hn

theorem getAndSet_silent {n : ℕ} (hn : 4 ≤ n) :
    ProcessEvent.input (getAndSet someTraversal n) = false := by
  rcases Nat.lt_or_ge n 18 with hlt | hge
  · have hfirst : ∀ n < 18, 4 ≤ n → ProcessEvent.input (getAndSet someTraversal n) = false := by
      decide +kernel
    exact hfirst n hlt hn
  · rw [getAndSet_rest someTraversal hge]
    rfl

theorem getAndSet_fair : Fair (listening emptyStore) (getAndSet someTraversal) := by
  have hclients : ∀ n < 19,
      (along Chronos.next (getAndSet someTraversal) (listening emptyStore) n).processes ⊆
        {none, some 0, some 1} := by
    decide +kernel
  have hturns : ∀ n < 18, ∀ p ∈ ({none, some 0, some 1} : Finset Process),
      Busy ((along Chronos.next (getAndSet someTraversal) (listening emptyStore) n).system.threads
        p) → ∃ m < 18, n ≤ m ∧ Runs p
          ((along Chronos.next (getAndSet someTraversal) (listening emptyStore) m).system.threads p)
          (getAndSet someTraversal m) := by
    decide +kernel
  have hdone : ∀ p ∈ ({none, some 0, some 1} : Finset Process), ¬ Busy
      ((along Chronos.next (getAndSet someTraversal) (listening emptyStore) 18).system.threads
        p) := by
    decide +kernel
  have hstaffed : ∀ n < 19, ∀ p,
      Busy ((along Chronos.next (getAndSet someTraversal) (listening emptyStore) n).system.threads
        p) → p ∈ ({none, some 0, some 1} : Finset Process) := fun n hn p hbusy =>
    hclients n hn ((sound_along emptyStore (getAndSet someTraversal) n).staffed p hbusy)
  have hidle : ∀ p, ¬ Busy
      ((along Chronos.next (getAndSet someTraversal) (listening emptyStore) 18).system.threads p) :=
    fun p hbusy => hdone p (hstaffed 18 (by decide) p hbusy) hbusy
  intro p n hbusy
  rcases Nat.lt_or_ge n 18 with hlt | hge
  · have hmem := hstaffed n (Nat.lt_succ_of_lt hlt) p hbusy
    obtain ⟨m, _, hm, hruns⟩ := hturns n hlt p hmem hbusy
    exact ⟨m, hm, Or.inr (Or.inr hruns)⟩
  · have hsilent : ∀ n, 18 ≤ n → ProcessEvent.input (getAndSet someTraversal n) = false :=
      fun n hn => getAndSet_silent (Nat.le_trans (by decide) hn)
    rw [along_finished hsilent (Or.inr (Or.inr hidle)) hge] at hbusy
    exact absurd hbusy (hidle p)

end ChronosProgress

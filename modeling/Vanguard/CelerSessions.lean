import Vanguard.CelerFsm

/-! What the other sessions do to the output of one. Ids that agree modulo the size of the pool
share a state, and `process` never looks whose strokes the state follows. -/
namespace CelerSessions

open StateMachines SharedIpc CelerFsm

variable {F : Type*}

/-- The open stroke of a slot as all the events of the slot leave it, and as those of one session
alone do. -/
structure Views (F : Type*) where
  shared : Option (Path F)
  own : Option (Path F)

def unseen : Views F := ⟨none, none⟩

def next (session : UInt32) (views : Views F) (event : Sample F) : Views F :=
  if event.sessionId = session then
    ⟨extend views.shared event, extend views.own event⟩
  else if slotOf event.sessionId = slotOf session then
    { views with shared := extend views.shared event }
  else views

/-- A MOVE of the session finds in its slot the positions of its own open stroke. -/
def Undisturbed (session : UInt32) (views : Views F) (event : Sample F) : Prop :=
  event.sessionId = session → event.action = ACTION_MOVE → views.shared = views.own

instance [DecidableEq F] (session : UInt32) (views : Views F) (event : Sample F) :
    Decidable (Undisturbed session views event) := inferInstanceAs (Decidable (_ → _ → _))

def ofSession (session : UInt32) (events : List (Sample F)) : List (Sample F) :=
  events.filter fun event => event.sessionId = session

def answersTo (session : UInt32) (answers : List (PrecisionEvent F)) : List (PrecisionEvent F) :=
  answers.filter fun answer => answer.sessionId = session

variable {A : Arithmetic F} {session : UInt32} {pool alone : Pool F} {views : Views F}
  {event : Sample F}

theorem answersTo_own (h : event.sessionId = session) :
    answersTo session (process A pool event).2.toList = (process A pool event).2.toList := by
  apply List.filter_eq_self.mpr
  intro answer hanswer
  have hid := (handle_reply (Option.mem_toList.mp hanswer)).2
  simpa using hid.trans h

theorem answersTo_other (h : event.sessionId ≠ session) :
    answersTo session (process A pool event).2.toList = [] := by
  apply List.filter_eq_nil_iff.mpr
  intro answer hanswer
  have hid := (handle_reply (Option.mem_toList.mp hanswer)).2
  simpa [hid] using h

theorem Undisturbed.reply_eq (hc : Undisturbed session views event)
    (h : event.sessionId = session) (hshared : Follows A (pool (slotOf session)) views.shared)
    (hown : Follows A (alone (slotOf session)) views.own) :
    (process A pool event).2 = (process A alone event).2 := by
  subst h
  by_cases hmove : event.action = ACTION_MOVE
  · rw [hc rfl hmove] at hshared
    exact (hshared.reply event).trans (hown.reply event).symm
  · have hsilent : ∀ state : SessionState F, (state.handle A event).2 = none := by
      intro state
      apply Option.eq_none_iff_forall_ne_some.mpr
      intro answer hanswer
      exact hmove (handle_reply hanswer).1
    exact (hsilent _).trans (hsilent _).symm

theorem emitted_of_views (events : List (Sample F))
    (hc : StepsMeet (next session) (Undisturbed session) views events)
    (hshared : Follows A (pool (slotOf session)) views.shared)
    (hown : Follows A (alone (slotOf session)) views.own) :
    answersTo session (emitted A pool events) = emitted A alone (ofSession session events) := by
  induction events generalizing pool alone views with
  | nil => rfl
  | cons event events ih =>
    obtain ⟨hevent, hrest⟩ := hc
    rw [emitted_cons, answersTo, List.filter_append]
    by_cases hid : event.sessionId = session
    · have hfilter : ofSession session (event :: events) =
          event :: ofSession session events := by
        simp [ofSession, hid]
      have hreply := hevent.reply_eq hid hshared hown
      have hanswer : answersTo session (process A pool event).2.toList =
          (process A alone event).2.toList := by
        rw [answersTo_own hid, hreply]
      simp only [next, hid, if_true] at hrest
      rw [hfilter, emitted_cons]
      refine congrArg₂ (· ++ ·) hanswer (ih hrest ?_ ?_)
      · simpa only [process, hid, Function.update_self] using hshared.next event
      · simpa only [process, hid, Function.update_self] using hown.next event
    · have hfilter : ofSession session (event :: events) = ofSession session events := by
        simp [ofSession, hid]
      have hnone : answersTo session (process A pool event).2.toList = [] := answersTo_other hid
      rw [answersTo] at hnone
      rw [hnone, List.nil_append, hfilter]
      by_cases hslot : slotOf event.sessionId = slotOf session
      · simp only [next, hid, if_false, hslot, if_true] at hrest
        refine ih hrest ?_ hown
        simpa only [process, hslot, Function.update_self] using hshared.next event
      · simp only [next, hid, if_false, hslot] at hrest
        refine ih hrest ?_ hown
        simpa only [process, Function.update_of_ne (Ne.symm hslot)] using hshared

/-- If no event of another session comes between a MOVE and the stroke which it is part of, the
session gets what it would get alone. -/
theorem undisturbed_isolated (A : Arithmetic F) (session : UInt32) (events : List (Sample F))
    (hc : StepsMeet (next session) (Undisturbed session) unseen events) :
    answersTo session (emitted A (.new A) events) =
      emitted A (.new A) (ofSession session events) :=
  emitted_of_views events hc follows_new follows_new

/-- Sessions whose slots nobody else uses are among those. -/
theorem undisturbed_of_apart {events : List (Sample F)}
    (h : ∀ event ∈ events, slotOf event.sessionId = slotOf session → event.sessionId = session)
    (hviews : views.shared = views.own) :
    StepsMeet (next session) (Undisturbed session) views events := by
  induction events generalizing views with
  | nil => trivial
  | cons event events ih =>
    refine ⟨fun _ _ => hviews, ih ?_ ?_⟩
    · intro e he
      exact h e (List.mem_cons_of_mem _ he)
    · by_cases hid : event.sessionId = session
      · simp only [next, hid, if_true, hviews]
      · have hslot : slotOf event.sessionId ≠ slotOf session := by
          intro hslot
          exact hid (h event List.mem_cons_self hslot)
        simpa only [next, hid, if_false, hslot] using hviews

theorem low_ids_isolated (A : Arithmetic F) {events : List (Sample F)}
    (hsession : session.toNat < SESSION_POOL_SIZE)
    (h : ∀ event ∈ events, event.sessionId.toNat < SESSION_POOL_SIZE) :
    answersTo session (emitted A (.new A) events) =
      emitted A (.new A) (ofSession session events) := by
  have hapart : ∀ event ∈ events, slotOf event.sessionId = slotOf session →
      event.sessionId = session := by
    intro event hevent hslot
    have hval := congrArg Fin.val hslot
    rw [slotOf_val, slotOf_val, Nat.mod_eq_of_lt (h event hevent),
      Nat.mod_eq_of_lt hsession] at hval
    exact UInt32.toNat_inj.mp hval
  have hc : StepsMeet (next session) (Undisturbed session) unseen events :=
    undisturbed_of_apart hapart rfl
  exact emitted_of_views events hc follows_new follows_new

theorem foreign_up_silences {other : UInt32} (hne : other ≠ session)
    (hslot : slotOf other = slotOf session) {p q : F × F}
    (hfar : A.gt (distance A q p) (A.literal 0) = true) :
    let events : List (Sample F) := [⟨session, 0, p.1, p.2, ACTION_DOWN⟩,
      ⟨other, 1, p.1, p.2, ACTION_UP⟩, ⟨session, 2, q.1, q.2, ACTION_MOVE⟩]
    answersTo session (emitted A (.new A) events) ≠
      emitted A (.new A) (ofSession session events) := by
  intro events hsame
  have hshared : emitted A (.new A) events = [] := by
    simp [events, emitted, replies, process, SessionState.handle, SessionState.move, hslot,
      ACTION_DOWN, ACTION_MOVE, ACTION_UP, List.reduceOption]
  have hown : emitted A (.new A) (ofSession session events) ≠ [] := by
    simp [events, ofSession, hne, emitted, replies, process, SessionState.handle,
      SessionState.move, SessionState.down, hfar, ACTION_DOWN, ACTION_MOVE, List.reduceOption]
  rw [hshared] at hsame
  exact hown hsame.symm

def takenOver : List (Sample F32) :=
  [⟨65537, 0, 0, 0, ACTION_DOWN⟩, ⟨65537, 1, 0x40400000, 0x40800000, ACTION_MOVE⟩,
    ⟨1, 2, 0, 0, ACTION_DOWN⟩, ⟨1, 3, 0x40400000, 0x40800000, ACTION_MOVE⟩,
    ⟨65537, 4, 0, 0, ACTION_UP⟩]

theorem undisturbed_isolated_taken_over :
    StepsMeet (next 1) (Undisturbed 1) unseen takenOver ∧
      answersTo 1 (emitted tabulated (.new tabulated) takenOver) =
        emitted tabulated (.new tabulated) (ofSession 1 takenOver) := by
  have hc : StepsMeet (next 1) (Undisturbed 1) unseen takenOver := by decide
  exact ⟨hc, undisturbed_isolated tabulated 1 takenOver hc⟩

/-- Session 65537 ends the stroke of session 1. -/
theorem sessions_share_slot :
    ¬ ∀ (session : UInt32) (events : List (Sample F32)),
      answersTo session (emitted tabulated (.new tabulated) events) =
        emitted tabulated (.new tabulated) (ofSession session events) := by
  intro h
  have hslot : slotOf 65537 = slotOf 1 := by decide
  have hfar : tabulated.gt (distance tabulated (0x40400000, 0x40800000) (0, 0))
      (tabulated.literal 0) = true := by decide +kernel
  exact foreign_up_silences (by decide) hslot hfar (h 1 _)

end CelerSessions

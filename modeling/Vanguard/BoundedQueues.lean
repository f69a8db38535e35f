import Mathlib.Data.Fin.Basic
import Mathlib.Data.List.Basic
import Mathlib.Logic.Function.Basic
import Mathlib.Data.Nat.ModEq

/-! Bounded first-in first-out queues, and the circular windows of slots which store them.
A window starts at an unbounded count and takes slots modulo the capacity. -/
namespace BoundedQueues

/-- A queue that cannot hold more than `cap` items. -/
structure BoundedQueue (α : Type*) (cap : ℕ) where
  items : List α
  bounded : items.length ≤ cap

variable {α : Type*} {cap : ℕ}

def empty : BoundedQueue α cap := ⟨[], Nat.zero_le _⟩

theorem length_snoc_le {items : List α} (h : items.length < cap) (x : α) :
    (items ++ [x]).length ≤ cap := by
  rw [List.length_append, List.length_singleton]
  exact h

def BoundedQueue.push (q : BoundedQueue α cap) (x : α) : Option (BoundedQueue α cap) :=
  if h : q.items.length < cap then some ⟨q.items ++ [x], length_snoc_le h x⟩ else none

def BoundedQueue.pop (q : BoundedQueue α cap) : Option (α × BoundedQueue α cap) :=
  match h : q.items with
  | [] => none
  | x :: rest => some (x, ⟨rest, by have := q.bounded; simp [h] at this; omega⟩)

theorem push_eq_none_iff (q : BoundedQueue α cap) (x : α) :
    q.push x = none ↔ q.items.length = cap := by
  have := q.bounded
  unfold BoundedQueue.push
  split <;> simp <;> omega

theorem push_items {q r : BoundedQueue α cap} {x : α} (h : q.push x = some r) :
    r.items = q.items ++ [x] := by
  unfold BoundedQueue.push at h
  split at h
  · cases h; rfl
  · cases h

theorem pop_eq_none_iff (q : BoundedQueue α cap) : q.pop = none ↔ q.items = [] := by
  unfold BoundedQueue.pop
  split <;> simp_all

theorem pop_items {q r : BoundedQueue α cap} {x : α} (h : q.pop = some (x, r)) :
    q.items = x :: r.items := by
  unfold BoundedQueue.pop at h
  split at h
  · cases h
  · cases h; assumption

section Windows

variable [NeZero cap]

def slot (cap : ℕ) [NeZero cap] (n : ℕ) : Fin cap := Fin.ofNat cap n

@[simp] theorem slot_val (n : ℕ) : (slot cap n).val = n % cap := rfl

/-- Offsets below the capacity name different slots, wherever the window starts. -/
theorem slot_inj_on_window {t i j : ℕ} (hi : i < cap) (hj : j < cap)
    (h : slot cap (t + i) = slot cap (t + j)) : i = j := by
  have hm : (t + i) % cap = (t + j) % cap := congrArg Fin.val h
  have hmod : i ≡ j [MOD cap] := Nat.ModEq.add_left_cancel' t hm
  exact Nat.ModEq.eq_of_lt_of_lt hmod hi hj

/-- The slots from the count `t` on store `items`, the oldest first. -/
def Holds (slots : Fin cap → α) (t : ℕ) (items : List α) : Prop :=
  ∀ i (h : i < items.length), slots (slot cap (t + i)) = items[i]

theorem holds_nil (slots : Fin cap → α) (t : ℕ) : Holds slots t [] := by
  intro i h
  simp at h

/-- The slot after the window belongs to none of its items while there is room. -/
theorem slot_end_fresh {t n i : ℕ} (hi : i < n) (hn : n < cap) :
    slot cap (t + i) ≠ slot cap (t + n) := by
  intro h
  have := slot_inj_on_window (by omega) hn h
  omega

theorem Holds.write_end {slots : Fin cap → α} {t : ℕ} {items : List α}
    (h : Holds slots t items) (room : items.length < cap) (x : α) :
    Holds (Function.update slots (slot cap (t + items.length)) x) t items := by
  intro i hi
  rw [Function.update_of_ne (slot_end_fresh hi room)]
  exact h i hi

theorem Holds.append {slots : Fin cap → α} {t : ℕ} {items : List α} {x : α}
    (h : Holds slots t items) (hx : slots (slot cap (t + items.length)) = x) :
    Holds slots t (items ++ [x]) := by
  intro i hi
  rcases Nat.lt_or_ge i items.length with hlt | hge
  · rw [List.getElem_append_left hlt]
    exact h i hlt
  · have hlen : (items ++ [x]).length = items.length + 1 := by simp
    have hie : i = items.length := by omega
    subst hie
    simpa using hx

theorem Holds.push {slots : Fin cap → α} {t : ℕ} {items : List α}
    (h : Holds slots t items) (room : items.length < cap) (x : α) :
    Holds (Function.update slots (slot cap (t + items.length)) x) t (items ++ [x]) :=
  (h.write_end room x).append (Function.update_self _ _ _)

theorem Holds.head {slots : Fin cap → α} {t : ℕ} {x : α} {items : List α}
    (h : Holds slots t (x :: items)) : slots (slot cap t) = x :=
  h 0 (by simp)

theorem Holds.tail {slots : Fin cap → α} {t : ℕ} {x : α} {items : List α}
    (h : Holds slots t (x :: items)) : Holds slots (t + 1) items := by
  intro i hi
  have := h (i + 1) (by simpa using hi)
  rw [Nat.add_right_comm, Nat.add_assoc]
  simpa using this

end Windows

end BoundedQueues

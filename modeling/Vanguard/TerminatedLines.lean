import Mathlib.Data.List.Induction

/-! Splitting a sequence after every occurrence of a terminator. The last piece may lack its
terminator; every other one ends in it. -/
namespace TerminatedLines

variable {α : Type*}

/-- Nothing of an earlier piece is left open. -/
def Closed (sep : α) (xs : List α) : Prop := xs = [] ∨ ∃ ys, xs = ys ++ [sep]

variable {sep : α} {xs ys : List α}

theorem closed_nil : Closed sep ([] : List α) := Or.inl rfl

theorem closed_snoc (xs : List α) : Closed sep (xs ++ [sep]) := Or.inr ⟨xs, rfl⟩

theorem Closed.append (hx : Closed sep xs) (hy : Closed sep ys) : Closed sep (xs ++ ys) := by
  rcases hy with rfl | ⟨zs, rfl⟩
  · simpa using hx
  · exact Or.inr ⟨xs ++ zs, by simp⟩

variable [DecidableEq α]

instance (sep : α) (xs : List α) : Decidable (Closed sep xs) :=
  decidable_of_iff (xs = [] ∨ xs.getLast? = some sep) (or_congr Iff.rfl List.getLast?_eq_some_iff)

/-- The pieces with their terminators. There is no empty piece. -/
def pieces (sep : α) : List α → List (List α)
  | [] => []
  | x :: xs =>
    if x = sep then [x] :: pieces sep xs
    else
      match pieces sep xs with
      | [] => [[x]]
      | p :: ps => (x :: p) :: ps

theorem pieces_eq_nil_iff : pieces sep xs = [] ↔ xs = [] := by
  cases xs with
  | nil => simp [pieces]
  | cons x xs =>
    simp only [pieces, reduceCtorEq, iff_false]
    split
    · simp
    · split <;> simp

theorem pieces_append_open (h : sep ∉ xs) (hne : ys ≠ []) :
    ∃ p ps, pieces sep ys = p :: ps ∧ pieces sep (xs ++ ys) = (xs ++ p) :: ps := by
  induction xs with
  | nil =>
    cases hp : pieces sep ys with
    | nil => exact absurd (pieces_eq_nil_iff.mp hp) hne
    | cons p ps => exact ⟨p, ps, rfl, by simpa using hp⟩
  | cons x xs ih =>
    simp only [List.mem_cons, not_or] at h
    obtain ⟨p, ps, hp, hps⟩ := ih h.2
    refine ⟨p, ps, hp, ?_⟩
    rw [List.cons_append, pieces, if_neg (Ne.symm h.1), hps]
    rfl

theorem pieces_open (h : sep ∉ xs) (hne : xs ≠ []) : pieces sep xs = [xs] := by
  induction xs with
  | nil => exact absurd rfl hne
  | cons x xs ih =>
    simp only [List.mem_cons, not_or] at h
    rw [pieces, if_neg (Ne.symm h.1)]
    cases xs with
    | nil => rfl
    | cons y xs => rw [ih h.2 (by simp)]

theorem pieces_terminated (h : sep ∉ xs) : pieces sep (xs ++ [sep]) = [xs ++ [sep]] := by
  obtain ⟨p, ps, hp, hps⟩ := pieces_append_open h (List.cons_ne_nil sep [])
  simp only [pieces, if_true] at hp
  cases hp
  exact hps

/-- Cutting at the end of a closed part cuts no piece in two. -/
theorem pieces_append (hx : Closed sep xs) :
    pieces sep (xs ++ ys) = pieces sep xs ++ pieces sep ys := by
  rcases hx with rfl | ⟨zs, rfl⟩
  · rfl
  · rw [List.append_assoc, List.singleton_append]
    induction zs with
    | nil => simp [pieces]
    | cons z zs ih =>
      rw [List.cons_append, List.cons_append, pieces, pieces]
      split
      · rw [ih]
        rfl
      · cases hp : pieces sep (zs ++ [sep]) with
        | nil => simp [pieces_eq_nil_iff] at hp
        | cons p ps => rw [ih, hp]; rfl

theorem notMem_dropLast {p : List α} (h : p ∈ pieces sep xs) : sep ∉ p.dropLast := by
  induction xs generalizing p with
  | nil => cases h
  | cons x xs ih =>
    rw [pieces] at h
    split at h
    · rcases List.mem_cons.mp h with rfl | h
      · simp
      · exact ih h
    · next hx =>
      cases hp : pieces sep xs with
      | nil =>
        simp only [hp, List.mem_singleton] at h
        simp [h]
      | cons q qs =>
        simp only [hp, List.mem_cons] at h
        rcases h with rfl | h
        · have hq : sep ∉ q.dropLast := ih (by rw [hp]; exact List.mem_cons_self)
          cases q with
          | nil => simp
          | cons y q => simpa [Ne.symm hx] using hq
        · exact ih (by rw [hp]; exact List.mem_cons_of_mem _ h)

end TerminatedLines

import Mathlib.Data.List.DropRight

/-! Words between separators: splitting at every separator, dropping the empty parts, and
joining words again with one separator. -/
namespace SeparatedWords

variable {α : Type*} (p : α → Bool)

/-- The parts between the separators, empty ones included. There is always one part. -/
def parts : List α → List (List α)
  | [] => [[]]
  | x :: xs =>
    if p x then [] :: parts xs
    else
      match parts xs with
      | [] => [[x]]
      | w :: ws => (x :: w) :: ws

def words (xs : List α) : List (List α) := (parts p xs).filter fun w => !w.isEmpty

def trim (xs : List α) : List α := (xs.dropWhile p).rdropWhile p

def join (sep : α) (ws : List (List α)) : List α := List.intercalate [sep] ws

def IsWord (w : List α) : Prop := w ≠ [] ∧ ∀ x ∈ w, ¬ p x

/-- The words with at least one separator between neighbours, and any number after the last. -/
inductive Spaced : List (List α) → List α → Prop where
  | last (w after : List α) (hafter : ∀ x ∈ after, p x) : Spaced [w] (w ++ after)
  | more (w gap rest : List α) (ws : List (List α)) (hne : gap ≠ []) (hgap : ∀ x ∈ gap, p x)
      (hrest : Spaced ws rest) : Spaced (w :: ws) (w ++ (gap ++ rest))

/-- Any number of separators may stand before the first word too. -/
def LaidOut (ws : List (List α)) (xs : List α) : Prop :=
  ∃ before body, (∀ x ∈ before, p x) ∧ Spaced p ws body ∧ xs = before ++ body

variable {p} {x : α} {xs ys : List α}

theorem parts_ne_nil (xs : List α) : parts p xs ≠ [] := by
  cases xs with
  | nil => simp [parts]
  | cons x xs =>
    rw [parts]
    split
    · simp
    · split <;> simp

theorem parts_cons_of_neg (hx : ¬ p x) (xs : List α) :
    ∃ w ws, parts p xs = w :: ws ∧ parts p (x :: xs) = (x :: w) :: ws := by
  cases hp : parts p xs with
  | nil => exact absurd hp (parts_ne_nil xs)
  | cons w ws => exact ⟨w, ws, rfl, by rw [parts, if_neg hx, hp]⟩

theorem parts_append_sep (hx : p x) (as bs : List α) :
    parts p (as ++ x :: bs) = parts p as ++ parts p bs := by
  induction as with
  | nil => simp [parts, hx]
  | cons a as ih =>
    by_cases ha : p a
    · simp only [List.cons_append, parts, ha, if_true, ih]
    · obtain ⟨w, ws, hw, hcons⟩ := parts_cons_of_neg ha as
      obtain ⟨v, vs, hv, hcons'⟩ := parts_cons_of_neg ha (as ++ x :: bs)
      rw [List.cons_append, hcons', hcons]
      rw [hw, hv] at ih
      simp only [List.cons_append, List.cons.injEq] at ih ⊢
      exact ⟨⟨trivial, ih.1⟩, ih.2⟩

theorem words_append_sep (hx : p x) (as bs : List α) :
    words p (as ++ x :: bs) = words p as ++ words p bs := by
  rw [words, parts_append_sep hx, List.filter_append]
  rfl

@[simp] theorem words_nil : words p ([] : List α) = [] := rfl

theorem words_cons_sep (hx : p x) : words p (x :: xs) = words p xs := by
  simpa using words_append_sep hx [] xs

theorem words_snoc_sep (hx : p x) : words p (xs ++ [x]) = words p xs := by
  simpa using words_append_sep hx xs []

theorem words_append_seps (h : ∀ y ∈ ys, p y) : words p (xs ++ ys) = words p xs := by
  induction ys using List.reverseRecOn with
  | nil => rw [List.append_nil]
  | append_singleton ys y ih =>
    rw [← List.append_assoc, words_snoc_sep (h y (by simp)),
      ih fun z hz => h z (List.mem_append_left _ hz)]

theorem words_seps_append (h : ∀ y ∈ ys, p y) : words p (ys ++ xs) = words p xs := by
  induction ys with
  | nil => rfl
  | cons y ys ih =>
    rw [List.cons_append, words_cons_sep (h y List.mem_cons_self),
      ih fun z hz => h z (List.mem_cons_of_mem _ hz)]

theorem words_trim (xs : List α) : words p (trim p xs) = words p xs := by
  have hleft : words p (xs.dropWhile p) = words p xs := by
    conv_rhs => rw [← List.takeWhile_append_dropWhile (p := p) (l := xs)]
    rw [words_seps_append fun y hy => List.mem_takeWhile_imp hy]
  rw [← hleft, trim]
  conv_rhs => rw [← List.rdropWhile_append_rtakeWhile (p := p) (l := xs.dropWhile p)]
  rw [words_append_seps fun y hy => List.mem_rtakeWhile_imp hy]

theorem words_eq_nil_iff : words p xs = [] ↔ ∀ x ∈ xs, p x := by
  induction xs with
  | nil => simp
  | cons x xs ih =>
    rw [List.forall_mem_cons]
    by_cases hx : p x
    · rw [words_cons_sep hx, ih, and_iff_right hx]
    · obtain ⟨w, ws, _, hcons⟩ := parts_cons_of_neg hx xs
      rw [words, hcons]
      simp [hx]

theorem trim_eq_nil_iff : trim p xs = [] ↔ words p xs = [] := by
  constructor
  · intro h
    rw [← words_trim, h, words_nil]
  · intro h
    have hdrop : xs.dropWhile p = [] := List.dropWhile_eq_nil_iff.mpr (words_eq_nil_iff.mp h)
    rw [trim, hdrop]
    rfl

theorem parts_word {w : List α} (h : ∀ x ∈ w, ¬ p x) : parts p w = [w] := by
  induction w with
  | nil => rfl
  | cons x w ih =>
    rw [parts, if_neg (h x List.mem_cons_self), ih fun y hy => h y (List.mem_cons_of_mem _ hy)]

theorem words_word {w : List α} (h : IsWord p w) : words p w = [w] := by
  have hne := h.1
  rw [words, parts_word h.2]
  simp [hne]

theorem mem_parts {w : List α} (h : w ∈ parts p xs) : ∀ x ∈ w, x ∈ xs ∧ ¬ p x := by
  induction xs generalizing w with
  | nil =>
    rw [parts, List.mem_singleton] at h
    subst h
    simp
  | cons a as ih =>
    by_cases ha : p a
    · rw [parts, if_pos ha, List.mem_cons] at h
      intro x hx
      rcases h with rfl | h
      · cases hx
      · exact ⟨List.mem_cons_of_mem _ (ih h x hx).1, (ih h x hx).2⟩
    · obtain ⟨v, vs, hv, hcons⟩ := parts_cons_of_neg ha as
      rw [hcons, List.mem_cons] at h
      intro x hx
      rcases h with rfl | h
      · rcases List.mem_cons.mp hx with rfl | hx
        · exact ⟨List.mem_cons_self, ha⟩
        · have := ih (by rw [hv]; exact List.mem_cons_self) x hx
          exact ⟨List.mem_cons_of_mem _ this.1, this.2⟩
      · have := ih (by rw [hv]; exact List.mem_cons_of_mem _ h) x hx
        exact ⟨List.mem_cons_of_mem _ this.1, this.2⟩

theorem isWord_of_mem_words {w : List α} (h : w ∈ words p xs) : IsWord p w := by
  rw [words, List.mem_filter] at h
  refine ⟨by simpa using h.2, fun x hx => (mem_parts h.1 x hx).2⟩

theorem mem_join {sep : α} {ws : List (List α)} (h : x ∈ join sep ws) :
    x = sep ∨ ∃ w ∈ ws, x ∈ w := by
  induction ws with
  | nil => simp [join] at h
  | cons w ws ih =>
    cases ws with
    | nil => exact Or.inr ⟨w, List.mem_singleton_self _, by simpa [join] using h⟩
    | cons v vs =>
      simp only [join, List.intercalate_cons_cons, List.mem_append, List.mem_singleton] at h
      rcases h with (h | h) | h
      · exact Or.inr ⟨w, List.mem_cons_self, h⟩
      · exact Or.inl h
      · rcases ih h with h | ⟨u, hu, hx⟩
        · exact Or.inl h
        · exact Or.inr ⟨u, List.mem_cons_of_mem _ hu, hx⟩

/-- Words joined by one separator are found again. -/
theorem words_join {sep : α} (hsep : p sep) {ws : List (List α)} (hw : ∀ w ∈ ws, IsWord p w) :
    words p (join sep ws) = ws := by
  induction ws with
  | nil => rfl
  | cons w ws ih =>
    have hword := words_word (hw w List.mem_cons_self)
    cases ws with
    | nil => simpa [join] using hword
    | cons v vs =>
      have hjoin : join sep (w :: v :: vs) = w ++ sep :: join sep (v :: vs) := by
        simp [join, List.intercalate_cons_cons]
      rw [hjoin, words_append_sep hsep, hword, ih fun u hu => hw u (List.mem_cons_of_mem _ hu)]
      rfl

/-- However words are laid out, they are found again. -/
theorem Spaced.words_eq {ws : List (List α)} (h : Spaced p ws xs)
    (hw : ∀ w ∈ ws, IsWord p w) : words p xs = ws := by
  induction h with
  | last w after hafter =>
    rw [words_append_seps hafter, words_word (hw w List.mem_cons_self)]
  | more w gap rest ws hne hgap hrest ih =>
    obtain ⟨hword, hwords⟩ := List.forall_mem_cons.mp hw
    obtain ⟨y, gap, rfl⟩ := List.exists_cons_of_ne_nil hne
    obtain ⟨hy, hgap⟩ := List.forall_mem_cons.mp hgap
    rw [List.cons_append, words_append_sep hy, words_word hword, words_seps_append hgap,
      ih hwords]
    rfl

theorem LaidOut.words_eq {ws : List (List α)} (h : LaidOut p ws xs)
    (hw : ∀ w ∈ ws, IsWord p w) : words p xs = ws := by
  obtain ⟨before, body, hbefore, hspaced, rfl⟩ := h
  rw [words_seps_append hbefore, hspaced.words_eq hw]

theorem Spaced.laidOut {ws : List (List α)} (h : Spaced p ws xs) : LaidOut p ws xs :=
  ⟨[], xs, by simp, h, rfl⟩

theorem Spaced.cons {sep : α} (hsep : p sep) {w : List α} {ws : List (List α)}
    (h : Spaced p ws xs) : Spaced p (w :: ws) (w ++ sep :: xs) :=
  .more w [sep] xs ws (by simp) (by simpa using hsep) h

theorem spaced_singleton (w : List α) : Spaced p [w] w := by
  have h := Spaced.last (p := p) w [] (by simp)
  rwa [List.append_nil] at h

theorem spaced_join {sep : α} (hsep : p sep) (w : List α) (ws : List (List α)) :
    Spaced p (w :: ws) (join sep (w :: ws)) := by
  induction ws generalizing w with
  | nil => simpa [join] using spaced_singleton w
  | cons v vs ih =>
    have hjoin : join sep (w :: v :: vs) = w ++ sep :: join sep (v :: vs) := by
      simp [join, List.intercalate_cons_cons]
    rw [hjoin]
    exact (ih v).cons hsep

theorem getLast_join {sep : α} {ws : List (List α)} (hw : ∀ w ∈ ws, w ≠ [])
    (h : (join sep ws).getLast? = some x) : ∃ w ∈ ws, x ∈ w := by
  induction ws with
  | nil => simp [join] at h
  | cons w ws ih =>
    cases ws with
    | nil =>
      refine ⟨w, List.mem_singleton_self _, List.mem_of_getLast? ?_⟩
      simpa [join] using h
    | cons v vs =>
      have hne : join sep (v :: vs) ≠ [] := by
        cases vs with
        | nil => simpa [join] using hw v (by simp)
        | cons u us =>
          have := hw v (by simp)
          simp [join, List.intercalate_cons_cons]
      have hlast : (join sep (w :: v :: vs)).getLast? = (join sep (v :: vs)).getLast? := by
        conv_lhs => rw [join, List.intercalate_cons_cons]
        exact List.getLast?_append_of_ne_nil _ hne
      rw [hlast] at h
      obtain ⟨u, hu, hx⟩ := ih (fun w hm => hw w (List.mem_cons_of_mem _ hm)) h
      exact ⟨u, List.mem_cons_of_mem _ hu, hx⟩

end SeparatedWords

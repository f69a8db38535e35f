import Mathlib.Data.List.Basic
import Mathlib.Order.RelClasses

/-! Total deterministic machines. Every choice of the environment (scheduling, segmentation,
failures) is part of the event, so a run is a fold over its events. An event that is not
enabled leaves the state as it is. -/
namespace StateMachines

variable {σ τ ε ω : Type*}

def run (next : σ → ε → σ) (s : σ) (es : List ε) : σ := es.foldl next s

@[simp] theorem run_nil (next : σ → ε → σ) (s : σ) : run next s [] = s := rfl
@[simp] theorem run_cons (next : σ → ε → σ) (s : σ) (e : ε) (es : List ε) :
    run next s (e :: es) = run next (next s e) es := rfl

theorem run_append (next : σ → ε → σ) (s : σ) (as bs : List ε) :
    run next s (as ++ bs) = run next (run next s as) bs := List.foldl_append

/-- Every step of the run from the given state meets `C` in the state it is taken from. -/
def StepsMeet (next : σ → ε → σ) (C : σ → ε → Prop) : σ → List ε → Prop
  | _, [] => True
  | s, e :: es => C s e ∧ StepsMeet next C (next s e) es

@[simp] theorem stepsMeet_nil (next : σ → ε → σ) (C : σ → ε → Prop) (s : σ) :
    StepsMeet next C s [] := trivial
@[simp] theorem stepsMeet_cons (next : σ → ε → σ) (C : σ → ε → Prop) (s : σ) (e : ε)
    (es : List ε) :
    StepsMeet next C s (e :: es) ↔ C s e ∧ StepsMeet next C (next s e) es := Iff.rfl

instance (next : σ → ε → σ) (C : σ → ε → Prop) [∀ s e, Decidable (C s e)] (s : σ)
    (es : List ε) : Decidable (StepsMeet next C s es) := by
  induction es generalizing s with
  | nil => exact isTrue trivial
  | cons e es ih => exact instDecidableAnd

theorem stepsMeet_append {next : σ → ε → σ} {C : σ → ε → Prop} {s : σ} {as bs : List ε} :
    StepsMeet next C s (as ++ bs) ↔
      StepsMeet next C s as ∧ StepsMeet next C (run next s as) bs := by
  induction as generalizing s with
  | nil => simp
  | cons a as ih => simp only [List.cons_append, stepsMeet_cons, run_cons, ih, and_assoc]

theorem StepsMeet.mono {next : σ → ε → σ} {C D : σ → ε → Prop} {s : σ} {es : List ε}
    (h : StepsMeet next C s es) (hcd : ∀ s e, C s e → D s e) : StepsMeet next D s es := by
  induction es generalizing s with
  | nil => trivial
  | cons e es ih => exact ⟨hcd s e h.1, ih h.2⟩

theorem StepsMeet.take {next : σ → ε → σ} {C : σ → ε → Prop} {s : σ} {es : List ε}
    (h : StepsMeet next C s es) (n : ℕ) : StepsMeet next C s (es.take n) := by
  rw [← List.take_append_drop n es] at h
  exact (stepsMeet_append.mp h).1

theorem run_preserves_of_steps {next : σ → ε → σ} {C : σ → ε → Prop} {P : σ → Prop}
    (step : ∀ s e, P s → C s e → P (next s e)) {s : σ} {es : List ε}
    (h : P s) (hc : StepsMeet next C s es) : P (run next s es) := by
  induction es generalizing s with
  | nil => exact h
  | cons e es ih => exact ih (step s e h hc.1) hc.2

theorem run_preserves {next : σ → ε → σ} {P : σ → Prop}
    (step : ∀ s e, P s → P (next s e)) {s : σ} (h : P s) (es : List ε) :
    P (run next s es) := by
  induction es generalizing s with
  | nil => exact h
  | cons e es ih => exact ih (step s e h)

theorem StepsMeet.and_all {next : σ → ε → σ} {C : σ → ε → Prop} {D : ε → Prop} {s : σ}
    {es : List ε} (h : StepsMeet next C s es) (hd : ∀ e ∈ es, D e) :
    StepsMeet next (fun s e => C s e ∧ D e) s es := by
  induction es generalizing s with
  | nil => trivial
  | cons e es ih =>
    refine ⟨⟨h.1, hd e List.mem_cons_self⟩, ih h.2 ?_⟩
    intro f hf
    exact hd f (List.mem_cons_of_mem _ hf)

/-- Let `G` be what runs keep while their steps meet `C`, and a step that does not meet it break
`P` at once. Then `P` holds all along a run just if every step of the run meets `C`. The states
in between are of the kind `A`. -/
theorem always_iff_stepsMeet {next : σ → ε → σ} {C : σ → ε → Prop} {A G P : σ → Prop}
    (holds : ∀ s, G s → P s) (keeps : ∀ s e, A s → G s → C s e → G (next s e))
    (breaks : ∀ s e, A s → G s → ¬ C s e → ¬ P (next s e)) {s : σ} {es : List ε}
    (ha : ∀ as, as <+: es → A (run next s as)) (hg : G s) :
    (∀ as, as <+: es → P (run next s as)) ↔ StepsMeet next C s es := by
  induction es generalizing s with
  | nil =>
    refine iff_of_true ?_ trivial
    intro as has
    rw [List.prefix_nil.mp has]
    exact holds s hg
  | cons e es ih =>
    have hkind : A s := ha [] List.nil_prefix
    have hrest : ∀ as, as <+: es → A (run next (next s e) as) := fun as has =>
      ha (e :: as) (List.prefix_cons_inj e |>.mpr has)
    constructor
    · intro hall
      have hc : C s e := by
        by_contra hc
        have hfirst : [e] <+: e :: es := ⟨es, rfl⟩
        exact breaks s e hkind hg hc (hall [e] hfirst)
      refine ⟨hc, (ih hrest (keeps s e hkind hg hc)).mp ?_⟩
      intro as has
      exact hall (e :: as) (List.prefix_cons_inj e |>.mpr has)
    · rintro ⟨hc, hmeet⟩ as has
      cases as with
      | nil => exact holds s hg
      | cons f as =>
        obtain ⟨rfl, hprefix⟩ := List.cons_prefix_cons.mp has
        exact (ih hrest (keeps s f hkind hg hc)).mpr hmeet as hprefix

theorem split_snoc {as before after : List ε} {a b : ε} (h : as ++ [a] = before ++ b :: after) :
    (before = as ∧ b = a ∧ after = []) ∨ ∃ rest, as = before ++ b :: rest := by
  rcases List.eq_nil_or_concat after with rfl | ⟨rest, last, rfl⟩
  · obtain ⟨hbefore, hlast⟩ := List.append_inj' h rfl
    exact Or.inl ⟨hbefore.symm, (List.cons.inj hlast).1.symm, rfl⟩
  · have hsplit : as ++ [a] = (before ++ b :: rest) ++ [last] := by simpa using h
    exact Or.inr ⟨rest, (List.append_inj' hsplit rfl).1⟩

/-- The replies of a machine that answers every event. -/
def replies (step : σ → ε → σ × ω) : σ → List ε → List ω
  | _, [] => []
  | s, e :: es => (step s e).2 :: replies step (step s e).1 es

theorem run_grows {next : σ → ε → σ} {G : σ → Prop} {achieved : σ → Nat}
    (keeps : ∀ s e, G s → G (next s e)) (grows : ∀ s e, G s → achieved s ≤ achieved (next s e))
    {s : σ} (hg : G s) (es : List ε) : achieved s ≤ achieved (run next s es) :=
  (run_preserves (P := fun s' => G s' ∧ achieved s ≤ achieved s')
    (fun s' e h => ⟨keeps s' e h.1, Nat.le_trans h.2 (grows s' e h.1)⟩) ⟨hg, Nat.le_refl _⟩ es).2

/-- While nothing is achieved, every step that `p` picks lowers the rank and no other raises it. -/
theorem run_lowers {next : σ → ε → σ} {G Q : σ → Prop} {achieved rank : σ → Nat} {p : ε → Bool}
    (keeps : ∀ s e, G s → G (next s e)) (grows : ∀ s e, G s → achieved s ≤ achieved (next s e))
    (lowers : ∀ s e, G s → Q s → achieved (next s e) = achieved s →
      Q (next s e) ∧ rank (next s e) + (if p e then 1 else 0) ≤ rank s)
    {s : σ} (hg : G s) (hq : Q s) (es : List ε)
    (hstill : achieved (run next s es) ≤ achieved s) :
    rank (run next s es) + es.countP p ≤ rank s := by
  induction es generalizing s with
  | nil => exact Nat.le_refl _
  | cons e es ih =>
    have hnext := keeps s e hg
    have hrest := run_grows keeps grows hnext es
    rw [run_cons] at hstill
    have hsame : achieved (next s e) = achieved s :=
      Nat.le_antisymm (Nat.le_trans hrest hstill) (grows s e hg)
    obtain ⟨hq', hstep⟩ := lowers s e hg hq hsame
    have hmore := ih hnext hq' (hsame.symm ▸ hstill)
    rw [run_cons, List.countP_cons]
    omega

/-- If every good piece of a schedule achieves something until all is achieved, enough good pieces
achieve all. -/
theorem run_achieves {next : σ → ε → σ} {G : σ → Prop} {achieved : σ → Nat} {all : Nat}
    {Good : List ε → Prop} (keeps : ∀ s e, G s → G (next s e))
    (bounded : ∀ s, G s → achieved s ≤ all)
    (grows : ∀ s e, G s → achieved s ≤ achieved (next s e))
    (advances : ∀ s es, G s → Good es → achieved s < all →
      achieved s < achieved (run next s es))
    {s : σ} (hg : G s) {pieces : List (List ε)} (hgood : ∀ es ∈ pieces, Good es)
    (hlong : all ≤ achieved s + pieces.length) : achieved (run next s pieces.flatten) = all := by
  induction pieces generalizing s with
  | nil => exact Nat.le_antisymm (bounded s hg) hlong
  | cons es pieces ih =>
    rw [List.flatten_cons, run_append]
    have hg' : G (run next s es) := run_preserves keeps hg es
    refine ih hg' (fun es hes => hgood es (List.mem_cons_of_mem _ hes)) ?_
    have hbound := bounded _ hg'
    have hmono := run_grows keeps grows hg es
    rw [List.length_cons] at hlong
    by_cases hdone : achieved s < all
    · have := advances s es hg (hgood es List.mem_cons_self) hdone
      omega
    · omega

/-- A part of a machine all of whose steps are runs of a machine of its own. The steps of the part
that are counted come from steps of the whole that are. -/
theorem run_part {next : σ → ε → σ} {part : σ → τ} {nextPart : τ → ω → τ} {p : ω → Bool}
    {q : ε → Bool}
    (step : ∀ s e, ∃ as, part (next s e) = run nextPart (part s) as ∧
      as.countP p ≤ if q e then 1 else 0) (s : σ) (es : List ε) :
    ∃ as, part (run next s es) = run nextPart (part s) as ∧ as.countP p ≤ es.countP q := by
  induction es generalizing s with
  | nil => exact ⟨[], rfl, Nat.le_refl _⟩
  | cons e es ih =>
    obtain ⟨first, hfirst, hone⟩ := step s e
    obtain ⟨rest, hrest, hmore⟩ := ih (next s e)
    refine ⟨first ++ rest, ?_, ?_⟩
    · rw [run_cons, hrest, hfirst, run_append]
    · rw [List.countP_append, List.countP_cons]
      omega

theorem replies_map {α : Type*} (step : σ → ε → σ × ω) (f : α → ε) (s : σ) (as : List α) :
    replies step s (as.map f) = replies (fun s a => step s (f a)) s as := by
  induction as generalizing s with
  | nil => rfl
  | cons a as ih => exact congrArg ((step s (f a)).2 :: ·) (ih _)

theorem replies_snoc (step : σ → ε → σ × ω) (s : σ) (es : List ε) (e : ε) :
    replies step s (es ++ [e]) =
      replies step s es ++ [(step (run (fun s e => (step s e).1) s es) e).2] := by
  induction es generalizing s with
  | nil => rfl
  | cons f es ih => exact congrArg ((step s f).2 :: ·) (ih _)

/-- `R` relates the states of an implementation to those of its specification. Related states
answer alike every event which the specification admits, and stay related. -/
structure Simulation (step : σ → ε → σ × ω) (spec : τ → ε → τ × ω)
    (Admits : τ → ε → Prop) (R : σ → τ → Prop) : Prop where
  reply : ∀ s t e, R s t → Admits t e → (step s e).2 = (spec t e).2
  next : ∀ s t e, R s t → Admits t e → R (step s e).1 (spec t e).1

theorem Simulation.replies_eq {step : σ → ε → σ × ω} {spec : τ → ε → τ × ω}
    {Admits : τ → ε → Prop} {R : σ → τ → Prop} (sim : Simulation step spec Admits R)
    {s : σ} {t : τ} {es : List ε} (h : R s t)
    (ha : StepsMeet (fun t e => (spec t e).1) Admits t es) :
    replies step s es = replies spec t es := by
  induction es generalizing s t with
  | nil => rfl
  | cons e es ih =>
    rw [replies, replies, sim.reply s t e h ha.1, ih (sim.next s t e h ha.1) ha.2]

theorem Simulation.run_related {step : σ → ε → σ × ω} {spec : τ → ε → τ × ω}
    {Admits : τ → ε → Prop} {R : σ → τ → Prop} (sim : Simulation step spec Admits R)
    {s : σ} {t : τ} {es : List ε} (h : R s t)
    (ha : StepsMeet (fun t e => (spec t e).1) Admits t es) :
    R (run (fun s e => (step s e).1) s es) (run (fun t e => (spec t e).1) t es) := by
  induction es generalizing s t with
  | nil => exact h
  | cons e es ih => exact ih (sim.next s t e h ha.1) ha.2

theorem stepsMeet_true (next : σ → ε → σ) (s : σ) (es : List ε) :
    StepsMeet next (fun _ _ => True) s es := by
  induction es generalizing s with
  | nil => trivial
  | cons e es ih => exact ⟨trivial, ih _⟩

def along (next : σ → ε → σ) (schedule : ℕ → ε) (s : σ) : ℕ → σ
  | 0 => s
  | n + 1 => next (along next schedule s n) (schedule n)

theorem along_preserves {next : σ → ε → σ} {P : σ → Prop}
    (step : ∀ s e, P s → P (next s e)) {s : σ} (h : P s) (schedule : ℕ → ε) (n : ℕ) :
    P (along next schedule s n) := by
  induction n with
  | zero => exact h
  | succ n ih => exact step _ _ ih

/-- A sequence in which every state is the one before or a lower one settles, if it never stays for
ever where it is not settled. -/
theorem settles {α : Type*} [LT α] [WellFoundedLT α] {x : ℕ → σ} {μ : σ → α} {Settled : σ → Prop}
    {N : ℕ} (lowers : ∀ n, N ≤ n → x (n + 1) = x n ∨ μ (x (n + 1)) < μ (x n))
    (moves : ∀ n, N ≤ n → ¬ Settled (x n) → ∃ m, n ≤ m ∧ (x m = x n → x (m + 1) ≠ x m)) :
    ∃ n, N ≤ n ∧ Settled (x n) := by
  have stays : ∀ n m, N ≤ n → n ≤ m → x m = x n ∨ ∃ k, n ≤ k ∧ μ (x k) < μ (x n) := by
    intro n m hn hm
    induction hm with
    | refl => exact Or.inl rfl
    | @step m hm ih =>
      rcases ih with hsame | hlower
      · rcases lowers m (Nat.le_trans hn hm) with hstep | hstep
        · exact Or.inl (hstep.trans hsame)
        · exact Or.inr ⟨m + 1, Nat.le_succ_of_le hm, hsame ▸ hstep⟩
      · exact Or.inr hlower
  have descends : ∀ a n, N ≤ n → μ (x n) = a → ∃ m, N ≤ m ∧ Settled (x m) := by
    intro a
    induction a using WellFoundedLT.induction with
    | ind a ih =>
      rintro n hn rfl
      by_cases hsettled : Settled (x n)
      · exact ⟨n, hn, hsettled⟩
      · obtain ⟨m, hm, hmoves⟩ := moves n hn hsettled
        have hNm := Nat.le_trans hn hm
        rcases stays n m hn hm with hsame | ⟨k, hk, hlower⟩
        · have hlower := (lowers m hNm).resolve_left (hmoves hsame)
          rw [hsame] at hlower
          exact ih _ hlower (m + 1) (Nat.le_succ_of_le hNm) rfl
        · exact ih _ hlower k (Nat.le_trans hn hk) rfl
  exact descends _ N (Nat.le_refl N) rfl

end StateMachines

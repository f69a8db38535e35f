import Mathlib.Algebra.BigOperators.Ring.Finset
import Mathlib.Algebra.Order.Field.Basic
import Mathlib.Data.List.GetD
import Mathlib.Tactic.Ring

/-! Exponential smoothing: every new sample is blended into the value with a fixed weight. -/
namespace ExponentialSmoothing

variable {K : Type*} [Field K]

def blend (α s p : K) : K := p * α + s * (1 - α)

def smoothed (α s : K) (ps : List K) : K := ps.foldl (blend α) s

/-- What a sample weighs decays with the number of samples after it. -/
def weighted (α s : K) (ps : List K) : K :=
  s * (1 - α) ^ ps.length +
    α * ∑ i ∈ Finset.range ps.length, (1 - α) ^ (ps.length - (i + 1)) * ps.getD i 0

variable {α s : K}

@[simp] theorem smoothed_nil : smoothed α s [] = s := rfl

theorem smoothed_snoc (ps : List K) (p : K) :
    smoothed α s (ps ++ [p]) = blend α (smoothed α s ps) p := List.foldl_append

theorem smoothed_append (ps qs : List K) :
    smoothed α s (ps ++ qs) = smoothed α (smoothed α s ps) qs := List.foldl_append

/-- Samples that are all alike draw the value towards them. -/
theorem smoothed_constant {ps : List K} {p : K} (h : ∀ q ∈ ps, q = p) :
    smoothed α s ps = p + (s - p) * (1 - α) ^ ps.length := by
  induction ps using List.reverseRecOn with
  | nil => simp
  | append_singleton ps q ih =>
    obtain rfl : q = p := h q (by simp)
    rw [smoothed_snoc, ih fun r hr => h r (List.mem_append_left _ hr), blend, List.length_append,
      List.length_singleton, pow_succ]
    ring

theorem weighted_snoc (ps : List K) (p : K) :
    weighted α s (ps ++ [p]) = blend α (weighted α s ps) p := by
  have hterm : ∀ i ∈ Finset.range ps.length,
      (1 - α) ^ (ps.length + 1 - (i + 1)) * (ps ++ [p]).getD i 0 =
        (1 - α) ^ (ps.length - (i + 1)) * ps.getD i 0 * (1 - α) := by
    intro i hi
    have hlt : i < ps.length := Finset.mem_range.mp hi
    have hexp : ps.length + 1 - (i + 1) = ps.length - (i + 1) + 1 := by omega
    rw [List.getD_append _ _ _ _ hlt, hexp, pow_succ]
    ring
  have hlast : (ps ++ [p]).getD ps.length 0 = p := by simp
  rw [weighted, List.length_append, List.length_singleton, Finset.sum_range_succ,
    Finset.sum_congr rfl hterm, ← Finset.sum_mul, hlast, Nat.sub_self, weighted, blend]
  ring

theorem smoothed_eq_weighted (ps : List K) : smoothed α s ps = weighted α s ps := by
  induction ps using List.reverseRecOn with
  | nil => simp [weighted]
  | append_singleton ps p ih => rw [smoothed_snoc, weighted_snoc, ih]

section Bounds

variable [LinearOrder K] [IsStrictOrderedRing K] {lo hi p : K}

theorem lt_blend (h0 : 0 < α) (h1 : α < 1) (hp : lo ≤ p) (hs : lo < s) : lo < blend α s p := by
  have hweight : 0 < 1 - α := sub_pos.mpr h1
  calc lo = lo * α + lo * (1 - α) := by ring
    _ < p * α + s * (1 - α) :=
      add_lt_add_of_le_of_lt (mul_le_mul_of_nonneg_right hp h0.le)
        (mul_lt_mul_of_pos_right hs hweight)

theorem blend_lt (h0 : 0 < α) (h1 : α < 1) (hp : p < hi) (hs : s ≤ hi) : blend α s p < hi := by
  have hweight : 0 < 1 - α := sub_pos.mpr h1
  calc blend α s p < hi * α + hi * (1 - α) :=
      add_lt_add_of_lt_of_le (mul_lt_mul_of_pos_right hp h0)
        (mul_le_mul_of_nonneg_right hs hweight.le)
    _ = hi := by ring

theorem lt_smoothed (h0 : 0 < α) (h1 : α < 1) {ps : List K} (hps : ∀ p ∈ ps, lo ≤ p)
    (hs : lo < s) : lo < smoothed α s ps := by
  induction ps using List.reverseRecOn with
  | nil => exact hs
  | append_singleton ps p ih =>
    obtain ⟨hps, hp⟩ := List.forall_mem_append.mp hps
    rw [smoothed_snoc]
    exact lt_blend h0 h1 (hp p List.mem_cons_self) (ih hps)

/-- The value stays below what all samples are below, also if it has started there. -/
theorem smoothed_lt (h0 : 0 < α) (h1 : α < 1) {ps : List K} (hps : ∀ p ∈ ps, p < hi)
    (hs : s ≤ hi) : ps = [] ∨ smoothed α s ps < hi := by
  induction ps using List.reverseRecOn with
  | nil => exact Or.inl rfl
  | append_singleton ps p ih =>
    obtain ⟨hps, hp⟩ := List.forall_mem_append.mp hps
    have hbefore : smoothed α s ps ≤ hi := by
      rcases ih hps with hnil | hlt
      · rw [hnil]
        exact hs
      · exact hlt.le
    right
    rw [smoothed_snoc]
    exact blend_lt h0 h1 (hp p List.mem_cons_self) hbefore

end Bounds

end ExponentialSmoothing

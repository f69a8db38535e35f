import Vanguard.CelerMeaning
import Vanguard.DojoPage

/-! The colors in which the page shows how a stroke went. Arithmetic is exact here. -/
namespace DojoColors

open StateMachines SharedIpc CelerFsm ExponentialSmoothing CelerMeaning
open DojoPage (Color colorOf)

variable {K : Type} [Field K] [LinearOrder K]

/-- How the color follows the legs of a stroke. A leg is fast if it is longer than 5 pixels. -/
structure Paced (dists : List K) (color : Color) : Prop where
  fast : (∀ d ∈ dists, 5 < d) → color = .cyan
  slow : (∀ d ∈ dists, d ≤ 5) →
    (color = .cyan ↔ dists.length ≤ 1) ∧ (color = .red ↔ 8 ≤ dists.length)
  reddens : ∀ earlier recent, dists = earlier ++ recent → (∀ d ∈ recent, d ≤ 5) →
    8 ≤ recent.length → color = .red
  recovers : ∀ earlier recent, dists = earlier ++ recent → (∀ d ∈ recent, 5 < d) →
    3 ≤ recent.length → color ≠ .red
  clears : ∀ earlier recent, dists = earlier ++ recent → (∀ d ∈ recent, 5 < d) →
    10 ≤ recent.length → color = .cyan

theorem colorOf_eq (H : Hypot K) (p : K) : colorOf H.arithmetic p =
    if p < 60 then .red else if p < 85 then .yellow else .cyan := by
  simp only [colorOf, Hypot.arithmetic, decide_eq_true_eq, Rat.cast_ofNat]

theorem speedClass_slow {recent : List K} (h : ∀ d ∈ recent, d ≤ 5) :
    ∀ d ∈ recent, speedClass d = 45 := fun d hd => if_neg (not_lt.mpr (h d hd))

theorem speedClass_fast {recent : List K} (h : ∀ d ∈ recent, 5 < d) :
    ∀ d ∈ recent, speedClass d = 95 := fun d hd => if_pos (h d hd)

variable [IsStrictOrderedRing K]

theorem precisionAfter_nil : precisionAfter ([] : List K) = 100 := by
  rw [precisionAfter_eq]
  rfl

theorem precisionAfter_bounds (dists : List K) :
    45 < precisionAfter dists ∧ precisionAfter dists ≤ 100 := by
  by_cases hne : dists = []
  · subst hne
    rw [precisionAfter_nil]
    norm_num
  · have hbetween := precisionAfter_between hne
    exact ⟨hbetween.1, hbetween.2.le⟩

theorem precisionAfter_alike (earlier : List K) {recent : List K} {p : K}
    (h : ∀ d ∈ recent, speedClass d = p) : precisionAfter (earlier ++ recent) =
      p + (precisionAfter earlier - p) * 0.85 ^ recent.length := by
  have hweight : (1 : K) - 0.15 = 0.85 := by norm_num
  have hclass : ∀ q ∈ recent.map speedClass, q = p := by
    intro q hq
    obtain ⟨d, hd, rfl⟩ := List.mem_map.mp hq
    exact h d hd
  rw [precisionAfter_eq, List.map_append, smoothed_append, ← precisionAfter_eq,
    smoothed_constant hclass, hweight, List.length_map]

theorem decay_le {n m : ℕ} (h : m ≤ n) : (0.85 : K) ^ n ≤ 0.85 ^ m :=
  pow_le_pow_of_le_one (by norm_num) (by norm_num) h

theorem decay_pos (n : ℕ) : (0 : K) < 0.85 ^ n := pow_pos (by norm_num) n

theorem red_of_slow (earlier : List K) {recent : List K} (h : ∀ d ∈ recent, d ≤ 5)
    (hlong : 8 ≤ recent.length) : precisionAfter (earlier ++ recent) < 60 := by
  obtain ⟨hlow, hhigh⟩ := precisionAfter_bounds earlier
  rw [precisionAfter_alike earlier (speedClass_slow h)]
  have hleft : (precisionAfter earlier - 45) * 0.85 ^ recent.length ≤ 55 * 0.85 ^ 8 :=
    mul_le_mul (by linarith) (decay_le hlong) (decay_pos _).le (by norm_num)
  have hsmall : (55 : K) * 0.85 ^ 8 < 15 := by norm_num
  linarith

/-- Fast legs leave at most a part of the 50 that were missing. -/
theorem fast_ge (earlier : List K) {recent : List K} (h : ∀ d ∈ recent, 5 < d) {n : ℕ}
    (hlong : n ≤ recent.length) :
    95 - 50 * 0.85 ^ n ≤ precisionAfter (earlier ++ recent) := by
  obtain ⟨hlow, _⟩ := precisionAfter_bounds earlier
  rw [precisionAfter_alike earlier (speedClass_fast h)]
  have hmissing : (95 - precisionAfter earlier) * 0.85 ^ recent.length ≤ 50 * 0.85 ^ n := by
    calc (95 - precisionAfter earlier) * 0.85 ^ recent.length
        ≤ 50 * 0.85 ^ recent.length :=
          mul_le_mul_of_nonneg_right (by linarith) (decay_pos _).le
      _ ≤ 50 * 0.85 ^ n := mul_le_mul_of_nonneg_left (decay_le hlong) (by norm_num)
  linarith

theorem all_fast_gt {dists : List K} (h : ∀ d ∈ dists, 5 < d) : 95 < precisionAfter dists := by
  have heq := precisionAfter_alike [] (speedClass_fast h)
  rw [List.nil_append] at heq
  have := decay_pos (K := K) dists.length
  rw [heq, precisionAfter_nil]
  linarith

theorem all_slow_eq {dists : List K} (h : ∀ d ∈ dists, d ≤ 5) :
    precisionAfter dists = 45 + 55 * 0.85 ^ dists.length := by
  have heq := precisionAfter_alike [] (speedClass_slow h)
  rw [List.nil_append] at heq
  rw [heq, precisionAfter_nil]
  norm_num

theorem paced (H : Hypot K) (dists : List K) :
    Paced dists (colorOf H.arithmetic (precisionAfter dists)) := by
  rw [colorOf_eq]
  constructor
  · intro hfast
    have := all_fast_gt hfast
    rw [if_neg (by linarith), if_neg (by linarith)]
  · intro hslow
    have heq := all_slow_eq hslow
    rcases Nat.lt_or_ge dists.length 8 with hshort | hlong
    · have hred : ¬ precisionAfter dists < 60 := by
        have : (0.85 : K) ^ 7 ≤ 0.85 ^ dists.length := decay_le (by omega)
        have : (60 : K) < 45 + 55 * 0.85 ^ 7 := by norm_num
        rw [heq]
        linarith
      rw [if_neg hred]
      rcases Nat.lt_or_ge dists.length 2 with hone | htwo
      · have hyellow : ¬ precisionAfter dists < 85 := by
          have : (0.85 : K) ^ 1 ≤ 0.85 ^ dists.length := decay_le (by omega)
          have : (85 : K) < 45 + 55 * 0.85 ^ 1 := by norm_num
          rw [heq]
          linarith
        rw [if_neg hyellow]
        exact ⟨iff_of_true rfl (by omega), iff_of_false (by simp) (by omega)⟩
      · have hyellow : precisionAfter dists < 85 := by
          have : (0.85 : K) ^ dists.length ≤ 0.85 ^ 2 := decay_le htwo
          have : 45 + 55 * (0.85 : K) ^ 2 < 85 := by norm_num
          rw [heq]
          linarith
        rw [if_pos hyellow]
        exact ⟨iff_of_false (by simp) (by omega), iff_of_false (by simp) (by omega)⟩
    · have hred : precisionAfter ([] ++ dists) < 60 := red_of_slow _ hslow hlong
      rw [List.nil_append] at hred
      rw [if_pos hred]
      exact ⟨iff_of_false (by simp) (by omega), iff_of_true rfl hlong⟩
  · rintro earlier recent rfl hslow hlong
    rw [if_pos (red_of_slow _ hslow hlong)]
  · rintro earlier recent rfl hfast hlong
    have hge := fast_ge earlier hfast hlong
    have : (60 : K) < 95 - 50 * 0.85 ^ 3 := by norm_num
    rw [if_neg (by linarith)]
    split <;> simp
  · rintro earlier recent rfl hfast hlong
    have hge := fast_ge earlier hfast hlong
    have : (85 : K) < 95 - 50 * 0.85 ^ 10 := by norm_num
    rw [if_neg (by linarith), if_neg (by linarith)]

def drawnWith (dists : List ℚ) : List (Sample ℚ) :=
  ⟨7, 0, 0, 0, ACTION_DOWN⟩ :: (dists.scanl (· + ·) 0).tail.map fun x => ⟨7, 0, x, 0, ACTION_MOVE⟩

def slowThenFast : List (Sample ℚ) := drawnWith [1, 2, 1, 2, 1, 2, 1, 2, 6, 7, 6]

end DojoColors

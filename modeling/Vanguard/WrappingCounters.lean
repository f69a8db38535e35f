import Mathlib.Data.BitVec
import Mathlib.Data.Nat.Basic

/-! Free-running counters of `w` bits. A counter stands for an unbounded count modulo `2 ^ w`;
differences are exact while the counts are less than `2 ^ w` apart, and a power-of-two mask
reads the count modulo the mask's range, also across the wrap. -/
namespace WrappingCounters

/-- The counter shows the count `n`. -/
def Shows {w : ℕ} (c : BitVec w) (n : ℕ) : Prop := c = BitVec.ofNat w n

variable {w : ℕ} {c d : BitVec w} {m n : ℕ}

theorem shows_zero : Shows (0 : BitVec w) 0 := rfl

theorem Shows.add_one (h : Shows c n) : Shows (c + 1) (n + 1) := by
  rw [Shows, h, BitVec.ofNat_add]
  rfl

theorem Shows.toNat (h : Shows c n) : c.toNat = n % 2 ^ w := by
  rw [h, BitVec.toNat_ofNat]

/-- The wrapping difference is the true distance of two counts less than `2 ^ w` apart. -/
theorem Shows.sub_toNat (hc : Shows c n) (hd : Shows d m) (hle : m ≤ n) (hlt : n - m < 2 ^ w) :
    (c - d).toNat = n - m := by
  have hadd : d + BitVec.ofNat w (n - m) = c := by
    rw [hd, hc, ← BitVec.ofNat_add]
    congr 1
    omega
  have hsub : c - d = BitVec.ofNat w (n - m) := by
    rw [← hadd, BitVec.add_comm, BitVec.add_sub_cancel]
  rw [hsub, BitVec.toNat_ofNat, Nat.mod_eq_of_lt hlt]

theorem Shows.sub_eq_zero_iff (hc : Shows c n) (hd : Shows d m) (hle : m ≤ n)
    (hlt : n - m < 2 ^ w) : c - d = 0 ↔ n = m := by
  have h := hc.sub_toNat hd hle hlt
  constructor
  · intro hz
    rw [hz] at h
    simp at h
    omega
  · intro hn
    apply BitVec.eq_of_toNat_eq
    rw [h]
    simp [hn]

theorem Shows.and_mask (h : Shows c n) {k : ℕ} (hk : k ≤ w) :
    (c &&& BitVec.ofNat w (2 ^ k - 1)).toNat = n % 2 ^ k := by
  have hpow : 2 ^ k ≤ 2 ^ w := Nat.pow_le_pow_right (by decide) hk
  have hpos := Nat.two_pow_pos k
  have hmask : 2 ^ k - 1 < 2 ^ w := by omega
  rw [BitVec.toNat_and, h.toNat, BitVec.toNat_ofNat, Nat.mod_eq_of_lt hmask,
    Nat.and_two_pow_sub_one_eq_mod, Nat.mod_mod_of_dvd _ (Nat.pow_dvd_pow 2 hk)]

end WrappingCounters

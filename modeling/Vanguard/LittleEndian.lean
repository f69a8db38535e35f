import Mathlib.Data.Nat.Digits.Lemmas

/-! Words of whole bytes, the lowest byte first. -/
namespace LittleEndian

def ofBytes (n : ℕ) (bytes : List UInt8) : BitVec (8 * n) :=
  BitVec.ofNat (8 * n) (Nat.ofDigits 256 (bytes.map UInt8.toNat))

def toBytes (n : ℕ) (word : BitVec (8 * n)) : List UInt8 :=
  (Nat.digitsAppend 256 n word.toNat).map UInt8.ofNat

variable {n : ℕ}

theorem pow_bytes (n : ℕ) : 2 ^ (8 * n) = 256 ^ n := Nat.pow_mul 2 8 n

theorem toNat_lt_pow (word : BitVec (8 * n)) : word.toNat < 256 ^ n := by
  rw [← pow_bytes]
  exact word.isLt

@[simp] theorem length_toBytes (word : BitVec (8 * n)) : (toBytes n word).length = n := by
  rw [toBytes, List.length_map, Nat.length_digitsAppend (by decide) n (toNat_lt_pow word)]

theorem toNat_lt_of_mem {bytes : List UInt8} : ∀ d ∈ bytes.map UInt8.toNat, d < 256 := by
  intro d hd
  obtain ⟨byte, _, rfl⟩ := List.mem_map.mp hd
  exact byte.toNat_lt

theorem ofBytes_toBytes (word : BitVec (8 * n)) : ofBytes n (toBytes n word) = word := by
  have hdigits : (toBytes n word).map UInt8.toNat = Nat.digitsAppend 256 n word.toNat := by
    rw [toBytes, List.map_map]
    conv_rhs => rw [← List.map_id (Nat.digitsAppend 256 n word.toNat)]
    apply List.map_congr_left
    intro d hd
    have hlt : d < 256 := Nat.lt_of_mem_digitsAppend (by decide) n d hd
    simpa using Nat.mod_eq_of_lt hlt
  rw [ofBytes, hdigits, Nat.digitsAppend, Nat.ofDigits_append_replicate_zero, Nat.ofDigits_digits,
    BitVec.ofNat_toNat, BitVec.setWidth_eq]

/-- Different bytes make different words. -/
theorem ofBytes_inj {as bs : List UInt8} (ha : as.length = n) (hb : bs.length = n)
    (h : ofBytes n as = ofBytes n bs) : as = bs := by
  have hlt : ∀ cs : List UInt8, cs.length = n →
      Nat.ofDigits 256 (cs.map UInt8.toNat) < 2 ^ (8 * n) := by
    intro cs hc
    have hdigits : ∀ d ∈ cs.map UInt8.toNat, d < 256 := toNat_lt_of_mem
    have hbound := Nat.ofDigits_lt_base_pow_length (b := 256) (by decide) hdigits
    rwa [List.length_map, hc, ← pow_bytes] at hbound
  have hnat := congrArg BitVec.toNat h
  rw [ofBytes, ofBytes, BitVec.toNat_ofNat, BitVec.toNat_ofNat, Nat.mod_eq_of_lt (hlt as ha),
    Nat.mod_eq_of_lt (hlt bs hb)] at hnat
  have hmap := Nat.ofDigits_inj_of_len_eq (b := 256) (by decide) (by simp [ha, hb])
    toNat_lt_of_mem toNat_lt_of_mem hnat
  exact List.map_injective_iff.mpr (fun _ _ => UInt8.toNat_inj.mp) hmap

end LittleEndian

import Mathlib.Data.List.Basic

/-! Histories of versions in the order of their times, and the binary search for the version that
was in force at a time. -/
namespace VersionHistories

section Search

variable {α β : Type*}

/-- The search loop of `slice::partition_point`: the answer is within `size` places of `base`. -/
def bisect (p : α → Bool) (xs : List α) (base size : ℕ) : ℕ :=
  if 1 < size then
    let half := size / 2
    let mid := base + half
    bisect p xs (if xs[mid]?.any p then mid else base) (size - half)
  else if xs[base]?.any p then base + 1 else base
termination_by size
decreasing_by omega

/-- The number of leading elements that satisfy `p`, for a list that begins with all of them. -/
def partitionPoint (p : α → Bool) (xs : List α) : ℕ := bisect p xs 0 xs.length

theorem any_getElem? {p : α → Bool} {xs : List α} {i : ℕ} (h : xs[i]?.any p = true) :
    i < xs.length := by
  by_contra hge
  rw [List.getElem?_eq_none (by omega)] at h
  cases h

theorem bisect_le (p : α → Bool) (xs : List α) (base size : ℕ) (h : base ≤ xs.length) :
    bisect p xs base size ≤ xs.length := by
  fun_induction bisect p xs base size with
  | case1 base size hsize half mid ih =>
    apply ih
    split
    · next hmid => exact Nat.le_of_lt (any_getElem? hmid)
    · exact h
  | case2 base size hsize hbase => exact any_getElem? hbase
  | case3 base size hsize hbase => exact h

theorem partitionPoint_le (p : α → Bool) (xs : List α) : partitionPoint p xs ≤ xs.length :=
  bisect_le p xs 0 xs.length (Nat.zero_le _)

/-- Every round keeps the partition point `n` in reach. -/
theorem bisect_eq {p : α → Bool} {xs : List α} {n : ℕ} (h : ∀ i, xs[i]?.any p = true ↔ i < n)
    (base size : ℕ) (hbase : base ≤ n) (hsize : n ≤ base + size) : bisect p xs base size = n := by
  fun_induction bisect p xs base size with
  | case1 base size hlarge half mid ih =>
    have hhalf : half = size / 2 := rfl
    have hmid : mid = base + half := rfl
    apply ih
    · split
      · next hp => exact Nat.le_of_lt ((h mid).mp hp)
      · exact hbase
    · split
      · omega
      · next hp =>
        have hge := (h mid).not.mp hp
        omega
  | case2 base size hsmall hp =>
    have hlt := (h base).mp hp
    omega
  | case3 base size hsmall hp =>
    have hge := (h base).not.mp hp
    omega

theorem bisect_map (f : α → β) (p : β → Bool) (xs : List α) (base size : ℕ) :
    bisect p (xs.map f) base size = bisect (fun x => p (f x)) xs base size := by
  have hany : ∀ i : ℕ, (xs.map f)[i]?.any p = xs[i]?.any fun x => p (f x) := by
    intro i
    rw [List.getElem?_map, Option.any_map]
  fun_induction bisect (fun x => p (f x)) xs base size with
  | case1 base size hlarge half mid ih =>
    rw [bisect, if_pos hlarge]
    simp only [hany]
    exact ih
  | case2 base size hsmall hp => rw [bisect, if_neg hsmall, hany, if_pos hp]
  | case3 base size hsmall hp => rw [bisect, if_neg hsmall, hany, if_neg hp]

theorem partitionPoint_map (f : α → β) (p : β → Bool) (xs : List α) :
    partitionPoint p (xs.map f) = partitionPoint (fun x => p (f x)) xs := by
  rw [partitionPoint, bisect_map, List.length_map]
  rfl

def Partitioned (p : α → Bool) (xs : List α) : Prop := xs.Pairwise fun x y => p y → p x

theorem Partitioned.any_iff {p : α → Bool} {xs : List α} (h : Partitioned p xs) (i : ℕ) :
    xs[i]?.any p = true ↔ i < (xs.filter p).length := by
  induction xs generalizing i with
  | nil => simp
  | cons x xs ih =>
    obtain ⟨hx, hxs⟩ := List.pairwise_cons.mp h
    by_cases hp : p x = true
    · rw [List.filter_cons_of_pos hp]
      cases i with
      | zero => simp [hp]
      | succ i => simpa using ih hxs i
    · have hnone : ∀ y ∈ x :: xs, ¬ p y = true := by
        intro y hy hpy
        rcases List.mem_cons.mp hy with rfl | hy
        · exact hp hpy
        · exact hp (hx y hy hpy)
      rw [List.filter_eq_nil_iff.mpr hnone]
      cases hi : (x :: xs)[i]? with
      | none => simp
      | some y => simpa using hnone y (List.mem_of_getElem? hi)

theorem Partitioned.filter_prefix {p : α → Bool} {xs : List α} (h : Partitioned p xs) :
    xs.filter p <+: xs := by
  induction xs with
  | nil => exact List.prefix_rfl
  | cons x xs ih =>
    obtain ⟨hx, hxs⟩ := List.pairwise_cons.mp h
    by_cases hp : p x = true
    · rw [List.filter_cons_of_pos hp]
      exact (List.prefix_cons_inj x).mpr (ih hxs)
    · have hnone : ∀ y ∈ xs, ¬ p y = true := by
        intro y hy hpy
        exact hp (hx y hy hpy)
      rw [List.filter_cons_of_neg hp, List.filter_eq_nil_iff.mpr hnone]
      exact List.nil_prefix

theorem Partitioned.partitionPoint_eq {p : α → Bool} {xs : List α} (h : Partitioned p xs) :
    partitionPoint p xs = (xs.filter p).length := by
  apply bisect_eq h.any_iff
  · exact Nat.zero_le _
  · rw [Nat.zero_add]
    exact List.length_filter_le p xs

theorem Partitioned.getLast?_filter {p : α → Bool} {xs : List α} (h : Partitioned p xs) :
    (xs.filter p).getLast? =
      if partitionPoint p xs = 0 then none else xs[partitionPoint p xs - 1]? := by
  rw [h.partitionPoint_eq]
  split
  · next hzero => rw [List.getLast?_eq_none_iff, ← List.length_eq_zero_iff, hzero]
  · next hpos =>
    rw [List.getLast?_eq_getElem?]
    obtain ⟨rest, hrest⟩ := h.filter_prefix
    have hlast : (xs.filter p).length - 1 < (xs.filter p).length := by omega
    calc (xs.filter p)[(xs.filter p).length - 1]?
        = (xs.filter p ++ rest)[(xs.filter p).length - 1]? :=
          (List.getElem?_append_left hlast).symm
      _ = xs[(xs.filter p).length - 1]? := by rw [hrest]

end Search

section Versions

variable {ε κ τ : Type*} [DecidableEq κ] [LE τ] [DecidableLE τ] (key : ε → κ) (time : ε → τ)

/-- The last version of the key whose time is not after `q`. -/
def asOf (versions : List ε) (k : κ) (q : τ) : Option ε :=
  (versions.filter fun e => key e = k ∧ time e ≤ q).getLast?

def ofKey (versions : List ε) (k : κ) : List ε := versions.filter fun e => key e = k

variable {key time} {versions : List ε}

theorem asOf_map {δ : Type*} (f : δ → ε) (versions : List δ) (k : κ) (q : τ) :
    asOf key time (versions.map f) k q =
      (asOf (fun d => key (f d)) (fun d => time (f d)) versions k q).map f := by
  rw [asOf, List.filter_map, List.getLast?_map]
  rfl

variable [IsTrans τ (· ≤ ·)]

theorem partitioned_ofKey (h : versions.Pairwise fun d e => time d ≤ time e) (k : κ) (q : τ) :
    Partitioned (fun e => decide (time e ≤ q)) (ofKey key versions k) := by
  apply List.Pairwise.imp _ (List.Pairwise.filter _ h)
  intro d e hde he
  simp only [decide_eq_true_eq] at he ⊢
  exact IsTrans.trans _ _ _ hde he

/-- Among versions in the order of their times the search for a key finds the one in force. -/
theorem asOf_eq (h : versions.Pairwise fun d e => time d ≤ time e) (k : κ) (q : τ) :
    asOf key time versions k q =
      let index := partitionPoint (fun e => decide (time e ≤ q)) (ofKey key versions k)
      if index = 0 then none else (ofKey key versions k)[index - 1]? := by
  simp only [← (partitioned_ofKey h k q).getLast?_filter]
  rw [asOf, ofKey, List.filter_filter]
  simp [Bool.and_comm]

end Versions

end VersionHistories

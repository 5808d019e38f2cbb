/-
Masks of leading ones on bit vectors, and what is left of an address under one.

Results: `getMsbD_mask` gives the bits of a mask and `eq_mask` says that they determine it; the address under the mask lies
below the address and the address filled up behind the mask above it (`and_le`, `le_or`); the part in front of a mask and
the part behind it agree for zero only (`and_not_eq_and_iff`).
-/
import Mathlib.Tactic

namespace Sylar.Prefix

variable {n : ℕ}

/-- `p` leading ones -/
def mask (n p : ℕ) : BitVec n := ~~~(BitVec.allOnes n >>> p)

theorem getMsbD_mask {p i : ℕ} (hi : i < n) : (mask n p).getMsbD i = decide (i < p) := by
  rw [mask, BitVec.getMsbD_not, BitVec.getMsbD_ushiftRight, BitVec.getMsbD_allOnes]
  have hin : i - p < n := by omega
  simp [hi, hin]

theorem eq_mask {p : ℕ} {x : BitVec n} (h : ∀ i < n, x.getMsbD i = decide (i < p)) : x = mask n p := by
  refine BitVec.eq_of_getMsbD_eq fun i hi => ?_
  rw [h i hi, getMsbD_mask hi]

theorem and_le (x y : BitVec n) : x &&& y ≤ x := by
  rw [BitVec.le_def, BitVec.toNat_and]
  exact Nat.and_le_left

theorem le_or (x y : BitVec n) : x ≤ x ||| y := by
  rw [BitVec.le_def, BitVec.toNat_or]
  exact Nat.left_le_or

theorem and_not_eq_and_iff {a m : BitVec n} : a &&& ~~~m = a &&& m ↔ a = 0#n := by
  constructor
  · intro h
    refine BitVec.eq_of_getMsbD_eq fun i hi => ?_
    have hbit := congrArg (BitVec.getMsbD · i) h
    simp only [BitVec.getMsbD_and, BitVec.getMsbD_not, hi, decide_true, Bool.true_and] at hbit
    rw [BitVec.getMsbD_zero]
    cases ha : a.getMsbD i with
    | false => rfl
    | true =>
      rw [ha] at hbit
      cases hm : m.getMsbD i <;> simp [hm] at hbit
  · rintro rfl
    rw [BitVec.zero_and, BitVec.zero_and]

end Sylar.Prefix

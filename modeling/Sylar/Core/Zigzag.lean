/-
Zigzag coding of two's-complement words: small magnitudes of either sign become small unsigned numbers.

Results: `toNat_encode` gives the code as a number (2v for v ≥ 0 and -2v - 1 for v < 0, with the wrap-around that the
smallest value needs); `decode_encode` is the round trip at every width from two bits on.
-/
import Mathlib.Tactic

namespace Sylar.Zigzag

variable {w : ℕ}

def encode (v : BitVec w) : BitVec w := if v.slt 0#w then -v * 2#w - 1#w else v * 2#w

def decode (u : BitVec w) : BitVec w := (u >>> 1) ^^^ -(u &&& 1#w)

/-- twice the value from zero up, and the odd numbers below it counted down from the top -/
theorem toNat_encode (hw : 2 ≤ w) (v : BitVec w) :
    (encode v).toNat = if v.msb then 2 * (2 ^ w - v.toNat) - 1 else 2 * v.toNat := by
  have hfour : 2 ^ 2 ≤ 2 ^ w := Nat.pow_le_pow_right (by norm_num) hw
  have hv := v.isLt
  have htwo : (2#w).toNat = 2 := by rw [BitVec.toNat_ofNat]; exact Nat.mod_eq_of_lt (by omega)
  have hone : (1#w).toNat = 1 := by rw [BitVec.toNat_ofNat]; exact Nat.mod_eq_of_lt (by omega)
  rw [encode, BitVec.slt_zero_eq_msb]
  cases hs : v.msb
  · have hlt : 2 * v.toNat < 2 ^ w := BitVec.msb_eq_false_iff_two_mul_lt.1 hs
    simp only [Bool.false_eq_true, if_false]
    rw [BitVec.toNat_mul, htwo, Nat.mod_eq_of_lt (by omega), mul_comm]
  · have hge : 2 * v.toNat ≥ 2 ^ w := BitVec.msb_eq_true_iff_two_mul_ge.1 hs
    obtain ⟨m, hm⟩ : ∃ m, 2 ^ w - v.toNat = m := ⟨_, rfl⟩
    have hneg : (-v).toNat = m := by rw [BitVec.toNat_neg, Nat.mod_eq_of_lt (by omega), hm]
    simp only [if_true]
    rw [BitVec.toNat_sub, BitVec.toNat_mul, htwo, hone, hneg, hm]
    -- 2 * m is at most 2 ^ w, and the product wraps to 0 only for the smallest value
    rcases Nat.lt_or_ge (m * 2) (2 ^ w) with hlt | hge'
    · rw [Nat.mod_eq_of_lt hlt, show 2 ^ w - 1 + m * 2 = 2 * m - 1 + 2 ^ w by omega, Nat.add_mod_right,
        Nat.mod_eq_of_lt (by omega)]
    · have hfull : m * 2 = 2 ^ w := by omega
      rw [hfull, Nat.mod_self, Nat.add_zero, Nat.mod_eq_of_lt (by omega)]
      omega

/-- **Round trip** at every width. -/
theorem decode_encode (hw : 2 ≤ w) (v : BitVec w) : decode (encode v) = v := by
  have hfour : 2 ^ 2 ≤ 2 ^ w := Nat.pow_le_pow_right (by norm_num) hw
  have hv := v.isLt
  have hone : (1#w).toNat = 1 := by rw [BitVec.toNat_ofNat]; exact Nat.mod_eq_of_lt (by omega)
  have hcode := toNat_encode hw v
  have hlow : (encode v &&& 1#w).toNat = (encode v).toNat % 2 := by
    rw [BitVec.toNat_and, hone]; exact Nat.and_one_is_mod _
  have hshift : (encode v >>> 1).toNat = (encode v).toNat / 2 := by
    rw [BitVec.toNat_ushiftRight, Nat.shiftRight_eq_div_pow, pow_one]
  apply BitVec.eq_of_toNat_eq
  cases hs : v.msb
  · -- an even code: nothing is flipped
    rw [hs, if_neg (by simp)] at hcode
    have hzero : encode v &&& 1#w = 0#w := BitVec.eq_of_toNat_eq (by rw [hlow, hcode]; simp)
    rw [decode, hzero, BitVec.neg_zero, BitVec.xor_zero, hshift, hcode]
    omega
  · -- an odd code: all bits are flipped
    rw [hs, if_pos rfl] at hcode
    have hge : 2 * v.toNat ≥ 2 ^ w := BitVec.msb_eq_true_iff_two_mul_ge.1 hs
    have hodd : encode v &&& 1#w = 1#w := BitVec.eq_of_toNat_eq (by rw [hlow, hcode, hone]; omega)
    rw [decode, hodd, BitVec.neg_one_eq_allOnes, BitVec.xor_allOnes, BitVec.toNat_not, hshift, hcode]
    omega

end Sylar.Zigzag

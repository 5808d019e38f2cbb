/-
Conversions between the integer types of a machine, on integers: a conversion to an unsigned type of `w` bits is the
residue from zero up, one to a signed type the residue around zero.

Results: a value in the range of the type is kept (`toSigned_of_fits`, `toUnsigned_of_fits`) and one from the upper
half becomes negative (`toSigned_of_large`), sums may be wrapped on the way (`toSigned_add`), the result is in the range
(`toSigned_bounds`, `toUnsigned_bounds`), and a conversion through the other type of the same width changes nothing
(`toUnsigned_toSigned`); `toNat_ofInt` is the conversion to `UInt64`.
-/
import Mathlib.Tactic

namespace Sylar.MachineInt

def toSigned (w : ℕ) (x : ℤ) : ℤ := x.bmod (2 ^ w)

def toUnsigned (w : ℕ) (x : ℤ) : ℤ := x % 2 ^ w

/-- the values of the signed type -/
def FitsSigned (w : ℕ) (x : ℤ) : Prop := -2 ^ (w - 1) ≤ x ∧ x < 2 ^ (w - 1)

instance (w : ℕ) (x : ℤ) : Decidable (FitsSigned w x) := inferInstanceAs (Decidable (_ ∧ _))

theorem toSigned_of_fits {w : ℕ} {x : ℤ} (hlo : -2 ^ w ≤ 2 * x) (hhi : 2 * x < 2 ^ w) : toSigned w x = x :=
  Int.bmod_eq_of_le_mul_two (by push_cast; omega) (by push_cast; omega)

theorem toSigned_bounds {w : ℕ} (hw : 0 < w) (x : ℤ) : -2 ^ w ≤ 2 * toSigned w x ∧ 2 * toSigned w x < 2 ^ w := by
  obtain ⟨m, rfl⟩ : ∃ m, w = m + 1 := ⟨w - 1, by omega⟩
  have hpos : 0 < 2 ^ (m + 1) := by positivity
  have hlo := @Int.le_bmod x (2 ^ (m + 1)) hpos
  have hhi := @Int.bmod_lt x (2 ^ (m + 1)) hpos
  have hcast : ((2 ^ (m + 1) : ℕ) : ℤ) = 2 * 2 ^ m := by push_cast; ring
  have htwo : (2 : ℤ) ^ (m + 1) = 2 * 2 ^ m := by ring
  rw [toSigned, htwo]
  rw [hcast] at hlo hhi
  omega

/-- a value from the upper half of the unsigned range becomes negative -/
theorem toSigned_of_large {w : ℕ} {x : ℤ} (hlo : 2 ^ w ≤ 2 * x) (hhi : x < 2 ^ w) : toSigned w x = x - 2 ^ w := by
  have hwrap := Int.sub_mul_bmod_self_right x 1 (2 ^ w)
  push_cast at hwrap
  rw [one_mul] at hwrap
  rw [toSigned, ← hwrap]
  exact toSigned_of_fits (by omega) (by omega)

/-- a sum may be wrapped on the way -/
theorem toSigned_add {w : ℕ} (a b : ℕ) : toSigned w (toSigned w a + b) = toSigned w (a + b : ℕ) := by
  rw [toSigned, toSigned, toSigned, Int.bmod_add_bmod, Nat.cast_add]

theorem toUnsigned_of_fits {w : ℕ} {x : ℤ} (hlo : 0 ≤ x) (hhi : x < 2 ^ w) : toUnsigned w x = x :=
  Int.emod_eq_of_lt hlo hhi

theorem toUnsigned_bounds (w : ℕ) (x : ℤ) : 0 ≤ toUnsigned w x ∧ toUnsigned w x < 2 ^ w :=
  ⟨Int.emod_nonneg _ (by positivity), Int.emod_lt_of_pos _ (by positivity)⟩

theorem toUnsigned_toSigned (w : ℕ) (x : ℤ) : toUnsigned w (toSigned w x) = toUnsigned w x := by
  have h := @Int.bmod_emod x (2 ^ w)
  push_cast at h
  exact h

theorem toNat_ofInt (x : ℤ) : ((UInt64.ofInt x).toNat : ℤ) = toUnsigned 64 x := by
  have hbounds := toUnsigned_bounds 64 x
  rw [UInt64.ofInt, UInt64.toNat_ofNat', toUnsigned]
  rw [toUnsigned] at hbounds
  omega

end Sylar.MachineInt

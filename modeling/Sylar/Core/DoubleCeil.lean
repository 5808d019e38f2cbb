/-
Double precision, as far as `ceil(1.0 * a / b)` on unsigned integers needs it.

A positive rational is rounded to 53 significant bits, to the nearest such value and to the even one at a midpoint
(IEEE 754 binary64 away from overflow and underflow; quotients of integers below 2^64 stay far from both). Converting an
integer to double and dividing two doubles each round once.

Results:
- `roundDouble_nat`: an integer below 2^53 is a double.
- `ceilDiv_eq`: for a dividend below 2^53 the ceiling of the rounded quotient is the ceiling of the exact quotient.
-/
import Mathlib.Tactic
import Mathlib.Data.Int.Log
import Mathlib.Data.Rat.Floor

namespace Sylar.Double

/-- the nearest integer, the even one at a midpoint -/
def roundEven (q : ℚ) : ℤ :=
  let k := ⌊q⌋
  if q - k < 1 / 2 then k
  else if 1 / 2 < q - k then k + 1
  else k + k % 2

/-- the weight of the last of 53 significant bits of `q` -/
def ulp (q : ℚ) : ℚ := 2 ^ (Int.log 2 q - 52)

/-- the double nearest to `q` -/
def roundDouble (q : ℚ) : ℚ := roundEven (q / ulp q) * ulp q

/-- `ceil(1.0 * a / b)` in double precision, converted back to an unsigned integer -/
def ceilDiv (a b : ℕ) : ℕ := ⌈roundDouble (roundDouble a / roundDouble b)⌉₊

/-! ## Rounding to an integer -/

theorem roundEven_int (k : ℤ) : roundEven k = k := by
  simp [roundEven]

theorem roundEven_le {q : ℚ} {n : ℤ} (h : q ≤ n) : roundEven q ≤ n := by
  have hfloor : ⌊q⌋ ≤ n := by
    have := (Int.floor_le q).trans h
    exact_mod_cast this
  by_cases heq : ⌊q⌋ = n
  · have hq : q = n := le_antisymm h (by rw [← heq]; exact Int.floor_le q)
    rw [hq, roundEven_int]
  · have hlt : ⌊q⌋ + 1 ≤ n := by omega
    simp only [roundEven]
    split_ifs <;> omega

theorem lt_roundEven {q : ℚ} {n : ℤ} (h : (n : ℚ) + 1 / 2 < q) : n < roundEven q := by
  have hfloor : n ≤ ⌊q⌋ := Int.le_floor.2 (by linarith)
  rcases lt_or_eq_of_le hfloor with hlt | heq
  · simp only [roundEven]
    split_ifs <;> omega
  · simp only [roundEven, ← heq]
    rw [if_neg (by linarith), if_pos (by linarith)]
    omega

/-! ## Rounding to a double -/

theorem ulp_pos (q : ℚ) : 0 < ulp q := zpow_pos (by norm_num) _

/-- an integer is a multiple of the last bit of anything below 2^53 -/
theorem nat_div_ulp {q : ℚ} (n : ℕ) (hq : 0 < q) (hlt : q < 2 ^ 53) : ∃ m : ℤ, (n : ℚ) / ulp q = m := by
  have hlog : Int.log 2 q ≤ 52 := by
    have h1 : ((2 : ℕ) : ℚ) ^ Int.log 2 q ≤ q := Int.zpow_log_le_self (by norm_num) hq
    have h2 : (2 : ℚ) ^ Int.log 2 q < 2 ^ (53 : ℤ) := lt_of_le_of_lt (by exact_mod_cast h1) (by exact_mod_cast hlt)
    have := (zpow_lt_zpow_iff_right₀ (by norm_num : (1 : ℚ) < 2)).1 h2
    omega
  obtain ⟨k, hk⟩ : ∃ k : ℕ, 52 - Int.log 2 q = k := ⟨(52 - Int.log 2 q).toNat, by omega⟩
  refine ⟨n * 2 ^ k, ?_⟩
  have hu : ulp q = ((2 : ℚ) ^ k)⁻¹ := by
    rw [ulp, show Int.log 2 q - 52 = -(k : ℤ) by omega, zpow_neg, zpow_natCast]
  rw [hu, div_inv_eq_mul]
  push_cast
  rfl

theorem roundDouble_nat {n : ℕ} (hpos : 0 < n) (hlt : n < 2 ^ 53) : roundDouble n = n := by
  have hq : (0 : ℚ) < n := by exact_mod_cast hpos
  obtain ⟨m, hm⟩ := nat_div_ulp n hq (by exact_mod_cast hlt)
  have hu := ulp_pos (n : ℚ)
  rw [roundDouble, hm, roundEven_int, ← hm]
  field_simp

theorem roundDouble_le {q : ℚ} {n : ℕ} (hq : 0 < q) (hlt : q < 2 ^ 53) (h : q ≤ n) : roundDouble q ≤ n := by
  obtain ⟨m, hm⟩ := nat_div_ulp n hq hlt
  have hu := ulp_pos q
  have hle : roundEven (q / ulp q) ≤ m := roundEven_le (by rw [← hm]; gcongr)
  calc roundDouble q ≤ m * ulp q := by
        unfold roundDouble
        gcongr
    _ = n := by rw [← hm]; field_simp

theorem lt_roundDouble {q : ℚ} {n : ℕ} (hq : 0 < q) (hlt : q < 2 ^ 53) (h : n + ulp q / 2 < q) : n < roundDouble q := by
  obtain ⟨m, hm⟩ := nat_div_ulp n hq hlt
  have hu := ulp_pos q
  have hlt : m < roundEven (q / ulp q) := by
    apply lt_roundEven
    rw [← hm, lt_div_iff₀ hu]
    calc (n / ulp q + 1 / 2) * ulp q = n + ulp q / 2 := by field_simp
      _ < q := h
  calc (n : ℚ) = m * ulp q := by rw [← hm]; field_simp
    _ < roundDouble q := by
        unfold roundDouble
        gcongr

theorem roundEven_ge {q : ℚ} {n : ℤ} (h : (n : ℚ) ≤ q) : n ≤ roundEven q := by
  have hfloor : n ≤ ⌊q⌋ := Int.le_floor.2 h
  simp only [roundEven]
  split_ifs <;> omega

/-- rounding keeps the leading bit -/
theorem two_zpow_log_le_roundDouble {q : ℚ} (hq : 0 < q) : (2 : ℚ) ^ Int.log 2 q ≤ roundDouble q := by
  have hu := ulp_pos q
  have hlog : (2 : ℚ) ^ Int.log 2 q ≤ q := by exact_mod_cast Int.zpow_log_le_self (b := 2) (by norm_num) hq
  have hsplit : (2 : ℚ) ^ Int.log 2 q = 2 ^ 52 * ulp q := by
    rw [ulp, zpow_sub₀ (by norm_num)]
    norm_num
    ring
  have hge : (2 ^ 52 : ℤ) ≤ roundEven (q / ulp q) := by
    apply roundEven_ge
    rw [le_div_iff₀ hu]
    calc ((2 ^ 52 : ℤ) : ℚ) * ulp q = 2 ^ Int.log 2 q := by rw [hsplit]; norm_num
      _ ≤ q := hlog
  rw [hsplit, roundDouble]
  gcongr
  exact_mod_cast hge

theorem roundDouble_pos {q : ℚ} (hq : 0 < q) : 0 < roundDouble q :=
  lt_of_lt_of_le (zpow_pos (by norm_num) _) (two_zpow_log_le_roundDouble hq)

theorem le_roundDouble_nat {n : ℕ} (hn : 2 ^ 53 ≤ n) : 2 ^ 53 ≤ roundDouble n := by
  have hpos : (0 : ℚ) < n := by
    have : 0 < n := lt_of_lt_of_le (by norm_num) hn
    exact_mod_cast this
  have hlog : (53 : ℤ) ≤ Int.log 2 (n : ℚ) := by
    rw [← Int.zpow_le_iff_le_log (by norm_num) hpos]
    exact_mod_cast hn
  calc (2 : ℚ) ^ 53 = 2 ^ (53 : ℤ) := by norm_cast
    _ ≤ 2 ^ Int.log 2 (n : ℚ) := zpow_le_zpow_right₀ (by norm_num) hlog
    _ ≤ roundDouble n := two_zpow_log_le_roundDouble hpos

/-! ## The quotient -/

/-- the quotient of two integers below 2^53: an exact quotient `a / b` above an integer exceeds it by at least `1 / b`,
which is more than half of its last bit, so rounding does not bring it down to the integer -/
theorem ceil_roundDouble_div {a b : ℕ} (ha : 0 < a) (hb : 0 < b) (ha' : a < 2 ^ 53) :
    ⌈roundDouble ((a : ℚ) / b)⌉₊ = (a + b - 1) / b := by
  set q : ℚ := (a : ℚ) / b with hqdef
  have hbq : (0 : ℚ) < b := by exact_mod_cast hb
  have hq : 0 < q := by positivity
  have hqa : q ≤ a := by
    rw [hqdef, div_le_iff₀ hbq]
    have : a ≤ a * b := Nat.le_mul_of_pos_right a hb
    exact_mod_cast this
  have hlt : q < 2 ^ 53 := lt_of_le_of_lt hqa (by exact_mod_cast ha')
  obtain ⟨n, hn⟩ : ∃ n, (a + b - 1) / b = n + 1 :=
    ⟨(a + b - 1) / b - 1, by
      have : 0 < (a + b - 1) / b := Nat.div_pos (by omega) hb
      omega⟩
  have hdiv := Nat.div_add_mod (a + b - 1) b
  have hmod := Nat.mod_lt (a + b - 1) hb
  rw [hn] at hdiv
  have hmul : b * (n + 1) = b * n + b := by ring
  have hup : a ≤ b * (n + 1) := by omega
  have hlow : b * n + 1 ≤ a := by omega
  rw [hn, Nat.ceil_eq_iff (by omega)]
  refine ⟨?_, roundDouble_le hq hlt ?_⟩
  · rw [Nat.add_sub_cancel]
    apply lt_roundDouble hq hlt
    -- the last bit of q weighs less than 2 / b, because b * 2 ^ log q ≤ a < 2 ^ 53
    have hulp : ulp q * b < 2 := by
      have hlog : ((2 : ℕ) : ℚ) ^ Int.log 2 q ≤ q := Int.zpow_log_le_self (by norm_num) hq
      have h2 : (2 : ℚ) ^ Int.log 2 q * b ≤ a := by
        have : (2 : ℚ) ^ Int.log 2 q ≤ q := by exact_mod_cast hlog
        rwa [hqdef, le_div_iff₀ hbq] at this
      have ha53 : (a : ℚ) < 2 ^ 53 := by exact_mod_cast ha'
      have hsplit : ulp q = 2 ^ Int.log 2 q / 2 ^ 52 := by
        rw [ulp, zpow_sub₀ (by norm_num)]; norm_num
      rw [hsplit, div_mul_eq_mul_div, div_lt_iff₀ (by positivity)]
      linarith
    have hexact : (n : ℚ) * b + 1 ≤ a := by
      have : n * b + 1 ≤ a := by rw [mul_comm]; exact hlow
      exact_mod_cast this
    change (n : ℚ) + ulp q / 2 < a / b
    rw [lt_div_iff₀ hbq]
    calc ((n : ℚ) + ulp q / 2) * b = n * b + ulp q * b / 2 := by ring
      _ < n * b + 1 := by linarith
      _ ≤ a := hexact
  · rw [div_le_iff₀ hbq]
    have : a ≤ (n + 1) * b := by rw [mul_comm]; exact hup
    exact_mod_cast this

/-- the ceiling of a positive quotient is positive, at any size -/
theorem ceilDiv_pos {a b : ℕ} (ha : 0 < a) (hb : 0 < b) : 1 ≤ ceilDiv a b := by
  have haq : 0 < roundDouble a := roundDouble_pos (by exact_mod_cast ha)
  have hbq : 0 < roundDouble b := roundDouble_pos (by exact_mod_cast hb)
  exact Nat.one_le_ceil_iff.2 (roundDouble_pos (div_pos haq hbq))

/-- **The ceiling is exact.** For a dividend below 2^53 the double-precision ceiling is the ceiling of the exact
quotient. A divisor from 2^53 on may be rounded, but then both ceilings are 1. -/
theorem ceilDiv_eq {a b : ℕ} (ha : 0 < a) (hb : 0 < b) (ha' : a < 2 ^ 53) : ceilDiv a b = (a + b - 1) / b := by
  rw [ceilDiv, roundDouble_nat ha ha']
  by_cases hb' : b < 2 ^ 53
  · rw [roundDouble_nat hb hb']
    exact ceil_roundDouble_div ha hb ha'
  · have hone : (a + b - 1) / b = 1 := Nat.div_eq_of_lt_le (by omega) (by omega)
    have hbig : (2 : ℚ) ^ 53 ≤ roundDouble b := le_roundDouble_nat (not_lt.1 hb')
    have haq : (0 : ℚ) < a := by exact_mod_cast ha
    have haq' : (a : ℚ) < 2 ^ 53 := by exact_mod_cast ha'
    have hq : 0 < (a : ℚ) / roundDouble b := by positivity
    have hq1 : (a : ℚ) / roundDouble b ≤ (1 : ℕ) := by
      rw [div_le_iff₀ (by linarith)]
      push_cast
      linarith
    rw [hone, Nat.ceil_eq_iff (by norm_num)]
    refine ⟨?_, roundDouble_le hq (lt_of_le_of_lt hq1 (by norm_num)) hq1⟩
    simpa using roundDouble_pos hq

end Sylar.Double

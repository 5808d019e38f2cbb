/-
Numerals to a base of at most sixteen, as `operator<<` prints them, and how they are read back.

Results: `number_numeral` reads a printed number back; `notMem_numeral` says that a numeral is of digits only, and
`numeral_ne_nil` that it has one; `numeral_ten` are the decimals of `Text`.
-/
import Sylar.Core.Text

namespace Sylar.Numeral

open Sylar.Text

/-- `n` to the base `b`, in lower case -/
def numeral (b n : ℕ) : Bytes := (Nat.toDigits b n).map fun c => UInt8.ofNat c.toNat

/-- the value of a digit, in either case -/
def digit (c : UInt8) : Option ℕ :=
  if 48 ≤ c ∧ c ≤ 57 then some (c.toNat - 48)
  else if 97 ≤ c ∧ c ≤ 102 then some (c.toNat - 87)
  else if 65 ≤ c ∧ c ≤ 70 then some (c.toNat - 55)
  else none

/-- the next digit of a number to the base `b` -/
def addDigit (b : ℕ) (acc : Option ℕ) (c : UInt8) : Option ℕ :=
  match acc, digit c with
  | some n, some d => if d < b then some (b * n + d) else none
  | _, _ => none

/-- the number that a text spells -/
def number (b : ℕ) (s : Bytes) : Option ℕ := if s = [] then none else s.foldl (addDigit b) (some 0)

theorem numeral_ten (n : ℕ) : numeral 10 n = decimal n := rfl

theorem digit_digitChar {d : ℕ} (hd : d < 16) : digit (UInt8.ofNat (Nat.digitChar d).toNat) = some d := by
  interval_cases d <;> decide

variable {b : ℕ}

theorem numeral_of_lt {n : ℕ} (h : n < b) : numeral b n = [UInt8.ofNat (Nat.digitChar n).toNat] := by
  rw [numeral, Nat.toDigits_of_lt_base h, List.map_singleton]

theorem numeral_of_le {n : ℕ} (hb : 1 < b) (h : b ≤ n) :
    numeral b n = numeral b (n / b) ++ [UInt8.ofNat (Nat.digitChar (n % b)).toNat] := by
  rw [numeral, Nat.toDigits_of_base_le hb h, List.map_append, List.map_singleton, numeral]

theorem numeral_ne_nil (n : ℕ) : numeral b n ≠ [] := by
  rw [numeral, Ne, List.map_eq_nil_iff]
  exact Nat.toDigits_ne_nil

/-- every byte of a numeral is a digit -/
theorem digit_of_mem_numeral (hb : 1 < b) (hb' : b ≤ 16) {n : ℕ} {c : UInt8} (h : c ∈ numeral b n) :
    ∃ d, digit c = some d := by
  induction n using Nat.strong_induction_on with
  | _ n ih =>
    rcases Nat.lt_or_ge n b with hn | hn
    · rw [numeral_of_lt hn, List.mem_singleton] at h
      exact ⟨n, by rw [h, digit_digitChar (by omega)]⟩
    · rw [numeral_of_le hb hn, List.mem_append, List.mem_singleton] at h
      have hmod := Nat.mod_lt n (show 0 < b by omega)
      rcases h with h | h
      · exact ih (n / b) (Nat.div_lt_self (by omega) hb) h
      · exact ⟨n % b, by rw [h, digit_digitChar (by omega)]⟩

theorem notMem_numeral (hb : 1 < b) (hb' : b ≤ 16) {c : UInt8} (hc : digit c = none) (n : ℕ) : c ∉ numeral b n := by
  intro h
  obtain ⟨d, hd⟩ := digit_of_mem_numeral hb hb' h
  rw [hc] at hd
  exact absurd hd (by simp)

theorem foldl_numeral (hb : 1 < b) (hb' : b ≤ 16) (n : ℕ) : (numeral b n).foldl (addDigit b) (some 0) = some n := by
  induction n using Nat.strong_induction_on with
  | _ n ih =>
    rcases Nat.lt_or_ge n b with hn | hn
    · rw [numeral_of_lt hn, List.foldl_cons, List.foldl_nil]
      simp only [addDigit, digit_digitChar (show n < 16 by omega), if_pos hn]
      rw [Nat.mul_zero, Nat.zero_add]
    · have hmod := Nat.mod_lt n (show 0 < b by omega)
      rw [numeral_of_le hb hn, List.foldl_append, ih (n / b) (Nat.div_lt_self (by omega) hb), List.foldl_cons,
        List.foldl_nil]
      simp only [addDigit, digit_digitChar (show n % b < 16 by omega), if_pos hmod]
      rw [Nat.div_add_mod]

/-- **A number is read back.** -/
theorem number_numeral (hb : 1 < b) (hb' : b ≤ 16) (n : ℕ) : number b (numeral b n) = some n := by
  rw [number, if_neg (numeral_ne_nil n), foldl_numeral hb hb']

end Sylar.Numeral

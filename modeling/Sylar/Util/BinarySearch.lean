/-
`BinarySearch` of util.h.

The indices are ints of 32 bits, and `(begin + end) / 2` adds two of them: in an array of more than 2^30 elements the sum
can leave the range. A search that has only moved up k times has `length / 2^k` elements in front of it, so the searches
that overflow are known beforehand (`Overflows`).

Results:
- `loop_low`: once the upper bound has moved, the sum is in range and the search ends with the right index;
- `loop_high`: as long as only the lower bound has moved, the search is right unless a sum overflows on the way;
- `BinarySearch_correct_iff`: exactly when the search is right, and `not_overflows` for arrays of at most 2^30 elements.
-/
import Sylar.Core.Rank
import Sylar.Core.MachineInt

namespace Sylar.Util

open Sylar.Rank
open Sylar.MachineInt (FitsSigned)

/-! ## Model -/

/-- the range of `int` -/
abbrev IsInt (z : ℤ) : Prop := FitsSigned 32 z

/-- what the language leaves undefined -/
inductive Fault
  | overflow
  | outOfRange
deriving DecidableEq, Repr

theorem midpoint_bounds {b e : ℤ} (h : b ≤ e) : b ≤ (b + e).tdiv 2 ∧ (b + e).tdiv 2 ≤ e := by
  have hsign : Int.sign 2 = 1 := rfl
  rw [Int.tdiv_eq_ediv, hsign]
  split <;> omega

section

variable {α : Type*} [LinearOrder α] (arr : List α)

/-- `arr[m]`, for an index of the array -/
def elementAt (m : ℤ) : Option α := if 0 ≤ m then arr[m.toNat]? else none

variable (v : α)

/-- `while(begin <= end)` -/
def BinarySearch.loop (begin end' : ℤ) : Except Fault ℤ :=
  if begin ≤ end' then
    if IsInt (begin + end') then
      let m := (begin + end').tdiv 2
      match elementAt arr m with
      | none => .error .outOfRange
      | some x =>
        if v < x then
          if IsInt (m - 1) then BinarySearch.loop begin (m - 1) else .error .overflow
        else if x < v then
          if IsInt (m + 1) then BinarySearch.loop (m + 1) end' else .error .overflow
        else .ok m
    else .error .overflow
  else if IsInt (-begin) ∧ IsInt (-begin - 1) then .ok (-begin - 1)
  else .error .overflow
termination_by (end' - begin + 1).toNat
decreasing_by
  all_goals
    have hmid := midpoint_bounds (show begin ≤ end' by assumption)
    omega

/-- `arr` is the `length` elements behind the pointer -/
def BinarySearch (length : ℤ) : Except Fault ℤ :=
  if IsInt (length - 1) then BinarySearch.loop arr v 0 (length - 1) else .error .overflow

end

section

variable {α : Type*} [LinearOrder α] {arr : List α} {v : α}

/-! ## One round -/

theorem loop_done {b e : ℤ} (hgt : e < b) (hlo : 0 ≤ b) (hhi : b < 2 ^ 31) :
    BinarySearch.loop arr v b e = .ok (-b - 1) := by
  have hneg : IsInt (-b) := ⟨by omega, by omega⟩
  have hpred : IsInt (-b - 1) := ⟨by omega, by omega⟩
  rw [BinarySearch.loop, if_neg (by omega), if_pos ⟨hneg, hpred⟩]

theorem loop_overflow {b e : ℤ} (hle : b ≤ e) (hsum : 2 ^ 31 ≤ b + e) :
    BinarySearch.loop arr v b e = .error .overflow := by
  rw [BinarySearch.loop, if_pos hle, if_neg fun h => absurd h.2 (by omega)]

variable (hs : arr.Pairwise (· ≤ ·)) (hlen : arr.length < 2 ^ 31)
include hs hlen

/-- a round compares the middle index with the ranks of `v` -/
theorem loop_round {b e : ℤ} (hlo : 0 ≤ b) (hle : b ≤ e) (hhi : e < arr.length) (hsum : b + e < 2 ^ 31) {m : ℕ}
    (hm : (b + e) / 2 = m) : BinarySearch.loop arr v b e =
      if upTo arr v ≤ m then BinarySearch.loop arr v b (m - 1)
      else if m < below arr v then BinarySearch.loop arr v (m + 1) e else .ok m := by
  have htdiv : (b + e).tdiv 2 = m := by rw [Int.tdiv_eq_ediv_of_nonneg (by omega), hm]
  have hmlt : m < arr.length := by omega
  have hget : arr[m]? = some arr[m] := List.getElem?_eq_getElem hmlt
  have hat : elementAt arr m = some arr[m] := by rw [elementAt, if_pos (by omega), Int.toNat_natCast, hget]
  have hint : IsInt (b + e) := ⟨by omega, hsum⟩
  have hpred : IsInt ((m : ℤ) - 1) := ⟨by omega, by omega⟩
  have hsucc : IsInt ((m : ℤ) + 1) := ⟨by omega, by omega⟩
  rw [BinarySearch.loop, if_pos hle, if_pos hint]
  simp only [htdiv, hat, if_pos hpred, if_pos hsucc, lt_iff_upTo hs hget v, lt_iff_below hs hget v]

/-! ## Both bounds in the lower half -/

/-- the result for `v`: an index that holds it, or the place it should have, counted down from -1 -/
structure Located (arr : List α) (v : α) (r : ℤ) : Prop where
  found : v ∈ arr → 0 ≤ r ∧ elementAt arr r = some v
  missing : v ∉ arr → r = -(below arr v + 1)

omit hlen in
theorem located_of_rank {m : ℕ} (hlow : below arr v ≤ m) (hhigh : m < upTo arr v) : Located arr v m := by
  have hmlt : m < arr.length := lt_of_lt_of_le hhigh (upTo_le_length arr v)
  have hget : arr[m]? = some arr[m] := List.getElem?_eq_getElem hmlt
  have hge : ¬ arr[m] < v := by rw [lt_iff_below hs hget v]; omega
  have hle : ¬ v < arr[m] := by rw [lt_iff_upTo hs hget v]; omega
  have heq : arr[m] = v := le_antisymm (not_lt.1 hle) (not_lt.1 hge)
  refine ⟨fun _ => ⟨by omega, ?_⟩, fun hv => ?_⟩
  · rw [elementAt, if_pos (by omega), Int.toNat_natCast, hget, heq]
  · exact absurd (heq ▸ List.getElem_mem hmlt) hv

omit hlen in
theorem located_of_empty {b : ℤ} (hlow : b ≤ below arr v) (hhigh : (upTo arr v : ℤ) ≤ b) : Located arr v (-b - 1) := by
  have hle := below_le_upTo arr v
  have hnot : v ∉ arr := by rw [mem_iff hs]; omega
  exact ⟨fun hv => absurd hv hnot, fun _ => by omega⟩

/-- the bounds enclose the ranks, and the sum of any two indices up to `e` is in range -/
theorem loop_low {b e : ℤ} (hlo : 0 ≤ b) (hhi : e < arr.length) (hsum : 2 * e < 2 ^ 31) (hbelow : b ≤ below arr v)
    (hupTo : (upTo arr v : ℤ) ≤ e + 1) : ∃ r, BinarySearch.loop arr v b e = .ok r ∧ Located arr v r := by
  induction hsize : (e - b + 1).toNat using Nat.strongRecOn generalizing b e with
  | ind size ih =>
    have hrank := below_le_length arr v
    by_cases hle : b ≤ e
    · obtain ⟨m, hm⟩ : ∃ m : ℕ, (b + e) / 2 = m := ⟨((b + e) / 2).toNat, by omega⟩
      have hround := loop_round (v := v) hs hlen hlo hle hhi (by omega) hm
      by_cases hup : upTo arr v ≤ m
      · rw [if_pos hup] at hround
        rw [hround]
        exact ih _ (by omega) hlo (by omega) (by omega) hbelow (by omega) rfl
      · rw [if_neg hup] at hround
        by_cases hdown : m < below arr v
        · rw [if_pos hdown] at hround
          rw [hround]
          exact ih _ (by omega) (by omega) hhi hsum (by omega) hupTo rfl
        · rw [if_neg hdown] at hround
          exact ⟨m, hround, located_of_rank hs (by omega) (by omega)⟩
    · exact ⟨-b - 1, loop_done (by omega) hlo (by omega), located_of_empty hs hbelow (by omega)⟩

/-! ## Moving up only -/

/-- from `r` elements on, a search for a value of rank `p` in `n` elements that halves them comes to a sum past the
range: `k` halvings are left to do, at least one element is left, and those in front of it are all below the value -/
def OverflowsFrom (n p r : ℕ) : Prop := ∃ k, 0 < r / 2 ^ k ∧ n ≤ p + r / 2 ^ k ∧ 2 ^ 31 + r / 2 ^ k < 2 * n

omit [LinearOrder α] hs hlen in
theorem overflowsFrom_now {n p r : ℕ} (hr : 0 < r) (hp : n ≤ p + r) (hsum : 2 ^ 31 + r < 2 * n) :
    OverflowsFrom n p r :=
  ⟨0, by simpa using hr, by simpa using hp, by simpa using hsum⟩

omit hs hlen [LinearOrder α] in
theorem overflowsFrom_half {n p r : ℕ} (hsum : 2 * n ≤ 2 ^ 31 + r) :
    OverflowsFrom n p r ↔ OverflowsFrom n p (r / 2) := by
  have hdiv : ∀ k, r / 2 ^ (k + 1) = r / 2 / 2 ^ k := fun k => by rw [Nat.div_div_eq_div_mul, pow_succ']
  refine ⟨fun h => ?_, fun h => ?_⟩
  · obtain ⟨k, hk⟩ := h
    cases k with
    | zero =>
      rw [pow_zero, Nat.div_one] at hk
      omega
    | succ k =>
      rw [hdiv] at hk
      exact ⟨k, hk⟩
  · obtain ⟨k, hk⟩ := h
    rw [← hdiv] at hk
    exact ⟨k + 1, hk⟩

/-- the upper bound is still the last index, and `r` elements are in front of the search -/
theorem loop_high {r : ℕ} (hr : r ≤ arr.length) (hbelow : arr.length ≤ below arr v + r) :
    (OverflowsFrom arr.length (below arr v) r →
      BinarySearch.loop arr v (arr.length - r) (arr.length - 1) = .error .overflow) ∧
    (¬ OverflowsFrom arr.length (below arr v) r →
      ∃ z, BinarySearch.loop arr v (arr.length - r) (arr.length - 1) = .ok z ∧ Located arr v z) := by
  induction r using Nat.strongRecOn with
  | ind r ih =>
    have hrank := below_le_length arr v
    have hupTo := upTo_le_length arr v
    by_cases hempty : r = 0
    · subst hempty
      refine ⟨fun ⟨k, hk, _⟩ => absurd hk (by simp), fun _ => ⟨_, loop_done (by omega) (by omega) (by omega), ?_⟩⟩
      exact located_of_empty hs (by omega) (by omega)
    · by_cases hsum : 2 ^ 31 + r < 2 * arr.length
      · have hnow := overflowsFrom_now (by omega) hbelow hsum
        exact ⟨fun _ => loop_overflow (by omega) (by omega), fun h => absurd hnow h⟩
      · -- half of the `r` elements stay in front if the search moves up
        obtain ⟨m, hm⟩ : ∃ m, arr.length = m + r / 2 + 1 := ⟨arr.length - r / 2 - 1, by omega⟩
        have hround := loop_round (v := v) hs hlen (b := arr.length - r) (e := arr.length - 1) (m := m)
          (by omega) (by omega) (by omega) (by omega) (by omega)
        rw [overflowsFrom_half (by omega)]
        by_cases hup : upTo arr v ≤ m
        · rw [if_pos hup] at hround
          rw [hround]
          refine ⟨fun ⟨k, _, hk, _⟩ => ?_, fun _ => ?_⟩
          · have hle := Nat.div_le_self (r / 2) (2 ^ k)
            have hrank' := below_le_upTo arr v
            omega
          · exact loop_low hs hlen (by omega) (by omega) (by omega) (by omega) (by omega)
        · rw [if_neg hup] at hround
          by_cases hdown : m < below arr v
          · rw [if_pos hdown] at hround
            have hnext := ih (r / 2) (by omega) (by omega) (by omega)
            rw [hround, show (m : ℤ) + 1 = arr.length - (r / 2 : ℕ) by omega]
            exact hnext
          · rw [if_neg hdown] at hround
            rw [hround]
            refine ⟨fun ⟨k, _, hk, _⟩ => ?_, fun _ => ⟨m, rfl, located_of_rank hs (by omega) (by omega)⟩⟩
            have hle := Nat.div_le_self (r / 2) (2 ^ k)
            omega

/-! ## The whole search -/

/-- the search of a value that so many elements are below of that the midpoints come to a sum past the range -/
def Overflows (arr : List α) (v : α) : Prop := OverflowsFrom arr.length (below arr v) arr.length

/-- every index is in the array, no sum leaves the range, and the result is the right one -/
def Correct (arr : List α) (v : α) : Prop :=
  ∃ r, BinarySearch arr v arr.length = .ok r ∧ Located arr v r

omit hs hlen in
/-- in an array of at most 2^30 elements no search overflows -/
theorem not_overflows (arr : List α) (v : α) (hsmall : arr.length ≤ 2 ^ 30) : ¬ Overflows arr v := by
  intro h
  obtain ⟨k, hk, _, hsum⟩ := h
  omega

/-- either a sum leaves the range, or the search is right -/
theorem BinarySearch_spec : (Overflows arr v → BinarySearch arr v arr.length = .error .overflow) ∧
    (¬ Overflows arr v → Correct arr v) := by
  have hstart : BinarySearch arr v arr.length =
      BinarySearch.loop arr v (arr.length - arr.length) (arr.length - 1) := by
    rw [BinarySearch, if_pos ⟨by omega, by omega⟩, sub_self]
  rw [Correct, hstart]
  exact loop_high hs hlen le_rfl (by omega)

/-- **The search is right exactly where it does not overflow.** -/
theorem BinarySearch_correct_iff : Correct arr v ↔ ¬ Overflows arr v := by
  obtain ⟨hover, hright⟩ := BinarySearch_spec (v := v) hs hlen
  constructor
  · intro h hov
    obtain ⟨r, hr, _⟩ := h
    rw [hover hov] at hr
    cases hr
  · exact hright

end

theorem BinarySearch_correct_iff_evens : Correct [2, 4, 4, 6, 8] 5 :=
  (BinarySearch_correct_iff (by decide) (by decide)).2 (not_overflows _ _ (by decide))

/-- as many zeros as an int can count, and a value above them: the second sum is 2^30 + 2^31 - 2 -/
theorem BinarySearch_overflows : (List.replicate (2 ^ 31 - 1) 0).Pairwise (· ≤ ·) ∧
    (List.replicate (2 ^ 31 - 1) 0).length < 2 ^ 31 ∧ ¬ Correct (List.replicate (2 ^ 31 - 1) 0) 1 := by
  have hs : (List.replicate (2 ^ 31 - 1) 0).Pairwise (· ≤ ·) := List.pairwise_replicate.2 (Or.inr le_rfl)
  have hlen : (List.replicate (2 ^ 31 - 1) 0).length < 2 ^ 31 := by rw [List.length_replicate]; norm_num
  have hrank : below (List.replicate (2 ^ 31 - 1) 0) 1 = 2 ^ 31 - 1 := by
    rw [below, List.countP_replicate, if_pos (by decide)]
  have hover : Overflows (List.replicate (2 ^ 31 - 1) 0) 1 := by
    rw [Overflows, List.length_replicate, hrank]
    exact ⟨1, by norm_num, by norm_num, by norm_num⟩
  refine ⟨hs, hlen, fun h => ?_⟩
  obtain ⟨r, hr, _⟩ := h
  rw [(BinarySearch_spec hs hlen).1 hover] at hr
  cases hr

end Sylar.Util

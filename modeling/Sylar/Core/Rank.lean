/-
The rank of a value in a sorted list: how many elements are below it, and how many are not above it.

Both are positions that split the list, so a comparison with an element is a comparison of its index with a rank.

Results: `lt_iff_below` and `lt_iff_upTo` (which side of the value an index lies), `mem_iff` (the value occurs exactly
where the two ranks differ).
-/
import Mathlib.Tactic

namespace Sylar.Rank

variable {α : Type*} [LinearOrder α]

/-- how many elements are less than `v` -/
def below (xs : List α) (v : α) : ℕ := xs.countP (· < v)

/-- how many elements are not greater than `v` -/
def upTo (xs : List α) (v : α) : ℕ := xs.countP (· ≤ v)

theorem below_le_length (xs : List α) (v : α) : below xs v ≤ xs.length := List.countP_le_length

theorem upTo_le_length (xs : List α) (v : α) : upTo xs v ≤ xs.length := List.countP_le_length

theorem below_le_upTo (xs : List α) (v : α) : below xs v ≤ upTo xs v := by
  refine List.countP_mono_left fun x _ hx => ?_
  simp only [decide_eq_true_eq] at hx ⊢
  exact le_of_lt hx

/-- in a sorted list a test that smaller elements pass too holds exactly at the indices below its count -/
theorem test_iff_lt_countP {p : α → Bool} (hp : ∀ x y, x ≤ y → p y → p x) {xs : List α} (hs : xs.Pairwise (· ≤ ·))
    {m : ℕ} {x : α} (hx : xs[m]? = some x) : p x ↔ m < xs.countP p := by
  induction xs generalizing m with
  | nil => simp at hx
  | cons a xs ih =>
    obtain ⟨ha, hs'⟩ := List.pairwise_cons.1 hs
    by_cases hpa : p a
    · rw [List.countP_cons_of_pos hpa]
      cases m with
      | zero =>
        have hax : a = x := by simpa using hx
        subst hax
        exact iff_of_true hpa (by omega)
      | succ m =>
        have hrec := ih hs' (show xs[m]? = some x by simpa using hx)
        rw [hrec]
        omega
    · -- nothing behind `a` passes either
      have hnone : ∀ y ∈ a :: xs, ¬ p y := by
        intro y hy hpy
        rcases List.mem_cons.1 hy with rfl | hy'
        · exact hpa hpy
        · exact hpa (hp a y (ha y hy') hpy)
      have hzero : (a :: xs).countP p = 0 := List.countP_eq_zero.2 hnone
      rw [hzero]
      exact iff_of_false (hnone x (List.mem_of_getElem? hx)) (by omega)

variable {xs : List α} (hs : xs.Pairwise (· ≤ ·)) {m : ℕ} {x : α} (hx : xs[m]? = some x) (v : α)
include hs hx

theorem lt_iff_below : x < v ↔ m < below xs v := by
  have htest := test_iff_lt_countP (fun y z hyz hz => by simp at hz ⊢; exact lt_of_le_of_lt hyz hz) hs hx
    (p := fun y => decide (y < v))
  rwa [decide_eq_true_eq] at htest

theorem lt_iff_upTo : v < x ↔ upTo xs v ≤ m := by
  have htest := test_iff_lt_countP (fun y z hyz hz => by simp at hz ⊢; exact le_trans hyz hz) hs hx
    (p := fun y => decide (y ≤ v))
  rw [decide_eq_true_eq] at htest
  rw [← not_le, htest, not_lt, upTo]

omit hx in
/-- a value occurs exactly where the ranks leave room for it -/
theorem mem_iff : v ∈ xs ↔ below xs v < upTo xs v := by
  refine ⟨fun hv => ?_, fun hlt => ?_⟩
  · obtain ⟨m, hm⟩ := List.mem_iff_getElem?.1 hv
    have hlow : ¬ m < below xs v := by rw [← lt_iff_below hs hm v]; exact lt_irrefl v
    have hhigh : ¬ upTo xs v ≤ m := by rw [← lt_iff_upTo hs hm v]; exact lt_irrefl v
    omega
  · have hlen := upTo_le_length xs v
    have hget : xs[below xs v]? = some xs[below xs v] := List.getElem?_eq_getElem (by omega)
    have hlow : ¬ xs[below xs v] < v := by rw [lt_iff_below hs hget v]; omega
    have hhigh : ¬ v < xs[below xs v] := by rw [lt_iff_upTo hs hget v]; omega
    rw [le_antisymm (not_lt.1 hlow) (not_lt.1 hhigh)]
    exact List.mem_of_getElem? hget

end Sylar.Rank

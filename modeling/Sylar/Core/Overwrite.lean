/-
Overwriting a stretch of a list in place, as `memcpy` does.

`overwrite l i bs` replaces the elements of `l` from index `i` on by `bs`; it extends `l` when `bs` reaches past its end
and is meant for `i ≤ l.length`.

Results: the elements (`getElem?_overwrite`), the length, and how an overwrite splits over two concatenated lists
(`overwrite_append_left`, `overwrite_cross`) and commutes with cutting the tail off (`take_overwrite`).
-/
import Mathlib.Tactic

namespace Sylar.Overwrite

variable {α : Type*}

/-- `l` with `bs` written at index `i` -/
def overwrite (l : List α) (i : ℕ) (bs : List α) : List α := l.take i ++ bs ++ l.drop (i + bs.length)

@[simp] theorem overwrite_nil (l : List α) (i : ℕ) : overwrite l i [] = l := by
  simp [overwrite]

theorem getElem?_overwrite {l : List α} {i : ℕ} (bs : List α) (h : i ≤ l.length) (j : ℕ) :
    (overwrite l i bs)[j]? = if j < i then l[j]? else if j < i + bs.length then bs[j - i]? else l[j]? := by
  unfold overwrite
  split_ifs with h1 h2
  · rw [List.append_assoc, List.getElem?_append_left (by simp; omega), List.getElem?_take_of_lt h1]
  · rw [List.append_assoc, List.getElem?_append_right (by simp; omega),
      List.getElem?_append_left (by simp; omega)]
    simp [h]
  · rw [List.getElem?_append_right (by simp; omega), List.getElem?_drop]
    congr 1
    simp only [List.length_append, List.length_take]
    omega

theorem length_overwrite {l : List α} {i : ℕ} {bs : List α} (h : i + bs.length ≤ l.length) :
    (overwrite l i bs).length = l.length := by
  simp only [overwrite, List.length_append, List.length_take, List.length_drop]
  omega

theorem overwrite_append_left {l r : List α} {i : ℕ} {bs : List α} (h : i + bs.length ≤ l.length) :
    overwrite (l ++ r) i bs = overwrite l i bs ++ r := by
  unfold overwrite
  rw [List.take_append_of_le_length (by omega), List.drop_append_of_le_length h]
  simp

theorem overwrite_append_right (l r : List α) (i : ℕ) (bs : List α) :
    overwrite (l ++ r) (l.length + i) bs = l ++ overwrite r i bs := by
  unfold overwrite
  rw [List.take_append, List.drop_append, List.take_of_length_le (by omega), List.drop_of_length_le (by omega)]
  simp [Nat.add_assoc]

/-- an overwrite that runs from `l` into `r` -/
theorem overwrite_cross {l r : List α} {i : ℕ} {bs cs : List α} (h : i + bs.length = l.length) :
    overwrite (l ++ r) i (bs ++ cs) = overwrite l i bs ++ overwrite r 0 cs := by
  have hr : i + (bs ++ cs).length = l.length + cs.length := by simp; omega
  unfold overwrite
  rw [hr, List.take_append_of_le_length (by omega), List.drop_append, List.drop_of_length_le (by omega)]
  simp [h]

/-- cutting the tail off before or after the overwrite -/
theorem take_overwrite {l : List α} {i m : ℕ} {bs : List α} (him : i ≤ m) (hm : m ≤ l.length) :
    (overwrite l i bs).take (max m (i + bs.length)) = overwrite (l.take m) i bs := by
  refine List.ext_getElem? fun j => ?_
  rw [getElem?_overwrite bs (by simp; omega), List.getElem?_take, getElem?_overwrite bs (by omega), List.getElem?_take]
  split_ifs <;> first | rfl | omega

end Sylar.Overwrite

/-
Searching a list from a position on.

`find` is the search for an item, `findSub` the search for a sublist; both give the first position at or behind `pos`, and
`none` where the search of a string library gives npos. What is searched is written `a ++ b` with `pos` at the end of `a`,
so that a loop that goes on behind the last hit is an induction on `b`.

Results:
- `find_hit`, `find_miss`, `find_cases`: the search for an item finds the first one, or there is none;
- `findSub_cases`, `findSub_nil`: and so does the search for a sublist;
- `Replaced`, `Replaced.unique`: a list with its leftmost non-overlapping occurrences replaced, which is one list.
-/
import Mathlib.Tactic

namespace Sylar.Find

variable {α : Type*}

/-! ## Items -/

/-- the first position from `pos` on with an item in `p` -/
def find (p : α → Bool) (s : List α) (pos : ℕ) : Option ℕ := ((s.drop pos).findIdx? p).map (pos + ·)

theorem find_miss {p : α → Bool} (a : List α) {b : List α} (hb : ∀ x ∈ b, p x = false) :
    find p (a ++ b) a.length = none := by
  rw [find, List.drop_left, List.findIdx?_eq_none_iff.2 hb]
  rfl

theorem find_hit {p : α → Bool} (a : List α) {u v : List α} {c : α} (hu : ∀ x ∈ u, p x = false) (hc : p c = true) :
    find p (a ++ (u ++ c :: v)) a.length = some (a.length + u.length) := by
  have hidx : (u ++ c :: v).findIdx? p = some u.length := by
    rw [List.findIdx?_append, List.findIdx?_eq_none_iff.2 hu, List.findIdx?_cons, if_pos hc]
    simp
  rw [find, List.drop_left, hidx]
  rfl

/-- a list without an item in `p`, or cut at the first of them -/
theorem exists_first (p : α → Bool) (b : List α) :
    (∀ x ∈ b, p x = false) ∨ ∃ u c v, b = u ++ c :: v ∧ (∀ x ∈ u, p x = false) ∧ p c = true := by
  induction b with
  | nil => left; simp
  | cons c b ih =>
    by_cases hc : p c = true
    · exact .inr ⟨[], c, b, rfl, by simp, hc⟩
    · rw [Bool.not_eq_true] at hc
      rcases ih with hnone | ⟨u, d, v, rfl, hu, hd⟩
      · exact .inl (by simpa [hc] using hnone)
      · exact .inr ⟨c :: u, d, v, rfl, by simpa [hc] using hu, hd⟩

/-- what a search from the end of `a` on finds, and what it has passed -/
theorem find_cases (p : α → Bool) (a b : List α) :
    (find p (a ++ b) a.length = none ∧ ∀ x ∈ b, p x = false) ∨
      ∃ u c v, b = u ++ c :: v ∧ (∀ x ∈ u, p x = false) ∧ p c = true ∧
        find p (a ++ b) a.length = some (a.length + u.length) := by
  rcases exists_first p b with hnone | ⟨u, c, v, rfl, hu, hc⟩
  · exact .inl ⟨find_miss a hnone, hnone⟩
  · exact .inr ⟨u, c, v, rfl, hu, hc, find_hit a hu hc⟩

/-- a hit is at or behind `pos`, and in the list -/
theorem find_bounds {p : α → Bool} {s : List α} {pos i : ℕ} (h : find p s pos = some i) : pos ≤ i ∧ i < s.length := by
  obtain ⟨k, hk, rfl⟩ := Option.map_eq_some_iff.1 h
  obtain ⟨hlt, -⟩ := List.findIdx?_eq_some_iff_getElem.1 hk
  rw [List.length_drop] at hlt
  exact ⟨Nat.le_add_right pos k, by omega⟩

/-! ## Sublists -/

section

variable [DecidableEq α]

/-- where the first `t` in `s` begins -/
def offset (t : List α) : List α → Option ℕ
  | [] => if t = [] then some 0 else none
  | c :: s => if t <+: c :: s then some 0 else (offset t s).map (· + 1)

/-- the first position from `pos` on where `t` begins; not even the empty list is found behind the end -/
def findSub (t s : List α) (pos : ℕ) : Option ℕ :=
  if pos ≤ s.length then (offset t (s.drop pos)).map (pos + ·) else none

/-- `t` behind `u` and in front of `v` is the first `t` of the whole -/
def IsFirst (t u v : List α) : Prop := ∀ u' v', u ++ t ++ v = u' ++ t ++ v' → u.length ≤ u'.length

theorem offset_cases (t s : List α) :
    (offset t s = none ∧ ¬ t <:+: s) ∨ ∃ u v, s = u ++ t ++ v ∧ IsFirst t u v ∧ offset t s = some u.length := by
  induction s with
  | nil =>
    by_cases ht : t = []
    · subst ht
      exact .inr ⟨[], [], rfl, fun _ _ _ => Nat.zero_le _, rfl⟩
    · exact .inl ⟨by simp [offset, ht], by simpa using ht⟩
  | cons c s ih =>
    by_cases h : t <+: c :: s
    · obtain ⟨v, hv⟩ := h
      exact .inr ⟨[], v, hv.symm, fun _ _ _ => Nat.zero_le _, by rw [offset, if_pos ⟨v, hv⟩]; rfl⟩
    · rcases ih with ⟨hnone, hnot⟩ | ⟨u, v, rfl, hfirst, hoff⟩
      · exact .inl ⟨by rw [offset, if_neg h, hnone]; rfl, by rw [List.infix_cons_iff]; simp [h, hnot]⟩
      · refine .inr ⟨c :: u, v, rfl, ?_, by rw [offset, if_neg h, hoff]; rfl⟩
        intro u' v' heq
        cases u' with
        | nil => exact absurd ⟨v', heq.symm⟩ h
        | cons d u' =>
          simp only [List.cons_append, List.cons.injEq] at heq
          exact Nat.succ_le_succ (hfirst u' v' heq.2)

/-- what a search from the end of `a` on finds, and where it stands -/
theorem findSub_cases (t a b : List α) :
    (findSub t (a ++ b) a.length = none ∧ ¬ t <:+: b) ∨
      ∃ u v, b = u ++ t ++ v ∧ IsFirst t u v ∧ findSub t (a ++ b) a.length = some (a.length + u.length) := by
  have hsearch : findSub t (a ++ b) a.length = (offset t b).map (a.length + ·) := by
    rw [findSub, if_pos (by simp), List.drop_left]
  rw [hsearch]
  rcases offset_cases t b with ⟨hnone, hnot⟩ | ⟨u, v, hb, hfirst, hoff⟩
  · exact .inl ⟨by rw [hnone]; rfl, hnot⟩
  · exact .inr ⟨u, v, hb, hfirst, by rw [hoff]; rfl⟩

/-- the empty list is found where the search begins -/
theorem findSub_nil {s : List α} {pos : ℕ} (h : pos ≤ s.length) : findSub [] s pos = some pos := by
  have hoff : ∀ r : List α, offset [] r = some 0 := by
    intro r
    cases r <;> simp [offset]
  rw [findSub, if_pos h, hoff]
  rfl

end

/-! ## Replacing -/

/-- `s'` is `s` with `r` for the leftmost occurrence of `t`, and the same in what stands behind it -/
inductive Replaced (t r : List α) : List α → List α → Prop
  | rest {s : List α} : ¬ t <:+: s → Replaced t r s s
  | hit {u v v' : List α} : IsFirst t u v → Replaced t r v v' → Replaced t r (u ++ t ++ v) (u ++ r ++ v')

theorem IsFirst.unique {t u v u' v' : List α} (h : IsFirst t u v) (h' : IsFirst t u' v')
    (heq : u ++ t ++ v = u' ++ t ++ v') : u = u' ∧ v = v' := by
  have hlen : u.length = u'.length := Nat.le_antisymm (h u' v' heq) (h' u v heq.symm)
  rw [List.append_assoc, List.append_assoc] at heq
  obtain ⟨hu, htail⟩ := List.append_inj heq hlen
  exact ⟨hu, List.append_cancel_left htail⟩

/-- an item alone comes first where none stands in front of it -/
theorem isFirst_singleton {c : α} {u : List α} (v : List α) (hu : c ∉ u) : IsFirst [c] u v := by
  intro u' v' heq
  by_contra hlt
  rw [Nat.not_le] at hlt
  have hget := congrArg (·[u'.length]?) heq
  simp only [List.append_assoc, List.getElem?_append_left hlt, List.getElem?_append_right (Nat.le_refl u'.length),
    Nat.sub_self, List.singleton_append, List.getElem?_cons_zero] at hget
  exact hu (List.mem_of_getElem? hget)

/-- the replaced list is one list -/
theorem Replaced.unique {t r s s₁ s₂ : List α} (h₁ : Replaced t r s s₁) (h₂ : Replaced t r s s₂) : s₁ = s₂ := by
  induction h₁ generalizing s₂ with
  | @rest s hnot =>
    cases h₂ with
    | rest => rfl
    | @hit u v => exact absurd ⟨u, v, rfl⟩ hnot
  | @hit u v v' hfirst _ ih =>
    generalize hs : u ++ t ++ v = s at h₂
    cases h₂ with
    | rest hnot => exact absurd ⟨u, v, hs⟩ hnot
    | hit hfirst' htail =>
      obtain ⟨rfl, rfl⟩ := hfirst.unique hfirst' hs
      rw [ih htail]

end Sylar.Find

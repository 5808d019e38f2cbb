/-
Counters that track how many indices satisfy a predicate.

A program keeps a number next to a family of objects (readers of a lock, idle workers, pending events) and adjusts it by
one when one object changes. `Counts P n` says that exactly `n` indices satisfy `P`; it is Mathlib's `Set.encard`, so no
finiteness has to be carried along.

Results:
- `Counts.gain`, `Counts.lose`, `Counts.same`: one index starts, stops or keeps satisfying the predicate;
- `Counts.pos`, `Counts.zero_iff`: the counter is zero exactly when no index satisfies it.
-/
import Mathlib.Tactic
import Mathlib.Data.Set.Card

namespace Sylar.Count

variable {ι : Type*}

/-- exactly `n` indices satisfy `P` -/
def Counts (P : ι → Prop) (n : ℕ) : Prop := {i | P i}.encard = (n : ℕ∞)

theorem Counts.none {P : ι → Prop} (h : ∀ i, ¬ P i) : Counts P 0 := by
  have hempty : {i | P i} = (∅ : Set ι) := Set.eq_empty_of_forall_notMem h
  simp [Counts, hempty]

theorem Counts.congr {P Q : ι → Prop} {n : ℕ} (hc : Counts P n) (h : ∀ i, Q i ↔ P i) : Counts Q n := by
  have hset : {i | Q i} = {i | P i} := Set.ext h
  simpa [Counts, hset] using hc

theorem Counts.gain {P Q : ι → Prop} {n : ℕ} {a : ι} (hc : Counts P n) (ha : ¬ P a)
    (h : ∀ i, Q i ↔ P i ∨ i = a) : Counts Q (n + 1) := by
  have hset : {i | Q i} = insert a {i | P i} := by
    ext i; simp [h, or_comm]
  have hc' : {i | P i}.encard = (n : ℕ∞) := hc
  unfold Counts
  rw [hset, Set.encard_insert_of_notMem (show a ∉ {i | P i} from ha), hc']
  norm_cast

theorem Counts.pos {P : ι → Prop} {n : ℕ} {a : ι} (hc : Counts P n) (ha : P a) : 0 < n := by
  have hne : {i | P i}.encard ≠ 0 := by
    rw [Set.encard_ne_zero]; exact ⟨a, ha⟩
  rw [show {i | P i}.encard = (n : ℕ∞) from hc] at hne
  exact Nat.pos_of_ne_zero (by exact_mod_cast hne)

theorem Counts.zero_iff {P : ι → Prop} {n : ℕ} (hc : Counts P n) : n = 0 ↔ ∀ i, ¬ P i := by
  refine ⟨fun hn i hi => ?_, fun h => ?_⟩
  · have := hc.pos hi; omega
  · by_contra hn
    have hne : {i | P i}.encard ≠ 0 := by
      rw [show {i | P i}.encard = (n : ℕ∞) from hc]; exact_mod_cast hn
    obtain ⟨i, hi⟩ := Set.encard_ne_zero.1 hne
    exact h i hi

theorem Counts.lose {P Q : ι → Prop} {n : ℕ} {a : ι} (hc : Counts P n) (ha : P a)
    (h : ∀ i, Q i ↔ P i ∧ i ≠ a) : Counts Q (n - 1) := by
  have hset : {i | Q i} = {i | P i} \ {a} := by
    ext i; simp [h]
  have hpos := hc.pos ha
  have hc' : {i | P i}.encard = (n : ℕ∞) := hc
  have hsum : ({i | P i} \ {a}).encard + 1 = (n : ℕ∞) := by
    rw [Set.encard_sdiff_singleton_add_one (show a ∈ {i | P i} from ha), hc']
  obtain ⟨m, rfl⟩ : ∃ m, n = m + 1 := ⟨n - 1, by omega⟩
  unfold Counts
  rw [hset]
  push_cast at hsum ⊢
  exact WithTop.add_right_cancel ENat.one_ne_top hsum

/-- the counter moves with one index `a`: `P` and `Q` agree elsewhere -/
theorem Counts.same {P Q : ι → Prop} {n : ℕ} {a : ι} (hc : Counts P n) (hne : ∀ i, i ≠ a → (Q i ↔ P i))
    (ha : Q a ↔ P a) : Counts Q n := by
  refine hc.congr fun i => ?_
  by_cases hi : i = a
  · subst hi; exact ha
  · exact hne i hi

end Sylar.Count

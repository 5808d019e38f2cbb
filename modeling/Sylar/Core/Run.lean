/-
Runs of a total step function, with a condition on each step.

A system is a state type `σ`, an operation type `α` and `step : σ → α → σ`. An operation that is not enabled leaves the
state as it is, so every list of operations is a run and every interleaving is a list. `Guarded ok s ops` says that each
operation of the run meets `ok` in the state it is taken from.

Results:
- `run_inv`, `run_preserves`, `states_inv`: a property kept by every step that meets the condition holds after every
  guarded run, and in each of its states.
- `run_rel`: a reflexive and transitive relation between each state and its successor relates the two ends of a run.
- `log_good_iff`: a condition that shows in a log holds along a run exactly when the log is good.
- `guarded_append`, `guarded_and`, `guarded_iff_steps`: the condition splits at every state reached and into its parts,
  and is one on each step taken.
- `states_good_iff`: the condition is exact when a step that does not meet it reaches a bad state.
- `run_beside_fst`: what is recorded beside the states does not change the run.
-/
import Mathlib.Tactic

namespace Sylar.Run

section

variable {σ α : Type*} (step : σ → α → σ)

/-- the state after the operations, taken from left to right -/
def run (s : σ) (ops : List α) : σ := ops.foldl step s

@[simp] theorem run_nil (s : σ) : run step s [] = s := rfl

@[simp] theorem run_cons (s : σ) (o : α) (ops : List α) : run step s (o :: ops) = run step (step s o) ops := rfl

theorem run_append (s : σ) (a b : List α) : run step s (a ++ b) = run step (run step s a) b := by
  simp [run, List.foldl_append]

/-- every operation of the run meets `ok` in the state it is taken from -/
def Guarded (ok : σ → α → Prop) : σ → List α → Prop
  | _, [] => True
  | s, o :: ops => ok s o ∧ Guarded ok (step s o) ops

instance Guarded.decidable (ok : σ → α → Prop) [∀ s o, Decidable (ok s o)] :
    ∀ s ops, Decidable (Guarded step ok s ops)
  | _, [] => isTrue trivial
  | s, o :: ops =>
    have := Guarded.decidable ok (step s o) ops
    inferInstanceAs (Decidable (ok s o ∧ Guarded step ok (step s o) ops))

variable {step}

theorem guarded_append {ok : σ → α → Prop} {s : σ} {a b : List α} :
    Guarded step ok s (a ++ b) ↔ Guarded step ok s a ∧ Guarded step ok (run step s a) b := by
  induction a generalizing s with
  | nil => simp [Guarded]
  | cons o a ih => simp only [List.cons_append, Guarded, ih, run_cons, and_assoc]

/-- what a run begins with is guarded as the run is -/
theorem guarded_initial {ok : σ → α → Prop} {s : σ} {pre ops : List α} (hpre : pre <+: ops)
    (h : Guarded step ok s ops) : Guarded step ok s pre := by
  obtain ⟨post, rfl⟩ := hpre
  exact (guarded_append.1 h).1

theorem guarded_and {ok ok' : σ → α → Prop} {s : σ} {ops : List α} :
    Guarded step (fun s o => ok s o ∧ ok' s o) s ops ↔ Guarded step ok s ops ∧ Guarded step ok' s ops := by
  induction ops generalizing s with
  | nil => simp [Guarded]
  | cons o ops ih =>
    simp only [Guarded, ih]
    exact and_and_and_comm

theorem guarded_iff_steps {ok : σ → α → Prop} {s : σ} {ops : List α} :
    Guarded step ok s ops ↔ ∀ pre o, pre ++ [o] <+: ops → ok (run step s pre) o := by
  constructor
  · rintro h pre o ⟨post, rfl⟩
    rw [guarded_append, guarded_append] at h
    exact h.1.2.1
  · induction ops generalizing s with
    | nil => exact fun _ => trivial
    | cons o ops ih =>
      intro h
      refine ⟨h [] o ⟨ops, rfl⟩, ih ?_⟩
      intro pre o' hpre
      exact h (o :: pre) o' ((List.prefix_cons_inj o).2 hpre)

/-- **Invariant rule.** What every step that meets the condition preserves holds after every guarded run. -/
theorem run_inv {ok : σ → α → Prop} {Inv : σ → Prop} (hstep : ∀ s o, Inv s → ok s o → Inv (step s o))
    {s : σ} {ops : List α} (hs : Inv s) (hg : Guarded step ok s ops) : Inv (run step s ops) := by
  induction ops generalizing s with
  | nil => exact hs
  | cons o ops ih => exact ih (hstep s o hs hg.1) hg.2

/-- the invariant rule for a property that every step preserves -/
theorem run_preserves {Inv : σ → Prop} (hstep : ∀ s o, Inv s → Inv (step s o)) {s : σ} (hs : Inv s) (ops : List α) :
    Inv (run step s ops) := by
  induction ops generalizing s with
  | nil => exact hs
  | cons o ops ih => exact ih (hstep s o hs)

/-- the invariant rule for every state of the run -/
theorem states_inv {ok : σ → α → Prop} {Inv : σ → Prop} (hstep : ∀ s o, Inv s → ok s o → Inv (step s o))
    {s : σ} {ops : List α} (hs : Inv s) (hg : Guarded step ok s ops) : ∀ pre, pre <+: ops → Inv (run step s pre) := by
  intro pre hpre
  exact run_inv hstep hs (guarded_initial hpre hg)

/-- the rule for an invariant that rests on one which every step preserves -/
theorem states_inv_both {ok : σ → α → Prop} {Known Inv : σ → Prop} (hknown : ∀ s o, Known s → Known (step s o))
    (hstep : ∀ s o, Known s → Inv s → ok s o → Inv (step s o)) {s : σ} {ops : List α} (hk : Known s) (hs : Inv s)
    (hg : Guarded step ok s ops) : ∀ pre, pre <+: ops → Known (run step s pre) ∧ Inv (run step s pre) := by
  have hboth : ∀ s o, Known s ∧ Inv s → ok s o → Known (step s o) ∧ Inv (step s o) := by
    intro s o h hok
    exact ⟨hknown s o h.1, hstep s o h.1 h.2 hok⟩
  exact states_inv hboth ⟨hk, hs⟩ hg

/-- **Relation rule.** A reflexive, transitive relation between each state and its successor relates the two ends of
every run. -/
theorem run_rel (R : σ → σ → Prop) (hrefl : ∀ s, R s s) (htrans : ∀ s t u, R s t → R t u → R s u)
    (hstep : ∀ s o, R s (step s o)) (s : σ) (ops : List α) : R s (run step s ops) := by
  induction ops generalizing s with
  | nil => exact hrefl s
  | cons o ops ih => exact htrans _ _ _ (hstep s o) (ih _)

/-- **Log rule.** Every step extends the log, and by good entries only exactly when it meets the condition: the log of a
run is good exactly when the run is guarded. -/
theorem log_good_iff {β : Type*} {ok : σ → α → Prop} {log : σ → List β} {good : β → Prop}
    (hstep : ∀ s o, ∃ l, log (step s o) = log s ++ l ∧ ((∀ b ∈ l, good b) ↔ ok s o)) (s : σ) (ops : List α)
    (hs : ∀ b ∈ log s, good b) : (∀ b ∈ log (run step s ops), good b) ↔ Guarded step ok s ops := by
  induction ops generalizing s with
  | nil => simpa [Guarded] using hs
  | cons o ops ih =>
    obtain ⟨l, hl, hiff⟩ := hstep s o
    simp only [run_cons, Guarded]
    by_cases hok : ok s o
    · have hs' : ∀ b ∈ log (step s o), good b := by
        intro b hb
        rw [hl, List.mem_append] at hb
        exact hb.elim (hs b) (hiff.2 hok b)
      rw [ih (step s o) hs']
      simp [hok]
    · -- a bad entry stays in the log
      have hgrow : log (step s o) <+: log (run step (step s o) ops) := by
        refine run_rel (fun a b : σ => log a <+: log b) (fun _ => List.prefix_refl _)
          (fun _ _ _ => List.IsPrefix.trans) ?_ _ ops
        intro a o
        obtain ⟨l, hl, -⟩ := hstep a o
        exact ⟨l, hl.symm⟩
      refine iff_of_false (fun hall => hok (hiff.1 fun b hb => hall b ?_)) (fun hg => hok hg.1)
      exact hgrow.subset (by rw [hl]; exact List.mem_append_right _ hb)

/-- **Reached states.** When a step keeps the invariant if it meets the condition, and reaches a bad state if it does not,
every state of a run is good exactly when the run is guarded. -/
theorem states_good_iff {ok : σ → α → Prop} {Inv good : σ → Prop} (hstep : ∀ s o, Inv s → ok s o → Inv (step s o))
    (hgood : ∀ s, Inv s → good s) (hbad : ∀ s o, Inv s → ¬ ok s o → ¬ good (step s o)) {s : σ} (hs : Inv s)
    (ops : List α) : (∀ pre, pre <+: ops → good (run step s pre)) ↔ Guarded step ok s ops := by
  refine ⟨fun h => ?_, fun h pre hpre => ?_⟩
  · induction ops generalizing s with
    | nil => trivial
    | cons o ops ih =>
      have hok : ok s o := by
        by_contra hnot
        exact hbad s o hs hnot (h [o] ⟨ops, rfl⟩)
      refine ⟨hok, ih (hstep s o hs hok) ?_⟩
      intro pre hpre
      exact h (o :: pre) ((List.prefix_cons_inj o).2 hpre)
  · exact hgood _ (states_inv hstep hs h pre hpre)

/-- the step, and `rec` writes into what is kept beside the state -/
def beside {β : Type*} (step : σ → α → σ) (rec : σ → β → α → β) (g : σ × β) (o : α) : σ × β :=
  (step g.1 o, rec g.1 g.2 o)

theorem run_beside_fst {β : Type*} (rec : σ → β → α → β) (g : σ × β) (ops : List α) :
    (run (beside step rec) g ops).1 = run step g.1 ops := by
  induction ops generalizing g with
  | nil => rfl
  | cons o ops ih => exact ih (beside step rec g o)

end

end Sylar.Run

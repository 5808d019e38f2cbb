/-
Machines with a table of states that read symbols one at a time and act on registers on the way.

An action sees the offset of the symbol. A run ends with the input, at a symbol without an entry in the table, or behind
an action that `stops`. `Reads c w d` says that the machine passes over `w` from `c` to `d`, whatever follows.

Results:
- `Reads.run`, `Reads.append`: the parts of an input are read one after the other;
- `reads_inv`, `reads_quiet`: a word is read when each of its symbols is and keeps what is known of the word so far;
- `run_inv`: what every step keeps holds where the run ends.
-/
import Mathlib.Tactic

namespace Sylar.Transducer

structure Machine (σ α ω ρ : Type*) where
  /-- the next state and the actions on the way there -/
  table : σ → α → Option (σ × List ω)
  act : ℕ → ρ → ω → ρ
  stops : ω → Bool
  error : σ

/-- `offset` symbols have been read -/
@[ext] structure Config (σ ρ : Type*) where
  state : σ
  offset : ℕ
  registers : ρ

section

variable {σ α ω ρ : Type*} (M : Machine σ α ω ρ)

/-- the actions of one transition; true when one of them has ended the run -/
def Machine.apply (p : ℕ) : List ω → ρ → ρ × Bool
  | [], r => (r, false)
  | a :: actions, r => if M.stops a then (M.act p r a, true) else Machine.apply p actions (M.act p r a)

/-- one symbol; false when the run ends there -/
def Machine.step (c : Config σ ρ) (a : α) : Config σ ρ × Bool :=
  match M.table c.state a with
  | none => ({ c with state := M.error }, false)
  | some (next, actions) =>
    (⟨next, c.offset + 1, (M.apply c.offset actions c.registers).1⟩, !(M.apply c.offset actions c.registers).2)

def Machine.run : Config σ ρ → List α → Config σ ρ
  | c, [] => c
  | c, a :: w => if (M.step c a).2 then Machine.run (M.step c a).1 w else (M.step c a).1

/-- the machine passes over a word -/
inductive Machine.Reads : Config σ ρ → List α → Config σ ρ → Prop
  | nil (c : Config σ ρ) : Reads c [] c
  | cons {c d e : Config σ ρ} {a : α} {w : List α} : M.step c a = (d, true) → Reads d w e → Reads c (a :: w) e

variable {M}

/-! ## Words in a row -/

theorem Machine.Reads.append {c d e : Config σ ρ} {u v : List α} (hu : M.Reads c u d) (hv : M.Reads d v e) :
    M.Reads c (u ++ v) e := by
  induction hu with
  | nil c => exact hv
  | cons hstep _ ih => exact .cons hstep (ih hv)

theorem Machine.Reads.run {c d : Config σ ρ} {w : List α} (h : M.Reads c w d) (rest : List α) :
    M.run c (w ++ rest) = M.run d rest := by
  induction h with
  | nil c => rfl
  | cons hstep _ ih => rw [List.cons_append, Machine.run, hstep, if_pos rfl, ih]

theorem Machine.Reads.offset {c d : Config σ ρ} {w : List α} (h : M.Reads c w d) : d.offset = c.offset + w.length := by
  induction h with
  | nil c => rfl
  | @cons c d e a w hstep _ ih =>
    have hnext : d.offset = c.offset + 1 := by
      rw [Machine.step] at hstep
      cases htable : M.table c.state a with
      | none =>
        rw [htable] at hstep
        exact absurd (Prod.ext_iff.1 hstep).2 Bool.false_ne_true
      | some next =>
        rw [htable] at hstep
        exact (congrArg Config.offset (Prod.ext_iff.1 hstep).1).symm
    rw [ih, hnext, List.length_cons]
    omega

theorem step_of_table {s next : σ} {a : α} {actions : List ω} (h : M.table s a = some (next, actions)) (p : ℕ) (r : ρ) :
    M.step ⟨s, p, r⟩ a = (⟨next, p + 1, (M.apply p actions r).1⟩, !(M.apply p actions r).2) := by
  rw [Machine.step, h]

/-- actions that do not stop are done one after the other -/
theorem apply_of_forall {actions : List ω} (h : ∀ a ∈ actions, M.stops a = false) (p : ℕ) (r : ρ) :
    M.apply p actions r = (actions.foldl (M.act p) r, false) := by
  induction actions generalizing r with
  | nil => rfl
  | cons a actions ih =>
    rw [Machine.apply, h a List.mem_cons_self, if_neg Bool.false_ne_true,
      ih fun b hb => h b (List.mem_cons_of_mem a hb), List.foldl_cons]

theorem reads_one {s next : σ} {a : α} {actions : List ω} (h : M.table s a = some (next, actions))
    (hgo : ∀ b ∈ actions, M.stops b = false) (p : ℕ) (r : ρ) :
    M.Reads ⟨s, p, r⟩ [a] ⟨next, p + 1, actions.foldl (M.act p) r⟩ := by
  have hstep := step_of_table h p r
  rw [apply_of_forall hgo] at hstep
  exact .cons hstep (.nil _)

/-- a word is read when each of its symbols is and keeps what is known of the word so far -/
theorem reads_inv {I : Config σ ρ → List α → Prop} {ok : α → Prop}
    (hstep : ∀ c u a, I c u → ok a → ∃ d, M.step c a = (d, true) ∧ I d (u ++ [a])) {w : List α} (hw : ∀ a ∈ w, ok a)
    {c : Config σ ρ} {u : List α} (h : I c u) : ∃ d, M.Reads c w d ∧ I d (u ++ w) := by
  induction w generalizing c u with
  | nil => exact ⟨c, .nil c, by rwa [List.append_nil]⟩
  | cons a w ih =>
    obtain ⟨d, hd, hI⟩ := hstep c u a h (hw a List.mem_cons_self)
    obtain ⟨e, he, hIe⟩ := ih (fun b hb => hw b (List.mem_cons_of_mem a hb)) hI
    refine ⟨e, .cons hd he, ?_⟩
    rwa [List.append_assoc] at hIe

/-- a word whose symbols lead from state to state without an action -/
theorem reads_quiet {I : σ → List α → Prop} {ok : α → Prop}
    (hstep : ∀ s u a, I s u → ok a → ∃ next, M.table s a = some (next, []) ∧ I next (u ++ [a])) {w : List α}
    (hw : ∀ a ∈ w, ok a) {s : σ} {u : List α} (h : I s u) (p : ℕ) (r : ρ) :
    ∃ next, M.Reads ⟨s, p, r⟩ w ⟨next, p + w.length, r⟩ ∧ I next (u ++ w) := by
  have hquiet : ∀ (c : Config σ ρ) (u : List α) (a : α), (I c.state u ∧ c.registers = r) → ok a →
      ∃ d, M.step c a = (d, true) ∧ I d.state (u ++ [a]) ∧ d.registers = r := by
    rintro c u a ⟨hI, hr⟩ ha
    obtain ⟨next, htable, hnext⟩ := hstep c.state u a hI ha
    exact ⟨_, step_of_table htable c.offset c.registers, hnext, hr⟩
  obtain ⟨⟨next, p', r'⟩, hread, hnext, hr⟩ :=
    reads_inv (I := fun c u => I c.state u ∧ c.registers = r) hquiet hw (c := ⟨s, p, r⟩) ⟨h, rfl⟩
  have hp : p' = p + w.length := hread.offset
  have hr' : r' = r := hr
  rw [hp, hr'] at hread
  exact ⟨next, hread, hnext⟩

/-- a state that every symbol of a word leads back to without an action -/
theorem reads_stay {s : σ} {w : List α} (h : ∀ a ∈ w, M.table s a = some (s, [])) (p : ℕ) (r : ρ) :
    M.Reads ⟨s, p, r⟩ w ⟨s, p + w.length, r⟩ := by
  induction w generalizing p with
  | nil => exact .nil _
  | cons a w ih =>
    have hone := reads_one (h a List.mem_cons_self) (by simp) p r
    have hrest := ih (fun b hb => h b (List.mem_cons_of_mem a hb)) (p + 1)
    rw [List.length_cons, Nat.add_comm w.length, ← Nat.add_assoc]
    exact hone.append hrest

/-- where a word leads to when it asks for no action -/
def quietPath (table : σ → α → Option (σ × List ω)) : σ → List α → Option σ
  | s, [] => some s
  | s, a :: w =>
    match table s a with
    | some (next, []) => quietPath table next w
    | _ => none

theorem reads_of_quietPath {s t : σ} {w : List α} (h : quietPath M.table s w = some t) (p : ℕ) (r : ρ) :
    M.Reads ⟨s, p, r⟩ w ⟨t, p + w.length, r⟩ := by
  induction w generalizing s p with
  | nil =>
    obtain rfl := Option.some.inj h
    exact .nil _
  | cons a w ih =>
    rw [quietPath] at h
    split at h
    · next next htable =>
      have hone := reads_one htable (by simp) p r
      have hrest := ih h (p + 1)
      rw [List.length_cons, Nat.add_comm w.length, ← Nat.add_assoc]
      exact hone.append hrest
    · cases h

/-! ## Where a run ends -/

/-- what holds of a configuration and of the word it is in front of, where every step keeps it, and what follows of it at
the end -/
theorem run_inv {I : Config σ ρ → List α → Prop} {Q : Config σ ρ → Prop}
    (hstep : ∀ c a w, I c (a :: w) → if (M.step c a).2 then I (M.step c a).1 w else Q (M.step c a).1)
    (hend : ∀ c, I c [] → Q c) {c : Config σ ρ} {w : List α} (h : I c w) : Q (M.run c w) := by
  induction w generalizing c with
  | nil => exact hend c h
  | cons a w ih =>
    have hnext := hstep c a w h
    rw [Machine.run]
    split_ifs at hnext ⊢
    · exact ih hnext
    · exact hnext

end

end Sylar.Transducer

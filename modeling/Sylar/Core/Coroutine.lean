/-
Coroutines over saved contexts, as `swapcontext` gives them.

Every coroutine has a stack and a slot to save a context in. A switch saves where the running stack is in one slot and
goes on with what another slot holds; nothing says that the first slot is the one of the running stack. A context is good
only while its stack is where it was when it was saved: `fault` is the use of any other one, or of a stack at its end.

Results:
- `coherent_switch_iff`: a switch keeps every stack in its own slot exactly when it saves in the slot of the running one
  and the stack it goes to is not at its end;
- `unsaved_switch`, `unsaved_of_foreign`: a switch that saves elsewhere loses a stack for good.
-/
import Mathlib.Tactic

namespace Sylar.Coroutine

/-- where a stack is -/
inductive Point where
  | start
  /-- in the middle of its function, since the switch with this number -/
  | mid (n : ℕ)
  /-- behind its last switch -/
  | over
deriving DecidableEq, Repr

structure Context (ι : Type*) where
  stack : ι
  point : Point
deriving DecidableEq

structure Machine (ι : Type*) where
  slot : ι → Context ι
  /-- of a stack that does not run -/
  place : ι → Point
  running : ι
  clock : ℕ
  fault : Bool

namespace Machine

variable {ι : Type*} [DecidableEq ι]

/-- a stack at the start of its function -/
def make (m : Machine ι) (f : ι) : Machine ι :=
  { m with
    slot := Function.update m.slot f ⟨f, .start⟩
    place := if f = m.running then m.place else Function.update m.place f .start }

/-- the running stack is saved in the slot `o`, and what the slot `i` holds then goes on -/
def switch (m : Machine ι) (o i : ι) (last : Bool) : Machine ι :=
  let p := if last then .over else .mid m.clock
  let slot := Function.update m.slot o ⟨m.running, p⟩
  let place := Function.update m.place m.running p
  { slot := slot
    place := place
    running := (slot i).stack
    clock := m.clock + 1
    fault := m.fault || (slot i).point != place (slot i).stack || (slot i).point == .over }

/-- every stack that does not run is saved in its own slot, as it is -/
structure Coherent (m : Machine ι) : Prop where
  sound : m.fault = false
  own : ∀ f, f ≠ m.running → m.slot f = ⟨f, m.place f⟩

/-- and the slot of the running stack holds what it was before -/
structure Orderly (m : Machine ι) : Prop extends Coherent m where
  stack : (m.slot m.running).stack = m.running
  old : ∀ f n, (m.slot f).point = .mid n → n < m.clock

/-- the switch saves in the slot of the running stack and goes to one that is not at its end -/
def Clear (m : Machine ι) (o i : ι) (last : Bool) : Prop :=
  o = m.running ∧ if i = m.running then last = false else m.place i ≠ .over

instance (m : Machine ι) (o i : ι) (last : Bool) : Decidable (m.Clear o i last) := inferInstanceAs (Decidable (_ ∧ _))

variable {m : Machine ι}

theorem Orderly.stack_eq (h : m.Orderly) (f : ι) : (m.slot f).stack = f := by
  by_cases hf : f = m.running
  · rw [hf]
    exact h.stack
  · rw [h.own f hf]

theorem orderly_make (h : m.Orderly) (f : ι) : (m.make f).Orderly := by
  refine ⟨⟨h.sound, fun g hg => ?_⟩, ?_, fun g n hn => ?_⟩
  · by_cases hgf : g = f
    · subst hgf
      simp [make, show g ≠ m.running from hg]
    · have hown := h.own g hg
      simp only [make, Function.update_of_ne hgf]
      split_ifs with hf
      · exact hown
      · rw [Function.update_of_ne hgf, hown]
  · show (Function.update m.slot f _ m.running).stack = m.running
    by_cases hf : m.running = f
    · simp [hf]
    · rw [Function.update_of_ne hf]
      exact h.stack
  · by_cases hgf : g = f
    · subst hgf
      simp [make] at hn
    · exact h.old g n (by simpa [make, hgf] using hn)

theorem orderly_switch (h : m.Orderly) {o i : ι} {last : Bool} (hclear : m.Clear o i last) :
    (m.switch o i last).Orderly ∧ (m.switch o i last).running = i := by
  obtain ⟨rfl, hclear⟩ := hclear
  have hold : ∀ f n, ((m.switch m.running i last).slot f).point = .mid n → n < m.clock + 1 := by
    intro f n hn
    by_cases hf : f = m.running
    · subst hf
      cases last
      · simp [switch] at hn
        omega
      · simp [switch] at hn
    · have hpoint : (m.slot f).point = .mid n := by simpa [switch, hf] using hn
      have hlt := h.old f n hpoint
      omega
  by_cases hi : i = m.running
  · rw [if_pos hi] at hclear
    subst hi hclear
    refine ⟨⟨⟨?_, fun f hf => ?_⟩, ?_, hold⟩, ?_⟩
    · simp [switch, h.sound]
    · have hne : f ≠ m.running := by simpa [switch] using hf
      simp [switch, hne, h.own f hne]
    · simp [switch]
    · simp [switch]
  · rw [if_neg hi] at hclear
    have hload : (Function.update m.slot m.running ⟨m.running, if last then .over else .mid m.clock⟩) i = ⟨i, m.place i⟩ := by
      rw [Function.update_of_ne hi, h.own i hi]
    have hrunning : (m.switch m.running i last).running = i := by simp [switch, hload]
    refine ⟨⟨⟨?_, fun f hf => ?_⟩, ?_, hold⟩, hrunning⟩
    · simp [switch, h.sound, h.own i hi, hi, hclear]
    · by_cases hfr : f = m.running
      · simp [switch, hfr]
      · simp [switch, hfr, h.own f hfr]
    · rw [hrunning]
      simp [switch, hload]

/-- **Switching.** It goes where it was told to, and every stack stays in its own slot, exactly when it is clear. -/
theorem coherent_switch_iff (h : m.Orderly) (o i : ι) (last : Bool) :
    ((m.switch o i last).Coherent ∧ (m.switch o i last).running = i) ↔ m.Clear o i last := by
  refine ⟨fun ⟨hcoh, hrun⟩ => ?_, fun hclear => ?_⟩
  · have hload : ((m.switch o i last).slot i).stack = i := hrun
    have hfault := hcoh.sound
    have ho : o = m.running := by
      by_contra hne
      by_cases hio : i = o
      · subst hio
        have hstack : m.running = i := by simpa [switch] using hload
        exact hne hstack.symm
      · by_cases hi : i = m.running
        · -- the slot of the running stack holds an older place of it
          subst hi
          have hpoint : (m.slot m.running).point = if last then .over else .mid m.clock := by
            have hfault' := hfault
            simp only [switch, Function.update_of_ne hio, h.stack, Function.update_self, Bool.or_eq_false_iff,
              bne_eq_false_iff_eq] at hfault'
            exact hfault'.1.2
          cases last
          · have hlt := h.old _ _ hpoint
            omega
          · simp [switch, Function.update_of_ne hio, hpoint] at hfault
        · have hown := hcoh.own o (by rw [hrun]; exact Ne.symm hio)
          have hstack : m.running = o := by
            have hctx := congrArg Context.stack hown
            simpa [switch] using hctx
          exact hne hstack.symm
    subst ho
    refine ⟨rfl, ?_⟩
    split_ifs with hi
    · subst hi
      cases last
      · rfl
      · simp [switch] at hfault
    · intro hover
      simp [switch, hi, h.own i hi, hover] at hfault
  · obtain ⟨hord, hrun⟩ := orderly_switch h hclear
    exact ⟨hord.toCoherent, hrun⟩

/-! ## Lost stacks -/

/-- the stack does not run, and is in no slot -/
def Unsaved (m : Machine ι) (x : ι) : Prop := m.running ≠ x ∧ ∀ f, (m.slot f).stack ≠ x

theorem unsaved_switch {x : ι} (h : m.Unsaved x) (o i : ι) (last : Bool) : (m.switch o i last).Unsaved x := by
  have hslot : ∀ f, ((m.switch o i last).slot f).stack ≠ x := by
    intro f
    by_cases hf : f = o
    · simpa [switch, hf] using h.1
    · simpa [switch, hf] using h.2 f
  exact ⟨hslot i, hslot⟩

theorem unsaved_make {x f : ι} (h : m.Unsaved x) (hf : f ≠ x) : (m.make f).Unsaved x := by
  refine ⟨h.1, fun g => ?_⟩
  by_cases hg : g = f
  · simpa [make, hg] using hf
  · simpa [make, hg] using h.2 g

/-- the stack whose slot is taken by another one -/
theorem unsaved_of_foreign (h : m.Orderly) {o : ι} (ho : o ≠ m.running) (i : ι) (last : Bool) :
    (m.switch o i last).Unsaved o := by
  have hslot : ∀ f, ((m.switch o i last).slot f).stack ≠ o := by
    intro f
    by_cases hf : f = o
    · simpa [switch, hf] using Ne.symm ho
    · simp [switch, hf, h.stack_eq f]
  exact ⟨hslot i, hslot⟩

end Machine

end Sylar.Coroutine

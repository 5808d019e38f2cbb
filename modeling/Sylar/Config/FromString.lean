/-
`ConfigVar::fromString` of config.h over the sequential `setValue`.

The conversion and the listeners may throw a std::exception, which fromString catches. The `return false` stands behind
the try block, so it is also the way out of a call that has succeeded.

Results:
- `fromString_eq`: what a call does, by the conversion and by operator==;
- `fromString_iff`: when the returned flag, the value and the listeners agree.
-/
import Sylar.Config.ConfigVar
import Sylar.Core.Text

namespace Sylar.ConfigVar

variable {T : Type*}

/-! ## Model -/

/-- what a listener does with old_value and new_value: true when it returns, false when it throws -/
abbrev Listener (T : Type*) := T → T → Bool

/-- the listener with its place in m_cbs, and what it was called with -/
abbrev Notice (T : Type*) := ℕ × T × T

/-- the loop over m_cbs from the listener `i` on; false when one of them throws -/
def callFrom (old v : T) (i : ℕ) : List (Listener T) → List (Notice T) × Bool
  | [] => ([], true)
  | cb :: cbs =>
    if cb old v then
      let r := callFrom old v (i + 1) cbs
      ((i, old, v) :: r.1, r.2)
    else ([(i, old, v)], false)

structure Outcome (T : Type*) where
  returned : Bool
  val : T
  calls : List (Notice T)

/-- `eq` is the operator== of the type; the flag says whether the call returns -/
def setValue (eq : T → T → Bool) (cbs : List (Listener T)) (val v : T) : Outcome T :=
  if eq v val then ⟨true, val, []⟩
  else
    match callFrom val v 0 cbs with
    | (calls, true) => ⟨true, v, calls⟩
    | (calls, false) => ⟨false, val, calls⟩

/-- `fromStr` is `none` where the conversion throws; the flag is the result -/
def fromString (fromStr : Bytes → Option T) (eq : T → T → Bool) (cbs : List (Listener T)) (val : T) (text : Bytes) :
    Outcome T :=
  match fromStr text with
  | none => ⟨false, val, []⟩
  | some v =>
    let r := setValue eq cbs val v
    -- whether setValue has returned or thrown
    { r with returned := false }

/-! ## Results -/

/-- true: the value is the converted one and each listener has heard of it; false: nothing has happened -/
structure AllOrNothing (fromStr : Bytes → Option T) (cbs : List (Listener T)) (val : T) (text : Bytes) (r : Outcome T) :
    Prop where
  done : r.returned = true → fromStr text = some r.val ∧
    (r.val ≠ val → ∀ i < cbs.length, r.calls.filter (fun c => c.1 = i) = [(i, val, r.val)])
  undone : r.returned = false → r.val = val ∧ r.calls = []

theorem callFrom_eq_nil {old v : T} {i : ℕ} {cbs : List (Listener T)} : (callFrom old v i cbs).1 = [] ↔ cbs = [] := by
  cases cbs with
  | nil => exact iff_of_true rfl rfl
  | cons cb cbs =>
    refine iff_of_false ?_ (List.cons_ne_nil _ _)
    rw [callFrom]
    split
    · exact List.cons_ne_nil _ _
    · exact List.cons_ne_nil _ _

/-- a call of a variable whose listeners return -/
theorem callFrom_of_forall {old v : T} {cbs : List (Listener T)} (h : ∀ cb ∈ cbs, cb old v = true) (i : ℕ) :
    (callFrom old v i cbs).2 = true := by
  induction cbs generalizing i with
  | nil => rfl
  | cons cb cbs ih =>
    obtain ⟨hcb, hcbs⟩ := List.forall_mem_cons.1 h
    rw [callFrom, if_pos hcb]
    exact ih hcbs (i + 1)

theorem fromString_returned (fromStr : Bytes → Option T) (eq : T → T → Bool) (cbs : List (Listener T)) (val : T)
    (text : Bytes) : (fromString fromStr eq cbs val text).returned = false := by
  rw [fromString]
  cases fromStr text with
  | none => rfl
  | some v => rfl

/-- without a change nobody is called; with one the listeners come first -/
theorem fromString_unchanged_iff (fromStr : Bytes → Option T) (eq : T → T → Bool) (cbs : List (Listener T)) (val : T)
    (text : Bytes) : (fromString fromStr eq cbs val text).val = val ∧ (fromString fromStr eq cbs val text).calls = [] ↔
      ∀ v, fromStr text = some v → eq v val = true ∨ (cbs = [] ∧ v = val) := by
  rw [fromString]
  cases hconv : fromStr text with
  | none => simp
  | some v =>
    simp only [setValue, Option.some.injEq, forall_eq']
    cases heq : eq v val with
    | true => simp
    | false =>
      have hcalls := @callFrom_eq_nil T val v 0 cbs
      rcases hc : callFrom val v 0 cbs with ⟨calls, ok⟩
      rw [hc] at hcalls
      simp only at hcalls
      cases ok with
      | true => simp [hcalls, and_comm]
      | false =>
        have hne : cbs ≠ [] := by
          rintro rfl
          cases hc
        simp [hcalls, hne]

/-- **fromString is all or nothing exactly when there is nothing to do.** -/
theorem fromString_iff (fromStr : Bytes → Option T) (eq : T → T → Bool) (cbs : List (Listener T)) (val : T)
    (text : Bytes) : AllOrNothing fromStr cbs val text (fromString fromStr eq cbs val text) ↔
      ∀ v, fromStr text = some v → eq v val = true ∨ (cbs = [] ∧ v = val) := by
  have hreturned := fromString_returned fromStr eq cbs val text
  rw [← fromString_unchanged_iff fromStr eq cbs val text]
  constructor
  · exact fun h => h.undone hreturned
  · exact fun h => ⟨fun htrue => absurd htrue (by rw [hreturned]; exact Bool.false_ne_true), fun _ => h⟩

/-- one digit -/
def digit (text : Bytes) : Option ℕ :=
  match text with
  | [c] => if 48 ≤ c ∧ c ≤ 57 then some (c.toNat - 48) else none
  | _ => none

/-- **A conversion that succeeds is reported as a failure.** The value was 1 and the text is "2"; and a second listener
that throws leaves the first one with a value that was never assigned. -/
theorem fromString_reports_failure :
    fromString digit (fun a b => a = b) [] 1 (Text.bytes "2") = ⟨false, 2, []⟩ ∧
      ¬ AllOrNothing digit [] 1 (Text.bytes "2") (fromString digit (fun a b => a = b) [] 1 (Text.bytes "2")) ∧
      fromString digit (fun a b => a = b) [fun _ _ => true, fun _ _ => false] 1 (Text.bytes "2") =
        ⟨false, 1, [(0, 1, 2), (1, 1, 2)]⟩ ∧
      ¬ AllOrNothing digit [fun _ _ => true, fun _ _ => false] 1 (Text.bytes "2")
        (fromString digit (fun a b => a = b) [fun _ _ => true, fun _ _ => false] 1 (Text.bytes "2")) := by
  refine ⟨rfl, fun h => ?_, rfl, fun h => ?_⟩
  · exact absurd (h.undone rfl).1 (by decide)
  · exact absurd (h.undone rfl).2 (List.cons_ne_nil _ _)

end Sylar.ConfigVar

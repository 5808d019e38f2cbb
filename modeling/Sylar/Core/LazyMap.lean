/-
A map that is filled from a text at its first lookup, next to one that keeps its edits over what the text says now.

`parse` puts what a source says into a map that may already hold entries; an entry that is there stays. The lazy map
takes edits directly, before the first lookup and behind it, and parses once. The other one, `seen`, is what its user
would expect: an edited key is what the last edit made it, any other key is what the current source says.

Results:
- `Holds.step`: what the lazy map holds, from the source at the first lookup and the edits before and behind it;
- `agree_iff`: a lookup tells the two apart unless the key was edited since, or was set before, or the stale text shows
  the same.
-/
import Sylar.Core.OrderedMap

namespace Sylar.LazyMap

open OrderedMap

variable {σ α β κ : Type*} [LT κ] [DecidableLT κ] {f : α → κ}

/-! ## The lazy map -/

/-- what a call does to the map -/
inductive Action (α β : Type*) where
  | set (k : α) (v : β)
  | del (k : α)
  | look
  | other

structure State (α β : Type*) {κ : Type*} [LT κ] (f : α → κ) where
  map : Map α β f
  parsed : Bool

/-- one call while the source is `src` -/
def step [LE κ] [Std.IsLinearOrder κ] [Std.LawfulOrderLT κ] (parse : σ → Map α β f → Map α β f) (st : State α β f)
    (src : σ) : Action α β → State α β f
  | .set k v => { st with map := st.map.assign k v }
  | .del k => { st with map := st.map.erase k }
  | .look => if st.parsed then st else ⟨parse src st.map, true⟩
  | .other => st

/-! ## What is remembered -/

variable [DecidableEq κ]

/-- edits by key: `none` for no edit, `some none` for a deletion -/
abbrev Edits (β κ : Type*) := κ → Option (Option β)

def Edits.step (e : Edits β κ) (f : α → κ) : Action α β → Edits β κ
  | .set k v => Function.update e (f k) (some (some v))
  | .del k => Function.update e (f k) (some none)
  | _ => e

/-- the source at the first lookup, the last edits before it and the last edits behind it -/
structure Past (σ β κ : Type*) where
  parsedFrom : Option σ
  before : Edits β κ
  since : Edits β κ

def Past.new : Past σ β κ := ⟨none, fun _ => none, fun _ => none⟩

def Past.step (p : Past σ β κ) (f : α → κ) (src : σ) (a : Action α β) : Past σ β κ :=
  match a, p.parsedFrom with
  | .look, none => { p with parsedFrom := some src }
  | a, none => { p with before := p.before.step f a }
  | a, some _ => { p with since := p.since.step f a }

/-- the edits of the whole past -/
def Past.edits (p : Past σ β κ) : Edits β κ := fun k => (p.since k).or (p.before k)

/-! ## The two answers -/

section

variable (parse : σ → Map α β f → Map α β f)

/-- what the current source and the edits say -/
def seen (e : Edits β κ) (src : σ) (k : α) : Option β :=
  match e (f k) with
  | some v => v
  | none => (parse src .empty).find k

/-- what the lazy map holds -/
def Past.found (p : Past σ β κ) (k : α) : Option β :=
  match p.since (f k) with
  | some v => v
  | none =>
    match p.before (f k), p.parsedFrom with
    | some (some v), _ => some v
    | _, none => none
    | _, some src => (parse src .empty).find k

/-- a lookup through `view` does not tell the two apart: the key was edited since the text was parsed, or set before, or
what was parsed shows what a deletion or the current source shows -/
def Past.Hidden {ρ : Type*} (view : Option β → ρ) (p : Past σ β κ) (src : σ) (k : α) : Prop :=
  p.since (f k) = none →
    match p.before (f k) with
    | some (some _) => True
    | some none => view ((parse (p.parsedFrom.getD src) .empty).find k) = view none
    | none => view ((parse (p.parsedFrom.getD src) .empty).find k) = view ((parse src .empty).find k)

end

/-! ## Results -/

/-- the lazy map and its past -/
structure Holds (parse : σ → Map α β f → Map α β f) (st : State α β f) (p : Past σ β κ) : Prop where
  parsed : st.parsed = p.parsedFrom.isSome
  unparsed : p.parsedFrom = none → ∀ k, p.since k = none
  find : ∀ k, st.map.find k = p.found parse k

section

variable {parse : σ → Map α β f → Map α β f}

omit [DecidableEq κ] in
theorem holds_new : Holds parse (⟨.empty, false⟩ : State α β f) .new :=
  ⟨rfl, fun _ _ => rfl, fun _ => rfl⟩

/-- the edits of the whole past follow the calls, too -/
theorem Holds.edits {st : State α β f} {p : Past σ β κ} (h : Holds parse st p) (src : σ) (a : Action α β) :
    (p.step f src a).edits = p.edits.step f a := by
  obtain ⟨parsedFrom, before, since⟩ := p
  cases parsedFrom with
  | none =>
    have hsince : ∀ k, since k = none := h.unparsed rfl
    funext k
    cases a with
    | set k' v => by_cases hk : k = f k' <;> simp [Past.step, Past.edits, Edits.step, hsince, hk]
    | del k' => by_cases hk : k = f k' <;> simp [Past.step, Past.edits, Edits.step, hsince, hk]
    | look => rfl
    | other => rfl
  | some s =>
    funext k
    cases a with
    | set k' v => by_cases hk : k = f k' <;> simp [Past.step, Past.edits, Edits.step, hk]
    | del k' => by_cases hk : k = f k' <;> simp [Past.step, Past.edits, Edits.step, hk]
    | look => rfl
    | other => rfl

/-- an edit of a key replaces what is found there, before the first lookup and behind it -/
theorem found_edit {p : Past σ β κ} {src : σ} {a : Action α β} {k : α} {v : Option β}
    (hstep : ∀ e : Edits β κ, e.step f a = Function.update e (f k) (some v)) (hlook : a ≠ .look)
    (hp : p.parsedFrom = none → ∀ k, p.since k = none) (k' : α) :
    (p.step f src a).found parse k' = if f k = f k' then v else p.found parse k' := by
  have hcase : p.step f src a = match p.parsedFrom with
      | none => { p with before := Function.update p.before (f k) (some v) }
      | some _ => { p with since := Function.update p.since (f k) (some v) } := by
    cases hfrom : p.parsedFrom <;> cases a <;> simp_all [Past.step]
  rw [hcase]
  by_cases hk : f k = f k'
  · rw [if_pos hk]
    cases hfrom : p.parsedFrom with
    | none =>
      simp only [Past.found, hp hfrom, hk, Function.update_self]
      cases v with
      | none => rfl
      | some v => rfl
    | some s => simp only [Past.found, hk, Function.update_self]
  · have hne : f k' ≠ f k := Ne.symm hk
    rw [if_neg hk]
    cases hfrom : p.parsedFrom with
    | none => simp only [Past.found, hfrom, Function.update_of_ne hne]
    | some s => simp only [Past.found, hfrom, Function.update_of_ne hne]

/-- the first lookup puts the source under the entries that are there -/
theorem found_look {p : Past σ β κ} {src : σ} (hfrom : p.parsedFrom = none) (hp : ∀ k, p.since k = none) (k : α) :
    (p.step f src (.look : Action α β)).found parse k = (p.found parse k).or ((parse src .empty).find k) := by
  simp only [Past.step, hfrom, Past.found, hp]
  rcases p.before (f k) with - | - | v
  · simp
  · simp
  · simp

variable [LE κ] [Std.IsLinearOrder κ] [Std.LawfulOrderLT κ]

theorem Holds.step {st : State α β f} {p : Past σ β κ} (h : Holds parse st p)
    (hparse : ∀ src m k, (parse src m).find k = (m.find k).or ((parse src .empty).find k)) (src : σ) (a : Action α β) :
    Holds parse (step parse st src a) (p.step f src a) := by
  cases a with
  | set k v =>
    refine ⟨?_, ?_, fun k' => ?_⟩
    · cases hfrom : p.parsedFrom <;> simp [LazyMap.step, Past.step, h.parsed, hfrom]
    · cases hfrom : p.parsedFrom <;> simp [Past.step, hfrom, h.unparsed]
    · rw [found_edit (k := k) (v := some v) (fun _ => rfl) (by simp) h.unparsed, LazyMap.step, Map.find_assign, h.find]
  | del k =>
    refine ⟨?_, ?_, fun k' => ?_⟩
    · cases hfrom : p.parsedFrom <;> simp [LazyMap.step, Past.step, h.parsed, hfrom]
    · cases hfrom : p.parsedFrom <;> simp [Past.step, hfrom, h.unparsed]
    · rw [found_edit (k := k) (v := none) (fun _ => rfl) (by simp) h.unparsed, LazyMap.step, Map.find_erase, h.find]
  | look =>
    cases hfrom : p.parsedFrom with
    | none =>
      have hst : st.parsed = false := by simp [h.parsed, hfrom]
      refine ⟨?_, ?_, fun k' => ?_⟩
      · simp [LazyMap.step, Past.step, hst, hfrom]
      · simp [Past.step, hfrom]
      · rw [found_look hfrom (h.unparsed hfrom), ← h.find, ← hparse]
        simp [LazyMap.step, hst]
    | some s =>
      have hst : st.parsed = true := by simp [h.parsed, hfrom]
      have hpast : p.step f src (.look : Action α β) = p := by
        obtain ⟨_, before, since⟩ := p
        cases hfrom
        rfl
      rw [hpast, LazyMap.step, if_pos hst]
      exact h
  | other =>
    have hpast : p.step f src (.other : Action α β) = p := by
      obtain ⟨parsedFrom, before, since⟩ := p
      cases parsedFrom <;> rfl
    rw [hpast]
    exact h

/-- a lookup tells the lazy map from the expected one exactly when it is not hidden -/
theorem Holds.agree_iff {ρ : Type*} {view : Option β → ρ} {st : State α β f} {p : Past σ β κ} (h : Holds parse st p)
    (hparse : ∀ src m k, (parse src m).find k = (m.find k).or ((parse src .empty).find k)) (src : σ) (k : α) :
    view ((LazyMap.step parse st src .look).map.find k) = view (seen parse p.edits src k) ↔
      p.Hidden parse view src k := by
  rw [(h.step hparse src .look).find k]
  -- behind this lookup the map has been parsed, from the source of the first one
  have hpast : p.step f src (.look : Action α β) = { p with parsedFrom := some (p.parsedFrom.getD src) } := by
    obtain ⟨parsedFrom, before, since⟩ := p
    cases parsedFrom <;> rfl
  rw [hpast, Past.found, Past.Hidden, seen, Past.edits]
  cases hsince : p.since (f k) with
  | some v => simp
  | none =>
    rcases hbefore : p.before (f k) with - | - | v
    · simp
    · simp
    · simp

end

end Sylar.LazyMap

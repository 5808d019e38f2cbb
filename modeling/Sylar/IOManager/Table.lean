/-
The table of contexts of `IOManager`: `m_fdContexts` under addEvent on any threads.

addEvent tests the size of the table under the read lock, and grows it under a later write lock to a size that only
depends on its own fd. The sections of `m_mutex` and of a context's mutex are steps.

Results:
- `contextResize_prefix`: contextResize keeps what is in the table exactly when it does not ask for less;
- `table_grows_iff`: in a run every state keeps the table, the contexts and their events of all earlier states, exactly
  when each section that grows the table asks for no less than its length at that time;
- `table_shrinks`: two threads grow the table, and the one with the smaller fd comes last.
-/
import Sylar.IOManager.Events

namespace Sylar.IOManager.Table

open Sylar.Run

/-! ## Model -/

/-- `(int)m_fdContexts.size()` -/
def intSize (n : ℕ) : ℤ := (n : ℤ).bmod 4294967296

/-- `fd * 1.5` as a size_t: the product has at most 33 bits, so the double is exact -/
def newSize (fd : ℕ) : ℕ := fd * 3 / 2

inductive Pc where
  | out
  /-- the table was too small -/
  | grow (fd : ℕ) (e : Event)
  /-- in front of the section of the context's mutex -/
  | found (c : ℕ) (e : Event)
deriving DecidableEq, Repr

structure Sys where
  /-- the contexts of the fds, as numbers in the order of their allocation -/
  fdContexts : List ℕ
  allocated : ℕ
  events : ℕ → Event → Bool
  pc : ℕ → Pc
  aborted : Bool

/-- `contextResize`: new slots are given a context in the same section, so no slot is seen empty -/
def Sys.contextResize (s : Sys) (size : ℕ) : Sys :=
  let fresh := size - s.fdContexts.length
  { s with
    fdContexts := s.fdContexts.take size ++ (List.range fresh).map (s.allocated + ·)
    allocated := s.allocated + fresh }

/-- behind the constructor -/
def init : Sys := Sys.contextResize ⟨[], 0, fun _ _ => false, fun _ => .out, false⟩ 32

inductive Op where
  /-- thread `t` calls addEvent: the section of the read lock -/
  | lookup (t fd : ℕ) (e : Event)
  /-- the section of the write lock -/
  | grow (t : ℕ)
  /-- the section of the context's mutex, with epoll_ctl succeeding -/
  | register (t : ℕ)
deriving DecidableEq, Repr

def Sys.goto (s : Sys) (t : ℕ) (p : Pc) : Sys := { s with pc := Function.update s.pc t p }

/-- `m_fdContexts[fd]`; an index out of range is undefined -/
def Sys.find (s : Sys) (t fd : ℕ) (e : Event) : Sys :=
  match s.fdContexts[fd]? with
  | some c => s.goto t (.found c e)
  | none => { s with aborted := true }

def step (s : Sys) (o : Op) : Sys :=
  if s.aborted then s
  else match o with
    | .lookup t fd e =>
      if s.pc t = .out ∧ fd < 2147483648 then
        if (fd : ℤ) < intSize s.fdContexts.length then s.find t fd e else s.goto t (.grow fd e)
      else s
    | .grow t =>
      match s.pc t with
      | .grow fd e => (s.contextResize (newSize fd)).find t fd e
      | _ => s
    | .register t =>
      match s.pc t with
      | .found c e =>
        if s.events c e then { s with aborted := true }
        else { s.goto t .out with events := Function.update s.events c (Function.update (s.events c) e true) }
      | _ => s

/-- `s'` has the contexts of `s` at their fds, with the events of `s` -/
structure Keeps (s s' : Sys) : Prop where
  contexts : s.fdContexts <+: s'.fdContexts
  events : ∀ c e, s.events c e = true → s'.events c e = true

/-- the condition of a run: a thread that grows the table asks for no less than the others have made of it -/
def GrowFits (s : Sys) : Op → Prop
  | .grow t => s.aborted = false → ∀ fd e, s.pc t = .grow fd e → s.fdContexts.length ≤ newSize fd
  | _ => True

/-! ## Steps -/

theorem Keeps.refl (s : Sys) : Keeps s s := ⟨List.prefix_refl _, fun _ _ => id⟩

theorem Keeps.trans {s t u : Sys} (h : Keeps s t) (h' : Keeps t u) : Keeps s u :=
  ⟨h.contexts.trans h'.contexts, fun c e he => h'.events c e (h.events c e he)⟩

@[simp] theorem find_fdContexts (s : Sys) (t fd : ℕ) (e : Event) : (s.find t fd e).fdContexts = s.fdContexts := by
  unfold Sys.find
  split <;> rfl

@[simp] theorem find_events (s : Sys) (t fd : ℕ) (e : Event) : (s.find t fd e).events = s.events := by
  unfold Sys.find
  split <;> rfl

theorem length_contextResize (s : Sys) (size : ℕ) : (s.contextResize size).fdContexts.length = size := by
  simp only [Sys.contextResize, List.length_append, List.length_take, List.length_map, List.length_range]
  omega

theorem contextResize_prefix (s : Sys) (size : ℕ) :
    s.fdContexts <+: (s.contextResize size).fdContexts ↔ s.fdContexts.length ≤ size := by
  refine ⟨fun h => ?_, fun h => ?_⟩
  · have hle := h.length_le
    rwa [length_contextResize] at hle
  · unfold Sys.contextResize
    rw [List.take_of_length_le h]
    exact List.prefix_append _ _

/-- a step keeps the table exactly when it meets the condition -/
theorem step_keeps (s : Sys) (o : Op) : Keeps s (step s o) ↔ GrowFits s o := by
  have hsame : ∀ s' : Sys, s'.fdContexts = s.fdContexts → s'.events = s.events → Keeps s s' := by
    intro s' hcontexts hevents
    exact ⟨by rw [hcontexts], by rw [hevents]; exact fun _ _ => id⟩
  unfold step
  split_ifs with hdead
  · apply iff_of_true (Keeps.refl s)
    cases o <;> simp [GrowFits, hdead]
  cases o with
  | lookup t fd e =>
    refine iff_of_true ?_ trivial
    dsimp only
    split_ifs
    · exact hsame _ (find_fdContexts s t fd e) (find_events s t fd e)
    · exact hsame _ rfl rfl
    · exact hsame _ rfl rfl
  | grow t =>
    dsimp only
    cases hpc : s.pc t with
    | out | found => exact iff_of_true (Keeps.refl s) (by simp [GrowFits, hpc])
    | grow fd e =>
      have hfits : GrowFits s (.grow t) ↔ s.fdContexts.length ≤ newSize fd := by
        simp [GrowFits, hpc, hdead]
      rw [hfits, ← contextResize_prefix]
      refine ⟨fun h => ?_, fun h => ?_⟩
      · have hcontexts := h.contexts
        rwa [find_fdContexts] at hcontexts
      · refine ⟨by rwa [find_fdContexts], ?_⟩
        rw [find_events]
        exact fun _ _ => id
  | register t =>
    refine iff_of_true ?_ trivial
    dsimp only
    split
    · rename_i c e _
      split_ifs
      · exact hsame _ rfl rfl
      · refine ⟨List.prefix_refl _, ?_⟩
        intro c' e' he
        dsimp only
        by_cases hc : c' = c
        · subst hc
          rw [Function.update_self]
          by_cases hee : e' = e
          · rw [hee, Function.update_self]
          · rwa [Function.update_of_ne hee]
        · rwa [Function.update_of_ne hc]
    · exact Keeps.refl s

/-- a run that keeps the table at each step keeps it over the whole run -/
theorem run_keeps {s : Sys} {ops : List Op} (h : Guarded step GrowFits s ops) : Keeps s (run step s ops) := by
  induction ops generalizing s with
  | nil => exact Keeps.refl s
  | cons o ops ih => exact ((step_keeps s o).2 h.1).trans (ih h.2)

/-! ## Main results -/

/-- **The table only grows.** In a run every state keeps what an earlier state has, exactly when no thread asks for a
size below the length of the table. -/
theorem table_grows_iff (ops : List Op) :
    (∀ pre mid, pre <+: mid → mid <+: ops → Keeps (run step init pre) (run step init mid)) ↔
      Guarded step GrowFits init ops := by
  constructor
  · intro h
    have hall : ∀ (s : Sys) (ops : List Op),
        (∀ pre mid, pre <+: mid → mid <+: ops → Keeps (run step s pre) (run step s mid)) →
        Guarded step GrowFits s ops := by
      intro s ops
      induction ops generalizing s with
      | nil => exact fun _ => trivial
      | cons o ops ih =>
        intro h
        refine ⟨(step_keeps s o).1 (h [] [o] (List.nil_prefix) ?_), ih _ ?_⟩
        · exact ⟨ops, rfl⟩
        · intro pre mid hpre hmid
          exact h (o :: pre) (o :: mid) ((List.prefix_cons_inj o).2 hpre) ((List.prefix_cons_inj o).2 hmid)
    exact hall init ops h
  · rintro h pre mid ⟨rest, rfl⟩ ⟨post, rfl⟩
    rw [guarded_append, guarded_append] at h
    rw [run_append]
    exact run_keeps h.1.2

/-- both threads find the table too small; thread 1 grows it for fd 50 and registers, then thread 2 grows it for fd 33 -/
def smallerLastTrace : List Op := [.lookup 1 50 .read, .lookup 2 33 .write, .grow 1, .register 1, .grow 2]

/-- **A shrinking table.** The second section asks for 49 slots, and the context of fd 50 is lost with its event. -/
theorem table_shrinks :
    let s := run step init (smallerLastTrace.take 4)
    let s' := run step init smallerLastTrace
    ¬ Keeps s s' ∧ s.fdContexts[50]? = some 50 ∧ s.events 50 .read = true ∧ s'.fdContexts[50]? = none := by
  have h1 : (run step init (smallerLastTrace.take 4)).fdContexts[50]? = some 50 := by decide
  have h2 : (run step init smallerLastTrace).fdContexts[50]? = none := by decide
  refine ⟨?_, h1, by decide, h2⟩
  intro h
  obtain ⟨rest, hrest⟩ := h.contexts
  rw [← hrest, List.getElem?_append_left (List.getElem?_eq_some_iff.1 h1).1, h1] at h2
  cases h2

end Sylar.IOManager.Table

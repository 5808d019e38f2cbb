/-
`ConfigVar::setValue` of config.h, called by any number of threads on one variable.

setValue compares and notifies under the read lock, gives it back, and assigns under the write lock. Several threads may
be in the first section at the same time, so each call of a listener is a step of its own; m_val is the same throughout,
since nobody has the write lock. The listeners are numbered in the order of m_cbs.

Results:
- `converged_iff`: in every state of a run the notifications of each listener form a chain, and the last one is m_val
  whenever no call is under way, exactly when no listener is called while another call that has already called it is in
  front of its assignment;
- `listener_left_behind`: two calls notify in one order and assign in the other.
-/
import Sylar.Core.Run

namespace Sylar.ConfigVar

open Sylar.Run

variable {T : Type*}

/-! ## Model -/

/-- where a thread is in setValue -/
inductive Pc (T : Type*) where
  | out
  /-- in the read-locked section: the listeners from the next one on -/
  | notifying (v : T) (left : List ℕ)
  /-- between the sections -/
  | notified (v : T)
deriving DecidableEq, Repr

structure Sys (T : Type*) where
  val : T
  /-- the number of listeners in m_cbs -/
  cbs : ℕ
  /-- the threads that hold the read lock -/
  readers : List ℕ
  pc : ℕ → Pc T
  /-- what each listener was called with: old_value and new_value -/
  calls : ℕ → List (T × T)

def init (val : T) (cbs : ℕ) : Sys T := ⟨val, cbs, [], fun _ => .out, fun _ => []⟩

inductive Op (T : Type*) where
  /-- thread `t` calls setValue(v): the read lock and the comparison -/
  | enter (t : ℕ) (v : T)
  /-- the next listener is called -/
  | notify (t : ℕ)
  /-- the end of the read-locked section -/
  | leave (t : ℕ)
  /-- the write-locked section -/
  | assign (t : ℕ)
deriving DecidableEq, Repr

def Sys.goto (s : Sys T) (t : ℕ) (p : Pc T) : Sys T := { s with pc := Function.update s.pc t p }

def step [DecidableEq T] (s : Sys T) : Op T → Sys T
  | .enter t v =>
    if s.pc t = .out ∧ v ≠ s.val then { s.goto t (.notifying v (List.range s.cbs)) with readers := s.readers ++ [t] }
    else s
  | .notify t =>
    match s.pc t with
    | .notifying v (l :: left) =>
      { s.goto t (.notifying v left) with calls := Function.update s.calls l (s.calls l ++ [(s.val, v)]) }
    | _ => s
  | .leave t =>
    match s.pc t with
    | .notifying v [] => { s.goto t (.notified v) with readers := s.readers.erase t }
    | _ => s
  | .assign t =>
    match s.pc t with
    | .notified v => if s.readers = [] then { s.goto t .out with val := v } else s
    | _ => s

/-- each old_value is the new_value before it, starting from `a` -/
def Chain (a : T) : List (T × T) → Prop
  | [] => True
  | (old, new) :: cs => old = a ∧ Chain new cs

/-- the last new_value, `a` when there is none -/
def last (a : T) : List (T × T) → T
  | [] => a
  | (_, new) :: cs => last new cs

/-- no setValue is in progress -/
def Sys.Idle (s : Sys T) : Prop := ∀ t, s.pc t = .out

/-- what the listeners were told fits m_val -/
structure Converged (a : T) (s : Sys T) : Prop where
  chain : ∀ l < s.cbs, Chain a (s.calls l)
  last : s.Idle → ∀ l < s.cbs, last a (s.calls l) = s.val

/-- the call has called listener `l` and not assigned -/
def Pc.told : Pc T → ℕ → Prop
  | .out, _ => False
  | .notifying _ left, l => l ∉ left
  | .notified _, _ => True

/-- the value a call is about to assign -/
def Pc.value : Pc T → Option T
  | .out => none
  | .notifying v _ | .notified v => some v

/-- the condition of a run: a listener is called by one call at a time, up to its assignment -/
def Alone (s : Sys T) : Op T → Prop
  | .notify t => ∀ v l left, s.pc t = .notifying v (l :: left) → ∀ t', t' ≠ t → ¬ (s.pc t').told l
  | _ => True

/-! ## Chains -/

theorem chain_append (a : T) (cs : List (T × T)) (old new : T) :
    Chain a (cs ++ [(old, new)]) ↔ Chain a cs ∧ old = last a cs := by
  induction cs generalizing a with
  | nil => simp [Chain, last]
  | cons c cs ih =>
    obtain ⟨o, n⟩ := c
    simp only [List.cons_append, Chain, last, ih]
    exact and_assoc.symm

theorem last_append (a : T) (cs : List (T × T)) (old new : T) : last a (cs ++ [(old, new)]) = new := by
  induction cs generalizing a with
  | nil => rfl
  | cons c cs ih => exact ih c.2

/-! ## The invariant -/

structure Inv (a : T) (s : Sys T) : Prop where
  readers : ∀ t, t ∈ s.readers ↔ ∃ v left, s.pc t = .notifying v left
  readersOnce : s.readers.Nodup
  /-- the listeners left are distinct ones of m_cbs, and the value differs from m_val -/
  left : ∀ t v left, s.pc t = .notifying v left → left.Nodup ∧ (∀ l ∈ left, l < s.cbs) ∧ v ≠ s.val
  chain : ∀ l < s.cbs, Chain a (s.calls l)
  /-- one call at a time has told a listener; the listener knows its value, which m_val is not yet -/
  alone : ∀ l < s.cbs, ∀ t t', (s.pc t).told l → (s.pc t').told l → t = t'
  ahead : ∀ l < s.cbs, ∀ t v, (s.pc t).told l → (s.pc t).value = some v → last a (s.calls l) = v ∧ v ≠ s.val
  settled : ∀ l < s.cbs, (∀ t, ¬ (s.pc t).told l) → last a (s.calls l) = s.val

theorem inv_init (a : T) (cbs : ℕ) : Inv a (init a cbs) where
  readers t := by simp [init]
  readersOnce := List.nodup_nil
  left t v left h := by simp [init] at h
  chain l _ := trivial
  alone l _ t t' h := h.elim
  ahead l _ t v h := h.elim
  settled l _ _ := rfl

@[simp] theorem goto_self (s : Sys T) (t : ℕ) (p : Pc T) : (s.goto t p).pc t = p := by
  simp [Sys.goto]

@[simp] theorem goto_readers (s : Sys T) (t : ℕ) (p : Pc T) : (s.goto t p).readers = s.readers := rfl

theorem goto_other (s : Sys T) {t i : ℕ} (p : Pc T) (h : i ≠ t) : (s.goto t p).pc i = s.pc i := by
  simp [Sys.goto, h]

theorem goto_told {s : Sys T} {t l : ℕ} {p : Pc T} (h : p.told l ↔ (s.pc t).told l) (i : ℕ) :
    ((s.goto t p).pc i).told l ↔ (s.pc i).told l := by
  by_cases hi : i = t
  · rw [hi, goto_self, h]
  · rw [goto_other s p hi]

theorem goto_value {s : Sys T} {t : ℕ} {p : Pc T} (h : p.value = (s.pc t).value) (i : ℕ) :
    ((s.goto t p).pc i).value = (s.pc i).value := by
  by_cases hi : i = t
  · rw [hi, goto_self, h]
  · rw [goto_other s p hi]

theorem Inv.goto_left {a : T} {s : Sys T} (h : Inv a s) {t : ℕ} {p : Pc T}
    (hp : ∀ v left, p = .notifying v left → left.Nodup ∧ (∀ l ∈ left, l < s.cbs) ∧ v ≠ s.val) :
    ∀ i v left, (s.goto t p).pc i = .notifying v left → left.Nodup ∧ (∀ l ∈ left, l < s.cbs) ∧ v ≠ s.val := by
  intro i v left hi
  by_cases hit : i = t
  · rw [hit, goto_self] at hi
    exact hp v left hi
  · rw [goto_other s p hit] at hi
    exact h.left i v left hi

theorem Inv.enter {a : T} {s : Sys T} (h : Inv a s) {t : ℕ} {v : T} (hout : s.pc t = .out) (hv : v ≠ s.val) :
    Inv a { s.goto t (.notifying v (List.range s.cbs)) with readers := s.readers ++ [t] } := by
  have hpc : ∀ i, i ≠ t → (s.goto t (.notifying v (List.range s.cbs))).pc i = s.pc i := fun i => goto_other s _
  have htold : ∀ l < s.cbs, ∀ i, ((s.goto t (.notifying v (List.range s.cbs))).pc i).told l ↔ (s.pc i).told l := by
    intro l hl
    apply goto_told
    simp [hout, Pc.told, hl]
  have hnew : t ∉ s.readers := by
    intro hmem
    obtain ⟨v', left, hpc'⟩ := (h.readers t).1 hmem
    rw [hout] at hpc'
    cases hpc'
  refine ⟨?_, ?_, ?_, h.chain, ?_, ?_, ?_⟩
  · intro i
    by_cases hi : i = t
    · subst hi
      simp
    · simp only [List.mem_append, List.mem_singleton, hi, or_false, hpc i hi]
      exact h.readers i
  · exact List.Nodup.append h.readersOnce (List.nodup_singleton t) (by simpa using hnew)
  · apply h.goto_left
    rintro v' left ⟨⟩
    exact ⟨List.nodup_range, fun l hl => List.mem_range.1 hl, hv⟩
  · intro l hl i j hi hj
    exact h.alone l hl i j ((htold l hl i).1 hi) ((htold l hl j).1 hj)
  · intro l hl i v' hi hval
    have hi' := (htold l hl i).1 hi
    have hit : i ≠ t := by
      rintro rfl
      rw [hout] at hi'
      exact hi'
    dsimp only at hval
    rw [hpc i hit] at hval
    exact h.ahead l hl i v' hi' hval
  · intro l hl hnone
    exact h.settled l hl fun i hi => hnone i ((htold l hl i).2 hi)

theorem Inv.notify {a : T} {s : Sys T} (h : Inv a s) {t l : ℕ} {v : T} {left : List ℕ}
    (hpc : s.pc t = .notifying v (l :: left)) (hok : ∀ t', t' ≠ t → ¬ (s.pc t').told l) :
    Inv a { s.goto t (.notifying v left) with
      calls := Function.update s.calls l (s.calls l ++ [(s.val, v)]) } := by
  obtain ⟨hnodup, hlt, hv⟩ := h.left t v _ hpc
  obtain ⟨hl, hnodup'⟩ := List.nodup_cons.1 hnodup
  have hlcbs := hlt l List.mem_cons_self
  have hother : ∀ i, i ≠ t → (s.goto t (.notifying v left)).pc i = s.pc i := fun i => goto_other s _
  have htold : ∀ l', l' ≠ l → ∀ i, ((s.goto t (.notifying v left)).pc i).told l' ↔ (s.pc i).told l' := by
    intro l' hne
    apply goto_told
    simp [hpc, Pc.told, hne]
  have hnone : ∀ i, ¬ (s.pc i).told l := by
    intro i hi
    by_cases hit : i = t
    · subst hit
      rw [hpc] at hi
      exact hi List.mem_cons_self
    · exact hok i hit hi
  -- after the call only `t` has told `l`
  have htoldl : ∀ i, ((s.goto t (.notifying v left)).pc i).told l → i = t := by
    intro i hi
    by_contra hit
    rw [hother i hit] at hi
    exact hok i hit hi
  have hvalue : ∀ i, ((s.goto t (.notifying v left)).pc i).value = (s.pc i).value := by
    apply goto_value
    rw [hpc]
    rfl
  refine ⟨?_, h.readersOnce, ?_, ?_, ?_, ?_, ?_⟩
  · intro i
    by_cases hi : i = t
    · subst hi
      simpa using (h.readers i).2 ⟨v, _, hpc⟩
    · dsimp only
      rw [hother i hi]
      exact h.readers i
  · apply h.goto_left
    rintro v' left' ⟨⟩
    exact ⟨hnodup', fun l' hl' => hlt l' (List.mem_cons_of_mem l hl'), hv⟩
  · intro l' hl'
    by_cases hne : l' = l
    · subst hne
      simp only [Function.update_self]
      rw [chain_append]
      exact ⟨h.chain l' hlcbs, (h.settled l' hlcbs hnone).symm⟩
    · simp only [Function.update_of_ne hne]
      exact h.chain l' hl'
  · intro l' hl' i j hi hj
    by_cases hne : l' = l
    · subst hne
      rw [htoldl i hi, htoldl j hj]
    · exact h.alone l' hl' i j ((htold l' hne i).1 hi) ((htold l' hne j).1 hj)
  · intro l' hl' i v' hi hval
    dsimp only at hval
    rw [hvalue i] at hval
    by_cases hne : l' = l
    · subst hne
      obtain rfl := htoldl i hi
      rw [hpc] at hval
      cases hval
      simp only [Function.update_self]
      exact ⟨last_append _ _ _ _, hv⟩
    · simp only [Function.update_of_ne hne]
      exact h.ahead l' hl' i v' ((htold l' hne i).1 hi) hval
  · intro l' hl' hno
    by_cases hne : l' = l
    · subst hne
      have hself := hno t
      rw [goto_self] at hself
      exact absurd hl hself
    · simp only [Function.update_of_ne hne]
      exact h.settled l' hl' fun i hi => hno i ((htold l' hne i).2 hi)

theorem Inv.leave {a : T} {s : Sys T} (h : Inv a s) {t : ℕ} {v : T} (hpc : s.pc t = .notifying v []) :
    Inv a { s.goto t (.notified v) with readers := s.readers.erase t } := by
  have hother : ∀ i, i ≠ t → (s.goto t (.notified v)).pc i = s.pc i := fun i => goto_other s _
  have htold : ∀ l i, ((s.goto t (.notified v)).pc i).told l ↔ (s.pc i).told l := by
    intro l
    apply goto_told
    simp [hpc, Pc.told]
  have hvalue : ∀ i, ((s.goto t (.notified v)).pc i).value = (s.pc i).value := by
    apply goto_value
    rw [hpc]
    rfl
  refine ⟨?_, h.readersOnce.erase t, ?_, h.chain, ?_, ?_, ?_⟩
  · intro i
    rw [h.readersOnce.mem_erase_iff]
    by_cases hi : i = t
    · subst hi
      simp
    · simp only [hi, ne_eq, not_false_eq_true, true_and, hother i hi]
      exact h.readers i
  · apply h.goto_left
    rintro v' left ⟨⟩
  · intro l hl i j hi hj
    exact h.alone l hl i j ((htold l i).1 hi) ((htold l j).1 hj)
  · intro l hl i v' hi hval
    dsimp only at hval
    rw [hvalue i] at hval
    exact h.ahead l hl i v' ((htold l i).1 hi) hval
  · intro l hl hno
    exact h.settled l hl fun i hi => hno i ((htold l i).2 hi)

theorem Inv.assign {a : T} {s : Sys T} (h : Inv a s) {t : ℕ} {v : T} (hpc : s.pc t = .notified v)
    (hfree : s.readers = []) : Inv a { s.goto t .out with val := v } := by
  have hother : ∀ i, i ≠ t → (s.goto t .out).pc i = s.pc i := fun i => goto_other s _
  have hnobody : ∀ i v' left, s.pc i ≠ .notifying v' left := by
    intro i v' left hi
    have hmem := (h.readers i).2 ⟨v', left, hi⟩
    rw [hfree] at hmem
    cases hmem
  have htoldt : ∀ l, (s.pc t).told l := fun l => by rw [hpc]; trivial
  -- `t` was the only call that had told a listener
  have hnone : ∀ l < s.cbs, ∀ i, ¬ ((s.goto t .out).pc i).told l := by
    intro l hl i hi
    by_cases hit : i = t
    · subst hit
      rw [goto_self] at hi
      exact hi
    · rw [hother i hit] at hi
      exact hit (h.alone l hl i t hi (htoldt l))
  refine ⟨?_, h.readersOnce, ?_, h.chain, ?_, ?_, ?_⟩
  · intro i
    by_cases hi : i = t
    · subst hi
      simp [hfree]
    · dsimp only
      rw [hother i hi]
      exact h.readers i
  · intro i v' left hi
    by_cases hit : i = t
    · subst hit
      rw [goto_self] at hi
      cases hi
    · rw [hother i hit] at hi
      exact absurd hi (hnobody i v' left)
  · intro l hl i j hi
    exact absurd hi (hnone l hl i)
  · intro l hl i v' hi
    exact absurd hi (hnone l hl i)
  · intro l hl _
    exact (h.ahead l hl t v (htoldt l) (by rw [hpc]; rfl)).1

theorem Inv.converged {a : T} {s : Sys T} (h : Inv a s) : Converged a s := by
  refine ⟨h.chain, ?_⟩
  intro hidle l hl
  apply h.settled l hl
  intro t ht
  rw [hidle t] at ht
  exact ht

section

variable [DecidableEq T]

theorem step_inv {a : T} (s : Sys T) (o : Op T) (h : Inv a s) (hok : Alone s o) : Inv a (step s o) := by
  cases o with
  | enter t v =>
    simp only [step]
    split_ifs with hnew
    · exact h.enter hnew.1 hnew.2
    · exact h
  | notify t =>
    simp only [step]
    split
    · rename_i v l left hpc
      exact h.notify hpc (hok v l left hpc)
    · exact h
  | leave t =>
    simp only [step]
    split
    · rename_i v hpc
      exact h.leave hpc
    · exact h
  | assign t =>
    simp only [step]
    split
    · rename_i v hpc
      split_ifs with hfree
      · exact h.assign hpc hfree
      · exact h
    · exact h

/-- a second call tells a listener the old m_val behind the first one's new value -/
theorem step_breaks {a : T} (s : Sys T) (o : Op T) (h : Inv a s) (hbad : ¬ Alone s o) : ¬ Converged a (step s o) := by
  cases o with
  | notify t =>
    simp only [Alone, not_forall, not_not] at hbad
    obtain ⟨v, l, left, hpc, t', hne, htold⟩ := hbad
    have hl := (h.left t v _ hpc).2.1 l List.mem_cons_self
    have hvalue : ∃ v', (s.pc t').value = some v' := by
      cases hpc' : s.pc t' with
      | out => rw [hpc'] at htold; exact htold.elim
      | notifying v' left' => exact ⟨v', rfl⟩
      | notified v' => exact ⟨v', rfl⟩
    obtain ⟨v', hv'⟩ := hvalue
    obtain ⟨hlast, hdiff⟩ := h.ahead l hl t' v' htold hv'
    intro hconv
    have hchain := hconv.chain l (by simp only [step, hpc]; exact hl)
    simp only [step, hpc, Function.update_self] at hchain
    rw [chain_append] at hchain
    exact hdiff (hlast.symm.trans hchain.2.symm)
  | _ => exact absurd trivial hbad

/-! ## Main results -/

/-- **Listeners converge.** In every state of a run the listeners were told chains, and know m_val whenever no call is
under way, exactly when each listener is called by one call at a time up to its assignment. -/
theorem converged_iff (a : T) (cbs : ℕ) (ops : List (Op T)) :
    (∀ pre, pre <+: ops → Converged a (run step (init a cbs) pre)) ↔ Guarded step Alone (init a cbs) ops :=
  states_good_iff step_inv (fun _ h => h.converged) step_breaks (inv_init a cbs) ops

end

/-- threads 1 and 2 set 5 and 7; thread 1 notifies first and assigns last -/
def crossedTrace : List (Op ℕ) :=
  [.enter 1 5, .enter 2 7, .notify 1, .notify 2, .leave 1, .leave 2, .assign 2, .assign 1]

/-- **A listener left behind.** The listener was told 7 last, m_val is 5, and no call is under way. -/
theorem listener_left_behind :
    let s := run step (init 0 1) crossedTrace
    ¬ Converged 0 s ∧ s.calls 0 = [(0, 5), (0, 7)] ∧ s.val = 5 ∧ s.Idle := by
  have hcalls : (run step (init 0 1) crossedTrace).calls 0 = [(0, 5), (0, 7)] := by decide
  have hidle : (run step (init 0 1) crossedTrace).Idle := by
    intro t
    by_cases h1 : t = 1
    · subst h1
      decide
    by_cases h2 : t = 2
    · subst h2
      decide
    simp [crossedTrace, run, step, init, Sys.goto, h1, h2]
  refine ⟨?_, hcalls, by decide, hidle⟩
  intro hconv
  have hlast := hconv.last hidle 0 (by decide)
  rw [hcalls] at hlast
  exact absurd hlast (by decide)

end Sylar.ConfigVar

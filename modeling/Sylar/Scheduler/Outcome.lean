/-
What a worker does behind the end of a task.

`MainFunc` writes TERM when the function returns. Its two catch blocks write EXEC, so a function that throws comes back
to `run` in a state that is none of those it tests for: the fiber is set to HOLD, and the assertion of its destructor (or
the reset of the callback's fiber) finds a fiber that is neither TERM nor INIT nor EXCEPT.

Results:
- `step_orderly`: a fiber that has ended is in TERM, with the thread that ran it, and in no other place;
- `goes_on`: from any point behind a fiber that has ended the worker reaches its next scan;
- `tasks_do_no_damage`: over all interleavings in which no function throws, and the fibers that end are not shared;
- `throw_ends_the_program`: a callback throws, and the program is aborted by the destructor of its fiber.
-/
import Sylar.Scheduler.Finished

namespace Sylar.Scheduler

open Sylar.Run

/-! ## Behind a slice -/

/-- the fiber that a thread has come back from, where it neither queues it nor sets it to HOLD -/
def Pc.left : Pc → Option ℕ
  | .leaving _ f | .post _ f | .testReady _ f | .testTerm _ f | .resetAssert true f | .resetInit true f
  | .release _ f => some f
  | _ => none

/-- the fiber that a thread has found finished and makes ready for its next callback -/
def Pc.retires : Pc → Option ℕ
  | .resetAssert true f | .resetInit true f => some f
  | .tickle _ back | .write _ back => back.retires
  | _ => none

/-- the fiber that a thread resets for the callback it has taken -/
def Pc.reuses : Pc → Option ℕ
  | .resetAssert false f | .resetInit false f => some f
  | .tickle _ back | .write _ back => back.reuses
  | _ => none

/-- the steps up to the next scan -/
def Pc.remaining : Pc → ℕ
  | .leaving _ _ => 6
  | .post _ _ => 5
  | .testReady _ _ => 4
  | .testTerm _ _ => 3
  | .resetAssert true _ => 2
  | .resetInit true _ | .release _ _ => 1
  | _ => 0

/-- the next step of thread `t` alone; `last`: it has the last pointer to the fiber it drops -/
def Sys.advance (s : Sys) (t : ℕ) (last : Bool) : Sys :=
  match s.pc t with
  | .release _ _ => step s (.release t last)
  | _ => step s (.work t)

/-- thread `t` has the fiber for its next callback, or resets it for the one it has taken -/
def Sys.Keeps (s : Sys) (t f : ℕ) : Prop := s.cbFiber t = some f ∨ (s.pc t).reuses = some f

theorem Pc.hand_of_reuses {p : Pc} {f : ℕ} (h : p.reuses = some f) : p.hand = some f := by
  induction p with
  | tickle _ _ ih | write _ _ ih => exact ih h
  | resetAssert b _ | resetInit b _ => cases b <;> simp_all [Pc.reuses, Pc.hand]
  | _ => cases h

theorem Pc.hand_of_retires {p : Pc} {f : ℕ} (h : p.retires = some f) : p.hand = some f := by
  induction p with
  | tickle _ _ ih | write _ _ ih => exact ih h
  | resetAssert b _ | resetInit b _ => cases b <;> simp_all [Pc.retires, Pc.hand]
  | _ => cases h

theorem Sys.Keeps.holds {s : Sys} {t f : ℕ} (h : s.Keeps t f) : s.Holds t f :=
  h.elim .inr fun hreuse => .inl (Pc.hand_of_reuses hreuse)

/-! ## The condition -/

/-- the condition on the end of a fiber: it is not queued, and no other thread has it -/
def Sys.EndFits (s : Sys) (t : ℕ) : Prop :=
  ∀ f ∈ (s.pc t).runs, (∀ e ∈ s.fibers, e.fiber ≠ some f) ∧ ∀ t' ∈ s.threads, t' ≠ t → ¬ s.Holds t' f

/-- the condition on `schedule`: the fibers have not ended, and no thread keeps them for a callback -/
def Sys.StartFits (s : Sys) (es : List FiberAndThread) : Prop :=
  ∀ e ∈ es, ∀ f ∈ e.fiber, s.ended f = false ∧ ∀ t ∈ s.threads, ¬ s.Keeps t f

/-- the condition of a run: no function throws, and those above -/
def Returns (s : Sys) : Op → Prop
  | .throw t => (s.pc t).runs = none
  | .finish t => s.EndFits t
  | .schedule _ es => s.StartFits es
  | _ => True

instance (s : Sys) (t f : ℕ) : Decidable (s.Keeps t f) := inferInstanceAs (Decidable (_ ∨ _))

instance (s : Sys) (t : ℕ) : Decidable (s.EndFits t) := inferInstanceAs (Decidable (∀ f ∈ (s.pc t).runs, _))

instance (s : Sys) (es : List FiberAndThread) : Decidable (s.StartFits es) := inferInstanceAs (Decidable (∀ e ∈ es, _))

instance (s : Sys) : ∀ o, Decidable (Returns s o)
  | .throw t => inferInstanceAs (Decidable ((s.pc t).runs = none))
  | .finish t => inferInstanceAs (Decidable (s.EndFits t))
  | .schedule _ es => inferInstanceAs (Decidable (s.StartFits es))
  | .spawn _ | .enter _ | .newFiber | .work _ | .yieldToHold _ | .yieldToReady _ | .release _ _ | .epollWait _ _
  | .wake _ | .drain _ | .leaveIdle _ | .stop _ _ | .timerAtFront _ => isTrue trivial

/-! ## The invariant -/

/-- a fiber that has ended: in TERM, not queued, and with one thread at most, that has come back from it -/
structure Sys.Gone (s : Sys) (f : ℕ) : Prop where
  term : s.state f = .term
  queue : ∀ e ∈ s.fibers, e.fiber ≠ some f
  left : ∀ t, (s.pc t).hand = some f → (s.pc t).left = some f
  kept : ∀ t, s.cbFiber t ≠ some f
  unique : ∀ t t', (s.pc t).hand = some f → (s.pc t').hand = some f → t = t'

/-- a fiber that thread `t` keeps for its callbacks: in INIT, not queued, and with no other thread -/
structure Sys.Ready (s : Sys) (t f : ℕ) : Prop where
  init : s.state f = .init
  running : s.ended f = false
  queue : ∀ e ∈ s.fibers, e.fiber ≠ some f
  unique : ∀ t', s.Keeps t' f → t' = t
  hand : ∀ t', (s.pc t').hand = some f → (s.pc t').reuses = some f

structure Sys.Good (s : Sys) (f : ℕ) : Prop where
  ended_of_term : s.state f = .term → s.ended f = true
  gone : s.ended f = true → s.Gone f
  ready : ∀ t, s.Keeps t f → s.Ready t f
  retires : ∀ t, (s.pc t).retires = some f → s.ended f = true

structure Orderly (s : Sys) : Prop where
  good : ∀ f, s.Good f
  reuses : ∀ t f, (s.pc t).reuses = some f → s.cbFiber t = none

theorem orderly_init : Orderly init := by
  refine ⟨fun f => ⟨?_, ?_, ?_, ?_⟩, ?_⟩ <;> simp [init, Sys.Keeps, Pc.reuses, Pc.retires]

/-- a fiber in the hand of a thread that has not come back from it and does not reset it -/
theorem Sys.Good.free_of_hand {s : Sys} {t f : ℕ} (h : s.Good f) (hf : (s.pc t).hand = some f)
    (hleft : (s.pc t).left = none) (hreuse : (s.pc t).reuses = none) : s.ended f = false ∧ ∀ t', ¬ s.Keeps t' f := by
  constructor
  · rw [← Bool.not_eq_true]
    intro hended
    have := (h.gone hended).left t hf
    rw [hleft] at this
    cases this
  · intro t' hkeep
    have := (h.ready t' hkeep).hand t hf
    rw [hreuse] at this
    cases this

/-- a fiber with an entry in the queue -/
theorem Sys.Good.free_of_queued {s : Sys} {f : ℕ} (h : s.Good f) {e : FiberAndThread} (he : e ∈ s.fibers)
    (hf : e.fiber = some f) : s.ended f = false ∧ ∀ t', ¬ s.Keeps t' f := by
  constructor
  · rw [← Bool.not_eq_true]
    exact fun hended => (h.gone hended).queue e he hf
  · exact fun t' hkeep => (h.ready t' hkeep).queue e he hf

/-- nothing is asked of a fiber that has not ended and that nobody keeps -/
theorem Sys.Good.of_free {s : Sys} {f : ℕ} (hstate : s.state f ≠ .term) (hrun : s.ended f = false)
    (hnobody : ∀ t, ¬ s.Keeps t f) (hretire : ∀ t, (s.pc t).retires ≠ some f) : s.Good f := by
  refine ⟨fun hterm => absurd hterm hstate, ?_, fun t hkeep => absurd hkeep (hnobody t), fun t ht => absurd ht (hretire t)⟩
  intro hended
  rw [hrun] at hended
  cases hended

/-- thread `t` moves, and the fiber stays as it is -/
theorem Sys.Good.frame {s s' : Sys} {f : ℕ} (h : s.Good f) {t : ℕ} {p : Pc} {c : Option ℕ}
    (hpc : s'.pc = Function.update s.pc t p) (hcb : s'.cbFiber = Function.update s.cbFiber t c)
    (hqueue : ∀ e ∈ s'.fibers, e.fiber = some f → e ∈ s.fibers) (hstate : s'.state f = s.state f)
    (hended : s'.ended f = s.ended f) (hhand : p.hand = some f → s.Holds t f)
    (hleft : p.hand = some f → (s.pc t).left = some f → s.ended f = true → p.left = some f)
    (hkeep : p.hand = some f → s.Keeps t f → p.reuses = some f)
    (hkeeps : c = some f ∨ p.reuses = some f → s.Keeps t f)
    (hretire : p.retires = some f → s.ended f = true) : s'.Good f := by
  have hpc' : ∀ {t'}, t' ≠ t → s'.pc t' = s.pc t' := fun hne => by rw [hpc, Function.update_of_ne hne]
  have hcb' : ∀ {t'}, t' ≠ t → s'.cbFiber t' = s.cbFiber t' := fun hne => by rw [hcb, Function.update_of_ne hne]
  have hself : s'.pc t = p ∧ s'.cbFiber t = c := by simp [hpc, hcb]
  have hkept : ∀ t', s'.Keeps t' f → s.Keeps t' f := by
    intro t' ht'
    by_cases hne : t' = t
    · subst hne
      unfold Sys.Keeps at ht'
      rw [hself.1, hself.2] at ht'
      exact hkeeps ht'
    · rwa [Sys.Keeps, hpc' hne, hcb' hne] at ht'
  refine ⟨by rw [hstate, hended]; exact h.ended_of_term, ?_, ?_, ?_⟩
  · intro hgone
    rw [hended] at hgone
    obtain ⟨hterm, hnone, hleft', hcbs, huniq⟩ := h.gone hgone
    -- a thread that has it now had it in its hand before
    have hold : ∀ t', (s'.pc t').hand = some f → (s.pc t').hand = some f := by
      intro t' ht'
      by_cases hne : t' = t
      · subst hne
        rw [hself.1] at ht'
        exact (hhand ht').resolve_right (hcbs t')
      · rwa [hpc' hne] at ht'
    refine ⟨hstate.trans hterm, fun e he hef => hnone e (hqueue e he hef) hef, ?_, ?_, ?_⟩
    · intro t' ht'
      have := hleft' t' (hold t' ht')
      by_cases hne : t' = t
      · subst hne
        rw [hself.1] at ht' ⊢
        exact hleft ht' this hgone
      · rwa [hpc' hne]
    · intro t' ht'
      have := (h.ready t' (hkept t' (.inl ht'))).running
      rw [hgone] at this
      cases this
    · exact fun t1 t2 h1 h2 => huniq t1 t2 (hold t1 h1) (hold t2 h2)
  · intro t1 h1
    obtain ⟨hinit, hrun, hnone, huniq, hhands⟩ := h.ready t1 (hkept t1 h1)
    refine ⟨hstate.trans hinit, hended.trans hrun, fun e he hef => hnone e (hqueue e he hef) hef,
      fun t2 h2 => huniq t2 (hkept t2 h2), ?_⟩
    intro t2 h2
    by_cases hne : t2 = t
    · subst hne
      rw [hself.1] at h2 ⊢
      apply hkeep h2
      exact (hhand h2).elim (fun hh => .inr (hhands t2 hh)) .inl
    · rw [hpc' hne] at h2 ⊢
      exact hhands t2 h2
  · intro t' ht'
    rw [hended]
    by_cases hne : t' = t
    · subst hne
      rw [hself.1] at ht'
      exact hretire ht'
    · rw [hpc' hne] at ht'
      exact h.retires t' ht'

/-- thread `t` moves -/
theorem Orderly.move {s s' : Sys} (h : Orderly s) {t : ℕ} {p : Pc} {c : Option ℕ}
    (hpc : s'.pc = Function.update s.pc t p) (hcb : s'.cbFiber = Function.update s.cbFiber t c)
    (hgood : ∀ f, s'.Good f) (hreuse : ∀ f, p.reuses = some f → c = none) : Orderly s' := by
  refine ⟨hgood, ?_⟩
  intro t' f hf
  rw [hpc] at hf
  rw [hcb]
  by_cases hne : t' = t
  · rw [hne, Function.update_self] at hf ⊢
    exact hreuse f hf
  · rw [Function.update_of_ne hne] at hf ⊢
    exact h.reuses t' f hf

/-- thread `t` moves, with nothing new in its hand -/
theorem Orderly.goto {s s' : Sys} (h : Orderly s) {t : ℕ} {p : Pc} (hpc : s'.pc = Function.update s.pc t p)
    (hcb : s'.cbFiber = s.cbFiber) (hqueue : s'.fibers = s.fibers) (hstate : s'.state = s.state)
    (hended : s'.ended = s.ended) (hhand : ∀ f, p.hand = some f → (s.pc t).hand = some f)
    (hleft : ∀ f, p.hand = some f → (s.pc t).left = some f → s.ended f = true → p.left = some f)
    (hreuse : ∀ f, p.hand = some f → p.reuses = (s.pc t).reuses) (hretire : ∀ f, p.retires = some f → s.ended f = true) :
    Orderly s' := by
  have hcb' : s'.cbFiber = Function.update s.cbFiber t (s.cbFiber t) := by rw [hcb, Function.update_eq_self]
  have hold : ∀ f, p.reuses = some f → (s.pc t).reuses = some f := fun f hf => (hreuse f (Pc.hand_of_reuses hf)) ▸ hf
  refine h.move hpc hcb' ?_ fun f hf => h.reuses t f (hold f hf)
  intro f
  have hf := h.good f
  have hkeeps : s.cbFiber t = some f ∨ p.reuses = some f → s.Keeps t f := fun hc => hc.imp_right (hold f)
  exact hf.frame hpc hcb' (by rw [hqueue]; exact fun _ he _ => he) (by rw [hstate]) (by rw [hended])
    (fun hp => .inl (hhand f hp)) (hleft f) (fun hp hk => (hreuse f hp).trans ((hf.ready t hk).hand t (hhand f hp))) hkeeps
    (hretire f)

/-- thread `t` moves to where it has no fiber in its hand -/
theorem Orderly.leave {s s' : Sys} (h : Orderly s) {t : ℕ} {p : Pc} (hpc : s'.pc = Function.update s.pc t p)
    (hcb : s'.cbFiber = s.cbFiber) (hqueue : s'.fibers = s.fibers) (hstate : s'.state = s.state)
    (hended : s'.ended = s.ended) (hhand : p.hand = none) : Orderly s' := by
  have hnone : ∀ f, p.hand ≠ some f := fun f hf => by simp [hhand] at hf
  exact h.goto hpc hcb hqueue hstate hended (fun f hf => absurd hf (hnone f)) (fun f hf => absurd hf (hnone f))
    (fun f hf => absurd hf (hnone f)) fun f hf => absurd (Pc.hand_of_retires hf) (hnone f)

theorem Orderly.congr {s s' : Sys} (h : Orderly s) (hpc : s'.pc = s.pc) (hcb : s'.cbFiber = s.cbFiber)
    (hqueue : s'.fibers = s.fibers) (hstate : s'.state = s.state) (hended : s'.ended = s.ended) : Orderly s' :=
  h.goto (t := 0) (p := s.pc 0) (by rw [hpc, Function.update_eq_self]) hcb hqueue hstate hended (fun _ => id)
    (fun _ _ hl _ => hl) (fun _ _ => rfl) (fun f => (h.good f).retires 0)

/-- thread `t` writes the state of a fiber in its hand that has not ended and that nobody keeps, and moves -/
theorem Orderly.write {s s' : Sys} (h : Orderly s) {t f : ℕ} {x : State} {p : Pc} (hf : (s.pc t).hand = some f)
    (hleft : (s.pc t).left = none) (hreuse : (s.pc t).reuses = none) (hpc : s'.pc = Function.update s.pc t p)
    (hcb : s'.cbFiber = s.cbFiber) (hqueue : s'.fibers = s.fibers) (hstate : s'.state = Function.update s.state f x)
    (hended : s'.ended f = s.ended f ∧ ∀ g, g ≠ f → s'.ended g = s.ended g) (hx : x ≠ .term)
    (hhand : ∀ g, p.hand = some g → g = f) (hreuse' : p.reuses = none) (hretire : p.retires = none) : Orderly s' := by
  obtain ⟨hrun, hnobody⟩ := (h.good f).free_of_hand hf hleft hreuse
  have hcb' : s'.cbFiber = Function.update s.cbFiber t (s.cbFiber t) := by rw [hcb, Function.update_eq_self]
  have hkeeps : ∀ t' g, s'.Keeps t' g → s.Keeps t' g := by
    intro t' g hg
    unfold Sys.Keeps at hg ⊢
    rw [hpc, hcb] at hg
    by_cases hne : t' = t
    · subst hne
      rw [Function.update_self, hreuse'] at hg
      exact .inl (hg.resolve_right (by simp))
    · rwa [Function.update_of_ne hne] at hg
  refine h.move hpc hcb' ?_ (by simp [hreuse'])
  intro g
  by_cases hgf : g = f
  · subst hgf
    refine Sys.Good.of_free ?_ (hended.1.trans hrun) (fun t' hk => hnobody t' (hkeeps t' g hk)) ?_
    · rw [hstate, Function.update_self]
      exact hx
    · intro t' ht'
      rw [hpc] at ht'
      by_cases hne : t' = t
      · rw [hne, Function.update_self, hretire] at ht'
        cases ht'
      · rw [Function.update_of_ne hne] at ht'
        have := (h.good g).retires t' ht'
        rw [hrun] at this
        cases this
  · have hnot : p.hand ≠ some g := fun hg => hgf (hhand g hg)
    exact (h.good g).frame hpc hcb' (by rw [hqueue]; exact fun _ he _ => he)
      (by rw [hstate, Function.update_of_ne hgf]) (hended.2 g hgf) (fun hp => absurd hp hnot)
      (fun hp => absurd hp hnot) (fun hp => absurd hp hnot) (fun hc => .inl (hc.resolve_right (by simp [hreuse'])))
      (by simp [hretire])

/-- entries are pushed of fibers that have not ended and that nobody keeps -/
theorem Orderly.append {s s' : Sys} (h : Orderly s) (es : List FiberAndThread) (hpc : s'.pc = s.pc)
    (hcb : s'.cbFiber = s.cbFiber) (hqueue : s'.fibers = s.fibers ++ es) (hstate : s'.state = s.state)
    (hended : s'.ended = s.ended)
    (hfits : ∀ e ∈ es, ∀ f, e.fiber = some f → s.ended f = false ∧ ∀ t, ¬ s.Keeps t f) : Orderly s' := by
  have hkeeps : ∀ t g, s'.Keeps t g ↔ s.Keeps t g := by
    intro t g
    rw [Sys.Keeps, Sys.Keeps, hcb, hpc]
  refine ⟨?_, by rw [hpc, hcb]; exact h.reuses⟩
  intro f
  obtain ⟨hterm, hgone, hready, hretire⟩ := h.good f
  refine ⟨by rwa [hstate, hended], ?_, ?_, by rwa [hpc, hended]⟩
  · intro hf
    rw [hended] at hf
    obtain ⟨hterm, hnone, hleft, hcb', huniq⟩ := hgone hf
    refine ⟨by rwa [hstate], ?_, by rwa [hpc], by rwa [hcb], by rwa [hpc]⟩
    intro e he hef
    rw [hqueue, List.mem_append] at he
    rcases he with he | he
    · exact hnone e he hef
    · rw [(hfits e he f hef).1] at hf
      cases hf
  · intro t hkeep
    have hold := (hkeeps t f).1 hkeep
    obtain ⟨hinit, hrun, hnone, huniq, hhands⟩ := hready t hold
    refine ⟨by rwa [hstate], by rwa [hended], ?_, fun t2 h2 => huniq t2 ((hkeeps t2 f).1 h2), by rwa [hpc]⟩
    intro e he hef
    rw [hqueue, List.mem_append] at he
    rcases he with he | he
    · exact hnone e he hef
    · exact (hfits e he f hef).2 t hold

theorem Orderly.push {s : Sys} (h : Orderly s) {t : ℕ} {es : List FiberAndThread} {back : Pc}
    (hfits : ∀ e ∈ es, ∀ f, e.fiber = some f → s.ended f = false ∧ ∀ t, ¬ s.Keeps t f)
    (hhand : ∀ f, back.hand = some f → (s.pc t).hand = some f) (hleft : (s.pc t).left = none)
    (hreuse : back.reuses = none) (hkeep : (s.pc t).reuses = none) (hretire : back.retires = none) :
    Orderly (s.push t es back) := by
  unfold Sys.push
  generalize hp : (if s.fibers.isEmpty && !es.isEmpty then Pc.tickle true back else back) = p
  have hp' : p.hand = back.hand ∧ p.reuses = none ∧ p.retires = none := by
    rw [← hp]
    split_ifs <;> exact ⟨rfl, hreuse, hretire⟩
  have hgoto : Orderly (s.goto t p) := by
    refine h.goto rfl rfl rfl rfl rfl (by rwa [hp'.1]) (by simp [hleft]) ?_ (by simp [hp'.2.2])
    intro f _
    rw [hp'.2.1, hkeep]
  have hkeeps : ∀ t' f, (s.goto t p).Keeps t' f → s.Keeps t' f := by
    intro t' f hf
    by_cases ht : t' = t
    · subst ht
      simp only [Sys.Keeps, Sys.goto, Function.update_self, hp'.2.1, reduceCtorEq, or_false] at hf
      exact .inl hf
    · simpa [Sys.Keeps, Sys.goto, ht] using hf
  refine hgoto.append (es.filter (·.task.isSome)) rfl rfl rfl rfl rfl ?_
  intro e he f hf
  obtain ⟨hrun, hnobody⟩ := hfits e (List.mem_of_mem_filter he) f hf
  exact ⟨hrun, fun t' ht' => hnobody t' (hkeeps t' f ht')⟩

/-- the fiber of the entry that the scan takes has not ended, and nobody keeps it -/
theorem Orderly.scan {s : Sys} (h : Orderly s) {t : ℕ} (hpc : s.pc t = .scan) : Orderly (s.work t) := by
  simp only [Sys.work, hpc]
  split
  case isFalse => exact h.congr rfl rfl rfl rfl rfl
  generalize hp : (if (Scheduler.scan s.state t s.fibers).tickleMe = true then
    Pc.tickle false (.dispatch (Scheduler.scan s.state t s.fibers).ft)
    else .dispatch (Scheduler.scan s.state t s.fibers).ft) = p
  have hp' : p.reuses = none ∧ p.retires = none ∧ ∀ f, p.hand = some f → ∃ e ∈ s.fibers, e.fiber = some f := by
    rw [← hp]
    refine ⟨by split_ifs <;> rfl, by split_ifs <;> rfl, ?_⟩
    intro f hf
    replace hf : (Pc.dispatch (Scheduler.scan s.state t s.fibers).ft).hand = some f := by
      split_ifs at hf <;> exact hf
    cases hft : (Scheduler.scan s.state t s.fibers).ft with
    | none => simp [hft, Pc.hand] at hf
    | some ft => exact ⟨ft, mem_of_scan_ft hft, by rw [hft] at hf; exact hf⟩
  obtain ⟨hreuse, hretire, hqueued⟩ := hp'
  refine h.move (t := t) (p := p) rfl (Function.update_eq_self t s.cbFiber).symm ?_ (by simp [hreuse])
  intro f
  have hf := h.good f
  by_cases hhand : p.hand = some f
  · obtain ⟨e, he, hef⟩ := hqueued f hhand
    obtain ⟨hrun, hnobody⟩ := hf.free_of_queued he hef
    refine Sys.Good.of_free ?_ hrun ?_ ?_
    · intro hterm
      rw [hf.ended_of_term hterm] at hrun
      cases hrun
    · intro t' hkeep
      refine hnobody t' (hkeep.imp_right fun hk => ?_)
      by_cases ht : t' = t
      · simp [Sys.goto, ht, hreuse] at hk
      · simpa [Sys.goto, ht] using hk
    · intro t' ht'
      by_cases ht : t' = t
      · simp [Sys.goto, ht, hretire] at ht'
      · have := hf.retires t' (by simpa [Sys.goto, ht] using ht')
        rw [hrun] at this
        cases this
  · exact hf.frame rfl (Function.update_eq_self t s.cbFiber).symm (fun e he _ => mem_of_scan he) rfl rfl
      (fun hp => absurd hp hhand) (fun hp => absurd hp hhand) (fun hp => absurd hp hhand)
      (fun hc => .inl (hc.resolve_right (by simp [hreuse]))) (by simp [hretire])

/-- a callback gets the fiber kept for it, or a new one -/
theorem Orderly.dispatch {s : Sys} (hk : Known s) (h : Orderly s) {t : ℕ} {ft : Option FiberAndThread}
    (hpc : s.pc t = .dispatch ft) : Orderly (s.work t) := by
  simp only [Sys.work, hpc]
  cases ft with
  | none =>
    dsimp only
    split_ifs
    · refine h.move rfl rfl ?_ (by simp [Pc.reuses])
      intro f
      exact (h.good f).frame rfl rfl (fun _ he _ => he) rfl rfl (by simp [Pc.hand]) (by simp [Pc.hand]) (by simp [Pc.hand])
        (by simp [Pc.reuses]) (by simp [Pc.retires])
    · exact h.leave rfl rfl rfl rfl rfl rfl
  | some ft =>
    obtain ⟨task, thread⟩ := ft
    rcases task with _ | f | n
    · exact h.leave rfl rfl rfl rfl rfl rfl
    · simp only [State.swappable_true, if_true]
      refine h.goto rfl rfl rfl rfl rfl ?_ (by simp [hpc, Pc.left]) (by simp [hpc, Pc.reuses]) (by simp [Pc.retires])
      rw [hpc]
      exact fun g hg => hg
    · dsimp only
      split
      · rename_i f hcb
        refine h.move rfl rfl ?_ (fun _ _ => rfl)
        intro g
        refine (h.good g).frame rfl rfl (fun _ he _ => he) rfl rfl ?_ (by simp [hpc, Pc.left]) (fun hp _ => hp) ?_
          (by simp [Pc.retires])
        · intro hg
          cases hg
          exact .inr hcb
        · intro hg
          rcases hg with hg | hg
          · cases hg
          · cases hg
            exact .inl hcb
      · refine h.move rfl (Function.update_eq_self t s.cbFiber).symm ?_ (by simp [Pc.reuses])
        intro g
        by_cases hg : g = s.fiberCount
        · subst hg
          obtain ⟨hinit, hrun⟩ := hk.fresh s.fiberCount le_rfl
          have hnew : ∀ t', ¬ s.Holds t' s.fiberCount := fun t' ht' => lt_irrefl _ (hk.held t' _ ht')
          have hterm : s.state s.fiberCount ≠ .term := by rw [hinit]; decide
          refine Sys.Good.of_free hterm hrun ?_ ?_
          · intro t' hkeep
            refine hnew t' (Sys.Keeps.holds (hkeep.imp_right fun hr => ?_))
            by_cases ht : t' = t
            · simp [Sys.goto, ht, Pc.reuses] at hr
            · simpa [Sys.goto, ht] using hr
          · intro t' ht'
            by_cases ht : t' = t
            · simp [Sys.goto, ht, Pc.retires] at ht'
            · exact hnew t' (.inl (Pc.hand_of_retires (by simpa [Sys.goto, ht] using ht')))
        · have hnot : (Pc.assertIn .cb s.fiberCount).hand ≠ some g := by
            intro hh
            cases hh
            exact hg rfl
          exact (h.good g).frame rfl (Function.update_eq_self t s.cbFiber).symm (fun _ he _ => he) rfl rfl
            (fun hp => absurd hp hnot) (fun hp => absurd hp hnot) (fun hp => absurd hp hnot)
            (fun hc => .inl (hc.resolve_right (by simp [Pc.reuses]))) (by simp [Pc.retires])

/-- a kept fiber goes to a callback, and one that has ended is kept -/
theorem Orderly.resetInit {s : Sys} (h : Orderly s) {t f : ℕ} {behind : Bool} (hpc : s.pc t = .resetInit behind f) :
    Orderly (s.work t) := by
  have hhand : (s.pc t).hand = some f := by rw [hpc]; rfl
  have hf := h.good f
  simp only [Sys.work, hpc]
  cases behind with
  | false =>
    have hreuse : (s.pc t).reuses = some f := by rw [hpc]; rfl
    have hcb := h.reuses t f hreuse
    obtain ⟨-, hrun, -, huniq, -⟩ := hf.ready t (.inr hreuse)
    simp only [Bool.false_eq_true, if_false]
    refine h.move rfl (Function.update_eq_self t s.cbFiber).symm ?_ (by simp [Pc.reuses])
    intro g
    by_cases hg : g = f
    · subst hg
      refine Sys.Good.of_free (by simp [Sys.goto, Sys.setState]) (by simp [Sys.goto]) ?_ ?_
      · intro t' hkeep
        by_cases ht : t' = t
        · simp [Sys.Keeps, Sys.goto, Sys.setState, ht, Pc.reuses, hcb] at hkeep
        · exact ht (huniq t' (by simpa [Sys.Keeps, Sys.goto, Sys.setState, ht] using hkeep))
      · intro t' ht'
        by_cases ht : t' = t
        · simp [Sys.goto, ht, Pc.retires] at ht'
        · have := hf.retires t' (by simpa [Sys.goto, Sys.setState, ht] using ht')
          rw [hrun] at this
          cases this
    · have hnot : (Pc.assertIn .cb f).hand ≠ some g := by
        intro hh
        cases hh
        exact hg rfl
      exact (h.good g).frame rfl (Function.update_eq_self t s.cbFiber).symm (fun _ he _ => he)
        (by simp [Sys.goto, Sys.setState, hg]) (by simp [Sys.goto, hg]) (fun hp => absurd hp hnot)
        (fun hp => absurd hp hnot) (fun hp => absurd hp hnot)
        (fun hc => .inl (hc.resolve_right (by simp [Pc.reuses]))) (by simp [Pc.retires])
  | true =>
    have hended : s.ended f = true := hf.retires t (by rw [hpc]; rfl)
    obtain ⟨-, hqueue, -, -, huniq⟩ := hf.gone hended
    simp only [if_true]
    refine h.move rfl rfl ?_ (by simp [Pc.reuses])
    intro g
    by_cases hg : g = f
    · subst hg
      have hother : ∀ t', t' ≠ t → (s.pc t').hand ≠ some g := fun t' ht hh => ht (huniq t' t hh hhand)
      have hkeeps : ∀ t', t' ≠ t → ¬ s.Keeps t' g := by
        intro t' _ hkeep
        have := (hf.ready t' hkeep).running
        rw [hended] at this
        cases this
      refine ⟨by simp [Sys.goto, Sys.setState], by simp [Sys.goto], ?_, ?_⟩
      · intro t1 h1
        have ht1 : t1 = t := by
          by_contra ht
          exact hkeeps t1 ht (by simpa [Sys.Keeps, Sys.goto, Sys.setState, ht] using h1)
        subst ht1
        refine ⟨by simp [Sys.goto, Sys.setState], by simp [Sys.goto], hqueue, ?_, ?_⟩
        · intro t2 h2
          by_contra ht
          exact hkeeps t2 ht (by simpa [Sys.Keeps, Sys.goto, Sys.setState, ht] using h2)
        · intro t2 h2
          by_cases ht : t2 = t1
          · simp [Sys.goto, ht, Pc.hand] at h2
          · exact absurd (by simpa [Sys.goto, Sys.setState, ht] using h2) (hother t2 ht)
      · intro t' ht'
        by_cases ht : t' = t
        · simp [Sys.goto, ht, Pc.retires] at ht'
        · refine absurd (Pc.hand_of_retires ?_) (hother t' ht)
          simpa [Sys.goto, Sys.setState, ht] using ht'
    · refine (h.good g).frame rfl rfl (fun _ he _ => he) (by simp [Sys.goto, Sys.setState, hg]) (by simp [Sys.goto, hg])
        (by simp [Pc.hand]) (by simp [Pc.hand]) (by simp [Pc.hand]) ?_ (by simp [Pc.retires])
      intro hc
      rcases hc with hc | hc
      · cases hc
        exact absurd rfl hg
      · cases hc

theorem work_orderly {s : Sys} (hk : Known s) (h : Orderly s) (t : ℕ) : Orderly (s.work t) := by
  have habort : Orderly s.abort := h.congr rfl rfl rfl rfl rfl
  cases hpc : s.pc t with
  | scan => exact h.scan hpc
  | dispatch ft => exact h.dispatch hk hpc
  | resetInit behind f => exact h.resetInit hpc
  | resetAssert behind f =>
    simp only [Sys.work, hpc]
    split_ifs
    · cases behind with
      | false =>
        refine h.goto rfl rfl rfl rfl rfl ?_ (by simp [hpc, Pc.left]) ?_ (by simp [Pc.retires]) <;> rw [hpc]
        · exact fun g hg => hg
        · exact fun g _ => rfl
      | true =>
        refine h.goto rfl rfl rfl rfl rfl ?_ ?_ ?_ fun g hg => (h.good g).retires t (by rw [hpc]; exact hg)
        · rw [hpc]
          exact fun g hg => hg
        · exact fun g hg _ _ => hg
        · rw [hpc]
          exact fun g _ => rfl
    · exact habort
  | setExec k f =>
    have hhand : (s.pc t).hand = some f := by rw [hpc]; rfl
    simp only [Sys.work, hpc]
    exact h.write hhand (by rw [hpc]; rfl) (by rw [hpc]; rfl) rfl rfl rfl rfl ⟨rfl, fun _ _ => rfl⟩ (by decide)
      (fun g hg => by cases hg; rfl) rfl rfl
  | setHold k f =>
    have hhand : (s.pc t).hand = some f := by rw [hpc]; rfl
    simp only [Sys.work, hpc]
    exact h.write hhand (by rw [hpc]; rfl) (by rw [hpc]; rfl) rfl rfl rfl rfl ⟨rfl, fun _ _ => rfl⟩ (by decide)
      (by simp [Pc.hand]) rfl rfl
  | requeue k f =>
    simp only [Sys.work, hpc]
    refine h.push ?_ (by simp [Pc.hand]) (by rw [hpc]; rfl) rfl (by rw [hpc]; rfl) rfl
    intro e he g hg
    rw [List.mem_singleton.1 he] at hg
    cases hg
    exact (h.good f).free_of_hand (t := t) (by rw [hpc]; rfl) (by rw [hpc]; rfl) (by rw [hpc]; rfl)
  | testReady k f =>
    simp only [Sys.work, hpc]
    refine h.goto rfl rfl rfl rfl rfl ?_ ?_ ?_ ?_
    · rw [hpc]
      intro g hg
      split_ifs at hg <;> exact hg
    · -- a fiber that has ended is in TERM, so it is not queued
      intro g hg hl hended
      rw [hpc] at hl
      cases hl
      rw [if_neg (by rw [((h.good f).gone hended).term]; decide)]
      rfl
    · intro g _
      rw [hpc]
      split_ifs <;> rfl
    · intro g hg
      split_ifs at hg <;> cases hg
  | testTerm k f =>
    simp only [Sys.work, hpc]
    split_ifs with hterm
    · have hended : s.ended f = true := (h.good f).ended_of_term (hterm.resolve_right (hk.noExcept f))
      cases k with
      | fiber =>
        exact h.leave rfl rfl rfl rfl rfl rfl
      | cb =>
        refine h.goto rfl rfl rfl rfl rfl ?_ ?_ (by simp [hpc, Pc.reuses]) ?_
        · rw [hpc]
          exact fun g hg => hg
        · exact fun g hg _ _ => hg
        · intro g hg
          cases hg
          exact hended
    · refine h.goto rfl rfl rfl rfl rfl ?_ ?_ (by simp [hpc, Pc.reuses]) (by simp [Pc.retires])
      · rw [hpc]
        exact fun g hg => hg
      · intro g hg _ hended
        cases hg
        exact absurd (.inl ((h.good f).gone hended).term) hterm
  | assertIn k f =>
    simp only [Sys.work, hpc]
    split_ifs
    · exact habort
    · refine h.goto rfl rfl rfl rfl rfl ?_ (by simp [hpc, Pc.left]) (by simp [hpc, Pc.reuses]) (by simp [Pc.retires])
      rw [hpc]
      exact fun g hg => hg
  | running k f =>
    simp only [Sys.work, hpc]
    split_ifs
    · exact habort
    · exact h
  | switchIn k f =>
    simp only [Sys.work, hpc]
    refine h.goto rfl rfl rfl rfl rfl ?_ (by simp [hpc, Pc.left]) (by simp [hpc, Pc.reuses]) (by simp [Pc.retires])
    rw [hpc]
    exact fun g hg => hg
  | leaving k f | post k f =>
    simp only [Sys.work, hpc]
    refine h.goto rfl rfl rfl rfl rfl ?_ (fun g hg _ _ => hg) (by simp [hpc, Pc.reuses]) (by simp [Pc.retires])
    rw [hpc]
    exact fun g hg => hg
  | tickle pushed back =>
    simp only [Sys.work, hpc]
    refine h.goto rfl rfl rfl rfl rfl ?_ (by simp [hpc, Pc.left]) ?_ fun g hg => (h.good g).retires t ?_
    · rw [hpc]
      intro g hg
      split_ifs at hg <;> exact hg
    · rw [hpc]
      intro g _
      split_ifs <;> rfl
    · rw [hpc]
      split_ifs at hg <;> exact hg
  | write pushed back =>
    simp only [Sys.work, hpc]
    refine h.goto rfl rfl rfl rfl rfl ?_ (by simp [hpc, Pc.left]) ?_ fun g hg => (h.good g).retires t (by rw [hpc]; exact hg)
    · rw [hpc]
      exact fun g hg => hg
    · rw [hpc]
      exact fun g _ => rfl
  | off | out | release | idleTop | blocked | woken =>
    simp only [Sys.work, hpc]
    exact h
  | idleIn | idleHold =>
    simp only [Sys.work, hpc]
    split_ifs
    all_goals first
      | exact habort
      | exact h.leave rfl rfl rfl rfl rfl rfl
  | idleOut =>
    simp only [Sys.work, hpc]
    exact h.leave rfl rfl rfl rfl rfl rfl

theorem Orderly.yield {s : Sys} (h : Orderly s) (t : ℕ) {x : State} (hx : x ≠ .term) :
    Orderly (s.swapOut t x false) := by
  unfold Sys.swapOut
  split
  · rename_i k f hpc
    split_ifs with hended
    · exact h
    · have hhand : (s.pc t).hand = some f := by rw [hpc]; rfl
      refine h.write hhand (by rw [hpc]; rfl) (by rw [hpc]; rfl) rfl rfl rfl rfl ?_ hx (fun g hg => by cases hg; rfl) rfl rfl
      exact ⟨by simpa using hended, fun g hg => by simp [hg]⟩
  · exact h

/-- a fiber ends that is not queued and that no other thread has -/
theorem Orderly.finish {s : Sys} (hk : Known s) (h : Orderly s) {t : ℕ} (hfits : s.EndFits t) :
    Orderly (s.swapOut t .term true) := by
  unfold Sys.swapOut
  split
  · rename_i k f hpc
    split_ifs
    · exact h
    have hhand : (s.pc t).hand = some f := by rw [hpc]; rfl
    obtain ⟨hqueue, hothers⟩ := hfits f (by rw [hpc]; rfl)
    obtain ⟨hrun, hnobody⟩ := (h.good f).free_of_hand hhand (by rw [hpc]; rfl) (by rw [hpc]; rfl)
    have halone : ∀ t', t' ≠ t → ¬ s.Holds t' f := by
      intro t' ht hheld
      by_cases hmem : t' ∈ s.threads
      · exact hothers t' hmem ht hheld
      · obtain ⟨hoff, hcb⟩ := hk.off t' hmem
        simp [Sys.Holds, hoff, hcb, Pc.hand] at hheld
    have hcb : s.cbFiber = Function.update s.cbFiber t (s.cbFiber t) := (Function.update_eq_self t s.cbFiber).symm
    refine h.move (t := t) (p := .leaving k f) rfl hcb ?_ (by simp [Pc.reuses])
    intro g
    by_cases hg : g = f
    · subst hg
      have hkeeps : ∀ t', ¬ (s.goto t (.leaving k g)).Keeps t' g := by
        intro t' hkeep
        by_cases ht : t' = t
        · simp only [Sys.Keeps, Sys.goto, ht, Function.update_self, Pc.reuses, reduceCtorEq, or_false] at hkeep
          exact hnobody t (.inl hkeep)
        · exact hnobody t' (by simpa [Sys.Keeps, Sys.goto, ht] using hkeep)
      refine ⟨by simp [Sys.goto], fun _ => ⟨by simp [Sys.goto, Sys.setState], hqueue, ?_, ?_, ?_⟩,
        fun t' hkeep => absurd hkeep (hkeeps t'), fun _ _ => by simp⟩
      · intro t' ht'
        by_cases ht : t' = t
        · simp [Sys.goto, ht, Pc.left]
        · exact absurd (.inl (by simpa [Sys.goto, Sys.setState, ht] using ht')) (halone t' ht)
      · exact fun t' ht' => hnobody t' (.inl ht')
      · have heq : ∀ t', (Function.update s.pc t (.leaving k g) t').hand = some g → t' = t := by
          intro t' ht'
          by_contra ht
          exact halone t' ht (.inl (by simpa [ht] using ht'))
        exact fun t1 t2 h1 h2 => (heq t1 h1).trans (heq t2 h2).symm
    · have hnot : (Pc.leaving k f).hand ≠ some g := by
        intro hh
        cases hh
        exact hg rfl
      exact (h.good g).frame rfl hcb (fun _ he _ => he) (by simp [Sys.goto, Sys.setState, hg]) (by simp [hg])
        (fun hp => absurd hp hnot) (fun hp => absurd hp hnot) (fun hp => absurd hp hnot)
        (fun hc => .inl (hc.resolve_right (by simp [Pc.reuses]))) (by simp [Pc.retires])
  · exact h

theorem step_orderly (s : Sys) (o : Op) (hk : Known s) (h : Orderly s) (hfits : Returns s o) : Orderly (step s o) := by
  unfold step
  split_ifs
  · exact h
  cases o with
  | newFiber => exact h.congr rfl rfl rfl rfl rfl
  | drain t =>
    dsimp only
    split_ifs
    · exact h.congr rfl rfl rfl rfl rfl
    · exact h
  | work t => exact work_orderly hk h t
  | schedule t es =>
    dsimp only
    split_ifs with hcall
    · have hcalls : (s.pc t).left = none ∧ (s.pc t).reuses = none ∧ (s.pc t).retires = none := by
        have := hcall.1
        unfold Sys.calls at this
        split at this <;> simp_all [Pc.left, Pc.reuses, Pc.retires]
      refine h.push ?_ (fun _ => id) hcalls.1 hcalls.2.1 hcalls.2.1 hcalls.2.2
      intro e he f hf
      obtain ⟨hrun, hnobody⟩ := hfits e he f hf
      refine ⟨hrun, ?_⟩
      intro t' hkeep
      by_cases hmem : t' ∈ s.threads
      · exact hnobody t' hmem hkeep
      · obtain ⟨hoff, hcb⟩ := hk.off t' hmem
        simp [Sys.Keeps, hoff, hcb, Pc.reuses] at hkeep
    · exact h
  | yieldToHold t | yieldToReady t => exact h.yield t (by decide)
  | finish t => exact h.finish hk hfits
  | throw t =>
    -- no fiber runs there
    dsimp only
    unfold Sys.swapOut
    split
    · rename_i k f hpc
      have hnone : (s.pc t).runs = none := hfits
      rw [hpc] at hnone
      cases hnone
    · exact h
  | release t last =>
    dsimp only
    split
    · split_ifs
      · exact h.congr rfl rfl rfl rfl rfl
      · exact h.leave rfl rfl rfl rfl rfl rfl
    · exact h
  | stop t n =>
    dsimp only
    split_ifs
    · refine h.goto rfl rfl rfl rfl rfl ?_ ?_ ?_ ?_ <;>
        simp [iterate_tickle (φ := Pc.hand) (fun _ => rfl), iterate_tickle (φ := Pc.retires) (fun _ => rfl), Pc.hand,
          Pc.retires]
    · exact h
  | timerAtFront t =>
    dsimp only
    split_ifs with hcalls
    · refine h.goto rfl rfl rfl rfl rfl (fun f hf => hf) ?_ (fun _ _ => rfl) fun f hf => (h.good f).retires t hf
      intro f hf hl
      unfold Sys.calls at hcalls
      split at hcalls <;> simp_all [Pc.left]
    · exact h
  | spawn t | enter t | epollWait t quiet | wake t | leaveIdle t =>
    dsimp only
    split_ifs
    all_goals first
      | exact h
      | exact h.leave rfl rfl rfl rfl rfl rfl

/-! ## The way to the next scan -/

/-- behind a fiber that is finished, a step of the thread alone brings it on -/
theorem advance_left {s : Sys} {t f : ℕ} (hlive : s.aborted = false) (hf : (s.pc t).left = some f)
    (hdone : s.state f = .term ∨ s.state f = .except) (last : Bool) :
    (s.advance t last).aborted = false ∧ ((s.advance t last).pc t).remaining < (s.pc t).remaining ∧
      ((s.advance t last).pc t = .scan ∨
        ((s.advance t last).pc t).left = some f ∧ (s.advance t last).state f = s.state f) := by
  have hreset : (s.state f).resettable = true := by
    rcases hdone with h | h <;> rw [h] <;> rfl
  have hready : s.state f ≠ .ready := by
    rcases hdone with h | h <;> rw [h] <;> decide
  cases hpc : s.pc t with
  | leaving k g | post k g =>
    rw [hpc] at hf
    cases hf
    simp [Sys.advance, step, Sys.work, hpc, hlive, Sys.goto, Pc.remaining, Pc.left]
  | testReady k g =>
    rw [hpc] at hf
    cases hf
    simp [Sys.advance, step, Sys.work, hpc, hlive, hready, Sys.goto, Pc.remaining, Pc.left]
  | testTerm k g =>
    rw [hpc] at hf
    cases hf
    cases k <;> simp [Sys.advance, step, Sys.work, hpc, hlive, hdone, Sys.goto, Pc.remaining, Pc.left]
  | resetAssert b g =>
    rw [hpc] at hf
    cases b with
    | false => cases hf
    | true =>
      cases hf
      simp [Sys.advance, step, Sys.work, hpc, hlive, hreset, Sys.goto, Pc.remaining, Pc.left]
  | resetInit b g =>
    rw [hpc] at hf
    cases b with
    | false => cases hf
    | true =>
      cases hf
      simp [Sys.advance, step, Sys.work, hpc, hlive, Sys.goto, Sys.setState, Pc.remaining]
  | release k g =>
    rw [hpc] at hf
    cases hf
    simp [Sys.advance, step, hpc, hlive, hreset, Sys.goto, Pc.remaining]
  | _ =>
    rw [hpc] at hf
    cases hf

/-- from any point behind a fiber that is finished, the thread alone reaches its next scan -/
theorem goes_on {s : Sys} {t f : ℕ} (hlive : s.aborted = false) (hf : (s.pc t).left = some f)
    (hdone : s.state f = .term ∨ s.state f = .except) (last : Bool) :
    ∃ n, ((Sys.advance · t last)^[n] s).pc t = .scan ∧ ((Sys.advance · t last)^[n] s).aborted = false := by
  induction hm : (s.pc t).remaining using Nat.strong_induction_on generalizing s with
  | _ m ih =>
    obtain ⟨hlive', hless, hscan | ⟨hleft, hstate⟩⟩ := advance_left hlive hf hdone last
    · exact ⟨1, hscan, hlive'⟩
    · obtain ⟨n, hn⟩ := ih _ (hm ▸ hless) hlive' hleft (by rwa [hstate]) rfl
      exact ⟨n + 1, hn⟩

/-! ## Main results -/

/-- the tasks that have ended leave their workers as they should: the fiber is in TERM or EXCEPT, it is neither queued nor
set to HOLD, the assertions of reset and of the destructor hold, and the worker that comes back from it reaches its scan -/
structure Undamaged (s : Sys) : Prop where
  ended : ∀ f, s.ended f = true → (s.state f = .term ∨ s.state f = .except) ∧ (∀ e ∈ s.fibers, e.fiber ≠ some f) ∧
    ∀ t k, s.pc t ≠ .requeue k f ∧ s.pc t ≠ .setHold k f
  reset : ∀ t behind f, s.pc t = .resetAssert behind f → (s.state f).resettable = true
  dropped : ∀ t k f, s.pc t = .release k f → s.ended f = true → (s.state f).resettable = true
  goesOn : s.aborted = false → ∀ t f last, (s.pc t).left = some f → s.ended f = true →
    ∃ n, ((Sys.advance · t last)^[n] s).pc t = .scan ∧ ((Sys.advance · t last)^[n] s).aborted = false

theorem Orderly.undamaged {s : Sys} (h : Orderly s) : Undamaged s := by
  have hterm : ∀ f, s.ended f = true → s.state f = .term := fun f hf => ((h.good f).gone hf).term
  refine ⟨?_, ?_, ?_, ?_⟩
  · intro f hf
    have hgone := (h.good f).gone hf
    refine ⟨.inl hgone.term, hgone.queue, ?_⟩
    intro t k
    constructor
    all_goals
      intro hpc
      have := hgone.left t (by rw [hpc]; rfl)
      rw [hpc] at this
      cases this
  · intro t behind f hpc
    cases behind with
    | false =>
      have hkeep : s.Keeps t f := .inr (by rw [hpc]; rfl)
      rw [((h.good f).ready t hkeep).init]
      rfl
    | true =>
      rw [hterm f ((h.good f).retires t (by rw [hpc]; rfl))]
      rfl
  · intro t k f _ hf
    rw [hterm f hf]
    rfl
  · intro hlive t f last hleft hf
    exact goes_on hlive hleft (.inl (hterm f hf)) last

/-- **Tasks do no damage.** In every run in which no function throws, fibers end that are not queued and that no other
thread has, and `schedule` is called with fibers that have not ended and that no thread keeps for its callbacks, the
workers are left as they should be in every state of the run. -/
theorem tasks_do_no_damage (ops : List Op) (h : Guarded step Returns init ops) :
    ∀ pre, pre <+: ops → Undamaged (run step init pre) := by
  intro pre hpre
  obtain ⟨-, horderly⟩ := states_inv_both step_known step_orderly known_init orderly_init h pre hpre
  exact horderly.undamaged

/-- a callback is scheduled, and worker 1 swaps a fiber in for it -/
def callbackTrace : List Op :=
  [.spawn 0, .schedule 0 [⟨some (.cb 7), -1⟩], .work 0, .spawn 1, .enter 1, .work 1, .work 1, .work 1, .work 1, .work 1]

/-- the callback yields, worker 1 lets its fiber go, and it runs to its end when it is scheduled again -/
def returnTrace : List Op :=
  callbackTrace ++ ([.yieldToHold 1, .work 1, .work 1, .work 1, .work 1, .work 1, .release 1 false,
    .schedule 0 [⟨some (.fiber 0), -1⟩], .work 0, .work 1, .work 1, .work 1, .work 1, .work 1, .finish 1, .work 1] : List Op)

theorem tasks_do_no_damage_example :
    (run step init returnTrace).pc 1 = .post .fiber 0 ∧ (run step init returnTrace).ended 0 = true ∧
      ∀ pre, pre <+: returnTrace → Undamaged (run step init pre) :=
  ⟨by decide, by decide, tasks_do_no_damage returnTrace (by decide)⟩

/-- the callback throws -/
def throwTrace : List Op := callbackTrace ++ ([.throw 1, .work 1, .work 1, .work 1, .work 1, .work 1] : List Op)

/-- **A throwing task ends the program.** It comes back in EXEC and is set to HOLD, and the destructor of its fiber, to
which `cb_fiber` was the last pointer, fails its assertion. -/
theorem throw_ends_the_program :
    let s := run step init throwTrace
    ¬ Undamaged s ∧ (run step init (throwTrace.take 12)).pc 1 = .post .cb 0 ∧
      (run step init (throwTrace.take 12)).state 0 = .exec ∧ s.pc 1 = .release .cb 0 ∧ s.state 0 = .hold ∧
      (step s (.release 1 true)).aborted = true := by
  have hended : (run step init throwTrace).ended 0 = true := by decide
  have hhold : (run step init throwTrace).state 0 = .hold := by decide
  refine ⟨?_, by decide, by decide, by decide, hhold, by decide⟩
  intro h
  rcases (h.ended 0 hended).1 with hstate | hstate <;> rw [hhold] at hstate <;> cases hstate

end Sylar.Scheduler

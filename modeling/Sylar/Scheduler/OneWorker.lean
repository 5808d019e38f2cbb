/-
A fiber is never on two workers.

`run` takes no entry whose fiber is in EXEC, and it tests nothing else. The state leaves EXEC before the context is
saved, and it becomes EXEC only some steps after the entry was taken, so the test alone does not keep a second entry of
the fiber away from the other workers.

Results:
- `step_exclusive`: a fiber has one thread that holds it, and the entries of a fiber that is held are out of reach of the
  other threads;
- `fiber_on_one_worker`: while a worker is on the stack of a fiber no other worker has taken it, over all interleavings
  in which no call of `schedule` and no yield puts a fiber within reach of two workers;
- `fiber_on_two_workers`: a fiber is scheduled while it runs and yields, and a second worker swaps it in before its
  context is saved.
-/
import Sylar.Scheduler.Model

namespace Sylar.Scheduler

open Sylar.Run

/-! ## Holding a fiber -/

/-- the fiber that a thread has taken and still works on -/
def Pc.hand : Pc → Option ℕ
  | .dispatch (some ft) => ft.fiber
  | .resetAssert _ f | .resetInit _ f | .assertIn _ f | .setExec _ f | .switchIn _ f | .running _ f | .leaving _ f
  | .post _ f | .testReady _ f | .requeue _ f | .testTerm _ f | .setHold _ f => some f
  | .tickle _ back | .write _ back => back.hand
  | _ => none

/-- the fiber whose stack a thread is on: swapped in, and the context not saved yet -/
def Pc.stack : Pc → Option ℕ
  | .running _ f | .leaving _ f => some f
  | .tickle _ back | .write _ back => back.stack
  | _ => none

/-- the fiber that a thread is going to queue again if it is in READY -/
def Pc.outgoing : Pc → Option ℕ
  | .leaving _ f | .post _ f | .testReady _ f | .requeue _ f => some f
  | .tickle _ back | .write _ back => back.outgoing
  | _ => none

/-- the fiber that a thread has found resettable -/
def Pc.resetting : Pc → Option ℕ
  | .resetInit _ f => some f
  | .tickle _ back | .write _ back => back.resetting
  | _ => none

/-- the fiber that a thread has found READY -/
def Pc.requeueing : Pc → Option ℕ
  | .requeue _ f => some f
  | .tickle _ back | .write _ back => back.requeueing
  | _ => none

theorem Pc.hand_of_stack {p : Pc} {f : ℕ} (h : p.stack = some f) : p.hand = some f := by
  induction p with
  | tickle _ _ ih | write _ _ ih => exact ih h
  | running | leaving => exact h
  | _ => cases h

theorem Pc.hand_of_outgoing {p : Pc} {f : ℕ} (h : p.outgoing = some f) : p.hand = some f := by
  induction p with
  | tickle _ _ ih | write _ _ ih => exact ih h
  | leaving | post | testReady | requeue => exact h
  | _ => cases h

theorem Pc.hand_of_resetting {p : Pc} {f : ℕ} (h : p.resetting = some f) : p.hand = some f := by
  induction p with
  | tickle _ _ ih | write _ _ ih => exact ih h
  | resetInit => exact h
  | _ => cases h

theorem Pc.hand_of_requeueing {p : Pc} {f : ℕ} (h : p.requeueing = some f) : p.hand = some f := by
  induction p with
  | tickle _ _ ih | write _ _ ih => exact ih h
  | requeue => exact h
  | _ => cases h

/-- thread `t` has the fiber in its hands or keeps it as `cb_fiber` -/
def Sys.Holds (s : Sys) (t f : ℕ) : Prop := (s.pc t).hand = some f ∨ s.cbFiber t = some f

/-- no thread but `t` can take an entry of `f` that is for thread `thread` -/
def Sys.OutOfReach (s : Sys) (t f : ℕ) (thread : ℤ) : Prop :=
  thread = t ∨ s.state f = .exec ∧ s.cbFiber t ≠ some f

/-- the entries are not of one fiber, or for one thread only -/
def Apart (a b : FiberAndThread) : Prop :=
  a.fiber = none ∨ a.fiber ≠ b.fiber ∨ a.thread = b.thread ∧ a.thread ≠ -1

/-- the condition on `schedule`: two entries of a fiber are for one thread, and a fiber that is held is only queued while
it executes, or for its own thread when that does not queue it as well -/
def Sys.ScheduleFits (s : Sys) (es : List FiberAndThread) : Prop :=
  (s.fibers ++ es).Pairwise Apart ∧ ∀ e ∈ es, ∀ f ∈ e.fiber, ∀ t ∈ s.threads, s.Holds t f →
    s.OutOfReach t f e.thread ∧ ¬ ((s.pc t).outgoing = some f ∧ s.state f = .ready)

/-- the condition on YieldToHold and on the end of a fiber: it is not queued for another thread -/
def Sys.HoldFits (s : Sys) (t : ℕ) : Prop :=
  ∀ f ∈ (s.pc t).stack, ∀ e ∈ s.fibers, e.fiber = some f → e.thread = t

/-- the condition on YieldToReady: the fiber is not queued, and not kept as `cb_fiber` -/
def Sys.ReadyFits (s : Sys) (t : ℕ) : Prop :=
  ∀ f ∈ (s.pc t).stack, s.cbFiber t ≠ some f ∧ ∀ e ∈ s.fibers, e.fiber ≠ some f

/-- the condition of a run, on what the functions of the fibers and other threads do -/
def Unreached (s : Sys) : Op → Prop
  | .schedule _ es => s.ScheduleFits es
  | .yieldToHold t | .finish t => s.HoldFits t
  | .yieldToReady t => s.ReadyFits t
  | _ => True

instance (s : Sys) (t f : ℕ) : Decidable (s.Holds t f) := inferInstanceAs (Decidable (_ ∨ _))

instance (s : Sys) (t f : ℕ) (thread : ℤ) : Decidable (s.OutOfReach t f thread) := inferInstanceAs (Decidable (_ ∨ _))

instance (a b : FiberAndThread) : Decidable (Apart a b) := inferInstanceAs (Decidable (_ ∨ _))

instance (s : Sys) (es : List FiberAndThread) : Decidable (s.ScheduleFits es) := inferInstanceAs (Decidable (_ ∧ _))

instance (s : Sys) (t : ℕ) : Decidable (s.HoldFits t) := inferInstanceAs (Decidable (∀ f ∈ (s.pc t).stack, _))

instance (s : Sys) (t : ℕ) : Decidable (s.ReadyFits t) := inferInstanceAs (Decidable (∀ f ∈ (s.pc t).stack, _))

instance (s : Sys) : ∀ o, Decidable (Unreached s o)
  | .schedule _ es => inferInstanceAs (Decidable (s.ScheduleFits es))
  | .yieldToHold t | .finish t => inferInstanceAs (Decidable (s.HoldFits t))
  | .yieldToReady t => inferInstanceAs (Decidable (s.ReadyFits t))
  | .spawn _ | .enter _ | .newFiber | .work _ | .throw _ | .release _ _ | .epollWait _ _ | .wake _ | .drain _
  | .leaveIdle _ | .stop _ _ | .timerAtFront _ => isTrue trivial

/-! ## The invariant -/

structure Exclusive (s : Sys) : Prop where
  off : ∀ t, t ∉ s.threads → s.pc t = .off ∧ s.cbFiber t = none
  known : ∀ t f, s.Holds t f → f < s.fiberCount
  queueKnown : ∀ e ∈ s.fibers, ∀ f, e.fiber = some f → f < s.fiberCount
  unique : ∀ t t' f, s.Holds t f → s.Holds t' f → t = t'
  apart : s.fibers.Pairwise Apart
  queued : ∀ e ∈ s.fibers, ∀ t f, e.fiber = some f → s.Holds t f → s.OutOfReach t f e.thread
  outgoing : ∀ t f, (s.pc t).outgoing = some f → s.state f = .ready →
    s.cbFiber t ≠ some f ∧ ∀ e ∈ s.fibers, e.fiber ≠ some f
  resets : ∀ t f, (s.pc t).resetting = some f → s.state f ≠ .exec
  requeues : ∀ t f, (s.pc t).requeueing = some f → s.state f = .ready

theorem exclusive_init : Exclusive init := by
  refine ⟨fun _ _ => ⟨rfl, rfl⟩, ?_, ?_, ?_, List.Pairwise.nil, ?_, ?_, ?_, ?_⟩ <;>
    simp [init, Sys.Holds, Pc.hand, Pc.outgoing, Pc.resetting, Pc.requeueing]

theorem Exclusive.mem_threads {s : Sys} (h : Exclusive s) {t f : ℕ} (ht : s.Holds t f) : t ∈ s.threads := by
  by_contra hnot
  obtain ⟨hpc, hcb⟩ := h.off t hnot
  simp [Sys.Holds, hpc, hcb, Pc.hand] at ht

theorem Exclusive.stays {s : Sys} (h : Exclusive s) {t : ℕ} (ht : s.pc t ≠ .off) (t' : ℕ) (hnot : t' ∉ s.threads) :
    t' ≠ t ∧ t' ∉ s.threads :=
  others_stay (fun t hout => (h.off t hout).1) ht t' hnot

/-- an entry of the fiber that a thread keeps as `cb_fiber` is for that thread -/
theorem Exclusive.thread_of_kept {s : Sys} (h : Exclusive s) {t f : ℕ} (hcb : s.cbFiber t = some f) {e : FiberAndThread}
    (he : e ∈ s.fibers) (hf : e.fiber = some f) : e.thread = t := by
  rcases h.queued e he t f hf (.inr hcb) with hthread | ⟨-, hne⟩
  · exact hthread
  · exact absurd hcb hne

/-- entries are appended that the threads holding their fibers keep out of reach -/
theorem Exclusive.append {s s' : Sys} (h : Exclusive s) {l : List FiberAndThread} (hthreads : s'.threads = s.threads)
    (hpc : s'.pc = s.pc) (hcb : s'.cbFiber = s.cbFiber) (hcount : s.fiberCount ≤ s'.fiberCount)
    (hqueue : s'.fibers = s.fibers ++ l) (hstate : s'.state = s.state)
    (hknown : ∀ e ∈ l, ∀ f, e.fiber = some f → f < s.fiberCount) (hapart : (s.fibers ++ l).Pairwise Apart)
    (hfits : ∀ e ∈ l, ∀ f, e.fiber = some f → ∀ t, s.Holds t f →
      s.OutOfReach t f e.thread ∧ ¬ ((s.pc t).outgoing = some f ∧ s.state f = .ready)) : Exclusive s' := by
  have hholds : ∀ t f, s'.Holds t f ↔ s.Holds t f := by
    intro t f
    rw [Sys.Holds, Sys.Holds, hpc, hcb]
  refine ⟨by rw [hthreads, hpc, hcb]; exact h.off, ?_, ?_, ?_, by rw [hqueue]; exact hapart, ?_, ?_, ?_, ?_⟩
  · intro t f hf
    exact (h.known t f ((hholds t f).1 hf)).trans_le hcount
  · intro e he f hf
    rw [hqueue, List.mem_append] at he
    refine lt_of_lt_of_le ?_ hcount
    exact he.elim (fun he => h.queueKnown e he f hf) (fun he => hknown e he f hf)
  · intro t t' f hf hf'
    exact h.unique t t' f ((hholds t f).1 hf) ((hholds t' f).1 hf')
  · intro e he t f hf hf'
    rw [Sys.OutOfReach, hstate, hcb]
    rw [hqueue, List.mem_append] at he
    rcases he with he | he
    · exact h.queued e he t f hf ((hholds t f).1 hf')
    · exact (hfits e he f hf t ((hholds t f).1 hf')).1
  · intro t f hf hready
    rw [hpc] at hf
    rw [hstate] at hready
    obtain ⟨hne, hnone⟩ := h.outgoing t f hf hready
    rw [hcb, hqueue]
    refine ⟨hne, ?_⟩
    intro e he hef
    rcases List.mem_append.1 he with he | he
    · exact hnone e he hef
    · exact (hfits e he f hef t (.inl (Pc.hand_of_outgoing hf))).2 ⟨hf, hready⟩
  · rw [hpc, hstate]
    exact h.resets
  · rw [hpc, hstate]
    exact h.requeues

theorem Exclusive.congr {s s' : Sys} (h : Exclusive s) (hthreads : s'.threads = s.threads) (hpc : s'.pc = s.pc)
    (hcb : s'.cbFiber = s.cbFiber) (hcount : s.fiberCount ≤ s'.fiberCount) (hqueue : s'.fibers = s.fibers)
    (hstate : s'.state = s.state) : Exclusive s' := by
  apply h.append hthreads hpc hcb hcount (l := []) (by rw [hqueue, List.append_nil]) hstate
  · simp
  · rw [List.append_nil]
    exact h.apart
  · simp

/-- thread `t` moves, writes the state of fibers it holds, and takes entries out of the queue -/
theorem Exclusive.move {s s' : Sys} (h : Exclusive s) {t : ℕ} {p : Pc} {c : Option ℕ}
    (hthreads : ∀ t', t' ∉ s'.threads → t' ≠ t ∧ t' ∉ s.threads) (hpc : s'.pc = Function.update s.pc t p)
    (hcb : s'.cbFiber = Function.update s.cbFiber t c) (hcount : s.fiberCount ≤ s'.fiberCount)
    (hqueue : s'.fibers.Sublist s.fibers) (hstate : ∀ g, ¬ s.Holds t g → s'.state g = s.state g)
    (hholds : ∀ g, s'.Holds t g → g < s'.fiberCount ∧ ∀ t', s.Holds t' g → t' = t)
    (hqueued : ∀ e ∈ s'.fibers, ∀ g, e.fiber = some g → s'.Holds t g → s'.OutOfReach t g e.thread)
    (hout : ∀ g, p.outgoing = some g → s'.state g = .ready → c ≠ some g ∧ ∀ e ∈ s'.fibers, e.fiber ≠ some g)
    (hreset : ∀ g, p.resetting = some g → s'.state g ≠ .exec)
    (hreq : ∀ g, p.requeueing = some g → s'.state g = .ready) : Exclusive s' := by
  have hpc' : ∀ t', t' ≠ t → s'.pc t' = s.pc t' := by
    intro t' hne
    rw [hpc, Function.update_of_ne hne]
  have hcb' : ∀ t', t' ≠ t → s'.cbFiber t' = s.cbFiber t' := by
    intro t' hne
    rw [hcb, Function.update_of_ne hne]
  have hother : ∀ t' g, t' ≠ t → s'.Holds t' g → s.Holds t' g := by
    intro t' g hne hg
    unfold Sys.Holds at hg ⊢
    rwa [hpc' t' hne, hcb' t' hne] at hg
  -- what another thread holds, this one does not write
  have hkeep : ∀ t' g, t' ≠ t → s.Holds t' g → s'.state g = s.state g := by
    intro t' g hne hg
    apply hstate
    intro hg'
    exact hne (h.unique t' t g hg hg')
  refine ⟨?_, ?_, ?_, ?_, h.apart.sublist hqueue, ?_, ?_, ?_, ?_⟩
  · intro t' hnot
    obtain ⟨hne, hnot⟩ := hthreads t' hnot
    rw [hpc' t' hne, hcb' t' hne]
    exact h.off t' hnot
  · intro t' g hg
    by_cases hne : t' = t
    · subst hne
      exact (hholds g hg).1
    · exact (h.known t' g (hother t' g hne hg)).trans_le hcount
  · intro e he g hg
    exact (h.queueKnown e (hqueue.subset he) g hg).trans_le hcount
  · intro t1 t2 g h1 h2
    by_cases hne1 : t1 = t <;> by_cases hne2 : t2 = t
    · rw [hne1, hne2]
    · rw [hne1] at h1 ⊢
      exact ((hholds g h1).2 t2 (hother t2 g hne2 h2)).symm
    · rw [hne2] at h2 ⊢
      exact (hholds g h2).2 t1 (hother t1 g hne1 h1)
    · exact h.unique t1 t2 g (hother t1 g hne1 h1) (hother t2 g hne2 h2)
  · intro e he t' g hg hg'
    by_cases hne : t' = t
    · subst hne
      exact hqueued e he g hg hg'
    · have hold := hother t' g hne hg'
      have := h.queued e (hqueue.subset he) t' g hg hold
      unfold Sys.OutOfReach at this ⊢
      rwa [hkeep t' g hne hold, hcb' t' hne]
  · intro t' g hg hready
    by_cases hne : t' = t
    · subst hne
      rw [hpc, Function.update_self] at hg
      rw [hcb, Function.update_self]
      exact hout g hg hready
    · rw [hpc' t' hne] at hg
      rw [hkeep t' g hne (.inl (Pc.hand_of_outgoing hg))] at hready
      rw [hcb' t' hne]
      obtain ⟨hcb', hnone⟩ := h.outgoing t' g hg hready
      exact ⟨hcb', fun e he => hnone e (hqueue.subset he)⟩
  · intro t' g hg
    by_cases hne : t' = t
    · subst hne
      rw [hpc, Function.update_self] at hg
      exact hreset g hg
    · rw [hpc' t' hne] at hg
      rw [hkeep t' g hne (.inl (Pc.hand_of_resetting hg))]
      exact h.resets t' g hg
  · intro t' g hg
    by_cases hne : t' = t
    · subst hne
      rw [hpc, Function.update_self] at hg
      exact hreq g hg
    · rw [hpc' t' hne] at hg
      rw [hkeep t' g hne (.inl (Pc.hand_of_requeueing hg))]
      exact h.requeues t' g hg

/-- thread `t` moves and holds nothing new -/
theorem Exclusive.goto {s s' : Sys} (h : Exclusive s) {t : ℕ} {p : Pc}
    (hthreads : ∀ t', t' ∉ s'.threads → t' ≠ t ∧ t' ∉ s.threads) (hpc : s'.pc = Function.update s.pc t p)
    (hcb : s'.cbFiber = s.cbFiber) (hcount : s.fiberCount ≤ s'.fiberCount) (hqueue : s'.fibers = s.fibers)
    (hstate : s'.state = s.state)
    (hhand : ∀ g, p.hand = some g → (s.pc t).hand = some g)
    (hout : ∀ g, p.outgoing = some g → (s.pc t).outgoing = some g)
    (hreset : ∀ g, p.resetting = some g → s.state g ≠ .exec)
    (hreq : ∀ g, p.requeueing = some g → s.state g = .ready) : Exclusive s' := by
  have hholds : ∀ g, s'.Holds t g → s.Holds t g := by
    intro g hg
    unfold Sys.Holds at hg ⊢
    rw [hpc, Function.update_self, hcb] at hg
    exact hg.imp_left (hhand g)
  refine h.move hthreads hpc (c := s.cbFiber t) (by rw [hcb, Function.update_eq_self]) hcount
    (by rw [hqueue]) (fun g _ => by rw [hstate]) ?_ ?_ ?_ (by rwa [hstate]) (by rwa [hstate])
  · intro g hg
    have hold := hholds g hg
    exact ⟨(h.known t g hold).trans_le hcount, fun t' ht' => h.unique t' t g ht' hold⟩
  · intro e he g hg hg'
    rw [hqueue] at he
    have := h.queued e he t g hg (hholds g hg')
    unfold Sys.OutOfReach at this ⊢
    rwa [hstate, hcb]
  · intro g hg hready
    rw [hstate] at hready
    rw [hqueue]
    exact h.outgoing t g (hout g hg) hready

/-- thread `t` moves to where it has no fiber in its hand -/
theorem Exclusive.leave {s s' : Sys} (h : Exclusive s) {t : ℕ} {p : Pc}
    (hthreads : ∀ t', t' ∉ s'.threads → t' ≠ t ∧ t' ∉ s.threads) (hpc : s'.pc = Function.update s.pc t p)
    (hcb : s'.cbFiber = s.cbFiber) (hcount : s.fiberCount ≤ s'.fiberCount) (hqueue : s'.fibers = s.fibers)
    (hstate : s'.state = s.state) (hhand : p.hand = none) : Exclusive s' := by
  have hnone : ∀ g, p.hand ≠ some g := fun g hg => by simp [hhand] at hg
  refine h.goto hthreads hpc hcb hcount hqueue hstate (fun g hg => absurd hg (hnone g)) ?_ ?_ ?_
  · exact fun g hg => absurd (Pc.hand_of_outgoing hg) (hnone g)
  · exact fun g hg => absurd (Pc.hand_of_resetting hg) (hnone g)
  · exact fun g hg => absurd (Pc.hand_of_requeueing hg) (hnone g)

/-- thread `t` writes the state of the fiber in its hand, and moves -/
theorem Exclusive.write {s s' : Sys} (h : Exclusive s) {t f : ℕ} {x : State} {p : Pc} {c : Option ℕ}
    (hf : (s.pc t).hand = some f)
    (hthreads : s'.threads = s.threads) (hpc : s'.pc = Function.update s.pc t p)
    (hcb : s'.cbFiber = Function.update s.cbFiber t c) (hcount : s'.fiberCount = s.fiberCount)
    (hqueue : s'.fibers = s.fibers) (hstate : s'.state = Function.update s.state f x)
    (hhand : ∀ g, p.hand = some g → g = f) (hc : ∀ g, c = some g → g = f ∨ s.cbFiber t = some g)
    (hreach : ∀ e ∈ s.fibers, e.fiber = some f → s'.Holds t f → e.thread = t ∨ x = .exec ∧ c ≠ some f)
    (hout : ∀ g, p.outgoing = some g → x = .ready → c ≠ some f ∧ ∀ e ∈ s.fibers, e.fiber ≠ some f)
    (hmoves : p.resetting = none ∧ p.requeueing = none) : Exclusive s' := by
  have hheld : s.Holds t f := .inl hf
  have ht : s.pc t ≠ .off := by
    intro hoff
    rw [hoff] at hf
    cases hf
  have hholds : ∀ g, s'.Holds t g → s.Holds t g := by
    intro g hg
    unfold Sys.Holds at hg
    rw [hpc, Function.update_self, hcb, Function.update_self] at hg
    rcases hg with hg | hg
    · rw [hhand g hg]
      exact hheld
    · rcases hc g hg with rfl | hg
      · exact hheld
      · exact .inr hg
  refine h.move (hthreads ▸ h.stays ht) hpc hcb hcount.ge (by rw [hqueue]) ?_ ?_ ?_ ?_ ?_ ?_
  · intro g hg
    rw [hstate, Function.update_of_ne]
    rintro rfl
    exact hg hheld
  · intro g hg
    exact ⟨hcount ▸ h.known t g (hholds g hg), fun t' ht' => h.unique t' t g ht' (hholds g hg)⟩
  · intro e he g hg hg'
    rw [hqueue] at he
    unfold Sys.OutOfReach
    rw [hstate, hcb, Function.update_self]
    by_cases hgf : g = f
    · subst hgf
      rw [Function.update_self]
      exact hreach e he hg hg'
    · -- a fiber kept beside the one in the hand
      have hkept : s.cbFiber t = some g := by
        unfold Sys.Holds at hg'
        rw [hpc, Function.update_self, hcb, Function.update_self] at hg'
        rcases hg' with hg' | hg'
        · exact absurd (hhand g hg') hgf
        · exact (hc g hg').resolve_left hgf
      exact .inl (h.thread_of_kept hkept he hg)
  · intro g hg hready
    obtain rfl := hhand g (Pc.hand_of_outgoing hg)
    rw [hstate, Function.update_self] at hready
    rw [hqueue]
    exact hout g hg hready
  all_goals simp [hmoves]

/-! ## The steps -/

/-- an entry that is taken was out of everyone's hands -/
theorem Exclusive.take {s : Sys} (h : Exclusive s) {t : ℕ} {a b : List FiberAndThread} {ft : FiberAndThread}
    (hqueue : s.fibers = a ++ ft :: b) (htake : ft.takeable s.state t = true) {f : ℕ} (hf : ft.fiber = some f) :
    (∀ t', s.Holds t' f → t' = t) ∧ ∀ e ∈ a ++ b, e.fiber = some f → e.thread = t := by
  have hmem : ft ∈ s.fibers := by rw [hqueue]; simp
  simp only [FiberAndThread.takeable, FiberAndThread.executing, hf, Bool.and_eq_true, Bool.not_eq_true',
    beq_eq_false_iff_ne, FiberAndThread.allows, Bool.or_eq_true, beq_iff_eq] at htake
  obtain ⟨hallow, hexec⟩ := htake
  refine ⟨fun t' ht' => ?_, fun e he hef => ?_⟩
  · rcases h.queued ft hmem t' f hf ht' with hthread | ⟨hexec', -⟩
    · omega
    · exact absurd hexec' hexec
  · -- two entries of one fiber are for one thread
    have hapart := h.apart
    rw [hqueue, List.pairwise_append, List.pairwise_cons] at hapart
    obtain ⟨-, ⟨hafter, -⟩, hbefore⟩ := hapart
    rcases List.mem_append.1 he with he | he
    · rcases hbefore e he ft List.mem_cons_self with hnone | hne | ⟨heq, hpin⟩
      · rw [hef] at hnone
        cases hnone
      · exact absurd (hef.trans hf.symm) hne
      · omega
    · rcases hafter e he with hnone | hne | ⟨heq, hpin⟩
      · rw [hf] at hnone
        cases hnone
      · exact absurd (hf.trans hef.symm) hne
      · omega

/-- the critical section of `run` -/
theorem Exclusive.scan {s : Sys} (h : Exclusive s) {t : ℕ} (hpc : s.pc t = .scan) : Exclusive (s.work t) := by
  have ht : s.pc t ≠ .off := by simp [hpc]
  unfold Sys.work
  rw [hpc]
  dsimp only
  by_cases hok : (Scheduler.scan s.state t s.fibers).asserted = true
  swap
  · rw [if_neg hok]
    exact h.congr rfl rfl rfl le_rfl rfl rfl
  rw [if_pos hok]
  -- a tickle for the others changes nothing of what the thread holds
  generalize hp : (if (Scheduler.scan s.state t s.fibers).tickleMe = true then
    Pc.tickle false (.dispatch (Scheduler.scan s.state t s.fibers).ft)
    else .dispatch (Scheduler.scan s.state t s.fibers).ft) = p
  have hp' : p.hand = (Pc.dispatch (Scheduler.scan s.state t s.fibers).ft).hand ∧ p.outgoing = none ∧
      p.resetting = none ∧ p.requeueing = none := by
    rw [← hp]
    split_ifs <;> simp [Pc.hand, Pc.outgoing, Pc.resetting, Pc.requeueing]
  cases hft : (Scheduler.scan s.state t s.fibers).ft with
  | none =>
    rw [hft] at hp'
    obtain ⟨hfibers, -⟩ := scan_none hok hft
    refine h.goto (h.stays ht) rfl rfl le_rfl hfibers rfl ?_ ?_ ?_ ?_ <;> simp [hp', Pc.hand]
  | some ft =>
    rw [hft] at hp'
    obtain ⟨a, b, hqueue, hfibers, htake, -⟩ := scan_some hft
    have hsub : (a ++ b).Sublist s.fibers := by
      rw [hqueue]
      exact List.Sublist.append_left (List.sublist_cons_self ft b) a
    have hholds : ∀ g, p.hand = some g ∨ s.cbFiber t = some g → ft.fiber = some g ∨ s.cbFiber t = some g := by
      intro g hg
      rwa [hp'.1] at hg
    refine h.move (h.stays ht) rfl (Function.update_eq_self t s.cbFiber).symm le_rfl (by rw [hfibers]; exact hsub)
      (fun _ _ => rfl) ?_ ?_ ?_ ?_ ?_
    · intro g hg
      simp only [Sys.Holds, Sys.goto, Function.update_self] at hg
      rcases hholds g hg with hg | hg
      · exact ⟨h.queueKnown ft (by rw [hqueue]; simp) g hg, (h.take hqueue htake hg).1⟩
      · exact ⟨h.known t g (.inr hg), fun t' ht' => h.unique t' t g ht' (.inr hg)⟩
    · intro e he g hg hg'
      simp only [Sys.Holds, Sys.goto, Function.update_self] at hg'
      rw [hfibers] at he
      rcases hholds g hg' with hg' | hg'
      · exact .inl ((h.take hqueue htake hg').2 e he hg)
      · exact .inl (h.thread_of_kept hg' (hsub.subset he) hg)
    all_goals simp [hp']

/-- a callback is given a fiber: the one kept, or a new one -/
theorem Exclusive.dispatch {s : Sys} (h : Exclusive s) {t : ℕ} {ft : Option FiberAndThread} (hpc : s.pc t = .dispatch ft) :
    Exclusive (s.work t) := by
  have ht : s.pc t ≠ .off := by simp [hpc]
  unfold Sys.work
  rw [hpc]
  cases ft with
  | none =>
    dsimp only
    split_ifs
    · refine h.move (h.stays ht) rfl rfl le_rfl (List.Sublist.refl _) (fun _ _ => rfl) ?_ ?_ ?_ ?_ ?_ <;>
        simp [Sys.Holds, Sys.goto, Pc.hand, Pc.outgoing, Pc.resetting, Pc.requeueing]
    · exact h.leave (h.stays ht) rfl rfl le_rfl rfl rfl rfl
  | some ft =>
    have hskip : Exclusive { s.goto t .scan with activeThreadCount := s.activeThreadCount - 1 } := by
      exact h.leave (h.stays ht) rfl rfl le_rfl rfl rfl rfl
    dsimp only
    split
    · rename_i f htask
      split_ifs
      · have hhand : (s.pc t).hand = some f := by rw [hpc, Pc.hand, FiberAndThread.fiber, htask]
        refine h.goto (h.stays ht) rfl rfl le_rfl rfl rfl ?_ ?_ ?_ ?_ <;>
          simp [Pc.hand, Pc.outgoing, Pc.resetting, Pc.requeueing, hhand]
      · exact hskip
    · split
      · rename_i f hcb
        have hheld : s.Holds t f := .inr hcb
        refine h.move (h.stays ht) rfl rfl le_rfl (List.Sublist.refl _) (fun _ _ => rfl) ?_ ?_ ?_ ?_ ?_
        · intro g hg
          obtain rfl : f = g := by simpa [Sys.Holds, Sys.goto, Pc.hand] using hg
          exact ⟨h.known t f hheld, fun t' ht' => h.unique t' t f ht' hheld⟩
        · intro e he g hg hg'
          obtain rfl : f = g := by simpa [Sys.Holds, Sys.goto, Pc.hand] using hg'
          exact .inl (h.thread_of_kept hcb he hg)
        all_goals simp [Pc.outgoing, Pc.resetting, Pc.requeueing]
      · rename_i hcb
        refine h.move (h.stays ht) rfl (Function.update_eq_self t s.cbFiber).symm (Nat.le_succ _) (List.Sublist.refl _)
          (fun _ _ => rfl) ?_ ?_ ?_ ?_ ?_
        · intro g hg
          obtain rfl : s.fiberCount = g := by simpa [Sys.Holds, Sys.goto, Pc.hand, hcb] using hg
          refine ⟨Nat.lt_succ_self _, ?_⟩
          intro t' ht'
          exact absurd (h.known t' _ ht') (lt_irrefl _)
        · intro e he g hg hg'
          obtain rfl : s.fiberCount = g := by simpa [Sys.Holds, Sys.goto, Pc.hand, hcb] using hg'
          exact absurd (h.queueKnown e he _ hg) (lt_irrefl _)
        all_goals simp [Pc.outgoing, Pc.resetting, Pc.requeueing]
    · exact hskip

/-- `m_state = INIT` of `Fiber::reset` -/
theorem Exclusive.resetInit {s : Sys} (h : Exclusive s) {t f : ℕ} {behind : Bool} (hpc : s.pc t = .resetInit behind f) :
    Exclusive (s.work t) := by
  have hhand : (s.pc t).hand = some f := by rw [hpc]; rfl
  have hreach : ∀ e ∈ s.fibers, e.fiber = some f → e.thread = t := by
    intro e he hef
    rcases h.queued e he t f hef (.inl hhand) with hthread | ⟨hexec, -⟩
    · exact hthread
    · exact absurd hexec (h.resets t f (by rw [hpc]; rfl))
  unfold Sys.work
  rw [hpc]
  dsimp only
  split_ifs
  · refine h.write hhand rfl rfl rfl rfl rfl rfl ?_ ?_ (fun e he hef _ => .inl (hreach e he hef)) ?_ ?_ <;>
      simp [Pc.hand, Pc.outgoing, Pc.resetting, Pc.requeueing]
  · refine h.write hhand rfl rfl (Function.update_eq_self t s.cbFiber).symm rfl rfl rfl ?_ ?_
      (fun e he hef _ => .inl (hreach e he hef)) ?_ ?_ <;>
        simp +contextual [Pc.hand, Pc.outgoing, Pc.resetting, Pc.requeueing]

/-- the fiber that yielded READY is queued by the thread that lets it go -/
theorem Exclusive.requeue {s : Sys} (h : Exclusive s) {t f : ℕ} {k : Slice} (hpc : s.pc t = .requeue k f) :
    Exclusive (s.work t) := by
  have ht : s.pc t ≠ .off := by simp [hpc]
  have hhand : (s.pc t).hand = some f := by rw [hpc]; rfl
  obtain ⟨hkept, hnone⟩ := h.outgoing t f (by rw [hpc]; rfl) (h.requeues t f (by rw [hpc]; rfl))
  unfold Sys.work
  rw [hpc]
  dsimp only [Sys.push]
  generalize hp : (if s.fibers.isEmpty && !([⟨some (.fiber f), -1⟩] : List FiberAndThread).isEmpty then
    Pc.tickle true (.release k f) else .release k f) = p
  have hp' : p.hand = none ∧ p.outgoing = none ∧ p.resetting = none ∧ p.requeueing = none := by
    rw [← hp]
    split_ifs <;> simp [Pc.hand, Pc.outgoing, Pc.resetting, Pc.requeueing]
  have hgoto : Exclusive (s.goto t p) := by
    refine h.goto (h.stays ht) rfl rfl le_rfl rfl rfl ?_ ?_ ?_ ?_ <;> simp [hp']
  refine hgoto.append (l := [⟨some (.fiber f), -1⟩]) rfl rfl rfl le_rfl rfl rfl ?_ ?_ ?_
  · intro e he g hg
    rw [List.mem_singleton.1 he] at hg
    cases hg
    exact h.known t f (.inl hhand)
  · refine List.pairwise_append.2 ⟨h.apart, List.pairwise_singleton _ _, ?_⟩
    intro e he e' he'
    rw [List.mem_singleton.1 he']
    exact .inr (.inl (hnone e he))
  · intro e he g hg t' ht'
    rw [List.mem_singleton.1 he] at hg
    cases hg
    -- nobody holds the fiber any more
    exfalso
    by_cases hne : t' = t
    · subst hne
      simp only [Sys.Holds, Sys.goto, Function.update_self, hp'.1] at ht'
      rcases ht' with ht' | ht'
      · cases ht'
      · exact hkept ht'
    · apply hne
      refine h.unique t' t f ?_ (.inl hhand)
      simpa [Sys.Holds, Sys.goto, hne] using ht'

/-- the function of a fiber writes the state and leaves -/
theorem Exclusive.swapOut {s : Sys} (h : Exclusive s) (t : ℕ) {x : State} {ended : Bool}
    (hreach : x ≠ .exec → s.HoldFits t) (hready : x = .ready → s.ReadyFits t) : Exclusive (s.swapOut t x ended) := by
  unfold Sys.swapOut
  split
  · rename_i k f hpc
    split_ifs
    · exact h
    have hhand : (s.pc t).hand = some f := by rw [hpc]; rfl
    have hstack : f ∈ (s.pc t).stack := by rw [hpc]; rfl
    refine h.write hhand rfl rfl (Function.update_eq_self t s.cbFiber).symm rfl rfl rfl ?_ ?_ ?_ ?_ ?_
    · simp [Pc.hand]
    · exact fun g hg => .inr hg
    · intro e he hef _
      by_cases hx : x = .exec
      · exact (h.queued e he t f hef (.inl hhand)).imp_right fun hexec => ⟨hx, hexec.2⟩
      · exact .inl (hreach hx f hstack e he hef)
    · intro g _ hx
      exact hready hx f hstack
    · exact ⟨rfl, rfl⟩
  · exact h

theorem work_exclusive {s : Sys} (h : Exclusive s) (t : ℕ) : Exclusive (s.work t) := by
  have habort : Exclusive s.abort := h.congr rfl rfl rfl le_rfl rfl rfl
  cases hpc : s.pc t with
  | scan => exact h.scan hpc
  | dispatch ft => exact h.dispatch hpc
  | resetInit behind f => exact h.resetInit hpc
  | requeue k f => exact h.requeue hpc
  | resetAssert behind f =>
    have ht : s.pc t ≠ .off := by simp [hpc]
    unfold Sys.work
    rw [hpc]
    dsimp only
    split_ifs with hstate
    · refine h.goto (h.stays ht) rfl rfl le_rfl rfl rfl ?_ ?_ ?_ ?_
      · simp [hpc, Pc.hand]
      · simp [Pc.outgoing]
      · intro g hg hexec
        cases hg
        simp [State.resettable, hexec] at hstate
      · simp [Pc.requeueing]
    · exact habort
  | assertIn k f =>
    have ht : s.pc t ≠ .off := by simp [hpc]
    unfold Sys.work
    rw [hpc]
    dsimp only
    split_ifs
    · exact habort
    · refine h.goto (h.stays ht) rfl rfl le_rfl rfl rfl ?_ ?_ ?_ ?_ <;>
        simp [hpc, Pc.hand, Pc.outgoing, Pc.resetting, Pc.requeueing]
  | setExec k f =>
    have hhand : (s.pc t).hand = some f := by rw [hpc]; rfl
    unfold Sys.work
    rw [hpc]
    refine h.write hhand rfl rfl (Function.update_eq_self t s.cbFiber).symm rfl rfl rfl ?_ ?_ ?_ ?_ ?_
    · simp [Pc.hand]
    · exact fun g hg => .inr hg
    · intro e he hef _
      exact (h.queued e he t f hef (.inl hhand)).imp_right fun hexec => ⟨rfl, hexec.2⟩
    · simp [Pc.outgoing]
    · exact ⟨rfl, rfl⟩
  | setHold k f =>
    have hhand : (s.pc t).hand = some f := by rw [hpc]; rfl
    unfold Sys.work
    rw [hpc]
    refine h.write hhand rfl rfl (Function.update_eq_self t s.cbFiber).symm rfl rfl rfl ?_ ?_ ?_ ?_ ?_
    · simp [Pc.hand]
    · exact fun g hg => .inr hg
    · intro e he hef hkept
      -- the fiber is only held on as `cb_fiber`, and then it was out of reach before
      have hcb : s.cbFiber t = some f := by simpa [Sys.Holds, Sys.goto, Sys.setState, Pc.hand] using hkept
      exact .inl (h.thread_of_kept hcb he hef)
    · simp [Pc.outgoing]
    · exact ⟨rfl, rfl⟩
  | testReady k f =>
    have ht : s.pc t ≠ .off := by simp [hpc]
    unfold Sys.work
    rw [hpc]
    dsimp only
    split_ifs with hready
    · refine h.goto (h.stays ht) rfl rfl le_rfl rfl rfl ?_ ?_ ?_ ?_ <;>
        simp [hpc, Pc.hand, Pc.outgoing, Pc.resetting, Pc.requeueing, hready]
    · refine h.goto (h.stays ht) rfl rfl le_rfl rfl rfl ?_ ?_ ?_ ?_ <;>
        simp [hpc, Pc.hand, Pc.outgoing, Pc.resetting, Pc.requeueing]
  | testTerm k f =>
    have ht : s.pc t ≠ .off := by simp [hpc]
    unfold Sys.work
    rw [hpc]
    dsimp only
    split_ifs
    · refine h.goto (h.stays ht) rfl rfl le_rfl rfl rfl ?_ ?_ ?_ ?_ <;> cases k <;>
        simp [hpc, Pc.hand, Pc.outgoing, Pc.resetting, Pc.requeueing]
    · refine h.goto (h.stays ht) rfl rfl le_rfl rfl rfl ?_ ?_ ?_ ?_ <;>
        simp [hpc, Pc.hand, Pc.outgoing, Pc.resetting, Pc.requeueing]
  | running k f =>
    unfold Sys.work
    rw [hpc]
    dsimp only
    split_ifs
    · exact habort
    · exact h
  | tickle pushed back =>
    have ht : s.pc t ≠ .off := by simp [hpc]
    unfold Sys.work
    rw [hpc]
    refine h.goto (h.stays ht) rfl rfl le_rfl rfl rfl ?_ ?_ ?_ ?_
    · split_ifs <;> simp [hpc, Pc.hand]
    · split_ifs <;> simp [hpc, Pc.outgoing]
    · intro g hg
      apply h.resets t g
      split_ifs at hg <;> simpa [hpc, Pc.resetting] using hg
    · intro g hg
      apply h.requeues t g
      split_ifs at hg <;> simpa [hpc, Pc.requeueing] using hg
  | write pushed back =>
    have ht : s.pc t ≠ .off := by simp [hpc]
    unfold Sys.work
    rw [hpc]
    refine h.goto (h.stays ht) rfl rfl le_rfl rfl rfl ?_ ?_ ?_ ?_
    · simp [hpc, Pc.hand]
    · simp [hpc, Pc.outgoing]
    · exact fun g hg => h.resets t g (by rw [hpc]; exact hg)
    · exact fun g hg => h.requeues t g (by rw [hpc]; exact hg)
  | off | out | release | idleTop | blocked | woken =>
    unfold Sys.work
    rw [hpc]
    exact h
  | idleIn =>
    have ht : s.pc t ≠ .off := by simp [hpc]
    unfold Sys.work
    rw [hpc]
    dsimp only
    split_ifs
    · exact habort
    · exact h.leave (h.stays ht) rfl rfl le_rfl rfl rfl rfl
  | idleHold =>
    have ht : s.pc t ≠ .off := by simp [hpc]
    unfold Sys.work
    rw [hpc]
    dsimp only
    split_ifs <;> exact h.leave (h.stays ht) rfl rfl le_rfl rfl rfl rfl
  | switchIn | leaving | post | idleOut =>
    have ht : s.pc t ≠ .off := by simp [hpc]
    unfold Sys.work
    rw [hpc]
    refine h.goto (h.stays ht) rfl rfl le_rfl rfl rfl ?_ ?_ ?_ ?_ <;>
      simp [hpc, Pc.hand, Pc.outgoing, Pc.resetting, Pc.requeueing]

theorem Exclusive.schedule {s : Sys} (h : Exclusive s) {t : ℕ} {es : List FiberAndThread} (hcalls : s.calls t = true)
    (hknown : ∀ e ∈ es, ∀ f ∈ e.fiber, f < s.fiberCount) (hfits : s.ScheduleFits es) : Exclusive (s.push t es (s.pc t)) := by
  have ht : s.pc t ≠ .off := by
    intro hoff
    simp [Sys.calls, hoff] at hcalls
  unfold Sys.push
  generalize hp : (if s.fibers.isEmpty && !es.isEmpty then Pc.tickle true (s.pc t) else s.pc t) = p
  have hp' : p.hand = (s.pc t).hand ∧ p.outgoing = (s.pc t).outgoing ∧ p.resetting = (s.pc t).resetting ∧
      p.requeueing = (s.pc t).requeueing := by
    rw [← hp]
    split_ifs <;> simp [Pc.hand, Pc.outgoing, Pc.resetting, Pc.requeueing]
  obtain ⟨hhand, hout, hreset, hreq⟩ := hp'
  have hgoto : Exclusive (s.goto t p) := by
    refine h.goto (h.stays ht) rfl rfl le_rfl rfl rfl ?_ ?_ ?_ ?_
    · simp [hhand]
    · simp [hout]
    · exact fun g hg => h.resets t g (hreset ▸ hg)
    · exact fun g hg => h.requeues t g (hreq ▸ hg)
  have hold : ∀ t' f, ((s.goto t p).Holds t' f ↔ s.Holds t' f) ∧ ((s.goto t p).pc t').outgoing = (s.pc t').outgoing := by
    intro t' f
    by_cases hne : t' = t
    · subst hne
      simp [Sys.Holds, Sys.goto, hhand, hout]
    · simp [Sys.Holds, Sys.goto, hne]
  refine hgoto.append (l := es.filter (·.task.isSome)) rfl rfl rfl le_rfl rfl rfl ?_ ?_ ?_
  · intro e he
    exact hknown e (List.mem_of_mem_filter he)
  · exact hfits.1.sublist (List.Sublist.append_left List.filter_sublist _)
  · intro e he f hf t' ht'
    obtain ⟨hiff, hsame⟩ := hold t' f
    have hheld := hiff.1 ht'
    rw [hsame]
    exact hfits.2 e (List.mem_of_mem_filter he) f hf t' (h.mem_threads hheld) hheld

theorem step_exclusive (s : Sys) (o : Op) (h : Exclusive s) (hfits : Unreached s o) : Exclusive (step s o) := by
  unfold step
  split_ifs
  · exact h
  cases o with
  | spawn t =>
    dsimp only
    split_ifs with hoff
    · refine h.goto (p := .out) (t := t) ?_ rfl rfl le_rfl rfl rfl ?_ ?_ ?_ ?_
      · intro t' hnot
        simp only [List.mem_append, List.mem_singleton, not_or] at hnot
        exact hnot.symm
      all_goals simp [Pc.hand, Pc.outgoing, Pc.resetting, Pc.requeueing]
    · exact h
  | enter t =>
    dsimp only
    split_ifs with hpc
    · exact h.leave (h.stays (t := t) (by simp [hpc])) rfl rfl le_rfl rfl rfl rfl
    · exact h
  | newFiber => exact h.congr rfl rfl rfl (Nat.le_succ _) rfl rfl
  | work t => exact work_exclusive h t
  | schedule t es =>
    dsimp only
    split_ifs with hcall
    · exact h.schedule hcall.1 hcall.2.2 hfits
    · exact h
  | yieldToHold t => exact h.swapOut t (fun _ => hfits) (by simp)
  | yieldToReady t =>
    refine h.swapOut t ?_ (fun _ => hfits)
    intro _ f hf e he hef
    exact absurd hef ((hfits f hf).2 e he)
  | finish t => exact h.swapOut t (fun _ => hfits) (by simp)
  | throw t => exact h.swapOut t (by simp) (by simp)
  | release t last =>
    dsimp only
    split
    · rename_i k f hpc
      split_ifs
      · exact h.congr rfl rfl rfl le_rfl rfl rfl
      · exact h.leave (h.stays (t := t) (by simp [hpc])) rfl rfl le_rfl rfl rfl rfl
    · exact h
  | epollWait t quiet =>
    dsimp only
    split_ifs with hpc
    · exact h.leave (h.stays (t := t) (by simp [hpc])) rfl rfl le_rfl rfl rfl rfl
    · exact h.leave (h.stays (t := t) (by simp [hpc])) rfl rfl le_rfl rfl rfl rfl
    · exact h
  | wake t | leaveIdle t =>
    dsimp only
    split_ifs with hpc
    · exact h.leave (h.stays (t := t) (by simp [hpc])) rfl rfl le_rfl rfl rfl rfl
    · exact h
  | drain t =>
    dsimp only
    split_ifs
    · exact h.congr rfl rfl rfl le_rfl rfl rfl
    · exact h
  | stop t n =>
    dsimp only
    split_ifs with hpc
    · refine h.goto (h.stays (t := t) (by simp [hpc])) rfl rfl le_rfl rfl rfl ?_ ?_ ?_ ?_
      · simp [iterate_tickle (φ := Pc.hand) (fun _ => rfl), Pc.hand]
      · simp [iterate_tickle (φ := Pc.outgoing) (fun _ => rfl), Pc.outgoing]
      · simp [iterate_tickle (φ := Pc.resetting) (fun _ => rfl), Pc.resetting]
      · simp [iterate_tickle (φ := Pc.requeueing) (fun _ => rfl), Pc.requeueing]
    · exact h
  | timerAtFront t =>
    dsimp only
    split_ifs with hcalls
    · have ht : s.pc t ≠ .off := by
        intro hoff
        simp [Sys.calls, hoff] at hcalls
      refine h.goto (h.stays ht) rfl rfl le_rfl rfl rfl ?_ ?_ ?_ ?_
      · simp [Pc.hand]
      · simp [Pc.outgoing]
      · exact fun g hg => h.resets t g hg
      · exact fun g hg => h.requeues t g hg
    · exact h

/-! ## Main results -/

/-- while a thread is on the stack of a fiber, no other thread has taken the fiber -/
def OneWorker (s : Sys) : Prop := ∀ t t' f, (s.pc t).stack = some f → (s.pc t').hand = some f → t' = t

theorem Exclusive.oneWorker {s : Sys} (h : Exclusive s) : OneWorker s := by
  intro t t' f hstack hhand
  exact h.unique t' t f (.inl hhand) (.inl (Pc.hand_of_stack hstack))

/-- **One worker for a fiber.** In every run in which the calls of `schedule` and the yields leave no fiber within reach
of two workers, no fiber is on two workers, in any state of the run. -/
theorem fiber_on_one_worker (ops : List Op) (h : Guarded step Unreached init ops) :
    ∀ pre, pre <+: ops → OneWorker (run step init pre) := by
  intro pre hpre
  exact (states_inv step_exclusive exclusive_init h pre hpre).oneWorker

/-- a thread outside makes a fiber and schedules it, two workers enter `run`, and worker 1 swaps it in -/
def swapInTrace : List Op :=
  [.spawn 0, .newFiber, .schedule 0 [⟨some (.fiber 0), -1⟩], .work 0, .spawn 1, .enter 1, .spawn 2, .enter 2, .work 1,
    .work 1, .work 1, .work 1, .work 1]

/-- the fiber yields and is let go, and is scheduled again for worker 2 -/
def handOverTrace : List Op :=
  swapInTrace ++ ([.yieldToHold 1, .work 1, .work 1, .work 1, .work 1, .work 1, .schedule 0 [⟨some (.fiber 0), -1⟩],
    .work 0, .work 2, .work 2, .work 2, .work 2, .work 2] : List Op)

theorem fiber_on_one_worker_example :
    ((run step init handOverTrace).pc 2).stack = some 0 ∧
      ∀ pre, pre <+: handOverTrace → OneWorker (run step init pre) :=
  ⟨by decide, fiber_on_one_worker handOverTrace (by decide)⟩

/-- the fiber is scheduled while it runs; it yields, and worker 2 takes the entry before worker 1 has left the fiber -/
def earlyEventTrace : List Op :=
  swapInTrace ++ ([.schedule 0 [⟨some (.fiber 0), -1⟩], .work 0, .yieldToHold 1, .work 2, .work 2, .work 2, .work 2,
    .work 2] : List Op)

/-- **Two workers on one stack.** YieldToHold has written HOLD and not saved the context, and worker 2 runs the fiber. -/
theorem fiber_on_two_workers :
    let s := run step init earlyEventTrace
    ¬ OneWorker s ∧ (s.pc 1).stack = some 0 ∧ (s.pc 2).stack = some 0 ∧ s.aborted = false := by
  have h1 : ((run step init earlyEventTrace).pc 1).stack = some 0 := by decide
  have h2 : ((run step init earlyEventTrace).pc 2).stack = some 0 := by decide
  refine ⟨?_, h1, h2, by decide⟩
  intro h
  have := h 1 2 0 h1 (Pc.hand_of_stack h2)
  cases this

end Sylar.Scheduler

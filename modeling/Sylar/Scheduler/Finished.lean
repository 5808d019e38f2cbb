/-
A finished fiber is not swapped in again.

The test of `run` in front of swapIn asks for a state that is not TERM or not EXCEPT, which every state is. What keeps a
finished fiber from being resumed is then only that nobody queues it: an entry that is in the queue, or in the hand of a
thread in front of swapIn, when the fiber ends is run all the same.

Results:
- `step_known`: the fibers above `fiberCount` are untouched, and EXCEPT is assigned nowhere;
- `finished_never_resumed`: swapIn is called on no finished fiber, over all interleavings in which no finished fiber is
  scheduled and none finishes while it is queued or about to be;
- `finished_resumed`: a fiber that was scheduled twice is swapped in behind its end.
-/
import Sylar.Scheduler.OneWorker

namespace Sylar.Scheduler

open Sylar.Run

/-! ## Fibers that do not exist yet -/

structure Known (s : Sys) : Prop where
  off : ∀ t, t ∉ s.threads → s.pc t = .off ∧ s.cbFiber t = none
  held : ∀ t f, s.Holds t f → f < s.fiberCount
  queued : ∀ e ∈ s.fibers, ∀ f, e.fiber = some f → f < s.fiberCount
  fresh : ∀ f, s.fiberCount ≤ f → s.state f = .init ∧ s.ended f = false
  noExcept : ∀ f, s.state f ≠ .except

theorem known_init : Known init := by
  refine ⟨fun _ _ => ⟨rfl, rfl⟩, ?_, ?_, fun _ _ => ⟨rfl, rfl⟩, ?_⟩ <;> simp [init, Sys.Holds, Pc.hand]

theorem Known.stays {s : Sys} (h : Known s) {t : ℕ} (ht : s.pc t ≠ .off) (t' : ℕ) (hnot : t' ∉ s.threads) :
    t' ≠ t ∧ t' ∉ s.threads :=
  others_stay (fun t hout => (h.off t hout).1) ht t' hnot

/-- thread `t` moves, and writes fibers that exist -/
theorem Known.move {s s' : Sys} (h : Known s) {t : ℕ} {p : Pc} {c : Option ℕ}
    (hthreads : ∀ t', t' ∉ s'.threads → t' ≠ t ∧ t' ∉ s.threads) (hpc : s'.pc = Function.update s.pc t p)
    (hcb : s'.cbFiber = Function.update s.cbFiber t c) (hcount : s.fiberCount ≤ s'.fiberCount)
    (hqueue : ∀ e ∈ s'.fibers, e ∈ s.fibers ∨ ∀ f, e.fiber = some f → f < s.fiberCount)
    (hheld : ∀ f, p.hand = some f ∨ c = some f → s.Holds t f ∨ f < s'.fiberCount)
    (hstate : ∀ f, s.fiberCount ≤ f → s'.state f = s.state f ∧ s'.ended f = s.ended f)
    (hexcept : ∀ f, s'.state f = s.state f ∨ s'.state f ≠ .except) : Known s' := by
  refine ⟨?_, ?_, ?_, ?_, ?_⟩
  · intro t' hnot
    obtain ⟨hne, hnot⟩ := hthreads t' hnot
    rw [hpc, hcb, Function.update_of_ne hne, Function.update_of_ne hne]
    exact h.off t' hnot
  · intro t' f hf
    unfold Sys.Holds at hf
    rw [hpc, hcb] at hf
    by_cases hne : t' = t
    · rw [hne, Function.update_self, Function.update_self] at hf
      exact (hheld f hf).elim (fun hold => (h.held t f hold).trans_le hcount) id
    · rw [Function.update_of_ne hne, Function.update_of_ne hne] at hf
      exact (h.held t' f hf).trans_le hcount
  · intro e he f hf
    exact (hqueue e he).elim (fun hold => (h.queued e hold f hf).trans_le hcount) fun hnew => (hnew f hf).trans_le hcount
  · intro f hf
    have hold := hcount.trans hf
    obtain ⟨hstate, hended⟩ := hstate f hold
    rw [hstate, hended]
    exact h.fresh f hold
  · intro f
    exact (hexcept f).elim (fun hsame => hsame ▸ h.noExcept f) id

/-- thread `t` moves, and holds nothing new -/
theorem Known.goto {s s' : Sys} (h : Known s) {t : ℕ} {p : Pc} (ht : s.pc t ≠ .off) (hthreads : s'.threads = s.threads)
    (hpc : s'.pc = Function.update s.pc t p) (hcb : s'.cbFiber = s.cbFiber) (hcount : s.fiberCount ≤ s'.fiberCount)
    (hqueue : ∀ e ∈ s'.fibers, e ∈ s.fibers ∨ ∀ f, e.fiber = some f → f < s.fiberCount)
    (hstate : s'.state = s.state) (hended : s'.ended = s.ended)
    (hhand : ∀ f, p.hand = some f → s.Holds t f ∨ f < s'.fiberCount) : Known s' := by
  refine h.move (by rw [hthreads]; exact h.stays ht) hpc (c := s.cbFiber t) (by rw [hcb, Function.update_eq_self]) hcount
    hqueue ?_ ?_ ?_
  · intro f hf
    exact hf.elim (hhand f) fun hcb => .inl (.inr hcb)
  · intro f _
    rw [hstate, hended]
    exact ⟨rfl, rfl⟩
  · intro f
    rw [hstate]
    exact .inl rfl

/-- thread `t` writes a fiber in its hand, and moves -/
theorem Known.write {s s' : Sys} (h : Known s) {t f : ℕ} {x : State} {p : Pc} {c : Option ℕ}
    (hf : (s.pc t).hand = some f) (hthreads : s'.threads = s.threads) (hpc : s'.pc = Function.update s.pc t p)
    (hcb : s'.cbFiber = Function.update s.cbFiber t c) (hcount : s'.fiberCount = s.fiberCount)
    (hqueue : s'.fibers = s.fibers) (hstate : s'.state = Function.update s.state f x)
    (hended : s'.ended = s.ended ∨ ∃ b, s'.ended = Function.update s.ended f b) (hx : x ≠ .except)
    (hheld : ∀ g, p.hand = some g ∨ c = some g → s.Holds t g) : Known s' := by
  have hlt := h.held t f (.inl hf)
  have ht : s.pc t ≠ .off := by
    intro hoff
    rw [hoff] at hf
    cases hf
  refine h.move (by rw [hthreads]; exact h.stays ht) hpc hcb hcount.ge (by rw [hqueue]; exact fun e he => .inl he)
    (fun g hg => .inl (hheld g hg)) ?_ ?_
  · intro g hg
    have hne : g ≠ f := by omega
    refine ⟨by rw [hstate, Function.update_of_ne hne], ?_⟩
    rcases hended with hended | ⟨b, hended⟩
    · rw [hended]
    · rw [hended, Function.update_of_ne hne]
  · intro g
    rw [hstate]
    by_cases hne : g = f
    · rw [hne, Function.update_self]
      exact .inr hx
    · rw [Function.update_of_ne hne]
      exact .inl rfl

theorem Known.congr {s s' : Sys} (h : Known s) (hthreads : s'.threads = s.threads) (hpc : s'.pc = s.pc)
    (hcb : s'.cbFiber = s.cbFiber) (hcount : s.fiberCount ≤ s'.fiberCount) (hqueue : s'.fibers = s.fibers)
    (hstate : s'.state = s.state) (hended : s'.ended = s.ended) : Known s' := by
  refine ⟨by rw [hthreads, hpc, hcb]; exact h.off, ?_, ?_, ?_, by rw [hstate]; exact h.noExcept⟩
  · intro t f hf
    unfold Sys.Holds at hf
    rw [hpc, hcb] at hf
    exact (h.held t f hf).trans_le hcount
  · rw [hqueue]
    exact fun e he f hf => (h.queued e he f hf).trans_le hcount
  · rw [hstate, hended]
    exact fun f hf => h.fresh f (hcount.trans hf)

theorem mem_of_scan {state : ℕ → State} {t : ℕ} {l : List FiberAndThread} {e : FiberAndThread}
    (he : e ∈ (scan state t l).fibers) : e ∈ l := by
  induction l with
  | nil => exact he
  | cons x xs ih =>
    unfold scan at he
    dsimp only at he
    split_ifs at he
    · rcases List.mem_cons.1 he with rfl | he
      · exact List.mem_cons_self
      · exact List.mem_cons_of_mem x (ih he)
    · exact he
    · rcases List.mem_cons.1 he with rfl | he
      · exact List.mem_cons_self
      · exact List.mem_cons_of_mem x (ih he)
    · exact List.mem_cons_of_mem x he

theorem mem_of_scan_ft {state : ℕ → State} {t : ℕ} {l : List FiberAndThread} {ft : FiberAndThread}
    (hft : (scan state t l).ft = some ft) : ft ∈ l := by
  obtain ⟨a, b, rfl, -⟩ := scan_some hft
  simp

theorem Known.push {s : Sys} (h : Known s) {t : ℕ} (ht : s.pc t ≠ .off) {es : List FiberAndThread} {back : Pc}
    (hes : ∀ e ∈ es, ∀ f, e.fiber = some f → f < s.fiberCount) (hhand : ∀ f, back.hand = some f → s.Holds t f) :
    Known (s.push t es back) := by
  refine h.goto ht rfl rfl rfl le_rfl ?_ rfl rfl ?_
  · intro e he
    exact (List.mem_append.1 he).imp_right fun hnew => hes e (List.mem_of_mem_filter hnew)
  · intro f hf
    split_ifs at hf <;> exact .inl (hhand f hf)

theorem work_known {s : Sys} (h : Known s) (t : ℕ) : Known (s.work t) := by
  have habort : Known s.abort := h.congr rfl rfl rfl le_rfl rfl rfl rfl
  have hold : ∀ e ∈ s.fibers, e ∈ s.fibers ∨ ∀ f, e.fiber = some f → f < s.fiberCount := fun e he => .inl he
  cases hpc : s.pc t with
  | scan =>
    simp only [Sys.work, hpc]
    split_ifs
    all_goals first
      | exact habort
      | refine h.goto (by simp [hpc]) rfl rfl rfl le_rfl (fun e he => .inl (mem_of_scan he)) rfl rfl ?_
        intro f hf
        cases hft : (scan s.state t s.fibers).ft with
        | none => simp [hft, Pc.hand] at hf
        | some ft =>
          rw [hft] at hf
          exact .inr (h.queued ft (mem_of_scan_ft hft) f hf)
  | dispatch ft =>
    have ht : s.pc t ≠ .off := by simp [hpc]
    simp only [Sys.work, hpc]
    cases ft with
    | none =>
      dsimp only
      split_ifs
      · refine h.move (h.stays ht) rfl rfl le_rfl hold ?_ (fun f _ => ⟨rfl, rfl⟩) (fun f => .inl rfl)
        intro f hf
        simp [Pc.hand] at hf
      · exact h.goto ht rfl rfl rfl le_rfl hold rfl rfl (by simp [Pc.hand])
    | some ft =>
      obtain ⟨task, thread⟩ := ft
      rcases task with _ | f | n
      · exact h.goto ht rfl rfl rfl le_rfl hold rfl rfl (by simp [Pc.hand])
      · simp only [State.swappable_true, if_true]
        refine h.goto ht rfl rfl rfl le_rfl hold rfl rfl ?_
        intro g hg
        exact .inl (.inl (by rw [hpc]; exact hg))
      · dsimp only
        split
        · rename_i f hcb
          refine h.move (h.stays ht) rfl rfl le_rfl hold ?_ (fun f _ => ⟨rfl, rfl⟩) (fun f => .inl rfl)
          intro g hg
          rcases hg with hg | hg
          · cases hg
            exact .inl (.inr hcb)
          · cases hg
        · refine h.goto ht rfl rfl rfl (Nat.le_succ _) hold rfl rfl ?_
          intro g hg
          cases hg
          exact .inr (Nat.lt_succ_self _)
  | resetInit behind f =>
    have hhand : (s.pc t).hand = some f := by rw [hpc]; rfl
    simp only [Sys.work, hpc]
    split_ifs
    · refine h.write hhand rfl rfl rfl rfl rfl rfl (.inr ⟨false, rfl⟩) (by decide) ?_
      intro g hg
      rcases hg with hg | hg
      · cases hg
      · cases hg
        exact .inl hhand
    · refine h.write hhand rfl rfl (Function.update_eq_self t s.cbFiber).symm rfl rfl rfl (.inr ⟨false, rfl⟩) (by decide) ?_
      intro g hg
      rcases hg with hg | hg
      · cases hg
        exact .inl hhand
      · exact .inr hg
  | setExec k f | setHold k f =>
    have hhand : (s.pc t).hand = some f := by rw [hpc]; rfl
    simp only [Sys.work, hpc]
    refine h.write hhand rfl rfl (Function.update_eq_self t s.cbFiber).symm rfl rfl rfl (.inl rfl) (by decide) ?_
    intro g hg
    rcases hg with hg | hg
    · first
        | cases hg
          exact .inl hhand
        | cases hg
    · exact .inr hg
  | requeue k f =>
    have hhand : (s.pc t).hand = some f := by rw [hpc]; rfl
    simp only [Sys.work, hpc]
    refine h.push (by simp [hpc]) ?_ (by simp [Pc.hand])
    intro e he g hg
    rw [List.mem_singleton.1 he] at hg
    cases hg
    exact h.held t f (.inl hhand)
  | off | out | release | idleTop | blocked | woken =>
    simp only [Sys.work, hpc]
    exact h
  | tickle pushed back =>
    simp only [Sys.work, hpc]
    refine h.goto (by simp [hpc]) rfl rfl rfl le_rfl hold rfl rfl ?_
    intro g hg
    exact .inl (.inl (by rw [hpc]; split_ifs at hg <;> exact hg))
  | write pushed back =>
    simp only [Sys.work, hpc]
    refine h.goto (by simp [hpc]) rfl rfl rfl le_rfl hold rfl rfl ?_
    intro g hg
    exact .inl (.inl (by rw [hpc]; exact hg))
  | resetAssert behind f | assertIn k f | testReady k f =>
    have hhand : (s.pc t).hand = some f := by rw [hpc]; rfl
    simp only [Sys.work, hpc]
    split_ifs
    all_goals first
      | exact habort
      | refine h.goto (by simp [hpc]) rfl rfl rfl le_rfl hold rfl rfl ?_
        intro g hg
        cases hg
        exact .inl (.inl hhand)
  | testTerm k f =>
    have hhand : (s.pc t).hand = some f := by rw [hpc]; rfl
    simp only [Sys.work, hpc]
    split_ifs <;> refine h.goto (by simp [hpc]) rfl rfl rfl le_rfl hold rfl rfl ?_ <;> cases k <;>
      simp only [Pc.hand, reduceCtorEq, IsEmpty.forall_iff, implies_true, Option.some.injEq] <;>
      exact fun g hg => .inl (.inl (hg ▸ hhand))
  | running k f =>
    simp only [Sys.work, hpc]
    split_ifs
    · exact habort
    · exact h
  | idleIn | idleHold =>
    simp only [Sys.work, hpc]
    split_ifs
    all_goals first
      | exact habort
      | exact h.goto (by simp [hpc]) rfl rfl rfl le_rfl hold rfl rfl (by simp [Pc.hand])
  | switchIn k f | leaving k f | post k f =>
    have hhand : (s.pc t).hand = some f := by rw [hpc]; rfl
    simp only [Sys.work, hpc]
    refine h.goto (by simp [hpc]) rfl rfl rfl le_rfl hold rfl rfl ?_
    intro g hg
    cases hg
    exact .inl (.inl hhand)
  | idleOut =>
    simp only [Sys.work, hpc]
    exact h.goto (by simp [hpc]) rfl rfl rfl le_rfl hold rfl rfl (by simp [Pc.hand])

theorem Known.swapOut {s : Sys} (h : Known s) (t : ℕ) {x : State} {ended : Bool} (hx : x ≠ .except) :
    Known (s.swapOut t x ended) := by
  unfold Sys.swapOut
  split
  · rename_i k f hpc
    split_ifs
    · exact h
    · have hhand : (s.pc t).hand = some f := by rw [hpc]; rfl
      refine h.write hhand rfl rfl (Function.update_eq_self t s.cbFiber).symm rfl rfl rfl (.inr ⟨ended, rfl⟩) hx ?_
      intro g hg
      rcases hg with hg | hg
      · cases hg
        exact .inl hhand
      · exact .inr hg
  · exact h

theorem Sys.calls_ne_off {s : Sys} {t : ℕ} (h : s.calls t = true) : s.pc t ≠ .off := by
  intro hoff
  simp [Sys.calls, hoff] at h

theorem step_known (s : Sys) (o : Op) (h : Known s) : Known (step s o) := by
  have hold : ∀ e ∈ s.fibers, e ∈ s.fibers ∨ ∀ f, e.fiber = some f → f < s.fiberCount := fun e he => .inl he
  unfold step
  split_ifs
  · exact h
  cases o with
  | spawn t =>
    dsimp only
    split_ifs
    · refine h.move (t := t) ?_ rfl (Function.update_eq_self t s.cbFiber).symm le_rfl hold ?_ (fun f _ => ⟨rfl, rfl⟩)
        (fun f => .inl rfl)
      · intro t' hnot
        simp only [List.mem_append, List.mem_singleton, not_or] at hnot
        exact hnot.symm
      · intro f hf
        exact hf.elim (fun hf => by cases hf) fun hcb => .inl (.inr hcb)
    · exact h
  | newFiber => exact h.congr rfl rfl rfl (Nat.le_succ _) rfl rfl rfl
  | drain t =>
    dsimp only
    split_ifs
    · exact h.congr rfl rfl rfl le_rfl rfl rfl rfl
    · exact h
  | work t => exact work_known h t
  | schedule t es =>
    dsimp only
    split_ifs with hcall
    · exact h.push (Sys.calls_ne_off hcall.1) hcall.2.2 fun f hf => .inl hf
    · exact h
  | yieldToHold t | yieldToReady t | finish t | throw t => exact h.swapOut t (by decide)
  | release t last =>
    dsimp only
    split
    · rename_i k f hpc
      split_ifs
      · exact h.congr rfl rfl rfl le_rfl rfl rfl rfl
      · exact h.goto (by simp [hpc]) rfl rfl rfl le_rfl hold rfl rfl (by simp [Pc.hand])
    · exact h
  | stop t n =>
    dsimp only
    split_ifs with hpc
    · refine h.goto (t := t) (by simp [hpc]) rfl rfl rfl le_rfl hold rfl rfl ?_
      simp [iterate_tickle (φ := Pc.hand) (fun _ => rfl), Pc.hand]
    · exact h
  | timerAtFront t =>
    dsimp only
    split_ifs with hcalls
    · exact h.goto (Sys.calls_ne_off hcalls) rfl rfl rfl le_rfl hold rfl rfl fun f hf => .inl (.inl hf)
    · exact h
  | enter t | epollWait t quiet | wake t | leaveIdle t =>
    dsimp only
    split_ifs with hpc
    all_goals first
      | exact h
      | exact h.goto (t := t) (by simp [hpc]) rfl rfl rfl le_rfl hold rfl rfl (by simp [Pc.hand])

/-! ## Fibers about to be swapped in -/

/-- the fiber that a thread is going to swap in or to queue -/
def Pc.awaits : Pc → Option ℕ
  | .dispatch (some ft) => ft.fiber
  | .assertIn _ f | .requeue _ f => some f
  | .tickle _ back | .write _ back => back.awaits
  | _ => none

/-- the thread is going to swap its idle fiber in -/
def Pc.entersIdle : Pc → Bool
  | .idleIn => true
  | .tickle _ back | .write _ back => back.entersIdle
  | _ => false

/-- the fiber whose function a thread runs -/
def Pc.runs : Pc → Option ℕ
  | .running _ f => some f
  | _ => none

/-- the condition on the end of a fiber: it is not queued, and no thread is going to swap it in or to queue it -/
def Sys.FinishFits (s : Sys) (t : ℕ) : Prop :=
  ∀ f ∈ (s.pc t).runs, (∀ e ∈ s.fibers, e.fiber ≠ some f) ∧ ∀ t' ∈ s.threads, (s.pc t').awaits ≠ some f

/-- the condition of a run: that on the end of a fiber, and `schedule` is called with no finished fiber -/
def Unfinished (s : Sys) : Op → Prop
  | .schedule _ es => ∀ e ∈ es, ∀ f ∈ e.fiber, s.state f ≠ .term
  | .finish t => s.FinishFits t
  | _ => True

instance (s : Sys) (t : ℕ) : Decidable (s.FinishFits t) := inferInstanceAs (Decidable (∀ f ∈ (s.pc t).runs, _))

instance (s : Sys) : ∀ o, Decidable (Unfinished s o)
  | .schedule _ es => inferInstanceAs (Decidable (∀ e ∈ es, _))
  | .finish t => inferInstanceAs (Decidable (s.FinishFits t))
  | .spawn _ | .enter _ | .newFiber | .work _ | .yieldToHold _ | .yieldToReady _ | .throw _ | .release _ _
  | .epollWait _ _ | .wake _ | .drain _ | .leaveIdle _ | .stop _ _ | .timerAtFront _ => isTrue trivial

/-- nothing that is queued or about to be swapped in is finished -/
structure Resumable (s : Sys) : Prop where
  queued : ∀ e ∈ s.fibers, ∀ f, e.fiber = some f → s.state f ≠ .term
  awaited : ∀ t f, (s.pc t).awaits = some f → s.state f ≠ .term
  idle : ∀ t, (s.pc t).entersIdle = true → s.idleState t ≠ .term
  idleNoExcept : ∀ t, s.idleState t ≠ .except

theorem resumable_init : Resumable init := by
  refine ⟨?_, ?_, ?_, ?_⟩ <;> simp [init, Pc.awaits, Pc.entersIdle]

/-- thread `t` moves, and no fiber ends -/
theorem Resumable.move {s s' : Sys} (h : Resumable s) {t : ℕ} {p : Pc} {x : State}
    (hpc : s'.pc = Function.update s.pc t p) (hidle : s'.idleState = Function.update s.idleState t x)
    (hstate : ∀ f, s'.state f = .term → s.state f = .term)
    (hqueue : ∀ e ∈ s'.fibers, e ∈ s.fibers ∨ ∀ f, e.fiber = some f → s.state f ≠ .term)
    (hawaits : ∀ f, p.awaits = some f → s.state f ≠ .term ∨ s'.state f ≠ .term)
    (henters : p.entersIdle = true → x ≠ .term) (hx : x ≠ .except) : Resumable s' := by
  refine ⟨?_, ?_, ?_, ?_⟩
  · intro e he f hf hterm
    exact (hqueue e he).elim (fun hold => h.queued e hold f hf (hstate f hterm)) fun hnew => hnew f hf (hstate f hterm)
  · intro t' f hf hterm
    rw [hpc] at hf
    by_cases hne : t' = t
    · rw [hne, Function.update_self] at hf
      exact (hawaits f hf).elim (fun hold => hold (hstate f hterm)) fun hnew => hnew hterm
    · rw [Function.update_of_ne hne] at hf
      exact h.awaited t' f hf (hstate f hterm)
  · intro t' ht'
    rw [hpc] at ht'
    rw [hidle]
    by_cases hne : t' = t
    · rw [hne, Function.update_self] at ht' ⊢
      exact henters ht'
    · rw [Function.update_of_ne hne] at ht' ⊢
      exact h.idle t' ht'
  · intro t'
    rw [hidle]
    by_cases hne : t' = t
    · rwa [hne, Function.update_self]
    · rw [Function.update_of_ne hne]
      exact h.idleNoExcept t'

/-- thread `t` moves, and is not going to swap in anything new -/
theorem Resumable.goto {s s' : Sys} (h : Resumable s) {t : ℕ} {p : Pc} (hpc : s'.pc = Function.update s.pc t p)
    (hidle : s'.idleState = s.idleState) (hstate : ∀ f, s'.state f = .term → s.state f = .term)
    (hqueue : ∀ e ∈ s'.fibers, e ∈ s.fibers ∨ ∀ f, e.fiber = some f → s.state f ≠ .term)
    (hawaits : ∀ f, p.awaits = some f → (s.pc t).awaits = some f ∨ s.state f ≠ .term ∨ s'.state f ≠ .term)
    (henters : p.entersIdle = true → (s.pc t).entersIdle = true) : Resumable s' := by
  refine h.move hpc (x := s.idleState t) (by rw [hidle, Function.update_eq_self]) hstate hqueue ?_
    (fun hp => h.idle t (henters hp)) (h.idleNoExcept t)
  exact fun f hf => (hawaits f hf).elim (fun hold => .inl (h.awaited t f hold)) id

/-- thread `t` moves to where it is not going to swap in anything -/
theorem Resumable.leave {s s' : Sys} (h : Resumable s) {t : ℕ} {p : Pc} (hpc : s'.pc = Function.update s.pc t p)
    (hidle : s'.idleState = s.idleState) (hstate : s'.state = s.state) (hqueue : s'.fibers = s.fibers)
    (hawaits : p.awaits = none) (henters : p.entersIdle = false) : Resumable s' := by
  refine h.goto hpc hidle (by rw [hstate]; exact fun _ => id) (by rw [hqueue]; exact fun e he => .inl he) ?_ ?_
  · intro f hf
    rw [hawaits] at hf
    cases hf
  · intro hp
    rw [henters] at hp
    cases hp

theorem Resumable.congr {s s' : Sys} (h : Resumable s) (hpc : s'.pc = s.pc) (hidle : s'.idleState = s.idleState)
    (hstate : s'.state = s.state) (hqueue : s'.fibers = s.fibers) : Resumable s' :=
  h.goto (t := 0) (p := s.pc 0) (by rw [hpc, Function.update_eq_self]) hidle (by rw [hstate]; exact fun _ => id)
    (by rw [hqueue]; exact fun e he => .inl he) (fun _ hf => .inl hf) id

/-- a fiber gets a state that is not TERM -/
theorem not_term_of_setState {s : Sys} {f : ℕ} {x : State} (hx : x ≠ .term) (g : ℕ) (hg : (s.setState f x).state g = .term) :
    s.state g = .term := by
  by_cases hne : g = f
  · rw [hne] at hg
    simp only [Sys.setState, Function.update_self] at hg
    exact absurd hg hx
  · simpa [Sys.setState, hne] using hg

theorem Resumable.push {s : Sys} (h : Resumable s) {t : ℕ} {es : List FiberAndThread} {back : Pc}
    (hes : ∀ e ∈ es, ∀ f, e.fiber = some f → s.state f ≠ .term)
    (hawaits : ∀ f, back.awaits = some f → (s.pc t).awaits = some f)
    (henters : back.entersIdle = true → (s.pc t).entersIdle = true) : Resumable (s.push t es back) := by
  refine h.goto rfl rfl (fun _ => id) ?_ ?_ ?_
  · intro e he
    exact (List.mem_append.1 he).imp_right fun hnew => hes e (List.mem_of_mem_filter hnew)
  · intro f hf
    split_ifs at hf <;> exact .inl (hawaits f hf)
  · intro hp
    split_ifs at hp <;> exact henters hp

theorem work_resumable {s : Sys} (hk : Known s) (h : Resumable s) (t : ℕ) : Resumable (s.work t) := by
  have habort : Resumable s.abort := h.congr rfl rfl rfl rfl
  have hold : ∀ e ∈ s.fibers, e ∈ s.fibers ∨ ∀ f, e.fiber = some f → s.state f ≠ .term := fun e he => .inl he
  cases hpc : s.pc t with
  | scan =>
    simp only [Sys.work, hpc]
    split_ifs
    all_goals first
      | exact habort
      | refine h.goto rfl rfl (fun _ => id) (fun e he => .inl (mem_of_scan he)) ?_ (by simp [Pc.entersIdle])
        intro f hf
        cases hft : (scan s.state t s.fibers).ft with
        | none => simp [hft, Pc.awaits] at hf
        | some ft =>
          rw [hft] at hf
          exact .inr (.inl (h.queued ft (mem_of_scan_ft hft) f hf))
  | dispatch ft =>
    simp only [Sys.work, hpc]
    cases ft with
    | none =>
      dsimp only
      split_ifs with hterm
      · exact h.leave rfl rfl rfl rfl rfl rfl
      · exact h.move rfl (Function.update_eq_self t s.idleState).symm (fun _ => id) hold (by simp [Pc.awaits])
          (fun _ => hterm) (h.idleNoExcept t)
    | some ft =>
      obtain ⟨task, thread⟩ := ft
      rcases task with _ | f | n
      · exact h.leave rfl rfl rfl rfl rfl rfl
      · -- the test of the state lets every fiber pass
        simp only [State.swappable_true, if_true]
        refine h.goto rfl rfl (fun _ => id) hold ?_ (by simp [Pc.entersIdle])
        intro g hg
        exact .inl (by rw [hpc]; exact hg)
      · dsimp only
        split
        · exact h.leave rfl rfl rfl rfl rfl rfl
        · refine h.goto rfl rfl (fun _ => id) hold ?_ (by simp [Pc.entersIdle])
          intro g hg
          cases hg
          refine .inr (.inl ?_)
          rw [(hk.fresh s.fiberCount le_rfl).1]
          decide
  | resetInit behind f =>
    simp only [Sys.work, hpc]
    split_ifs
    · exact h.goto rfl rfl (not_term_of_setState (by decide)) hold (by simp [Pc.awaits]) (by simp [Pc.entersIdle])
    · refine h.goto rfl rfl (not_term_of_setState (by decide)) hold ?_ (by simp [Pc.entersIdle])
      intro g hg
      cases hg
      refine .inr (.inr ?_)
      simp [Sys.goto, Sys.setState]
  | setExec k f | setHold k f =>
    simp only [Sys.work, hpc]
    exact h.goto rfl rfl (not_term_of_setState (by decide)) hold (by simp [Pc.awaits]) (by simp [Pc.entersIdle])
  | requeue k f =>
    simp only [Sys.work, hpc]
    refine h.push ?_ (by simp [Pc.awaits]) (by simp [Pc.entersIdle])
    intro e he g hg
    rw [List.mem_singleton.1 he] at hg
    cases hg
    exact h.awaited t f (by rw [hpc]; rfl)
  | testReady k f =>
    simp only [Sys.work, hpc]
    split_ifs with hready
    · refine h.goto rfl rfl (fun _ => id) hold ?_ (by simp [Pc.entersIdle])
      intro g hg
      cases hg
      exact .inr (.inl (by rw [hready]; decide))
    · exact h.leave rfl rfl rfl rfl rfl rfl
  | tickle pushed back =>
    simp only [Sys.work, hpc]
    refine h.goto rfl rfl (fun _ => id) hold ?_ ?_
    · intro g hg
      exact .inl (by rw [hpc]; split_ifs at hg <;> exact hg)
    · intro hp
      rw [hpc]
      split_ifs at hp <;> exact hp
  | write pushed back =>
    simp only [Sys.work, hpc]
    refine h.goto rfl rfl (fun _ => id) hold ?_ ?_
    · exact fun g hg => .inl (by rw [hpc]; exact hg)
    · exact fun hp => by rw [hpc]; exact hp
  | idleIn =>
    simp only [Sys.work, hpc]
    split_ifs
    · exact habort
    · exact h.move rfl rfl (fun _ => id) hold (by simp [Pc.awaits]) (by decide) (by decide)
  | idleHold =>
    simp only [Sys.work, hpc]
    split_ifs
    · exact h.leave rfl rfl rfl rfl rfl rfl
    · exact h.move rfl rfl (fun _ => id) hold (by simp [Pc.awaits]) (by decide) (by decide)
  | off | out | release | idleTop | blocked | woken =>
    simp only [Sys.work, hpc]
    exact h
  | running k f =>
    simp only [Sys.work, hpc]
    split_ifs
    · exact habort
    · exact h
  | resetAssert behind f | assertIn k f | testTerm k f =>
    simp only [Sys.work, hpc]
    split_ifs
    all_goals first
      | exact habort
      | exact h.goto rfl rfl (fun _ => id) hold (by cases k <;> simp [Pc.awaits]) (by cases k <;> simp [Pc.entersIdle])
      | exact h.leave rfl rfl rfl rfl rfl rfl
  | switchIn k f | leaving k f | post k f | idleOut =>
    simp only [Sys.work, hpc]
    exact h.leave rfl rfl rfl rfl rfl rfl

theorem Resumable.yield {s : Sys} (h : Resumable s) (t : ℕ) {x : State} {ended : Bool} (hx : x ≠ .term) :
    Resumable (s.swapOut t x ended) := by
  unfold Sys.swapOut
  split
  · split_ifs
    · exact h
    · exact h.goto rfl rfl (not_term_of_setState hx) (fun e he => .inl he) (by simp [Pc.awaits]) (by simp [Pc.entersIdle])
  · exact h

/-- a fiber ends that is neither queued nor about to be swapped in -/
theorem Resumable.finish {s : Sys} (hk : Known s) (h : Resumable s) {t : ℕ} (hfits : s.FinishFits t) :
    Resumable (s.swapOut t .term true) := by
  unfold Sys.swapOut
  split
  · rename_i k f hpc
    split_ifs
    · exact h
    obtain ⟨hqueue, hothers⟩ := hfits f (by rw [hpc]; rfl)
    have hne : ∀ {g}, g ≠ f → (s.setState f .term).state g = s.state g := by
      intro g hg
      simp [Sys.setState, hg]
    refine ⟨?_, ?_, ?_, h.idleNoExcept⟩
    · intro e he g hg
      have hgf : g ≠ f := by
        rintro rfl
        exact hqueue e he hg
      exact (hne hgf).symm ▸ h.queued e he g hg
    · intro t' g hg
      by_cases ht : t' = t
      · simp [Sys.goto, ht, Pc.awaits] at hg
      · replace hg : (s.pc t').awaits = some g := by simpa [Sys.goto, Sys.setState, ht] using hg
        have hmem : t' ∈ s.threads := by
          by_contra hnot
          rw [(hk.off t' hnot).1] at hg
          cases hg
        have hgf : g ≠ f := by
          rintro rfl
          exact hothers t' hmem hg
        exact (hne hgf).symm ▸ h.awaited t' g hg
    · intro t' ht'
      by_cases ht : t' = t
      · simp [Sys.goto, ht, Pc.entersIdle] at ht'
      · exact h.idle t' (by simpa [Sys.goto, Sys.setState, ht] using ht')
  · exact h

theorem step_resumable (s : Sys) (o : Op) (hk : Known s) (h : Resumable s) (hfits : Unfinished s o) :
    Resumable (step s o) := by
  have hold : ∀ e ∈ s.fibers, e ∈ s.fibers ∨ ∀ f, e.fiber = some f → s.state f ≠ .term := fun e he => .inl he
  unfold step
  split_ifs
  · exact h
  cases o with
  | newFiber => exact h.congr rfl rfl rfl rfl
  | drain t =>
    dsimp only
    split_ifs
    · exact h.congr rfl rfl rfl rfl
    · exact h
  | work t => exact work_resumable hk h t
  | schedule t es =>
    dsimp only
    split_ifs
    · exact h.push hfits (fun _ => id) id
    · exact h
  | yieldToHold t | yieldToReady t | throw t => exact h.yield t (by decide)
  | finish t => exact h.finish hk hfits
  | release t last =>
    dsimp only
    split
    · split_ifs
      · exact h.congr rfl rfl rfl rfl
      · exact h.leave rfl rfl rfl rfl rfl rfl
    · exact h
  | enter t =>
    dsimp only
    split_ifs
    · exact h.move rfl rfl (fun _ => id) hold (by simp [Pc.awaits]) (by decide) (by decide)
    · exact h
  | epollWait t quiet =>
    dsimp only
    split_ifs
    · exact h.move rfl rfl (fun _ => id) hold (by simp [Pc.awaits]) (by simp [Pc.entersIdle]) (by decide)
    · exact h.leave rfl rfl rfl rfl rfl rfl
    · exact h
  | stop t n =>
    dsimp only
    split_ifs
    · refine h.goto rfl rfl (fun _ => id) hold ?_ ?_
      · simp [iterate_tickle (φ := Pc.awaits) (fun _ => rfl), Pc.awaits]
      · simp [iterate_tickle (φ := Pc.entersIdle) (fun _ => rfl), Pc.entersIdle]
    · exact h
  | timerAtFront t =>
    dsimp only
    split_ifs
    · exact h.goto rfl rfl (fun _ => id) hold (fun f hf => .inl hf) id
    · exact h
  | spawn t | wake t | leaveIdle t =>
    dsimp only
    split_ifs
    all_goals first
      | exact h
      | exact h.leave rfl rfl rfl rfl rfl rfl

/-! ## Main results -/

/-- no thread calls swapIn on a finished fiber, or on an idle fiber that is finished -/
def NoneResumed (s : Sys) : Prop :=
  (∀ t k f, s.pc t = .assertIn k f → s.state f ≠ .term ∧ s.state f ≠ .except) ∧
    ∀ t, s.pc t = .idleIn → s.idleState t ≠ .term ∧ s.idleState t ≠ .except

theorem Resumable.noneResumed {s : Sys} (hk : Known s) (h : Resumable s) : NoneResumed s := by
  refine ⟨fun t k f hpc => ?_, fun t hpc => ?_⟩
  · exact ⟨h.awaited t f (by rw [hpc]; rfl), hk.noExcept f⟩
  · exact ⟨h.idle t (by rw [hpc]; rfl), h.idleNoExcept t⟩

/-- **No finished fiber is resumed.** In every run in which `schedule` is called with no finished fiber, and none
finishes while it is queued or another thread is about to swap it in or to queue it, no thread is in front of swapIn's
assertion with a finished fiber, in any state of the run. -/
theorem finished_never_resumed (ops : List Op) (h : Guarded step Unfinished init ops) :
    ∀ pre, pre <+: ops → NoneResumed (run step init pre) := by
  intro pre hpre
  obtain ⟨hknown, hresumable⟩ := states_inv_both step_known step_resumable known_init resumable_init h pre hpre
  exact hresumable.noneResumed hknown

/-- a fiber runs to its end on worker 1, which goes back to the scan; another one is swapped in behind it -/
def twoFibersTrace : List Op :=
  swapInTrace ++ ([.newFiber, .schedule 0 [⟨some (.fiber 1), -1⟩], .work 0, .finish 1, .work 1, .work 1, .work 1, .work 1,
    .release 1 false, .work 1, .work 1] : List Op)

theorem finished_never_resumed_example :
    (run step init twoFibersTrace).pc 1 = .assertIn .fiber 1 ∧ (run step init twoFibersTrace).state 0 = .term ∧
      ∀ pre, pre <+: twoFibersTrace → NoneResumed (run step init pre) :=
  ⟨by decide, by decide, finished_never_resumed twoFibersTrace (by decide)⟩

/-- the fiber is scheduled again while it runs, and ends; the worker takes the second entry -/
def scheduledTwiceTrace : List Op :=
  swapInTrace ++ ([.schedule 0 [⟨some (.fiber 0), -1⟩], .work 0, .finish 1, .work 1, .work 1, .work 1, .work 1,
    .release 1 false, .work 1, .work 1] : List Op)

/-- **A finished fiber is resumed.** The test lets TERM pass, swapIn is called, and behind it the program aborts on the
stack of the fiber. -/
theorem finished_resumed :
    let s := run step init scheduledTwiceTrace
    ¬ NoneResumed s ∧ s.pc 1 = .assertIn .fiber 0 ∧ s.state 0 = .term ∧ s.aborted = false ∧
      (run step s [.work 1, .work 1, .work 1, .work 1]).aborted = true := by
  have hpc : (run step init scheduledTwiceTrace).pc 1 = .assertIn .fiber 0 := by decide
  have hstate : (run step init scheduledTwiceTrace).state 0 = .term := by decide
  refine ⟨?_, hpc, hstate, by decide, by decide⟩
  intro h
  exact (h.1 1 .fiber 0 hpc).1 hstate

end Sylar.Scheduler

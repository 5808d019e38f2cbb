/-
No task is lost and none is run twice.

A ledger is kept beside the run of the scheduler: an entry is accepted when `schedule` or the re-queueing of `run` pushes
it, taken by the scan, and done when `run` decrements `m_activeThreadCount`. The ledger only reads the states; that its
queue is `m_fibers` and that its hands are the workers counted active is proved.

Results:
- `scheduleRange_eq`: the loop of `schedule` on a range appends the tasks that are not null, and leaves none to the caller;
- `step_kept`: the ledger agrees with the scheduler after every step;
- `tasks_kept`: every entry is in one place, taken at most once, by a thread that it allows and in queue order, over all
  interleavings;
- `slice_on_allowed_worker`: a slice that an entry starts is run by a worker that the entry allows;
- `pin_is_lost`: a fiber scheduled for one worker yields READY, and another worker runs it on.
-/
import Sylar.Scheduler.Model
import Sylar.Core.Count
import Sylar.Core.Ledger

namespace Sylar.Scheduler

open Sylar.Run Sylar.Count

/-! ## The range form of schedule -/

/-- `FiberAndThread(T* f, int thr)` swaps the task out of its place: the entry and what the caller is left with -/
def FiberAndThread.swapped (place : Option Task) (thread : ℤ) : FiberAndThread × Option Task := (⟨place, thread⟩, none)

/-- need_tickle and the queue -/
def scheduleNoLock (fibers : List FiberAndThread) (ft : FiberAndThread) : Bool × List FiberAndThread :=
  (fibers.isEmpty, if ft.task.isSome then fibers ++ [ft] else fibers)

/-- the loop of `schedule` on a range: need_tickle, the queue, and the range behind it -/
def scheduleRange : List FiberAndThread → Bool → List (Option Task) → Bool × List FiberAndThread × List (Option Task)
  | fibers, need, [] => (need, fibers, [])
  | fibers, need, place :: places =>
    let ft := FiberAndThread.swapped place (-1)
    let r := scheduleNoLock fibers ft.1
    let rest := scheduleRange r.2 (r.1 || need) places
    (rest.1, rest.2.1, ft.2 :: rest.2.2)

/-- the loop is one step of `schedule` with the entries of the range -/
theorem scheduleRange_eq (fibers : List FiberAndThread) (need : Bool) (places : List (Option Task)) :
    let es := places.map fun p => (⟨p, -1⟩ : FiberAndThread)
    scheduleRange fibers need places =
      (need || fibers.isEmpty && !es.isEmpty, fibers ++ es.filter (·.task.isSome), places.map fun _ => none) := by
  induction places generalizing fibers need with
  | nil => simp [scheduleRange]
  | cons p places ih =>
    dsimp only at ih ⊢
    simp only [scheduleRange, FiberAndThread.swapped, scheduleNoLock, ih]
    cases p <;> cases fibers <;> cases need <;> simp

/-! ## The ledger beside the run -/

/-- what is ahead of the entry that the scan of thread `t` takes -/
def Sys.ahead (s : Sys) (t : ℕ) : List FiberAndThread := s.fibers.takeWhile fun e => !e.takeable s.state t

/-- what an operation writes into the ledger -/
def record (s : Sys) (l : Ledger FiberAndThread ℕ) (o : Op) : Ledger FiberAndThread ℕ :=
  if s.aborted then l
  else match o with
    | .schedule t es =>
      if s.calls t ∧ (es.length ≤ 1 ∨ ∀ e ∈ es, e.thread = -1) ∧ ∀ e ∈ es, ∀ f ∈ e.fiber, f < s.fiberCount then
        l.accept (es.filter (·.task.isSome))
      else l
    | .work t =>
      match s.pc t with
      | .scan => if (scan s.state t s.fibers).ft.isSome then l.take t (s.ahead t).length else l
      | .dispatch (some ft) =>
        match ft.task with
        | some (.fiber f) => if (s.state f).swappable then l else l.settle t
        | some (.cb _) => l
        | none => l.settle t
      | .post _ _ => l.settle t
      | .requeue _ f => l.accept [⟨some (.fiber f), -1⟩]
      | _ => l
    | _ => l

/-- the scheduler and the ledger after a run -/
def ledgerRun (ops : List Op) : Sys × Ledger FiberAndThread ℕ := run (beside step record) (init, .empty) ops

theorem ledgerRun_fst (ops : List Op) : (ledgerRun ops).1 = run step init ops := run_beside_fst record _ ops

/-! ## Threads with an entry -/

/-- the slice on fiber `f` is that of the entry -/
def Slice.Of (e : FiberAndThread) (f : ℕ) : Slice → Prop
  | .fiber => e.fiber = some f
  | .cb => ∃ n, e.task = some (.cb n)

/-- the thread has taken an entry and not decremented `m_activeThreadCount` for it -/
def Pc.busy : Pc → Bool
  | .dispatch ft => ft.isSome
  | .resetAssert behind _ | .resetInit behind _ => !behind
  | .assertIn _ _ | .setExec _ _ | .switchIn _ _ | .running _ _ | .leaving _ _ | .post _ _ => true
  | .tickle _ back | .write _ back => back.busy
  | _ => false

/-- a busy thread works on the entry -/
def Pc.Carries (e : FiberAndThread) : Pc → Prop
  | .dispatch ft => ft = some e
  | .resetAssert _ f | .resetInit _ f => Slice.cb.Of e f
  | .assertIn k f | .setExec k f | .switchIn k f | .running k f | .leaving k f | .post k f => k.Of e f
  | .tickle _ back | .write _ back => back.Carries e
  | _ => False

/-- the ledger agrees with the scheduler -/
structure Kept (s : Sys) (l : Ledger FiberAndThread ℕ) : Prop where
  sound : l.Sound
  queue : l.Queues s.fibers
  nonnull : ∀ e ∈ l.accepted, e.task.isSome = true
  busy : ∀ t, (s.pc t).busy = (l.hand t).isSome
  carries : ∀ t i, l.hand t = some i → ∃ e, l.accepted[i]? = some e ∧ e.allows t = true ∧ (s.pc t).Carries e
  active : Counts (fun t => (s.pc t).busy = true) s.activeThreadCount

theorem kept_init : Kept init .empty := by
  refine ⟨Ledger.sound_empty, rfl, by simp [Ledger.empty], fun _ => rfl, ?_, ?_⟩
  · intro t i hi
    cases hi
  · exact Counts.none fun t => by simp [init, Pc.busy]

/-- a thread moves, and neither takes nor lets go of an entry -/
theorem Kept.goto {s s' : Sys} {l : Ledger FiberAndThread ℕ} (h : Kept s l) {t : ℕ} {p : Pc}
    (hpc : s'.pc = Function.update s.pc t p) (hqueue : s'.fibers = s.fibers)
    (hactive : s'.activeThreadCount = s.activeThreadCount) (hbusy : p.busy = (s.pc t).busy)
    (hcarries : ∀ e, (s.pc t).Carries e → p.busy = true → p.Carries e) : Kept s' l := by
  have hsame : ∀ t', (s'.pc t').busy = (s.pc t').busy := by
    intro t'
    rw [hpc]
    by_cases ht : t' = t
    · rw [ht, Function.update_self, hbusy]
    · rw [Function.update_of_ne ht]
  refine ⟨h.sound, by rw [hqueue]; exact h.queue, h.nonnull, ?_, ?_, ?_⟩
  · intro t'
    rw [hsame, h.busy]
  · intro t' i hi
    obtain ⟨e, he, hallow, hcarry⟩ := h.carries t' i hi
    refine ⟨e, he, hallow, ?_⟩
    rw [hpc]
    by_cases ht : t' = t
    · subst ht
      rw [Function.update_self]
      exact hcarries e hcarry (by rw [hbusy, h.busy, hi]; rfl)
    · rwa [Function.update_of_ne ht]
  · rw [hactive]
    exact h.active.congr fun t' => by rw [hsame]

theorem Kept.congr {s s' : Sys} {l : Ledger FiberAndThread ℕ} (h : Kept s l) (hpc : s'.pc = s.pc)
    (hqueue : s'.fibers = s.fibers) (hactive : s'.activeThreadCount = s.activeThreadCount) : Kept s' l :=
  h.goto (t := 0) (p := s.pc 0) (by rw [hpc, Function.update_eq_self]) hqueue hactive rfl fun _ hcarry _ => hcarry

/-- entries are pushed -/
theorem Kept.accept {s s' : Sys} {l : Ledger FiberAndThread ℕ} (h : Kept s l) {es : List FiberAndThread} (hpc : s'.pc = s.pc)
    (hqueue : s'.fibers = s.fibers ++ es) (hactive : s'.activeThreadCount = s.activeThreadCount)
    (hnonnull : ∀ e ∈ es, e.task.isSome = true) : Kept s' (l.accept es) := by
  refine ⟨h.sound.accept es, by rw [hqueue]; exact h.queue.accept h.sound es, ?_, by rw [hpc]; exact h.busy, ?_,
    by rw [hpc, hactive]; exact h.active⟩
  · intro e he
    exact (List.mem_append.1 he).elim (h.nonnull e) (hnonnull e)
  · intro t i hi
    obtain ⟨e, he, hallow, hcarry⟩ := h.carries t i hi
    refine ⟨e, ?_, hallow, by rwa [hpc]⟩
    exact (List.getElem?_append_left (List.getElem?_eq_some_iff.1 he).1).trans he

/-- the counter is decremented -/
theorem Kept.settle {s s' : Sys} {l : Ledger FiberAndThread ℕ} (h : Kept s l) {t : ℕ} {p : Pc}
    (hpc : s'.pc = Function.update s.pc t p) (hqueue : s'.fibers = s.fibers)
    (hactive : s'.activeThreadCount = s.activeThreadCount - 1) (hbusy : (s.pc t).busy = true) (hidle : p.busy = false) :
    Kept s' (l.settle t) := by
  obtain ⟨i, hi⟩ := Option.isSome_iff_exists.1 ((h.busy t).symm.trans hbusy)
  have hsound := h.sound.settle t
  rw [Ledger.settle_of_hand hi] at hsound ⊢
  refine ⟨hsound, by rw [hqueue]; exact h.queue, h.nonnull, ?_, ?_, ?_⟩
  · intro t'
    rw [hpc]
    by_cases ht : t' = t
    · subst ht
      simp [hidle]
    · simp [ht, h.busy t']
  · intro t' j hj
    dsimp only at hj
    by_cases ht : t' = t
    · rw [ht, Function.update_self] at hj
      cases hj
    · rw [Function.update_of_ne ht] at hj
      rw [hpc, Function.update_of_ne ht]
      exact h.carries t' j hj
  · rw [hactive]
    apply h.active.lose (a := t) hbusy
    intro t'
    rw [hpc]
    by_cases ht : t' = t
    · subst ht
      simp [hidle]
    · simp [ht]

/-! ## Steps -/

theorem scan_asserted {state : ℕ → State} {t : ℕ} {l : List FiberAndThread} (h : (scan state t l).ft.isSome = true) :
    (scan state t l).asserted = true := by
  induction l with
  | nil => rfl
  | cons e es ih =>
    unfold scan at h ⊢
    dsimp only at h ⊢
    split_ifs at h ⊢ with hallow hnull hexec
    · exact ih h
    · cases h
    · exact ih h
    · rfl

/-- what the scan takes is behind `ahead`, and nothing there may be taken -/
theorem scan_ahead {s : Sys} {t : ℕ} {ft : FiberAndThread} (hft : (scan s.state t s.fibers).ft = some ft) :
    ∃ b, s.fibers = s.ahead t ++ ft :: b ∧ (scan s.state t s.fibers).fibers = s.ahead t ++ b ∧
      ft.takeable s.state t = true ∧ ∀ e ∈ s.ahead t, e.takeable s.state t = false := by
  obtain ⟨a, b, hl, hfibers, htake, ha⟩ := scan_some hft
  have hahead : s.ahead t = a := by
    unfold Sys.ahead
    rw [hl, List.takeWhile_append_of_pos (by simpa using ha), List.takeWhile_cons_of_neg (by simp [htake]),
      List.append_nil]
  exact ⟨b, by rw [hahead, hl], by rw [hahead, hfibers], htake, by rwa [hahead]⟩

theorem Kept.scan {s : Sys} {l : Ledger FiberAndThread ℕ} (h : Kept s l) (hlive : s.aborted = false) {t : ℕ}
    (hpc : s.pc t = .scan) : Kept (s.work t) (record s l (.work t)) := by
  have hidle : (s.pc t).busy = false := by rw [hpc]; rfl
  simp only [Sys.work, record, hpc, hlive, Bool.false_eq_true, if_false]
  cases hft : (Scheduler.scan s.state t s.fibers).ft with
  | none =>
    simp only [Option.isSome_none, Bool.false_eq_true, if_false, Nat.add_zero]
    split
    · rename_i hok
      refine h.goto rfl (scan_none hok hft).1 rfl ?_ ?_
      · rw [hidle]
        split_ifs <;> rfl
      · intro e hcarry
        rw [hpc] at hcarry
        exact hcarry.elim
    · exact h.congr rfl rfl rfl
  | some ft =>
    have hsome : (Scheduler.scan s.state t s.fibers).ft.isSome = true := by rw [hft]; rfl
    simp only [Option.isSome_some, scan_asserted hsome, if_true]
    generalize hp : (if (Scheduler.scan s.state t s.fibers).tickleMe = true then
      Pc.tickle false (.dispatch (some ft)) else .dispatch (some ft)) = p
    have hp' : p.busy = true ∧ p.Carries ft := by
      rw [← hp]
      split_ifs <;> exact ⟨rfl, rfl⟩
    obtain ⟨b, hl, hfibers, htake, -⟩ := scan_ahead hft
    have hnone : l.hand t = none := by
      rw [← Option.isNone_iff_eq_none, ← Option.not_isSome, ← h.busy t, hidle]
      rfl
    have hsound := h.sound.take hnone (s.ahead t).length
    have hqueue := h.queue
    rw [hl] at hqueue
    obtain ⟨a, i, rest, -, hi, -, htaken, hqueues⟩ := hqueue.take t
    rw [htaken] at hsound hqueues ⊢
    refine ⟨hsound, by rw [hfibers]; exact hqueues, h.nonnull, ?_, ?_, ?_⟩
    · intro t'
      by_cases ht : t' = t
      · subst ht
        simp [Sys.goto, hp'.1]
      · simp [Sys.goto, ht, h.busy t']
    · intro t' j hj
      by_cases ht : t' = t
      · subst ht
        simp only [Function.update_self, Option.some.injEq] at hj
        subst hj
        refine ⟨ft, hi, ?_, by simpa [Sys.goto] using hp'.2⟩
        exact ((Bool.and_eq_true _ _).mp htake).1
      · simp only [ne_eq, ht, not_false_eq_true, Function.update_of_ne] at hj
        simpa [Sys.goto, ht] using h.carries t' j hj
    · apply h.active.gain (a := t) (by simp [hidle])
      intro t'
      by_cases ht : t' = t
      · subst ht
        simp [Sys.goto, hp'.1]
      · simp [Sys.goto, ht]

theorem Kept.push {s : Sys} {l : Ledger FiberAndThread ℕ} (h : Kept s l) {t : ℕ} (es : List FiberAndThread) {back : Pc}
    (hbusy : back.busy = (s.pc t).busy) (hcarries : ∀ e, (s.pc t).Carries e → back.busy = true → back.Carries e) :
    Kept (s.push t es back) (l.accept (es.filter (·.task.isSome))) := by
  unfold Sys.push
  generalize hp : (if s.fibers.isEmpty && !es.isEmpty then Pc.tickle true back else back) = p
  have hp' : p.busy = back.busy ∧ ∀ e, p.Carries e ↔ back.Carries e := by
    rw [← hp]
    split_ifs <;> exact ⟨rfl, fun _ => Iff.rfl⟩
  have hgoto : Kept (s.goto t p) l := by
    refine h.goto rfl rfl rfl (hp'.1.trans hbusy) ?_
    intro e hcarry hb
    exact (hp'.2 e).2 (hcarries e hcarry (hp'.1 ▸ hb))
  exact hgoto.accept rfl rfl rfl fun e he => (List.mem_filter.1 he).2

theorem work_kept {s : Sys} {l : Ledger FiberAndThread ℕ} (h : Kept s l) (hlive : s.aborted = false) (t : ℕ) :
    Kept (s.work t) (record s l (.work t)) := by
  have habort : Kept s.abort l := h.congr rfl rfl rfl
  cases hpc : s.pc t with
  | scan => exact h.scan hlive hpc
  | dispatch ft =>
    simp only [Sys.work, record, hpc, hlive, Bool.false_eq_true, if_false]
    cases ft with
    | none =>
      dsimp only
      split_ifs <;> refine h.goto rfl rfl rfl ?_ ?_ <;> simp [hpc, Pc.busy]
    | some ft =>
      -- the task is not null, and the test of the state holds
      obtain ⟨task, thread⟩ := ft
      rcases task with _ | f | n
      · refine h.settle rfl rfl rfl ?_ ?_ <;> simp [hpc, Pc.busy]
      · simp only [State.swappable_true, if_true]
        refine h.goto rfl rfl rfl (by simp [hpc, Pc.busy]) ?_
        intro e hcarry _
        rw [hpc] at hcarry
        cases hcarry
        rfl
      · dsimp only
        have hcb : ∀ e, (s.pc t).Carries e → ∀ f, Slice.cb.Of e f := by
          intro e hcarry f
          rw [hpc] at hcarry
          cases hcarry
          exact ⟨n, rfl⟩
        split <;> refine h.goto rfl rfl rfl (by simp [hpc, Pc.busy]) ?_ <;> exact fun e hcarry _ => hcb e hcarry _
  | resetAssert behind f =>
    simp only [Sys.work, record, hpc, hlive, Bool.false_eq_true, if_false]
    split_ifs
    · refine h.goto rfl rfl rfl (by simp [hpc, Pc.busy]) ?_
      rw [hpc]
      exact fun e hcarry _ => hcarry
    · exact habort
  | resetInit behind f =>
    simp only [Sys.work, record, hpc, hlive, Bool.false_eq_true, if_false]
    split_ifs with hbehind
    · refine h.goto rfl rfl rfl ?_ ?_ <;> simp [hpc, Pc.busy, hbehind]
    · refine h.goto rfl rfl rfl (by simp [hpc, Pc.busy, hbehind]) ?_
      rw [hpc]
      exact fun e hcarry _ => hcarry
  | assertIn k f =>
    simp only [Sys.work, record, hpc, hlive, Bool.false_eq_true, if_false]
    split_ifs
    · exact habort
    · refine h.goto rfl rfl rfl (by simp [hpc, Pc.busy]) ?_
      rw [hpc]
      exact fun e hcarry _ => hcarry
  | running k f =>
    simp only [Sys.work, record, hpc, hlive, Bool.false_eq_true, if_false]
    split_ifs
    · exact habort
    · exact h
  | post k f =>
    simp only [Sys.work, record, hpc, hlive, Bool.false_eq_true, if_false]
    refine h.settle rfl rfl rfl ?_ ?_ <;> simp [hpc, Pc.busy]
  | requeue k f =>
    simp only [Sys.work, record, hpc, hlive, Bool.false_eq_true, if_false]
    refine h.push [⟨some (.fiber f), -1⟩] ?_ ?_ <;> simp [hpc, Pc.busy]
  | tickle pushed back =>
    simp only [Sys.work, record, hpc, hlive, Bool.false_eq_true, if_false]
    refine h.goto rfl rfl rfl ?_ ?_
    · rw [hpc]
      split_ifs <;> rfl
    · rw [hpc]
      intro e hcarry _
      split_ifs <;> exact hcarry
  | off | out | release | idleTop | blocked | woken =>
    simp only [Sys.work, record, hpc, hlive, Bool.false_eq_true, if_false]
    exact h
  | idleIn =>
    simp only [Sys.work, record, hpc, hlive, Bool.false_eq_true, if_false]
    split_ifs
    · exact habort
    · refine h.goto rfl rfl rfl ?_ ?_ <;> simp [hpc, Pc.busy]
  | testReady k f | testTerm k f =>
    simp only [Sys.work, record, hpc, hlive, Bool.false_eq_true, if_false]
    split_ifs <;> refine h.goto rfl rfl rfl ?_ ?_ <;> cases k <;> simp [hpc, Pc.busy]
  | setHold | idleOut =>
    simp only [Sys.work, record, hpc, hlive, Bool.false_eq_true, if_false]
    refine h.goto rfl rfl rfl ?_ ?_ <;> simp [hpc, Pc.busy]
  | idleHold =>
    simp only [Sys.work, record, hpc, hlive, Bool.false_eq_true, if_false]
    split_ifs <;> refine h.goto rfl rfl rfl ?_ ?_ <;> simp [hpc, Pc.busy]
  | setExec | switchIn | leaving | write =>
    simp only [Sys.work, record, hpc, hlive, Bool.false_eq_true, if_false]
    refine h.goto rfl rfl rfl (by simp [hpc, Pc.busy]) ?_
    rw [hpc]
    exact fun e hcarry _ => hcarry

theorem Kept.swapOut {s : Sys} {l : Ledger FiberAndThread ℕ} (h : Kept s l) (t : ℕ) (x : State) (ended : Bool) :
    Kept (s.swapOut t x ended) l := by
  unfold Sys.swapOut
  split
  · rename_i k f hpc
    split_ifs
    · exact h
    · refine h.goto rfl rfl rfl (by simp [hpc, Pc.busy]) ?_
      rw [hpc]
      exact fun e hcarry _ => hcarry
  · exact h

theorem step_kept (s : Sys) (l : Ledger FiberAndThread ℕ) (o : Op) (h : Kept s l) : Kept (step s o) (record s l o) := by
  by_cases hlive : s.aborted = true
  · simpa only [step, record, hlive, if_true] using h
  rw [Bool.not_eq_true] at hlive
  cases o with
  | work t =>
    have := work_kept h hlive t
    simpa only [step, hlive, Bool.false_eq_true, if_false] using this
  | schedule t es =>
    simp only [step, record, hlive, Bool.false_eq_true, if_false]
    split_ifs
    · exact h.push es rfl fun e hcarry _ => hcarry
    · exact h
  | newFiber | drain =>
    simp only [step, record, hlive, Bool.false_eq_true, if_false]
    (try split_ifs) <;> exact h.congr rfl rfl rfl
  | yieldToHold t | yieldToReady t | finish t | throw t =>
    simp only [step, record, hlive, Bool.false_eq_true, if_false]
    exact h.swapOut t _ _
  | release t last =>
    simp only [step, record, hlive, Bool.false_eq_true, if_false]
    split
    · rename_i k f hpc
      split_ifs
      · exact h.congr rfl rfl rfl
      · refine h.goto rfl rfl rfl ?_ ?_ <;> simp [hpc, Pc.busy]
    · exact h
  | stop t n =>
    simp only [step, record, hlive, Bool.false_eq_true, if_false]
    split_ifs with hpc
    · refine h.goto rfl rfl rfl ?_ ?_ <;>
        simp [hpc, iterate_tickle (φ := Pc.busy) (fun _ => rfl), Pc.busy]
    · exact h
  | timerAtFront t =>
    simp only [step, record, hlive, Bool.false_eq_true, if_false]
    split_ifs
    · exact h.goto rfl rfl rfl rfl fun e hcarry _ => hcarry
    · exact h
  | spawn t | enter t | epollWait t quiet | wake t | leaveIdle t =>
    simp only [step, record, hlive, Bool.false_eq_true, if_false]
    split_ifs with hpc
    all_goals first
      | exact h
      | refine h.goto rfl rfl rfl ?_ ?_ <;> simp [hpc, Pc.busy]

/-- the ledger agrees with the scheduler in every state -/
theorem ledgerRun_kept (ops : List Op) : Kept (ledgerRun ops).1 (ledgerRun ops).2 := by
  have hstep : ∀ (g : Sys × Ledger FiberAndThread ℕ) o, Kept g.1 g.2 →
      Kept (beside step record g o).1 (beside step record g o).2 := fun g o h => step_kept g.1 g.2 o h
  exact run_preserves (fun g o h => hstep g o h) kept_init ops

/-! ## Tasks -/

/-- entry `i` is the first one in the queue that thread `t` may take -/
def TakesFirst (s : Sys) (l : Ledger FiberAndThread ℕ) (t i : ℕ) : Prop :=
  ∃ ahead behind e, l.queue = ahead ++ i :: behind ∧ l.accepted[i]? = some e ∧
    ((e.thread = -1 ∨ e.thread = t) ∧ e.executing s.state = false) ∧
    ∀ j ∈ ahead, ∀ x, l.accepted[j]? = some x → ¬ ((x.thread = -1 ∨ x.thread = t) ∧ x.executing s.state = false)

theorem takeable_iff {e : FiberAndThread} {state : ℕ → State} {t : ℕ} :
    e.takeable state t = true ↔ (e.thread = -1 ∨ e.thread = t) ∧ e.executing state = false := by
  simp [FiberAndThread.takeable, FiberAndThread.allows]

/-- an entry only comes into a hand by the scan -/
theorem Kept.takes_first {s : Sys} {l : Ledger FiberAndThread ℕ} (h : Kept s l) {o : Op} {t i : ℕ}
    (hi : (record s l o).hand t = some i) : l.hand t = some i ∨ TakesFirst s l t i := by
  unfold record at hi
  split at hi
  · exact .inl hi
  cases o with
  | schedule t' es =>
    dsimp only at hi
    split_ifs at hi <;> exact .inl hi
  | work t' =>
    dsimp only at hi
    split at hi
    · split at hi
      · rename_i hpc hsome
        obtain ⟨ft, hft⟩ := Option.isSome_iff_exists.1 hsome
        obtain ⟨b, hl, -, htake, hahead⟩ := scan_ahead hft
        have hqueue := h.queue
        rw [hl] at hqueue
        obtain ⟨a, j, rest, hq, hj, ha, htaken, -⟩ := hqueue.take t'
        rw [htaken] at hi
        by_cases ht : t = t'
        · subst ht
          simp only [Function.update_self, Option.some.injEq] at hi
          subst hi
          refine .inr ⟨a, rest, ft, hq, hj, takeable_iff.1 htake, ?_⟩
          intro m hm x hx hmay
          have hxa : some x ∈ (s.ahead t).map some := by
            rw [← ha, ← hx]
            exact List.mem_map_of_mem hm
          obtain ⟨y, hy, hxy⟩ := List.mem_map.1 hxa
          cases hxy
          have hnot := hahead x hy
          rw [takeable_iff.2 hmay] at hnot
          cases hnot
        · simp only [ne_eq, ht, not_false_eq_true, Function.update_of_ne] at hi
          exact .inl hi
      · exact .inl hi
    · split at hi
      · split_ifs at hi
        · exact .inl hi
        · exact .inl (Ledger.hand_of_settle hi)
      · exact .inl hi
      · exact .inl (Ledger.hand_of_settle hi)
    · exact .inl (Ledger.hand_of_settle hi)
    · exact .inl hi
    · exact .inl hi
  | _ => exact .inl hi

/-- the entries that `run` makes are for any thread -/
theorem record_work_accepted {s : Sys} {l : Ledger FiberAndThread ℕ} {t : ℕ} {e : FiberAndThread}
    (he : e ∈ (record s l (.work t)).accepted) : e ∈ l.accepted ∨ e.thread = -1 := by
  unfold record at he
  split at he
  · exact .inl he
  dsimp only at he
  split at he
  · split_ifs at he
    · rw [Ledger.take_accepted] at he
      exact .inl he
    · exact .inl he
  · split at he
    · split_ifs at he
      · exact .inl he
      · rw [Ledger.settle_accepted] at he
        exact .inl he
    · exact .inl he
    · rw [Ledger.settle_accepted] at he
      exact .inl he
  · rw [Ledger.settle_accepted] at he
    exact .inl he
  · refine (List.mem_append.1 he).imp_right fun hnew => ?_
    rw [List.mem_singleton.1 hnew]
  · exact .inl he

theorem ledgerRun_snoc (ops : List Op) (o : Op) :
    (ledgerRun (ops ++ [o])).2 = record (run step init ops) (ledgerRun ops).2 o := by
  rw [← ledgerRun_fst]
  simp only [ledgerRun, run_append, run_cons, run_nil, beside]

/-! ## Main results -/

/-- **No task is lost or run twice.** In every state of every run `m_fibers` holds the queued entries of the ledger in
order; an accepted entry is not null, is queued, in the hand of one thread or done, and in one of these places only; it is
queued at one position and taken once at most. The thread whose hand it is in works on it, has not decremented
`m_activeThreadCount` yet, and these threads are the ones counted. A thread only takes the first entry it may take. -/
theorem tasks_kept (ops : List Op) :
    let s := run step init ops
    let l := (ledgerRun ops).2
    l.Queues s.fibers ∧ (∀ e ∈ l.accepted, e.task.isSome = true) ∧
      (∀ i < l.accepted.length, ∃! p, l.At i p) ∧ l.queue.Nodup ∧ (l.taken.map Prod.snd).Nodup ∧
      (∀ t i, l.hand t = some i → ∃ e, l.accepted[i]? = some e ∧ (s.pc t).Carries e) ∧
      (∀ t, (l.hand t).isSome = (s.pc t).busy) ∧ Counts (fun t => (l.hand t).isSome = true) s.activeThreadCount ∧
      ∀ o t i, (ledgerRun (ops ++ [o])).2.hand t = some i → l.hand t = some i ∨ TakesFirst s l t i := by
  have h := ledgerRun_kept ops
  rw [ledgerRun_fst] at h
  refine ⟨h.queue, h.nonnull, fun i => h.sound.exactly_one, h.sound.queueOnce, h.sound.takenOnce, ?_, ?_, ?_, ?_⟩
  · intro t i hi
    obtain ⟨e, he, -, hcarry⟩ := h.carries t i hi
    exact ⟨e, he, hcarry⟩
  · exact fun t => (h.busy t).symm
  · exact h.active.congr fun t => by rw [h.busy]
  · intro o t i hi
    rw [ledgerRun_snoc] at hi
    exact h.takes_first hi

/-- the slice on whose stack the thread is -/
def Pc.slice : Pc → Option (Slice × ℕ)
  | .running k f | .leaving k f => some (k, f)
  | .tickle _ back | .write _ back => back.slice
  | _ => none

theorem Pc.slice_carries {p : Pc} {k : Slice} {f : ℕ} (h : p.slice = some (k, f)) :
    p.busy = true ∧ ∀ e, p.Carries e → k.Of e f := by
  induction p with
  | tickle _ _ ih | write _ _ ih => exact ih h
  | running | leaving =>
    cases h
    exact ⟨rfl, fun _ => id⟩
  | _ => cases h

/-- **A slice runs where its entry allows.** In every state of every run, a thread that is on the stack of a fiber has
taken an entry of this fiber (or of the callback that the fiber was made for) whose thread is -1 or its own; and an entry
that `run` makes itself is for any thread. -/
theorem slice_on_allowed_worker (ops : List Op) :
    let s := run step init ops
    let l := (ledgerRun ops).2
    (∀ t k f, (s.pc t).slice = some (k, f) →
      ∃ i e, l.hand t = some i ∧ l.accepted[i]? = some e ∧ k.Of e f ∧ (e.thread ≠ -1 → e.thread = t)) ∧
      ∀ t, ∀ e ∈ (ledgerRun (ops ++ [.work t])).2.accepted, e ∈ l.accepted ∨ e.thread = -1 := by
  have h := ledgerRun_kept ops
  rw [ledgerRun_fst] at h
  refine ⟨fun t k f hslice => ?_, fun t e he => ?_⟩
  · obtain ⟨hbusy, hof⟩ := Pc.slice_carries hslice
    obtain ⟨i, hi⟩ := Option.isSome_iff_exists.1 ((h.busy t).symm.trans hbusy)
    obtain ⟨e, he, hallow, hcarry⟩ := h.carries t i hi
    refine ⟨i, e, hi, he, hof e hcarry, ?_⟩
    intro hpin
    simpa [FiberAndThread.allows, hpin] using hallow
  · rw [ledgerRun_snoc] at he
    exact record_work_accepted he

/-- the thread that the last call of `schedule` on fiber `f` names -/
def lastPin (f : ℕ) (ops : List Op) : Option ℤ :=
  (ops.flatMap fun
    | .schedule _ es => es.filter (·.fiber = some f)
    | _ => []).getLast?.map (·.thread)

/-- a fiber is only run by the worker that it was scheduled for -/
def PinRespected (ops : List Op) : Prop :=
  ∀ t k f n, ((run step init ops).pc t).slice = some (k, f) → lastPin f ops = some n → n ≠ -1 → n = t

/-- fiber 0 is scheduled for worker 1, which swaps it in; it yields READY and is queued again, and worker 2 takes it -/
def yieldTrace : List Op :=
  [.spawn 0, .newFiber, .schedule 0 [⟨some (.fiber 0), 1⟩], .work 0, .spawn 1, .enter 1, .spawn 2, .enter 2, .work 1,
    .work 1, .work 1, .work 1, .work 1, .yieldToReady 1, .work 1, .work 1, .work 1, .work 1, .work 2, .work 2, .work 2,
    .work 2, .work 2]

/-- **A lost pin.** Nobody schedules the fiber again, and worker 2 runs its second slice. -/
theorem pin_is_lost :
    ¬ PinRespected yieldTrace ∧ ((run step init (yieldTrace.take 13)).pc 1).slice = some (.fiber, 0) ∧
      ((run step init yieldTrace).pc 2).slice = some (.fiber, 0) := by
  have h2 : ((run step init yieldTrace).pc 2).slice = some (.fiber, 0) := by decide
  refine ⟨?_, by decide, h2⟩
  intro h
  have := h 2 .fiber 0 1 h2 (by decide) (by decide)
  cases this

end Sylar.Scheduler

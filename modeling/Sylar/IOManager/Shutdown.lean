/-
Shutdown: what is left to do when `stopping` returns true.

`IOManager::stopping` reads three things one behind the other: whether `m_timers` is empty, whether `m_pendingEventCount`
is zero, and, in the section of `Scheduler::stopping`, the queue and `m_activeThreadCount`. Work moves between them in
steps of its own: `listExpiredCb` takes callbacks out of `m_timers` before they are scheduled, `run` decrements the
counter before it queues a READY fiber again, and an event is registered by a fiber that may be done at once. The steps of
the scheduler are those of its model; a scheduler that is no `IOManager` is the same with no timer and no event.

Results:
- `step_inv`: the counters never fall short of what they count;
- `shutdown_clean_iff`: in a run every call that returns true finds no work left, exactly when no such call falls into one
  of the three windows;
- `work_abandoned`: a call in each of the windows returns true.
-/
import Sylar.Scheduler.Ledger

namespace Sylar.IOManager.Shutdown

open Sylar.Run Sylar.Count Sylar.Scheduler

/-! ## Model -/

/-- how far a thread is in `IOManager::stopping` -/
inductive Stage where
  | none
  /-- getNextTimer has found no timer -/
  | noTimer
  /-- `m_pendingEventCount` was zero; `added` events had been registered by then -/
  | noEvent (added : ℕ)
deriving DecidableEq, Repr

structure Sys where
  sched : Scheduler.Sys
  /-- the size of `m_timers` -/
  timers : ℕ
  /-- `cbs` of `idle`, between listExpiredCb and schedule -/
  cbs : ℕ → List ℕ
  /-- the registered events, as numbers in the order of addEvent -/
  events : List ℕ
  added : ℕ
  pendingEventCount : ℕ
  /-- the thread has triggered an event, and the decrement of `m_pendingEventCount` is next -/
  triggered : ℕ → Bool
  stage : ℕ → Stage

def init : Sys where
  sched := Scheduler.init
  timers := 0
  cbs _ := []
  events := []
  added := 0
  pendingEventCount := 0
  triggered _ := false
  stage _ := .none

inductive Op where
  /-- a step of the scheduler -/
  | base (o : Scheduler.Op)
  | addTimer (t : ℕ)
  /-- cancel, or the erasing section of refresh and reset -/
  | eraseTimer (t : ℕ)
  /-- the callbacks of the expired timers; `again` of these are recurring -/
  | listExpiredCb (t : ℕ) (cbs : List ℕ) (again : ℕ)
  | scheduleCbs (t : ℕ)
  | addEvent (t : ℕ)
  | delEvent (t i : ℕ)
  /-- triggerEvent, for a readiness report or a cancel -/
  | triggerEvent (t i : ℕ) (task : Scheduler.Task)
  | decrement (t : ℕ)
  /-- the three reads of `stopping`, the last one is the section of `Scheduler::stopping` -/
  | readTimers (t : ℕ)
  | readPending (t : ℕ)
  | readQueue (t : ℕ)
deriving DecidableEq, Repr

/-- the thread that a step of the scheduler belongs to -/
def actor : Scheduler.Op → Option ℕ
  | .newFiber => none
  | .spawn t | .enter t | .work t | .schedule t _ | .yieldToHold t | .yieldToReady t | .finish t | .throw t
  | .release t _ | .epollWait t _ | .wake t | .drain t | .leaveIdle t | .stop t _ | .timerAtFront t => some t

/-- thread `t` is not inside of `stopping`, and has no callbacks and no decrement to do -/
def Sys.free (s : Sys) (t : ℕ) : Bool := s.stage t == .none && (s.cbs t).isEmpty && !s.triggered t

/-- what thread `t` runs may call the manager -/
def Sys.calls (s : Sys) (t : ℕ) : Bool := s.sched.calls t && s.free t

/-- the fiber of a task exists -/
def Sys.made (s : Sys) : Scheduler.Task → Bool
  | .fiber f => f < s.sched.fiberCount
  | .cb _ => true

def Sys.setStage (s : Sys) (t : ℕ) (x : Stage) : Sys := { s with stage := Function.update s.stage t x }

/-- the test of `Scheduler::stopping` -/
def stopping (s : Scheduler.Sys) : Prop := s.autoStop ∧ s.stopping ∧ s.fibers = [] ∧ s.activeThreadCount = 0

instance (s : Scheduler.Sys) : Decidable (stopping s) := inferInstanceAs (Decidable (_ ∧ _))

/-- `stopping` is over, and false unless `quiet`; `idle` goes on to epoll_wait -/
def Sys.answer (s : Sys) (t : ℕ) (quiet : Bool) : Sys :=
  { s.setStage t .none with sched := Scheduler.step s.sched (.epollWait t quiet) }

def step (s : Sys) (o : Op) : Sys :=
  if s.sched.aborted then s
  else match o with
    | .base (.epollWait _ _) => s
    | .base (.work t) => { s with sched := Scheduler.step s.sched (.work t) }
    | .base o => if (actor o).all s.free then { s with sched := Scheduler.step s.sched o } else s
    | .addTimer t => if s.calls t then { s with timers := s.timers + 1 } else s
    | .eraseTimer t => if s.calls t then { s with timers := s.timers - 1 } else s
    | .listExpiredCb t cbs again =>
      if s.sched.pc t = .woken ∧ s.free t ∧ cbs.length ≤ s.timers ∧ again ≤ cbs.length then
        { s with
          timers := s.timers - cbs.length + again
          cbs := Function.update s.cbs t cbs }
      else s
    | .scheduleCbs t =>
      if s.sched.pc t = .woken ∧ s.cbs t ≠ [] then
        { s with
          sched := Scheduler.step s.sched (.schedule t ((s.cbs t).map fun c => ⟨some (.cb c), -1⟩))
          cbs := Function.update s.cbs t [] }
      else s
    | .addEvent t =>
      if s.calls t then
        { s with
          events := s.events ++ [s.added]
          added := s.added + 1
          pendingEventCount := s.pendingEventCount + 1 }
      else s
    | .delEvent t i =>
      if s.calls t ∧ i ∈ s.events then
        { s with
          events := s.events.erase i
          pendingEventCount := s.pendingEventCount - 1 }
      else s
    | .triggerEvent t i task =>
      if s.calls t ∧ i ∈ s.events ∧ s.made task then
        { s with
          sched := Scheduler.step s.sched (.schedule t [⟨some task, -1⟩])
          events := s.events.erase i
          triggered := Function.update s.triggered t true }
      else s
    | .decrement t =>
      if s.triggered t ∧ s.sched.calls t then
        { s with
          pendingEventCount := s.pendingEventCount - 1
          triggered := Function.update s.triggered t false }
      else s
    | .readTimers t =>
      if s.free t ∧ (s.sched.pc t = .idleTop ∨ s.sched.pc t = .out) then
        if s.timers = 0 then s.setStage t .noTimer else s.answer t false
      else s
    | .readPending t =>
      if s.stage t = .noTimer then
        if s.pendingEventCount = 0 then s.setStage t (.noEvent s.added) else s.answer t false
      else s
    | .readQueue t =>
      match s.stage t with
      | .noEvent _ => s.answer t true
      | _ => s

/-! ## The property and the windows -/

/-- the call of `stopping` by thread `t` returns true with its last read -/
def Sys.ReturnsTrue (s : Sys) (t : ℕ) : Prop := (∃ added, s.stage t = .noEvent added) ∧ stopping s.sched

/-- thread `t` has left a fiber that yielded READY, and is going to queue it -/
def Sys.Requeues (s : Sys) (t : ℕ) : Prop :=
  ∃ k f, s.sched.pc t = .testReady k f ∧ s.sched.state f = .ready ∨ s.sched.pc t = .requeue k f

/-- nothing is queued, running, about to be queued again, registered, or taken out of `m_timers` and not scheduled -/
structure Sys.NothingLeft (s : Sys) : Prop where
  queued : s.sched.fibers = []
  running : ∀ t, (s.sched.pc t).busy = false
  ready : ∀ t, ¬ s.Requeues t
  events : s.events = []
  cbs : ∀ t, s.cbs t = []

/-- the condition on the last read, if it makes the call return true: no thread is between the decrement of
`m_activeThreadCount` and the re-queueing of a READY fiber, no thread is between listExpiredCb and schedule with a callback,
and no event that was registered since the call has read `m_pendingEventCount` is still registered -/
def Windowless (s : Sys) : Op → Prop
  | .readQueue t => ∀ added, s.stage t = .noEvent added → stopping s.sched →
      (∀ t', ¬ s.Requeues t') ∧ (∀ t', s.cbs t' = []) ∧ ∀ i ∈ s.events, i < added
  | _ => True

/-! ## The counters -/

structure Inv (s : Sys) : Prop where
  reached : ∃ ops, s.sched = run Scheduler.step Scheduler.init ops
  pending : ∃ n, Counts (fun t => s.triggered t = true) n ∧ s.pendingEventCount = s.events.length + n
  added : ∀ i ∈ s.events, i < s.added
  since : ∀ t a, s.stage t = .noEvent a → a ≤ s.added ∧ ∀ i ∈ s.events, a ≤ i

theorem inv_init : Inv init :=
  ⟨⟨[], rfl⟩, ⟨0, Counts.none (by simp [init]), rfl⟩, by simp [init], by simp [init]⟩

/-- a step of the scheduler is one of its run -/
theorem reached_step {s : Scheduler.Sys} (h : ∃ ops, s = run Scheduler.step Scheduler.init ops) (o : Scheduler.Op) :
    ∃ ops, Scheduler.step s o = run Scheduler.step Scheduler.init ops := by
  obtain ⟨ops, rfl⟩ := h
  exact ⟨ops ++ [o], by rw [run_append, run_cons, run_nil]⟩

/-- a step that leaves the events and their counter alone -/
theorem Inv.quiet {s s' : Sys} (h : Inv s) (hsched : s'.sched = s.sched ∨ ∃ o, s'.sched = Scheduler.step s.sched o)
    (hevents : s'.events = s.events) (hadded : s'.added = s.added) (hpending : s'.pendingEventCount = s.pendingEventCount)
    (htriggered : s'.triggered = s.triggered)
    (hstage : ∀ t a, s'.stage t = .noEvent a → s.stage t = .noEvent a ∨ a = s.added ∧ s.pendingEventCount = 0) :
    Inv s' := by
  refine ⟨?_, by rw [hevents, hpending, htriggered]; exact h.pending, by rw [hevents, hadded]; exact h.added, ?_⟩
  · rcases hsched with hsched | ⟨o, hsched⟩
    · rw [hsched]
      exact h.reached
    · rw [hsched]
      exact reached_step h.reached o
  · intro t a ha
    rw [hevents, hadded]
    rcases hstage t a ha with hold | ⟨rfl, hzero⟩
    · exact h.since t a hold
    · -- no event is registered when the counter is read as zero
      obtain ⟨n, -, hn⟩ := h.pending
      have hnone : s.events = [] := List.eq_nil_of_length_eq_zero (by omega)
      exact ⟨le_rfl, by simp [hnone]⟩

theorem Inv.answer {s : Sys} (h : Inv s) (t : ℕ) (quiet : Bool) : Inv (s.answer t quiet) := by
  refine h.quiet (.inr ⟨.epollWait t quiet, rfl⟩) rfl rfl rfl rfl ?_
  intro t' a ha
  by_cases ht : t' = t
  · simp [Sys.answer, Sys.setStage, ht] at ha
  · exact .inl (by simpa [Sys.answer, Sys.setStage, ht] using ha)

/-- an event goes -/
theorem Inv.erase {s s' : Sys} (h : Inv s) {i : ℕ}
    (hsched : s'.sched = s.sched ∨ ∃ o, s'.sched = Scheduler.step s.sched o) (hevents : s'.events = s.events.erase i)
    (hadded : s'.added = s.added) (hstage : s'.stage = s.stage)
    (hpending : ∃ n, Counts (fun t => s'.triggered t = true) n ∧ s'.pendingEventCount = s'.events.length + n) : Inv s' := by
  refine ⟨?_, hpending, ?_, ?_⟩
  · rcases hsched with hsched | ⟨o, hsched⟩
    · rw [hsched]
      exact h.reached
    · rw [hsched]
      exact reached_step h.reached o
  · rw [hevents, hadded]
    exact fun j hj => h.added j (List.mem_of_mem_erase hj)
  · rw [hevents, hadded, hstage]
    intro t a ha
    obtain ⟨hle, hsince⟩ := h.since t a ha
    exact ⟨hle, fun j hj => hsince j (List.mem_of_mem_erase hj)⟩

theorem step_inv (s : Sys) (o : Op) (h : Inv s) : Inv (step s o) := by
  have hquiet : ∀ {s' : Sys}, s'.sched = s.sched ∨ (∃ o, s'.sched = Scheduler.step s.sched o) → s'.events = s.events →
      s'.added = s.added → s'.pendingEventCount = s.pendingEventCount → s'.triggered = s.triggered →
      s'.stage = s.stage → Inv s' := by
    intro s' hsched hevents hadded hpending htriggered hstage
    exact h.quiet hsched hevents hadded hpending htriggered fun t a ha => .inl (by rw [← hstage]; exact ha)
  have hbase : ∀ o', Inv { s with sched := Scheduler.step s.sched o' } := by
    intro o'
    exact hquiet (.inr ⟨o', rfl⟩) rfl rfl rfl rfl rfl
  unfold step
  split
  · exact h
  cases o with
  | base o =>
    cases o with
    | epollWait t quiet => exact h
    | work t => exact hbase _
    | _ =>
      dsimp only
      split_ifs
      · exact hbase _
      · exact h
  | addTimer t | eraseTimer t | listExpiredCb t cbs again =>
    dsimp only
    split_ifs
    · exact hquiet (.inl rfl) rfl rfl rfl rfl rfl
    · exact h
  | scheduleCbs t =>
    dsimp only
    split_ifs
    · exact hquiet (.inr ⟨.schedule t ((s.cbs t).map fun c => ⟨some (.cb c), -1⟩), rfl⟩) rfl rfl rfl rfl rfl
    · exact h
  | addEvent t =>
    dsimp only
    split_ifs
    · obtain ⟨n, hcount, hn⟩ := h.pending
      refine ⟨h.reached, ⟨n, hcount, by simp; omega⟩, ?_, ?_⟩
      · intro i hi
        rcases List.mem_append.1 hi with hi | hi
        · exact (h.added i hi).trans (Nat.lt_succ_self _)
        · rw [List.mem_singleton.1 hi]
          exact Nat.lt_succ_self _
      · intro t' a ha
        obtain ⟨hle, hsince⟩ := h.since t' a ha
        refine ⟨hle.trans (Nat.le_succ _), ?_⟩
        intro i hi
        rcases List.mem_append.1 hi with hi | hi
        · exact hsince i hi
        · rw [List.mem_singleton.1 hi]
          exact hle
    · exact h
  | delEvent t i =>
    dsimp only
    split_ifs with hdel
    · obtain ⟨n, hcount, hn⟩ := h.pending
      have hpos := List.length_pos_of_mem hdel.2
      have hlen := List.length_erase_of_mem hdel.2
      exact h.erase (.inl rfl) rfl rfl rfl ⟨n, hcount, by dsimp only; omega⟩
    · exact h
  | triggerEvent t i task =>
    dsimp only
    split_ifs with htrigger
    · obtain ⟨n, hcount, hn⟩ := h.pending
      have hpos := List.length_pos_of_mem htrigger.2.1
      have hlen := List.length_erase_of_mem htrigger.2.1
      have hnot : ¬ s.triggered t = true := by
        have := htrigger.1
        simp only [Sys.calls, Sys.free, Bool.and_eq_true, Bool.not_eq_true'] at this
        simp [this.2.2]
      refine h.erase (.inr ⟨.schedule t [⟨some task, -1⟩], rfl⟩) rfl rfl rfl
        ⟨n + 1, hcount.gain (a := t) hnot ?_, by dsimp only; omega⟩
      intro t'
      by_cases ht : t' = t
      · simp [ht]
      · simp [ht]
    · exact h
  | decrement t =>
    dsimp only
    split_ifs with hdec
    · obtain ⟨n, hcount, hn⟩ := h.pending
      have hpos := hcount.pos hdec.1
      refine ⟨h.reached, ⟨n - 1, hcount.lose (a := t) hdec.1 ?_, by dsimp only; omega⟩, h.added, h.since⟩
      intro t'
      by_cases ht : t' = t
      · simp [ht]
      · simp [ht]
    · exact h
  | readTimers t =>
    dsimp only
    split_ifs
    · refine h.quiet (.inl rfl) rfl rfl rfl rfl ?_
      intro t' a ha
      by_cases ht : t' = t
      · simp [Sys.setStage, ht] at ha
      · exact .inl (by simpa [Sys.setStage, ht] using ha)
    · exact h.answer t false
    · exact h
  | readPending t =>
    dsimp only
    split_ifs with hstage hzero
    · refine h.quiet (.inl rfl) rfl rfl rfl rfl ?_
      intro t' a ha
      by_cases ht : t' = t
      · simp only [Sys.setStage, ht, Function.update_self, Stage.noEvent.injEq] at ha
        exact .inr ⟨ha.symm, hzero⟩
      · exact .inl (by simpa [Sys.setStage, ht] using ha)
    · exact h.answer t false
    · exact h
  | readQueue t =>
    dsimp only
    split
    · exact h.answer t true
    · exact h

/-! ## Main results -/

/-- a call that returns true finds nothing left exactly when it falls into none of the windows -/
theorem Inv.nothingLeft_iff {s : Sys} (h : Inv s) (t : ℕ) :
    (s.ReturnsTrue t → s.NothingLeft) ↔ Windowless s (.readQueue t) := by
  constructor
  · intro hleft a ha hstop
    obtain ⟨-, -, hready, hevents, hcbs⟩ := hleft ⟨⟨a, ha⟩, hstop⟩
    exact ⟨hready, hcbs, by simp [hevents]⟩
  · rintro hwindow ⟨⟨a, ha⟩, hstop⟩
    obtain ⟨hready, hcbs, hevents⟩ := hwindow a ha hstop
    obtain ⟨-, -, hqueue, hactive⟩ := hstop
    refine ⟨hqueue, ?_, hready, ?_, hcbs⟩
    · -- the counter counts the threads that have an entry
      obtain ⟨ops, hops⟩ := h.reached
      have hkept := ledgerRun_kept ops
      rw [ledgerRun_fst, ← hops] at hkept
      have hnone := (hkept.active.zero_iff).1 hactive
      exact fun t' => Bool.eq_false_iff.2 (hnone t')
    · -- an event that is registered was so after the counter was read
      apply List.eq_nil_iff_forall_not_mem.2
      intro i hi
      have := (h.since t a ha).2 i hi
      have := hevents i hi
      omega

/-- **Shutdown.** In a run every call of `stopping` that returns true finds no work left, exactly when no such call falls
into one of the three windows. -/
theorem shutdown_clean_iff (ops : List Op) :
    (∀ pre t, pre ++ [.readQueue t] <+: ops → (run step init pre).ReturnsTrue t → (run step init pre).NothingLeft) ↔
      Guarded step Windowless init ops := by
  have hinv : ∀ pre, Inv (run step init pre) := fun pre => run_preserves (fun s o h => step_inv s o h) inv_init pre
  rw [guarded_iff_steps]
  refine ⟨fun h pre o hpre => ?_, fun h pre t hpre => ?_⟩
  · cases o with
    | readQueue t => exact ((hinv pre).nothingLeft_iff t).1 (h pre t hpre)
    | _ => exact trivial
  · exact ((hinv pre).nothingLeft_iff t).2 (h pre (.readQueue t) hpre)

/-- fiber 0 runs on worker 1, worker 2 is in its idle fiber, and stop is called -/
def stopTrace : List Op :=
  [.base (.spawn 0), .base .newFiber, .base (.schedule 0 [⟨some (.fiber 0), -1⟩]), .base (.work 0), .base (.spawn 1),
    .base (.enter 1), .base (.spawn 2), .base (.enter 2), .base (.work 1), .base (.work 1), .base (.work 1),
    .base (.work 1), .base (.work 1), .base (.work 2), .base (.work 2), .base (.work 2), .base (.stop 0 2)]

/-- the fiber yields READY, worker 1 has decremented the counter and not queued it yet -/
def readyTrace : List Op :=
  stopTrace ++ ([.base (.yieldToReady 1), .base (.work 1), .base (.work 1), .readTimers 2, .readPending 2] : List Op)

/-- the fiber adds a timer and ends; worker 1 goes idle, and takes its callback out of `m_timers` -/
def expiredTrace : List Op :=
  stopTrace ++ ([.addTimer 1, .base (.finish 1), .base (.work 1), .base (.work 1), .base (.work 1), .base (.work 1),
    .base (.release 1 true), .base (.work 1), .base (.work 1), .base (.work 1), .readTimers 1, .base (.wake 1),
    .listExpiredCb 1 [7] 0, .readTimers 2, .readPending 2] : List Op)

/-- worker 2 reads the timers and the events; then the fiber registers an event and ends -/
def lateEventTrace : List Op :=
  stopTrace ++ ([.readTimers 2, .readPending 2, .addEvent 1, .base (.finish 1), .base (.work 1), .base (.work 1)] : List Op)

/-- the call of thread `t` returns true, and there is work left -/
def Sys.Abandons (s : Sys) (t : ℕ) : Prop := s.ReturnsTrue t ∧ ¬ s.NothingLeft

/-- **Work is abandoned.** In each of the windows the call of worker 2 returns true, and there is a fiber to queue again, a
callback to schedule, a registered event. -/
theorem work_abandoned :
    (run step init readyTrace).Abandons 2 ∧ (run step init readyTrace).Requeues 1 ∧
      (run step init expiredTrace).Abandons 2 ∧ (run step init expiredTrace).cbs 1 = [7] ∧
      (run step init lateEventTrace).Abandons 2 ∧ (run step init lateEventTrace).events = [0] := by
  have hready : (run step init readyTrace).Requeues 1 := ⟨.fiber, 0, .inl ⟨by decide, by decide⟩⟩
  have hcbs : (run step init expiredTrace).cbs 1 = [7] := by decide
  have hevents : (run step init lateEventTrace).events = [0] := by decide
  refine ⟨⟨⟨⟨0, by decide⟩, by decide⟩, ?_⟩, hready, ⟨⟨⟨0, by decide⟩, by decide⟩, ?_⟩, hcbs,
    ⟨⟨⟨0, by decide⟩, by decide⟩, ?_⟩, hevents⟩
  · exact fun h => h.ready 1 hready
  · intro h
    have := h.cbs 1
    rw [hcbs] at this
    cases this
  · intro h
    have := h.events
    rw [hevents] at this
    cases this

end Sylar.IOManager.Shutdown

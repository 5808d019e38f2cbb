/-
The scheduler: `schedule`, `Scheduler::run` on any number of threads, `Fiber::swapIn` and `Fiber::swapOut`, and
`IOManager::tickle` and `IOManager::idle` around epoll_wait.

A step of a thread is a critical section of `m_mutex`, a test or an assignment of a fiber's `m_state`, a change of a
counter, a context switch, or an access to the tickle pipe. What a fiber's function does is up to the run: it schedules,
yields, returns or throws. Timers, IO events and the timeout of epoll_wait only show in that a blocked thread may wake
and schedule. A failed assertion ends the program: no step changes anything then.

Results:
- `scan_none`, `scan_some`: the scan takes the first entry that the thread may take, and nothing only when there is none;
- `State.swappable_true`: the test of `run` on the state of a fiber that was taken excludes no state.
-/
import Sylar.Core.Run

namespace Sylar.Scheduler

/-! ## Fibers and the queue -/

/-- `Fiber::State` -/
inductive State where
  | init
  | hold
  | exec
  | term
  | ready
  | except
deriving DecidableEq, Repr

/-- the assertion of `Fiber::reset` and of the destructor -/
def State.resettable (x : State) : Bool := x == .term || x == .init || x == .except

/-- the test of `run` before it swaps a fiber in -/
def State.swappable (x : State) : Bool := x != .term || x != .except

theorem State.swappable_true (x : State) : x.swappable = true := by
  cases x <;> rfl

/-- what an entry runs -/
inductive Task where
  | fiber (f : ℕ)
  | cb (n : ℕ)
deriving DecidableEq, Repr

/-- an entry of `m_fibers`; thread -1 is any thread -/
structure FiberAndThread where
  task : Option Task
  thread : ℤ
deriving DecidableEq, Repr

def FiberAndThread.fiber (e : FiberAndThread) : Option ℕ :=
  match e.task with
  | some (.fiber f) => some f
  | _ => none

/-- the entry is not for another thread than `t` -/
def FiberAndThread.allows (e : FiberAndThread) (t : ℕ) : Bool := e.thread == -1 || e.thread == t

/-- the fiber of the entry is in EXEC -/
def FiberAndThread.executing (e : FiberAndThread) (state : ℕ → State) : Bool :=
  match e.fiber with
  | some f => state f == .exec
  | none => false

/-- thread `t` may take the entry -/
def FiberAndThread.takeable (e : FiberAndThread) (state : ℕ → State) (t : ℕ) : Bool :=
  e.allows t && !e.executing state

/-- what the critical section of `run` finds -/
structure Scan where
  tickleMe : Bool
  ft : Option FiberAndThread
  fibers : List FiberAndThread
  /-- `SYLAR_ASSERT(it->fiber || it->cb)` -/
  asserted : Bool

/-- the loop over `m_fibers` in `run` -/
def scan (state : ℕ → State) (t : ℕ) : List FiberAndThread → Scan
  | [] => ⟨false, none, [], true⟩
  | e :: es =>
    let r := scan state t es
    if !e.allows t then { r with tickleMe := true, fibers := e :: r.fibers }
    else if e.task.isNone then ⟨false, none, e :: es, false⟩
    else if e.executing state then { r with fibers := e :: r.fibers }
    else ⟨false, some e, es, true⟩

/-! ## Threads -/

/-- the branch of `run` that swapped a fiber in -/
inductive Slice where
  | fiber
  | cb
deriving DecidableEq, Repr

inductive Pc where
  /-- no such thread -/
  | off
  /-- outside of `run` -/
  | out
  | scan
  /-- behind the scan, with what it took -/
  | dispatch (ft : Option FiberAndThread)
  /-- `Fiber::reset` on `cb_fiber`: its assertion and `m_state = INIT`; `behind`: with nullptr, behind a slice -/
  | resetAssert (behind : Bool) (f : ℕ)
  | resetInit (behind : Bool) (f : ℕ)
  /-- `Fiber::swapIn`: its assertion, `m_state = EXEC` and swapcontext -/
  | assertIn (k : Slice) (f : ℕ)
  | setExec (k : Slice) (f : ℕ)
  | switchIn (k : Slice) (f : ℕ)
  /-- on the stack of the fiber -/
  | running (k : Slice) (f : ℕ)
  /-- `m_state` is written, swapcontext of `Fiber::swapOut` is next -/
  | leaving (k : Slice) (f : ℕ)
  /-- behind `swapIn`: the counter, the tests of the state and `m_state = HOLD` -/
  | post (k : Slice) (f : ℕ)
  | testReady (k : Slice) (f : ℕ)
  | requeue (k : Slice) (f : ℕ)
  | testTerm (k : Slice) (f : ℕ)
  | setHold (k : Slice) (f : ℕ)
  /-- `ft.reset()` or `cb_fiber.reset()` -/
  | release (k : Slice) (f : ℕ)
  /-- the idle fiber is counted, and swapped in -/
  | idleIn
  | idleTop
  | blocked
  | woken
  /-- out of the idle fiber: the counter and `m_state = HOLD` -/
  | idleOut
  | idleHold
  /-- `IOManager::tickle`: the test of hasIdleThreads and the write; `pushed`: called by `schedule` -/
  | tickle (pushed : Bool) (back : Pc)
  | write (pushed : Bool) (back : Pc)
deriving DecidableEq, Repr

structure Sys where
  threads : List ℕ
  pc : ℕ → Pc
  /-- `cb_fiber` of a thread between two callbacks -/
  cbFiber : ℕ → Option ℕ
  /-- `m_state` of the idle fiber of a thread -/
  idleState : ℕ → State
  /-- the fibers constructed, apart from idle fibers, are those below -/
  fiberCount : ℕ
  state : ℕ → State
  /-- the function has returned or thrown: the fiber is behind the last swapOut of `MainFunc` -/
  ended : ℕ → Bool
  fibers : List FiberAndThread
  activeThreadCount : ℕ
  idleThreadCount : ℕ
  autoStop : Bool
  stopping : Bool
  /-- what is in the tickle pipe -/
  bytes : ℕ
  aborted : Bool

/-- a scheduler that was started -/
def init : Sys where
  threads := []
  pc _ := .off
  cbFiber _ := none
  idleState _ := .init
  fiberCount := 0
  state _ := .init
  ended _ := false
  fibers := []
  activeThreadCount := 0
  idleThreadCount := 0
  autoStop := false
  stopping := false
  bytes := 0
  aborted := false

inductive Op where
  | spawn (t : ℕ)
  /-- thread `t` calls `run` -/
  | enter (t : ℕ)
  | newFiber
  /-- the next step of `run`, `swapIn`, `swapOut` or `tickle` -/
  | work (t : ℕ)
  /-- the critical section of `schedule`, on one entry or on a range, that is for any thread -/
  | schedule (t : ℕ) (es : List FiberAndThread)
  | yieldToHold (t : ℕ)
  | yieldToReady (t : ℕ)
  | finish (t : ℕ)
  | throw (t : ℕ)
  /-- the pointer of `run` to a fiber goes; `last`: there is no other one -/
  | release (t : ℕ) (last : Bool)
  /-- `quiet`: no timer and no pending event -/
  | epollWait (t : ℕ) (quiet : Bool)
  | wake (t : ℕ)
  | drain (t : ℕ)
  | leaveIdle (t : ℕ)
  /-- `n` threads are tickled -/
  | stop (t : ℕ) (n : ℕ)
  /-- onTimerInsertedAtFront -/
  | timerAtFront (t : ℕ)
deriving DecidableEq, Repr

/-! ## Steps -/

def Sys.goto (s : Sys) (t : ℕ) (p : Pc) : Sys := { s with pc := Function.update s.pc t p }

def Sys.setState (s : Sys) (f : ℕ) (x : State) : Sys := { s with state := Function.update s.state f x }

def Sys.abort (s : Sys) : Sys := { s with aborted := true }

/-- the critical section of `schedule`; need_tickle: the queue was empty -/
def Sys.push (s : Sys) (t : ℕ) (es : List FiberAndThread) (back : Pc) : Sys :=
  { s.goto t (if s.fibers.isEmpty && !es.isEmpty then .tickle true back else back) with
    fibers := s.fibers ++ es.filter (·.task.isSome) }

/-- the function of a fiber writes `m_state` and calls `swapOut` -/
def Sys.swapOut (s : Sys) (t : ℕ) (x : State) (ended : Bool) : Sys :=
  match s.pc t with
  | .running k f =>
    if s.ended f then s
    else { (s.setState f x).goto t (.leaving k f) with ended := Function.update s.ended f ended }
  | _ => s

/-- what runs on thread `t` may call `schedule` -/
def Sys.calls (s : Sys) (t : ℕ) : Bool :=
  match s.pc t with
  | .out | .woken => true
  | .running _ f => !s.ended f
  | _ => false

def Sys.work (s : Sys) (t : ℕ) : Sys :=
  match s.pc t with
  | .scan =>
    let r := scan s.state t s.fibers
    if r.asserted then
      { s.goto t (if r.tickleMe then .tickle false (.dispatch r.ft) else .dispatch r.ft) with
        fibers := r.fibers
        activeThreadCount := s.activeThreadCount + if r.ft.isSome then 1 else 0 }
    else s.abort
  | .dispatch none =>
    if s.idleState t = .term then { s.goto t .out with cbFiber := Function.update s.cbFiber t none }
    else { s.goto t .idleIn with idleThreadCount := s.idleThreadCount + 1 }
  | .dispatch (some ft) =>
    let skip := { s.goto t .scan with activeThreadCount := s.activeThreadCount - 1 }
    match ft.task with
    | some (.fiber f) => if (s.state f).swappable then s.goto t (.assertIn .fiber f) else skip
    | some (.cb _) =>
      match s.cbFiber t with
      | some f => { s.goto t (.resetAssert false f) with cbFiber := Function.update s.cbFiber t none }
      | none => { s.goto t (.assertIn .cb s.fiberCount) with fiberCount := s.fiberCount + 1 }
    | none => skip
  | .resetAssert behind f => if (s.state f).resettable then s.goto t (.resetInit behind f) else s.abort
  | .resetInit behind f =>
    let s' := { s.setState f .init with ended := Function.update s.ended f false }
    if behind then { s'.goto t .scan with cbFiber := Function.update s.cbFiber t (some f) }
    else s'.goto t (.assertIn .cb f)
  | .assertIn k f => if s.state f = .exec then s.abort else s.goto t (.setExec k f)
  | .setExec k f => (s.setState f .exec).goto t (.switchIn k f)
  | .switchIn k f => s.goto t (.running k f)
  | .running _ f => if s.ended f then s.abort else s
  | .leaving k f => s.goto t (.post k f)
  | .post k f => { s.goto t (.testReady k f) with activeThreadCount := s.activeThreadCount - 1 }
  | .testReady k f => s.goto t (if s.state f = .ready then .requeue k f else .testTerm k f)
  | .requeue k f => s.push t [⟨some (.fiber f), -1⟩] (.release k f)
  | .testTerm k f =>
    if s.state f = .term ∨ s.state f = .except then
      s.goto t (match k with
        | .fiber => .release k f
        | .cb => .resetAssert true f)
    else s.goto t (.setHold k f)
  | .setHold k f => (s.setState f .hold).goto t (.release k f)
  | .idleIn =>
    if s.idleState t = .exec then s.abort
    else { s.goto t .idleTop with idleState := Function.update s.idleState t .exec }
  | .idleOut => { s.goto t .idleHold with idleThreadCount := s.idleThreadCount - 1 }
  | .idleHold =>
    if s.idleState t = .term ∨ s.idleState t = .except then s.goto t .scan
    else { s.goto t .scan with idleState := Function.update s.idleState t .hold }
  | .tickle pushed back => s.goto t (if 0 < s.idleThreadCount then .write pushed back else back)
  | .write _ back => { s.goto t back with bytes := s.bytes + 1 }
  | .off | .out | .release _ _ | .idleTop | .blocked | .woken => s

def step (s : Sys) (o : Op) : Sys :=
  if s.aborted then s
  else match o with
    | .spawn t => if s.pc t = .off then { s.goto t .out with threads := s.threads ++ [t] } else s
    | .enter t =>
      if s.pc t = .out then { s.goto t .scan with idleState := Function.update s.idleState t .init } else s
    | .newFiber => { s with fiberCount := s.fiberCount + 1 }
    | .work t => s.work t
    | .schedule t es =>
      if s.calls t ∧ (es.length ≤ 1 ∨ ∀ e ∈ es, e.thread = -1) ∧ ∀ e ∈ es, ∀ f ∈ e.fiber, f < s.fiberCount then
        s.push t es (s.pc t)
      else s
    | .yieldToHold t => s.swapOut t .hold false
    | .yieldToReady t => s.swapOut t .ready false
    | .finish t => s.swapOut t .term true
    | .throw t => s.swapOut t .exec true
    | .release t last =>
      match s.pc t with
      | .release _ f => if last && !(s.state f).resettable then s.abort else s.goto t .scan
      | _ => s
    | .epollWait t quiet =>
      if s.pc t = .idleTop then
        if quiet ∧ s.autoStop ∧ s.stopping ∧ s.fibers = [] ∧ s.activeThreadCount = 0 then
          { s.goto t .idleOut with idleState := Function.update s.idleState t .term }
        else s.goto t .blocked
      else s
    | .wake t => if s.pc t = .blocked then s.goto t .woken else s
    | .drain t => if s.pc t = .woken then { s with bytes := 0 } else s
    | .leaveIdle t => if s.pc t = .woken then s.goto t .idleOut else s
    | .stop t n =>
      if s.pc t = .out then { s.goto t ((Pc.tickle false)^[n] .out) with autoStop := true, stopping := true } else s
    | .timerAtFront t => if s.calls t then s.goto t (.tickle false (s.pc t)) else s

/-- a thread that exists is not one of those that do not -/
theorem others_stay {s : Sys} (hoff : ∀ t, t ∉ s.threads → s.pc t = .off) {t : ℕ} (ht : s.pc t ≠ .off) (t' : ℕ)
    (hnot : t' ∉ s.threads) : t' ≠ t ∧ t' ∉ s.threads := by
  refine ⟨?_, hnot⟩
  rintro rfl
  exact ht (hoff t' hnot)

/-- what a call of `tickle` does not change is the same in front of all the calls of `stop` -/
theorem iterate_tickle {α : Type*} {φ : Pc → α} (hφ : ∀ p, φ (.tickle false p) = φ p) (n : ℕ) :
    φ ((Pc.tickle false)^[n] .out) = φ .out := by
  induction n with
  | zero => rfl
  | succ n ih => rw [Function.iterate_succ_apply', hφ, ih]

/-! ## The scan -/

/-- nothing taken: the queue stays, and the thread may take none of its entries -/
theorem scan_none {state : ℕ → State} {t : ℕ} {l : List FiberAndThread} (hok : (scan state t l).asserted = true)
    (hft : (scan state t l).ft = none) : (scan state t l).fibers = l ∧ ∀ e ∈ l, e.takeable state t = false := by
  induction l with
  | nil => exact ⟨rfl, by simp⟩
  | cons e es ih =>
    unfold scan at hok hft ⊢
    dsimp only at hok hft ⊢
    split_ifs at hok hft ⊢ with hallow hnull hexec
    · obtain ⟨hfibers, hnone⟩ := ih hok hft
      refine ⟨by rw [hfibers], ?_⟩
      intro x hx
      rcases List.mem_cons.1 hx with rfl | hx
      · simp_all [FiberAndThread.takeable]
      · exact hnone x hx
    · obtain ⟨hfibers, hnone⟩ := ih hok hft
      refine ⟨by rw [hfibers], ?_⟩
      intro x hx
      rcases List.mem_cons.1 hx with rfl | hx
      · simp_all [FiberAndThread.takeable]
      · exact hnone x hx

/-- an entry taken: it is the first one that the thread may take, and the others stay in order -/
theorem scan_some {state : ℕ → State} {t : ℕ} {l : List FiberAndThread} {ft : FiberAndThread}
    (hft : (scan state t l).ft = some ft) : ∃ a b, l = a ++ ft :: b ∧ (scan state t l).fibers = a ++ b ∧
      ft.takeable state t = true ∧ ∀ e ∈ a, e.takeable state t = false := by
  induction l with
  | nil => cases hft
  | cons e es ih =>
    unfold scan at hft ⊢
    dsimp only at hft ⊢
    split_ifs at hft ⊢ with hallow hnull hexec
    · obtain ⟨a, b, hl, hfibers, htake, ha⟩ := ih hft
      refine ⟨e :: a, b, by rw [hl]; rfl, by rw [hfibers]; rfl, htake, ?_⟩
      intro x hx
      rcases List.mem_cons.1 hx with rfl | hx
      · simp_all [FiberAndThread.takeable]
      · exact ha x hx
    · obtain ⟨a, b, hl, hfibers, htake, ha⟩ := ih hft
      refine ⟨e :: a, b, by rw [hl]; rfl, by rw [hfibers]; rfl, htake, ?_⟩
      intro x hx
      rcases List.mem_cons.1 hx with rfl | hx
      · simp_all [FiberAndThread.takeable]
      · exact ha x hx
    · cases hft
      exact ⟨[], es, rfl, rfl, by simp_all [FiberAndThread.takeable], by simp⟩

end Sylar.Scheduler

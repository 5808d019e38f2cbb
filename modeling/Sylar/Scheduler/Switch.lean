/-
The fibers of one thread, fiber.cc: contexts, `t_fiber`, `t_threadFiber` and the main fiber of the scheduler.

Fiber 0 is the thread's own, made by `Fiber::GetThis`. `swapIn` and `swapOut` switch between a fiber and the main fiber,
`call` and `back` between a fiber and fiber 0, whichever code calls them. The main fiber is fiber 0 on a thread that runs
`Scheduler::run`, and the root fiber on the thread that constructed the scheduler with use_caller. An assertion that
fails, a null main fiber and a context that is not good any more end a run: no step changes anything then. Fibers are
not destroyed here.

Results:
- `switches_iff`: `t_fiber` is the fiber that runs and every other one is saved in its own context, all along a run,
  exactly when each switch is made by the fiber whose context it saves in;
- `main_stranded`: a fiber that swaps another one in takes the context of the main fiber, which never runs again.
-/
import Sylar.Core.Coroutine
import Sylar.Core.Run
import Sylar.Scheduler.Model

namespace Sylar.Switch

open Sylar.Run Sylar.Coroutine
open Sylar.Scheduler (State)

/-! ## Model -/

/-- what a fiber starts with -/
inductive Entry where
  | MainFunc
  | CallerMainFunc
deriving DecidableEq, Repr

structure Sys where
  mach : Machine ℕ
  /-- the fibers constructed are those below -/
  fibers : ℕ
  state : ℕ → State
  entry : ℕ → Entry
  t_fiber : ℕ
  /-- `t_fiber` of scheduler.cc -/
  mainFiber : Option ℕ
  aborted : Bool

/-- a thread that has called `Fiber::GetThis` -/
def init : Sys where
  mach := ⟨fun f => ⟨f, .start⟩, fun _ => .start, 0, 0, false⟩
  fibers := 1
  state f := if f = 0 then .exec else .init
  entry _ := .MainFunc
  t_fiber := 0
  mainFiber := none
  aborted := false

inductive Op where
  | new (use_caller : Bool)
  | reset (f : ℕ)
  | call (f : ℕ)
  | back (f : ℕ)
  | swapIn (f : ℕ)
  | swapOut (f : ℕ)
  | YieldToReady
  | YieldToHold
  /-- the function of the running fiber returns or throws -/
  | finish (threw : Bool)
  /-- the scheduler is constructed with use_caller -/
  | useCaller
  /-- `Scheduler::run` begins on a thread of the scheduler -/
  | run
deriving DecidableEq, Repr

namespace Sys

variable (s : Sys)

def abort : Sys := { s with aborted := true }

def setState (f : ℕ) (x : State) : Sys := { s with state := Function.update s.state f x }

/-- `SetThis(i)` and swapcontext from the context of `o` to that of `i` -/
def swap (o i : ℕ) (last : Bool) : Sys := { s with t_fiber := i, mach := s.mach.switch o i last }

/-- the constructor with a function -/
def new (use_caller : Bool) : Sys :=
  { s with
    mach := s.mach.make s.fibers
    fibers := s.fibers + 1
    state := Function.update s.state s.fibers .init
    entry := Function.update s.entry s.fibers (if use_caller then .CallerMainFunc else .MainFunc) }

/-- fiber 0 has no stack; the new function is started by `MainFunc` -/
def reset (f : ℕ) : Sys :=
  if f ≠ 0 ∧ (s.state f).resettable = true then
    { s with
      mach := s.mach.make f
      state := Function.update s.state f .init
      entry := Function.update s.entry f .MainFunc }
  else s.abort

def call (f : ℕ) : Sys := (s.setState f .exec).swap 0 f false

def back (f : ℕ) (last : Bool) : Sys := s.swap f 0 last

def swapIn (f : ℕ) : Sys :=
  if s.state f = .exec then s.abort
  else match s.mainFiber with
    | none => s.abort
    | some m => (s.setState f .exec).swap m f false

def swapOut (f : ℕ) (last : Bool) : Sys :=
  match s.mainFiber with
  | none => s.abort
  | some m => s.swap f m last

/-- the end of `MainFunc` and `CallerMainFunc`; the last switch does not come back -/
def finish (threw : Bool) : Sys :=
  let f := s.mach.running
  let s' := s.setState f (if threw then .exec else .term)
  match s.entry f with
  | .MainFunc => s'.swapOut f true
  | .CallerMainFunc => s'.back f true

/-- the code of the thread itself is no fiber's function -/
def act (s : Sys) : Op → Sys
  | .new use_caller => s.new use_caller
  | .reset f => if f < s.fibers then s.reset f else s
  | .call f => if f < s.fibers then s.call f else s
  | .back f => if f < s.fibers then s.back f false else s
  | .swapIn f => if f < s.fibers then s.swapIn f else s
  | .swapOut f => if f < s.fibers then s.swapOut f false else s
  | .YieldToReady => (s.setState s.t_fiber .ready).swapOut s.t_fiber false
  | .YieldToHold => (s.setState s.t_fiber .hold).swapOut s.t_fiber false
  | .finish threw => if s.mach.running = 0 then s else s.finish threw
  | .useCaller => { s.new true with mainFiber := some s.fibers }
  | .run => { s with mainFiber := some s.t_fiber }

def step (s : Sys) (o : Op) : Sys := if s.aborted ∨ s.mach.fault then s else s.act o

/-! ## The condition -/

/-- there is a main fiber, and the switch between it and `f` is clear -/
def MainClear (clear : ℕ → Prop) : Prop := ∃ m, s.mainFiber = some m ∧ clear m

/-- what a step asks for -/
def Ok (s : Sys) : Op → Prop
  | .new _ | .useCaller | .run => True
  | .reset f => f < s.fibers → f ≠ 0 ∧ (s.state f).resettable = true
  | .call f => f < s.fibers → s.mach.Clear 0 f false
  | .back f => f < s.fibers → s.mach.Clear f 0 false
  | .swapIn f => f < s.fibers → s.state f ≠ .exec ∧ s.MainClear fun m => s.mach.Clear m f false
  | .swapOut f => f < s.fibers → s.MainClear fun m => s.mach.Clear f m false
  | .YieldToReady | .YieldToHold => s.MainClear fun m => s.mach.Clear s.t_fiber m false
  | .finish _ => s.mach.running ≠ 0 → match s.entry s.mach.running with
    | .MainFunc => s.MainClear fun m => s.mach.Clear s.mach.running m true
    | .CallerMainFunc => s.mach.Clear s.mach.running 0 true

/-- `t_fiber` is the fiber that runs, every other one is saved in its own context as it is, and no assertion failed -/
structure Good : Prop where
  alive : s.aborted = false
  coherent : s.mach.Coherent
  current : s.mach.running = s.t_fiber

structure Inv : Prop where
  alive : s.aborted = false
  orderly : s.mach.Orderly
  current : s.mach.running = s.t_fiber
  known : s.t_fiber < s.fibers ∧ ∀ m ∈ s.mainFiber, m < s.fibers

end Sys

open Sys

/-! ## Steps -/

section

variable {s : Sys}

theorem inv_init : init.Inv where
  alive := rfl
  orderly := ⟨⟨rfl, fun _ _ => rfl⟩, rfl, fun _ _ h => by cases h⟩
  current := rfl
  known := ⟨Nat.zero_lt_one, by simp [init]⟩

theorem Sys.Inv.good (h : s.Inv) : s.Good := ⟨h.alive, h.orderly.toCoherent, h.current⟩

theorem Sys.Inv.zero_lt (h : s.Inv) : 0 < s.fibers := lt_of_le_of_lt (Nat.zero_le _) h.known.1

theorem Sys.Inv.setState (h : s.Inv) (f : ℕ) (x : State) : (s.setState f x).Inv :=
  ⟨h.alive, h.orderly, h.current, h.known⟩

theorem inv_new (h : s.Inv) (use_caller : Bool) : (s.new use_caller).Inv where
  alive := h.alive
  orderly := Machine.orderly_make h.orderly s.fibers
  current := h.current
  known := ⟨Nat.lt_succ_of_lt h.known.1, fun m hm => Nat.lt_succ_of_lt (h.known.2 m hm)⟩

theorem inv_swap (h : s.Inv) {o i : ℕ} {last : Bool} (hi : i < s.fibers) (hclear : s.mach.Clear o i last) :
    (s.swap o i last).Inv := by
  obtain ⟨hord, hrun⟩ := Machine.orderly_switch h.orderly hclear
  exact ⟨h.alive, hord, hrun, hi, h.known.2⟩

/-- every switch is of this form -/
theorem good_swap_iff (h : s.Inv) (o i : ℕ) (last : Bool) : (s.swap o i last).Good ↔ s.mach.Clear o i last := by
  rw [← Machine.coherent_switch_iff h.orderly]
  exact ⟨fun hgood => ⟨hgood.coherent, hgood.current⟩, fun hboth => ⟨h.alive, hboth.1, hboth.2⟩⟩

theorem not_good_abort : ¬ s.abort.Good := fun h => by cases h.alive

@[simp] theorem setState_mach (f : ℕ) (x : State) : (s.setState f x).mach = s.mach := rfl

theorem good_swapOut_iff (h : s.Inv) (f : ℕ) (last : Bool) :
    (s.swapOut f last).Good ↔ s.MainClear fun m => s.mach.Clear f m last := by
  rw [Sys.swapOut, MainClear]
  split
  · next hmain => simp [hmain, not_good_abort]
  · next m hmain => simp [hmain, good_swap_iff h]

theorem inv_swapOut (h : s.Inv) {f : ℕ} {last : Bool} (hok : s.MainClear fun m => s.mach.Clear f m last) :
    (s.swapOut f last).Inv := by
  obtain ⟨m, hmain, hclear⟩ := hok
  rw [Sys.swapOut, hmain]
  exact inv_swap h (h.known.2 m hmain) hclear

theorem good_swapIn_iff (h : s.Inv) (f : ℕ) :
    (s.swapIn f).Good ↔ s.state f ≠ .exec ∧ s.MainClear fun m => s.mach.Clear m f false := by
  rw [Sys.swapIn, MainClear]
  split_ifs with hexec
  · simp [hexec, not_good_abort]
  · split
    · next hmain => simp [hmain, not_good_abort]
    · next m hmain => simpa [hmain, hexec] using good_swap_iff (h.setState f .exec) m f false

theorem inv_swapIn (h : s.Inv) {f : ℕ} (hf : f < s.fibers)
    (hok : s.state f ≠ .exec ∧ s.MainClear fun m => s.mach.Clear m f false) : (s.swapIn f).Inv := by
  obtain ⟨hexec, m, hmain, hclear⟩ := hok
  rw [Sys.swapIn, if_neg hexec, hmain]
  exact inv_swap (h.setState f .exec) hf hclear

theorem step_eq (h : s.Inv) (o : Op) : step s o = s.act o := by
  rw [step, if_neg (by simp [h.alive, h.orderly.sound])]

theorem inv_step (s : Sys) (o : Op) (h : s.Inv) (hok : s.Ok o) : (step s o).Inv := by
  rw [step_eq h]
  cases o with
  | new use_caller => exact inv_new h use_caller
  | reset f =>
    rw [act]
    split_ifs with hf
    · rw [Sys.reset, if_pos (hok hf)]
      exact ⟨h.alive, Machine.orderly_make h.orderly f, h.current, h.known⟩
    · exact h
  | call f =>
    rw [act]
    split_ifs with hf
    · exact inv_swap (h.setState f .exec) hf (hok hf)
    · exact h
  | back f =>
    rw [act]
    split_ifs with hf
    · exact inv_swap h h.zero_lt (hok hf)
    · exact h
  | swapIn f =>
    rw [act]
    split_ifs with hf
    · exact inv_swapIn h hf (hok hf)
    · exact h
  | swapOut f =>
    rw [act]
    split_ifs with hf
    · exact inv_swapOut h (hok hf)
    · exact h
  | YieldToReady => exact inv_swapOut (h.setState s.t_fiber .ready) hok
  | YieldToHold => exact inv_swapOut (h.setState s.t_fiber .hold) hok
  | finish threw =>
    rw [act]
    split_ifs with hrun
    · exact h
    · have hok' := hok hrun
      have hset := h.setState s.mach.running (if threw then .exec else .term)
      rw [Sys.finish]
      cases hentry : s.entry s.mach.running with
      | MainFunc =>
        rw [hentry] at hok'
        exact inv_swapOut hset hok'
      | CallerMainFunc =>
        rw [hentry] at hok'
        exact inv_swap hset hset.zero_lt hok'
  | useCaller =>
    obtain ⟨halive, hord, hcur, hlt, -⟩ := inv_new h true
    exact ⟨halive, hord, hcur, hlt, fun m hm => by cases hm; exact Nat.lt_succ_self _⟩
  | run => exact ⟨h.alive, h.orderly, h.current, h.known.1, fun m hm => by cases hm; exact h.known.1⟩

theorem not_good_step (s : Sys) (o : Op) (h : s.Inv) (hok : ¬ s.Ok o) : ¬ (step s o).Good := by
  rw [step_eq h]
  cases o with
  | new use_caller => exact absurd trivial hok
  | reset f =>
    obtain ⟨hf, hnot⟩ := Classical.not_imp.1 hok
    rw [act, if_pos hf]
    rw [Sys.reset, if_neg hnot]
    exact not_good_abort
  | call f =>
    obtain ⟨hf, hnot⟩ := Classical.not_imp.1 hok
    rw [act, if_pos hf]
    exact fun hgood => hnot ((good_swap_iff (h.setState f .exec) 0 f false).1 hgood)
  | back f =>
    obtain ⟨hf, hnot⟩ := Classical.not_imp.1 hok
    rw [act, if_pos hf]
    exact fun hgood => hnot ((good_swap_iff h f 0 false).1 hgood)
  | swapIn f =>
    obtain ⟨hf, hnot⟩ := Classical.not_imp.1 hok
    rw [act, if_pos hf]
    exact fun hgood => hnot ((good_swapIn_iff h f).1 hgood)
  | swapOut f =>
    obtain ⟨hf, hnot⟩ := Classical.not_imp.1 hok
    rw [act, if_pos hf]
    exact fun hgood => hnot ((good_swapOut_iff h f false).1 hgood)
  | YieldToReady => exact fun hgood => hok ((good_swapOut_iff (h.setState s.t_fiber .ready) s.t_fiber false).1 hgood)
  | YieldToHold => exact fun hgood => hok ((good_swapOut_iff (h.setState s.t_fiber .hold) s.t_fiber false).1 hgood)
  | finish threw =>
    obtain ⟨hrun, hnot⟩ := Classical.not_imp.1 hok
    have hset := h.setState s.mach.running (if threw then .exec else .term)
    rw [act, if_neg hrun, Sys.finish]
    cases hentry : s.entry s.mach.running with
    | MainFunc =>
      rw [hentry] at hnot
      exact fun hgood => hnot ((good_swapOut_iff hset s.mach.running true).1 hgood)
    | CallerMainFunc =>
      rw [hentry] at hnot
      exact fun hgood => hnot ((good_swap_iff hset s.mach.running 0 true).1 hgood)
  | useCaller => exact absurd trivial hok
  | run => exact absurd trivial hok

end

/-- **Switching discipline.** In all states of a run `t_fiber` is the fiber that runs, and every other fiber is in its own
context, where it was left, exactly when every switch saves the fiber that makes it and goes to one that has not ended
(and there is a main fiber, a fiber swapped in is not in EXEC, and a fiber reset has ended or not begun). -/
theorem switches_iff (ops : List Op) :
    (∀ pre, pre <+: ops → (run step init pre).Good) ↔ Guarded step Ok init ops :=
  states_good_iff inv_step (fun _ h => h.good) not_good_step inv_init ops

/-! ## A lost fiber -/

/-- the fiber does not run, and no context holds it -/
def Stranded (x : ℕ) (s : Sys) : Prop := s.mach.Unsaved x ∧ x < s.fibers

section

variable {s : Sys} {x : ℕ}

theorem stranded_swap (h : Stranded x s) (o i : ℕ) (last : Bool) : Stranded x (s.swap o i last) :=
  ⟨Machine.unsaved_switch h.1 o i last, h.2⟩

theorem stranded_swapOut (h : Stranded x s) (f : ℕ) (last : Bool) : Stranded x (s.swapOut f last) := by
  rw [Sys.swapOut]
  split
  · exact h
  · exact stranded_swap h f _ last

theorem stranded_new (h : Stranded x s) (use_caller : Bool) : Stranded x (s.new use_caller) :=
  ⟨Machine.unsaved_make h.1 (Nat.ne_of_gt h.2), Nat.lt_succ_of_lt h.2⟩

/-- only a reset brings it back, to its start -/
theorem stranded_step (h : Stranded x s) {o : Op} (ho : o ≠ .reset x) : Stranded x (step s o) := by
  have hset : ∀ f y, Stranded x (s.setState f y) := fun f y => h
  rw [step]
  split_ifs with hstop
  · exact h
  · cases o with
    | new use_caller => exact stranded_new h use_caller
    | reset f =>
      have hf : f ≠ x := fun heq => ho (heq ▸ rfl)
      rw [act, Sys.reset]
      split_ifs
      · exact ⟨Machine.unsaved_make h.1 hf, h.2⟩
      · exact h
      · exact h
    | call f =>
      rw [act]
      split_ifs
      · exact stranded_swap (hset f .exec) 0 f false
      · exact h
    | back f =>
      rw [act]
      split_ifs
      · exact stranded_swap h f 0 false
      · exact h
    | swapIn f =>
      rw [act, Sys.swapIn]
      split_ifs
      · exact h
      · split
        · exact h
        · exact stranded_swap (hset f .exec) _ f false
      · exact h
    | swapOut f =>
      rw [act]
      split_ifs
      · exact stranded_swapOut h f false
      · exact h
    | YieldToReady => exact stranded_swapOut (hset s.t_fiber .ready) s.t_fiber false
    | YieldToHold => exact stranded_swapOut (hset s.t_fiber .hold) s.t_fiber false
    | finish threw =>
      rw [act]
      split_ifs
      · exact h
      · rw [Sys.finish]
        split
        · exact stranded_swapOut (hset _ _) s.mach.running true
        · exact stranded_swap (hset _ _) s.mach.running 0 true
    | useCaller => exact stranded_new h true
    | run => exact h

theorem stranded_run (h : Stranded x s) {ops : List Op} (hreset : .reset x ∉ ops) : Stranded x (run step s ops) := by
  induction ops generalizing s with
  | nil => exact h
  | cons o ops ih =>
    rw [List.mem_cons, not_or] at hreset
    exact ih (stranded_step h (Ne.symm hreset.1)) hreset.2

end

/-- **Nested swapIn.** When a fiber, and not the main fiber, swaps another one in, the main fiber never runs again: its
context has been taken. Only a reset starts it anew, which fiber 0 does not have. -/
theorem main_stranded {pre : List Op} (hpre : Guarded step Ok init pre) {m f : ℕ}
    (hmain : (run step init pre).mainFiber = some m) (hrunning : (run step init pre).mach.running ≠ m)
    (hf : f < (run step init pre).fibers) (hexec : (run step init pre).state f ≠ .exec) {ops : List Op}
    (hreset : .reset m ∉ ops) : (run step init (pre ++ .swapIn f :: ops)).mach.running ≠ m := by
  have hinv : (run step init pre).Inv := run_inv inv_step inv_init hpre
  have hstep : step (run step init pre) (.swapIn f) = ((run step init pre).setState f .exec).swap m f false := by
    rw [step_eq hinv, act, if_pos hf, Sys.swapIn, if_neg hexec, hmain]
  have hstranded : Stranded m (step (run step init pre) (.swapIn f)) := by
    rw [hstep]
    exact ⟨Machine.unsaved_of_foreign hinv.orderly (Ne.symm hrunning) f false, hinv.known.2 m hmain⟩
  rw [run_append, run_cons]
  exact (stranded_run hstranded hreset).1.1

/-- fiber 1 swaps fiber 2 in, and both end -/
theorem main_stranded_nested :
    (run step init ([.run, .new false, .new false, .swapIn 1] ++ .swapIn 2 :: [.finish false, .finish false])).mach.running
      ≠ 0 :=
  have hpre : Guarded step Ok init [.run, .new false, .new false, .swapIn 1] :=
    ⟨trivial, trivial, trivial, fun _ => ⟨by decide, 0, rfl, by decide⟩, trivial⟩
  main_stranded hpre rfl (by decide) (by decide) (by decide) (by decide)

end Sylar.Switch

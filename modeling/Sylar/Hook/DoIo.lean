/-
`do_io`: one hooked IO call, from its entry to its return.

The call tries the system call; when that would block it arms a condition timer, registers its event, yields, and tries
again after it was woken. Around it the readiness reports, the cancels of other fibers and the callbacks of its timers, also
those of earlier rounds, happen at any time. What the system call returns is up to the kernel. When addEvent fails, errno is
that of epoll_ctl.

Results:
- `step_inv`: between two waits nothing of the call is registered, and no timer is armed outside of a round;
- `cleans_up`: when the call returns, no registration and no armed timer is left, a result other than -1 is that of the
  last system call, and an ETIMEDOUT that is not is returned only after the timeout.
-/
import Sylar.Core.Run
import Sylar.Hook.FdCtx
import Sylar.Hook.Waiter

namespace Sylar.Hook.DoIo

open Sylar.Run

/-! ## Model -/

def EINTR : ℕ := 4

def EAGAIN : ℕ := 11

/-- the errors of epoll_ctl: ENOENT, EPERM, EBADF, ENOMEM, EEXIST, EINVAL, ENOSPC and ELOOP -/
def epollCtlErrors : List ℕ := [2, 1, 9, 12, 17, 22, 28, 40]

/-- the thread's `t_hook_enable`, the context that `FdMgr::get` finds, and the option of the timeout -/
structure Call where
  hookEnable : Bool
  ctx : Option FdCtx
  timeoutSo : ℕ

/-- `to` -/
def Call.timeout (c : Call) : UInt64 :=
  match c.ctx with
  | none => noTimeout
  | some ctx => ctx.getTimeout c.timeoutSo

/-- where the fiber is -/
inductive Pc where
  | enter
  /-- in front of the system call whose result is returned as it is -/
  | direct
  /-- in front of the system call, behind `retry` -/
  | retry
  | addTimer
  | addEvent
  /-- addEvent has failed with this errno, and `timer->cancel()` is next -/
  | failed (errno : ℕ)
  | hold
  /-- behind YieldToHold, and `timer->cancel()` is next -/
  | resumed
  /-- in front of the test of `tinfo->cancelled` -/
  | test
  | returned (r : Result)
deriving DecidableEq, Repr

structure Sys where
  pc : Pc
  wait : Waiter
  /-- the result of the last system call -/
  last : Option Result

def init : Sys := ⟨.enter, .init, none⟩

inductive Op where
  | env (e : Waiter.Env)
  /-- the fiber goes on -/
  | next
  /-- the system call returns -/
  | call (r : Result)
  /-- addEvent returns, 0 or -1 with this errno -/
  | addEvent (errno : Option ℕ)
deriving DecidableEq, Repr

/-- the checks in front of `retry` -/
def Call.enter (c : Call) : Pc :=
  if !c.hookEnable then .direct
  else match c.ctx with
    | none => .direct
    | some ctx =>
      if ctx.isClosed then .returned ⟨-1, EBADF⟩
      else if !ctx.isSocket || ctx.userNonblock then .direct
      else .retry

/-- the loop for EINTR, and the test for EAGAIN -/
def afterCall (r : Result) : Pc :=
  if r.ret = -1 ∧ r.errno = EINTR then .retry
  else if r.ret = -1 ∧ r.errno = EAGAIN then .addTimer
  else .returned r

def step (c : Call) (s : Sys) : Op → Sys
  | .env e => { s with wait := s.wait.env c.timeout e }
  | .next =>
    match s.pc with
    | .enter => { s with pc := c.enter }
    | .addTimer => { s with pc := .addEvent, wait := s.wait.addConditionTimer c.timeout }
    | .failed errno => { s with pc := .returned ⟨-1, errno⟩, wait := s.wait.cancelTimer.leave }
    | .hold => if s.wait.woken.isSome then { s with pc := .resumed, wait := s.wait.resume } else s
    | .resumed => { s with pc := .test, wait := s.wait.cancelTimer }
    | .test =>
      if s.wait.cancelled ≠ 0 then { s with pc := .returned ⟨-1, s.wait.cancelled⟩, wait := s.wait.leave }
      else { s with pc := .retry }
    | _ => s
  | .call r =>
    match s.pc with
    | .direct => { s with pc := .returned r, last := some r }
    | .retry =>
      match afterCall r with
      | .returned r => { s with pc := .returned r, last := some r, wait := s.wait.leave }
      | pc => { s with pc := pc, last := some r }
    | _ => s
  | .addEvent errno =>
    match s.pc, errno with
    | .addEvent, none => { s with pc := .hold, wait := s.wait.addEvent }
    | .addEvent, some e => if e ∈ epollCtlErrors then { s with pc := .failed e } else s
    | _, _ => s

/-- what the caller may rely on when the call has returned `r` -/
structure CleansUp (c : Call) (s : Sys) (r : Result) : Prop where
  registered : s.wait.registered = false
  unarmed : s.wait.Unarmed
  result : r.ret ≠ -1 → s.last = some r
  timeout : r = ⟨-1, ETIMEDOUT⟩ → s.last ≠ some r → s.wait.Passed c.timeout

/-! ## The invariant -/

/-- in a round, from addConditionTimer to `timer->cancel()` -/
def Pc.timed : Pc → Bool
  | .addEvent | .failed _ | .hold | .resumed => true
  | _ => false

structure Inv (c : Call) (s : Sys) : Prop where
  wait : s.wait.Inv c.timeout
  idle : s.pc ≠ .hold → s.wait.Idle
  unarmed : s.pc.timed = false → s.wait.Unarmed
  failed : ∀ e, s.pc = .failed e → e ∈ epollCtlErrors
  result : ∀ r, s.pc = .returned r → r.ret ≠ -1 → s.last = some r
  timeout : ∀ r, s.pc = .returned r → r = ⟨-1, ETIMEDOUT⟩ → s.last ≠ some r → s.wait.Passed c.timeout

theorem inv_init (c : Call) : Inv c init := by
  refine ⟨Waiter.inv_init _, fun _ => ⟨rfl, rfl⟩, ?_, ?_, ?_, ?_⟩
  · intro _ i since h
    cases h
  all_goals
    intro x h
    cases h

theorem Inv.env {c : Call} {s : Sys} (h : Inv c s) (e : Waiter.Env) : Inv c (step c s (.env e)) := by
  refine ⟨Waiter.env_inv h.wait e, ?_, ?_, h.failed, h.result, ?_⟩
  · intro hpc
    exact Waiter.env_idle (h.idle hpc) c.timeout e
  · intro hpc
    exact Waiter.env_unarmed (h.unarmed hpc) c.timeout e
  · intro r hpc hr hlast
    exact Waiter.env_passed (h.timeout r hpc hr hlast) e

/-- the call goes on, and has not returned -/
theorem Inv.goto {c : Call} {pc : Pc} {w : Waiter} {last : Option Result} (hwait : w.Inv c.timeout)
    (hidle : pc ≠ .hold → w.Idle) (hunarmed : pc.timed = false → w.Unarmed)
    (hfailed : ∀ e, pc = .failed e → e ∈ epollCtlErrors) (hpc : ∀ r, pc ≠ .returned r) : Inv c ⟨pc, w, last⟩ :=
  ⟨hwait, hidle, hunarmed, hfailed, fun r hr => absurd hr (hpc r), fun r hr => absurd hr (hpc r)⟩

/-- the call returns `r`, with nothing registered and no timer armed -/
theorem Inv.return {c : Call} {w : Waiter} {last : Option Result} {r : Result} (hwait : w.Inv c.timeout)
    (hidle : w.Idle) (hunarmed : w.Unarmed)
    (hr : last = some r ∨ r.ret = -1 ∧ (r.errno = ETIMEDOUT → w.Passed c.timeout)) : Inv c ⟨.returned r, w, last⟩ := by
  refine ⟨hwait, fun _ => hidle, fun _ => hunarmed, by simp, ?_, ?_⟩
  · intro r' hr' hret
    cases hr'
    exact hr.resolve_right fun h => hret h.1
  · intro r' hr' heq hlast
    cases hr'
    exact (hr.resolve_left hlast).2 (by rw [heq])

/-- the fiber goes on -/
theorem Inv.next {c : Call} {s : Sys} (h : Inv c s) : Inv c (step c s .next) := by
  simp only [step]
  cases hpc : s.pc with
  | enter =>
    have hidle := h.idle (by rw [hpc]; simp)
    have hunarmed := h.unarmed (by rw [hpc]; rfl)
    have hdirect : Inv c { s with pc := .direct } := .goto h.wait (fun _ => hidle) (fun _ => hunarmed) (by simp) (by simp)
    simp only [Call.enter]
    split_ifs
    · exact hdirect
    · split
      · exact hdirect
      · split_ifs
        · exact .return h.wait hidle hunarmed (.inr ⟨rfl, fun h => by cases h⟩)
        · exact hdirect
        · exact .goto h.wait (fun _ => hidle) (fun _ => hunarmed) (by simp) (by simp)
  | addTimer =>
    have hidle := h.idle (by rw [hpc]; simp)
    have hunarmed := h.unarmed (by rw [hpc]; rfl)
    exact .goto (Waiter.addConditionTimer_inv h.wait hunarmed) (fun _ => Waiter.addConditionTimer_idle hidle _)
      (by simp [Pc.timed]) (by simp) (by simp)
  | failed e =>
    have hidle := h.idle (by rw [hpc]; simp)
    -- epoll_ctl does not report ETIMEDOUT
    have herror : e ≠ ETIMEDOUT := by
      rintro rfl
      exact absurd (h.failed _ hpc) (by decide)
    exact .return (Waiter.leave_inv (Waiter.cancelTimer_inv h.wait)) (Waiter.cancelTimer_idle hidle)
      (Waiter.cancelTimer_unarmed h.wait) (.inr ⟨rfl, fun he => absurd he herror⟩)
  | hold =>
    dsimp only
    split_ifs with hwoken
    · have hidle := Waiter.resume_idle h.wait (Option.isSome_iff_ne_none.1 hwoken)
      exact .goto (Waiter.resume_inv h.wait) (fun _ => hidle) (by simp [Pc.timed]) (by simp) (by simp)
    · exact h
  | resumed =>
    have hidle := h.idle (by rw [hpc]; simp)
    exact .goto (Waiter.cancelTimer_inv h.wait) (fun _ => Waiter.cancelTimer_idle hidle)
      (fun _ => Waiter.cancelTimer_unarmed h.wait) (by simp) (by simp)
  | test =>
    have hidle := h.idle (by rw [hpc]; simp)
    have hunarmed := h.unarmed (by rw [hpc]; rfl)
    dsimp only
    split_ifs with hcancelled
    · obtain ⟨-, hpassed⟩ := h.wait.cancelled.resolve_left hcancelled
      exact .return (Waiter.leave_inv h.wait) hidle hunarmed (.inr ⟨rfl, fun _ => hpassed⟩)
    · exact .goto h.wait (fun _ => hidle) (fun _ => hunarmed) (by simp) (by simp)
  | direct | retry | addEvent | returned => exact h

/-- the system call returns -/
theorem Inv.call {c : Call} {s : Sys} (h : Inv c s) (r : Result) : Inv c (step c s (.call r)) := by
  simp only [step]
  cases hpc : s.pc with
  | direct =>
    exact .return h.wait (h.idle (by rw [hpc]; simp)) (h.unarmed (by rw [hpc]; rfl)) (.inl rfl)
  | retry =>
    have hidle := h.idle (by rw [hpc]; simp)
    have hunarmed := h.unarmed (by rw [hpc]; rfl)
    simp only [afterCall]
    split_ifs
    · exact .goto h.wait (fun _ => hidle) (fun _ => hunarmed) (by simp) (by simp)
    · exact .goto h.wait (fun _ => hidle) (fun _ => hunarmed) (by simp) (by simp)
    · exact .return (Waiter.leave_inv h.wait) hidle hunarmed (.inl rfl)
  | enter | addTimer | addEvent | failed | hold | resumed | test | returned => exact h

theorem step_inv {c : Call} {s : Sys} (h : Inv c s) (o : Op) : Inv c (step c s o) := by
  cases o with
  | env e => exact h.env e
  | next => exact h.next
  | call r => exact h.call r
  | addEvent errno =>
    simp only [step]
    cases hpc : s.pc with
    | addEvent =>
      have hidle := h.idle (by rw [hpc]; simp)
      cases errno with
      | none => exact .goto (Waiter.addEvent_inv h.wait hidle.2) (by simp) (by simp [Pc.timed]) (by simp) (by simp)
      | some e =>
        dsimp only
        split_ifs with he
        · refine .goto h.wait (fun _ => hidle) (by simp [Pc.timed]) ?_ (by simp)
          intro e' heq
          cases heq
          exact he
        · exact h
    | enter | direct | retry | addTimer | failed | hold | resumed | test | returned => exact h

/-! ## Main result -/

/-- **Hooked IO calls clean up after themselves.** Whatever the kernel, the other fibers and the callbacks do: when the
call has returned, none of its events is registered and none of its timers is armed, a result other than -1 is the one of
the last system call, and an ETIMEDOUT that the system call has not reported comes only after the timeout. -/
theorem cleans_up (c : Call) (ops : List Op) (r : Result) (h : (run (step c) init ops).pc = .returned r) :
    CleansUp c (run (step c) init ops) r := by
  have hstep : ∀ s o, Inv c s → Inv c (step c s o) := fun _ o hs => step_inv hs o
  have hinv := run_preserves hstep (inv_init c) ops
  refine ⟨(hinv.idle (by rw [h]; simp)).1, hinv.unarmed (by rw [h]; rfl), hinv.result r h, hinv.timeout r h⟩

/-- a hooked read with a timeout of 2 ms -/
def read2 : Call := ⟨true, some ⟨true, true, true, false, false, 2, -1⟩, SO_RCVTIMEO⟩

/-- the timer of the first round is taken out; before its callback runs a report wakes the fiber. The callback ends the
second wait, and the call gives up. -/
def lateCallbackTrace : List Op :=
  [.next, .call ⟨-1, EINTR⟩, .call ⟨-1, EAGAIN⟩, .next, .addEvent none, .env .tick, .env .tick, .env (.expire 0),
    .env (.trigger .report), .next, .next, .next, .call ⟨-1, EAGAIN⟩, .next, .addEvent none,
    .env (.lock 0), .env (.test 0), .env (.flag 0), .env (.cancelEvent 0 true), .next, .next, .next]

theorem cleans_up_example : (run (step read2) init lateCallbackTrace).pc = .returned ⟨-1, ETIMEDOUT⟩ ∧
    CleansUp read2 (run (step read2) init lateCallbackTrace) ⟨-1, ETIMEDOUT⟩ := by
  have hpc : (run (step read2) init lateCallbackTrace).pc = .returned ⟨-1, ETIMEDOUT⟩ := by decide
  exact ⟨hpc, cleans_up read2 lateCallbackTrace _ hpc⟩

end Sylar.Hook.DoIo

/-
`connect_with_timeout`: one hooked connect call, from its entry to its return.

When connect_f says EINPROGRESS the call arms a condition timer, registers for WRITE and yields. It goes on when the event
is triggered, and reads SO_ERROR unless `tinfo->cancelled` is set; after a failed addEvent it reads SO_ERROR at once. The
kernel completes the connection at any time, and SO_ERROR is 0 until it has failed. epoll reports WRITE when the
connection is no longer in progress.

Results:
- `step_inv`: a fiber that a report has woken finds the connection no longer in progress, and one that the timeout has
  woken does not come to SO_ERROR;
- `connect_established_iff`: along a run the call returns 0 only for an established connection, exactly when SO_ERROR is
  never read in progress after a failed addEvent, a cancel by another fiber or a stale report;
- `connect_in_progress`: a failed addEvent, and a cancelEvent by another fiber.
-/
import Sylar.Core.Run
import Sylar.Hook.FdCtx
import Sylar.Hook.Waiter

namespace Sylar.Hook.Connect

open Sylar.Run

/-! ## Model -/

def EINPROGRESS : ℕ := 115

/-- the connection, in the kernel -/
inductive Conn where
  | idle
  | inProgress
  | established
  | failed (error : ℕ)
deriving DecidableEq, Repr

/-- what SO_ERROR reads -/
def Conn.soError : Conn → ℕ
  | .failed error => error
  | _ => 0

/-- `t_hook_enable`, the context that `FdMgr::get` finds, and `timeout_ms` -/
structure Call where
  hookEnable : Bool
  ctx : Option FdCtx
  timeoutMs : UInt64

/-- where the fiber is -/
inductive Pc where
  | enter
  /-- in front of a connect_f whose result is returned as it is -/
  | direct
  | connect
  | addTimer
  | addEvent
  /-- addEvent has failed, and `timer->cancel()` is next -/
  | failed
  | hold
  /-- behind YieldToHold, woken by `src`, and `timer->cancel()` is next -/
  | resumed (src : Source)
  /-- in front of the test of `tinfo->cancelled` -/
  | test (src : Source)
  /-- in front of getsockopt; `none`: addEvent has failed -/
  | getsockopt (cause : Option Source)
  /-- with the connection at that time -/
  | returned (r : Result) (conn : Conn)
deriving DecidableEq, Repr

structure Sys where
  pc : Pc
  wait : Waiter
  conn : Conn

def init : Sys := ⟨.enter, .init, .idle⟩

inductive Op where
  | env (e : Waiter.Env)
  /-- the fiber goes on -/
  | next
  /-- connect_f returns, 0 or -1 with this errno -/
  | connect (errno : Option ℕ)
  | addEvent (ok : Bool)
  /-- getsockopt succeeds, or returns -1 with this errno -/
  | getsockopt (errno : Option ℕ)
  /-- the kernel -/
  | establish
  | fail (error : ℕ)
deriving DecidableEq, Repr

/-- the checks in front of connect_f -/
def Call.enter (c : Call) (conn : Conn) : Pc :=
  if !c.hookEnable then .direct
  else match c.ctx with
    | none => .returned ⟨-1, EBADF⟩ conn
    | some ctx =>
      if ctx.isClosed then .returned ⟨-1, EBADF⟩ conn
      else if !ctx.isSocket then .direct
      else if ctx.userNonblock then .direct
      else .connect

/-- connect_f in the kernel -/
def Conn.after (conn : Conn) : Option ℕ → Conn
  | none => .established
  | some e => if e = EINPROGRESS then .inProgress else conn

/-- what connect_f returns -/
def reply : Option ℕ → Result
  | none => ⟨0, 0⟩
  | some e => ⟨-1, e⟩

def step (c : Call) (s : Sys) : Op → Sys
  | .env e => if e = .trigger .report ∧ s.conn = .inProgress then s else { s with wait := s.wait.env c.timeoutMs e }
  | .next =>
    match s.pc with
    | .enter => { s with pc := c.enter s.conn }
    | .addTimer => { s with pc := .addEvent, wait := s.wait.addConditionTimer c.timeoutMs }
    | .failed => { s with pc := .getsockopt none, wait := s.wait.cancelTimer }
    | .hold =>
      match s.wait.woken with
      | none => s
      | some src => { s with pc := .resumed src, wait := s.wait.resume }
    | .resumed src => { s with pc := .test src, wait := s.wait.cancelTimer }
    | .test src =>
      if s.wait.cancelled ≠ 0 then
        { s with pc := .returned ⟨-1, s.wait.cancelled⟩ s.conn, wait := s.wait.leave }
      else { s with pc := .getsockopt (some src) }
    | _ => s
  | .connect errno =>
    let conn := s.conn.after errno
    match s.pc with
    | .direct => { s with pc := .returned (reply errno) conn, conn := conn }
    | .connect =>
      if errno = some EINPROGRESS then { s with pc := .addTimer, conn := conn }
      else { s with pc := .returned (reply errno) conn, conn := conn }
    | _ => s
  | .addEvent ok =>
    match s.pc with
    | .addEvent => if ok then { s with pc := .hold, wait := s.wait.addEvent } else { s with pc := .failed }
    | _ => s
  | .getsockopt errno =>
    match s.pc with
    | .getsockopt _ =>
      match errno with
      | some e => { s with pc := .returned ⟨-1, e⟩ s.conn, wait := s.wait.leave }
      | none =>
        if s.conn.soError = 0 then { s with pc := .returned ⟨0, 0⟩ s.conn, wait := s.wait.leave }
        else { s with pc := .returned ⟨-1, s.conn.soError⟩ s.conn, wait := s.wait.leave }
    | _ => s
  | .establish => if s.conn = .inProgress then { s with conn := .established } else s
  | .fail error =>
    if (s.conn = .inProgress ∨ s.conn = .established) ∧ error ≠ 0 then { s with conn := .failed error } else s

/-- a call that has returned 0 has returned it for an established connection -/
def Truthful (s : Sys) : Prop := ∀ r conn, s.pc = .returned r conn → r.ret = 0 → conn = .established

/-- SO_ERROR may be read before the connection is no longer in progress: addEvent has failed, or neither a report of the
wait nor the timeout has woken the fiber -/
def early : Option Source → Bool
  | none | some .staleReport | some .cancelEvent | some .cancelAll => true
  | some .report | some .timeout => false

/-- the condition of a run: by the time such a call reads SO_ERROR the connection is no longer in progress -/
def ReadInTime (s : Sys) : Op → Prop
  | .getsockopt none => ∀ cause, s.pc = .getsockopt cause → early cause = true → s.conn ≠ .inProgress
  | _ => True

/-! ## The invariant -/

/-- what holds where the fiber is: the connection is begun when connect_f has returned EINPROGRESS, a report has seen it
complete, and the timeout has set `cancelled` -/
def At (w : Waiter) (conn : Conn) : Pc → Prop
  | .enter | .direct | .connect => w.Idle ∧ w.Unarmed
  | .addTimer => w.Idle ∧ w.Unarmed ∧ conn ≠ .idle
  | .addEvent | .failed => w.Idle ∧ conn ≠ .idle
  | .hold => conn ≠ .idle ∧ (w.woken = some .report → conn ≠ .inProgress)
  | .resumed src | .test src =>
    w.Idle ∧ conn ≠ .idle ∧ (src = .report → conn ≠ .inProgress) ∧ (src = .timeout → w.cancelled ≠ 0)
  | .getsockopt cause => conn ≠ .idle ∧ (early cause = false → conn ≠ .inProgress)
  | .returned r conn' => r.ret = 0 → conn' = .established

structure Inv (c : Call) (s : Sys) : Prop where
  wait : s.wait.Inv c.timeoutMs
  error : s.conn ≠ .failed 0
  here : At s.wait s.conn s.pc

theorem inv_init (c : Call) : Inv c init := by
  refine ⟨Waiter.inv_init _, by simp [init], ⟨rfl, rfl⟩, ?_⟩
  intro i since h
  cases h

theorem Inv.truthful {c : Call} {s : Sys} (h : Inv c s) : Truthful s := by
  intro r conn hpc hr
  have hhere := h.here
  rw [hpc] at hhere
  exact hhere hr

/-- the other parties, as long as epoll reports only what has completed -/
theorem At.env {w : Waiter} {conn : Conn} {pc : Pc} (h : At w conn pc) (ms : UInt64) (e : Waiter.Env)
    (he : e = .trigger .report → conn ≠ .inProgress) : At (w.env ms e) conn pc := by
  cases pc with
  | enter | direct | connect => exact ⟨Waiter.env_idle h.1 ms e, Waiter.env_unarmed h.2 ms e⟩
  | addTimer => exact ⟨Waiter.env_idle h.1 ms e, Waiter.env_unarmed h.2.1 ms e, h.2.2⟩
  | addEvent | failed => exact ⟨Waiter.env_idle h.1 ms e, h.2⟩
  | hold =>
    refine ⟨h.1, ?_⟩
    intro hwoken
    rcases Waiter.env_registered w ms e with hsame | ⟨-, src, hsrc, hby⟩
    · exact h.2 (by rw [← hsame.2, hwoken])
    · rw [hsrc, Option.some_inj] at hwoken
      subst hwoken
      exact he (hby.resolve_right (by simp))
  | resumed src | test src =>
    obtain ⟨hidle, hbegun, hreport, htimeout⟩ := h
    exact ⟨Waiter.env_idle hidle ms e, hbegun, hreport, fun hsrc => Waiter.env_cancelled (htimeout hsrc) ms e⟩
  | getsockopt | returned => exact h

/-- the kernel completes the connection -/
theorem At.complete {w : Waiter} {conn conn' : Conn} {pc : Pc} (h : At w conn pc) (hbegun : conn' ≠ .idle)
    (hdone : conn' ≠ .inProgress) : At w conn' pc := by
  cases pc with
  | enter | direct | connect | returned => exact h
  | addTimer => exact ⟨h.1, h.2.1, hbegun⟩
  | addEvent | failed => exact ⟨h.1, hbegun⟩
  | hold => exact ⟨hbegun, fun _ => hdone⟩
  | resumed src | test src => exact ⟨h.1, hbegun, fun _ => hdone, h.2.2.2⟩
  | getsockopt => exact ⟨hbegun, fun _ => hdone⟩

/-- the fiber goes on -/
theorem Inv.next {c : Call} {s : Sys} (h : Inv c s) : Inv c (step c s .next) := by
  have hwait := h.wait
  have herror := h.error
  have hhere := h.here
  simp only [step]
  cases hpc : s.pc with
  | enter =>
    rw [hpc] at hhere
    refine ⟨hwait, herror, ?_⟩
    simp only [Call.enter]
    split_ifs
    · exact hhere
    · split
      · exact fun hr => by cases hr
      · split_ifs
        · exact fun hr => by cases hr
        all_goals exact hhere
  | addTimer =>
    rw [hpc] at hhere
    obtain ⟨hidle, hunarmed, hbegun⟩ := hhere
    exact ⟨Waiter.addConditionTimer_inv hwait hunarmed, herror, Waiter.addConditionTimer_idle hidle _, hbegun⟩
  | failed =>
    rw [hpc] at hhere
    exact ⟨Waiter.cancelTimer_inv hwait, herror, hhere.2, fun hearly => by cases hearly⟩
  | hold =>
    rw [hpc] at hhere
    obtain ⟨hbegun, hreport⟩ := hhere
    dsimp only
    split
    · exact h
    · rename_i src hwoken
      have hidle := Waiter.resume_idle hwait (by rw [hwoken]; simp)
      refine ⟨Waiter.resume_inv hwait, herror, hidle, hbegun, ?_, ?_⟩
      · rintro rfl
        exact hreport hwoken
      · rintro rfl
        have hset : s.wait.cancelled = ETIMEDOUT := hwait.byTimeout hwoken
        simp [Waiter.resume, hset, ETIMEDOUT]
  | resumed src =>
    rw [hpc] at hhere
    obtain ⟨hidle, hbegun, hreport, htimeout⟩ := hhere
    exact ⟨Waiter.cancelTimer_inv hwait, herror, Waiter.cancelTimer_idle hidle, hbegun, hreport,
      fun hsrc => by rw [Waiter.cancelTimer_cancelled]; exact htimeout hsrc⟩
  | test src =>
    rw [hpc] at hhere
    obtain ⟨hidle, hbegun, hreport, htimeout⟩ := hhere
    dsimp only
    split_ifs with hcancelled
    · exact ⟨Waiter.leave_inv hwait, herror, fun hr => by cases hr⟩
    · -- the timeout does not come here
      refine ⟨hwait, herror, hbegun, ?_⟩
      intro hearly
      cases src with
      | report => exact hreport rfl
      | timeout => exact absurd (htimeout rfl) hcancelled
      | staleReport | cancelEvent | cancelAll => cases hearly
  | direct | connect | addEvent | getsockopt | returned =>
    exact h

/-- connect_f returns 0 for an established connection -/
theorem Inv.connect {c : Call} {s : Sys} (h : Inv c s) (errno : Option ℕ) : Inv c (step c s (.connect errno)) := by
  have hwait := h.wait
  have herror := h.error
  have hhere := h.here
  have herror' : s.conn.after errno ≠ .failed 0 := by
    cases errno with
    | none => simp [Conn.after]
    | some e =>
      simp only [Conn.after]
      split_ifs
      · simp
      · exact herror
  have hreturned : (reply errno).ret = 0 → s.conn.after errno = .established := by
    cases errno with
    | none => exact fun _ => rfl
    | some e => exact fun hr => by cases hr
  simp only [step]
  cases hpc : s.pc with
  | direct => exact ⟨hwait, herror', hreturned⟩
  | connect =>
    rw [hpc] at hhere
    dsimp only
    split_ifs with hprogress
    · rw [hprogress] at herror' ⊢
      exact ⟨hwait, herror', hhere.1, hhere.2, by simp [Conn.after]⟩
    · exact ⟨hwait, herror', hreturned⟩
  | enter | addTimer | addEvent | failed | hold | resumed | test | getsockopt | returned =>
    exact h

/-- the condition: a SO_ERROR of 0 is that of an established connection -/
theorem Inv.getsockopt {c : Call} {s : Sys} (h : Inv c s) (errno : Option ℕ) (hread : ReadInTime s (.getsockopt errno)) :
    Inv c (step c s (.getsockopt errno)) := by
  have hwait := h.wait
  have herror := h.error
  have hhere := h.here
  simp only [step]
  cases hpc : s.pc with
  | getsockopt cause =>
    rw [hpc] at hhere
    obtain ⟨hbegun, hreport⟩ := hhere
    cases errno with
    | some e => exact ⟨Waiter.leave_inv hwait, herror, fun hr => by cases hr⟩
    | none =>
      dsimp only
      split_ifs with hzero
      · -- neither in progress nor failed
        have hdone : s.conn ≠ .inProgress := by
          cases hearly : early cause
          · exact hreport hearly
          · exact hread cause hpc hearly
        refine ⟨Waiter.leave_inv hwait, herror, fun _ => ?_⟩
        cases hconn : s.conn with
        | idle => exact absurd hconn hbegun
        | inProgress => exact absurd hconn hdone
        | established => rfl
        | failed error =>
          rw [hconn] at hzero herror
          exact absurd (congrArg Conn.failed hzero) herror
      · exact ⟨Waiter.leave_inv hwait, herror, fun hr => by cases hr⟩
  | enter | direct | connect | addTimer | addEvent | failed | hold | resumed | test | returned =>
    exact h

theorem step_inv {c : Call} {s : Sys} (h : Inv c s) (o : Op) (hread : ReadInTime s o) : Inv c (step c s o) := by
  have hwait := h.wait
  have herror := h.error
  have hhere := h.here
  cases o with
  | env e =>
    simp only [step]
    split_ifs with he
    · exact h
    · exact ⟨Waiter.env_inv hwait e, herror, hhere.env _ e fun heq hconn => he ⟨heq, hconn⟩⟩
  | next => exact h.next
  | connect errno => exact h.connect errno
  | addEvent ok =>
    simp only [step]
    cases hpc : s.pc with
    | addEvent =>
      rw [hpc] at hhere
      obtain ⟨hidle, hbegun⟩ := hhere
      dsimp only
      split_ifs
      · refine ⟨Waiter.addEvent_inv hwait hidle.2, herror, hbegun, ?_⟩
        intro hwoken
        have hnone : s.wait.woken = some .report := hwoken
        rw [hidle.2] at hnone
        cases hnone
      · exact ⟨hwait, herror, hidle, hbegun⟩
    | enter | direct | connect | addTimer | failed | hold | resumed | test | getsockopt | returned =>
      exact h
  | getsockopt errno => exact h.getsockopt errno hread
  | establish =>
    simp only [step]
    split_ifs
    · exact ⟨hwait, by simp, hhere.complete (by simp) (by simp)⟩
    · exact h
  | fail error =>
    simp only [step]
    split_ifs with hfail
    · exact ⟨hwait, by simpa using hfail.2, hhere.complete (by simp) (by simp)⟩
    · exact h

theorem not_truthful {s : Sys} (h : s.pc = .returned ⟨0, 0⟩ .inProgress) : ¬ Truthful s := by
  intro htruthful
  cases htruthful _ _ h rfl

/-- SO_ERROR is 0 while the connection is in progress -/
theorem step_untruthful (c : Call) (s : Sys) (o : Op) (hread : ¬ ReadInTime s o) : ¬ Truthful (step c s o) := by
  cases o with
  | getsockopt errno =>
    cases errno with
    | none =>
      simp only [ReadInTime, not_forall, not_not] at hread
      obtain ⟨cause, hpc, -, hconn⟩ := hread
      apply not_truthful
      simp [step, hpc, hconn, Conn.soError]
    | some e => exact absurd trivial hread
  | env | next | connect | addEvent | establish | fail => exact absurd trivial hread

/-! ## Main results -/

/-- **A hooked connect.** Along a run the call returns 0 only for an established connection, exactly when SO_ERROR is not
read in progress after addEvent has failed, or after another fiber or a stale report has ended the wait. -/
theorem connect_established_iff (c : Call) (ops : List Op) :
    (∀ pre, pre <+: ops → Truthful (run (step c) init pre)) ↔ Guarded (step c) ReadInTime init ops := by
  have hstep : ∀ s o, Inv c s → ReadInTime s o → Inv c (step c s o) := fun _ o h => step_inv h o
  have hbad : ∀ s o, Inv c s → ¬ ReadInTime s o → ¬ Truthful (step c s o) := fun s o _ => step_untruthful c s o
  exact states_good_iff hstep (fun _ h => h.truthful) hbad (inv_init c) ops

/-- a blocking-mode socket with hooking enabled -/
def connect5000 : Call := ⟨true, some ⟨true, true, true, false, false, -1, -1⟩, 5000⟩

def addEventFailsTrace : List Op :=
  [.next, .connect (some EINPROGRESS), .next, .addEvent false, .next, .getsockopt none]

/-- another fiber calls cancelWrite -/
def cancelledTrace : List Op :=
  [.next, .connect (some EINPROGRESS), .next, .addEvent true, .env (.trigger .cancelEvent), .next, .next, .next,
    .getsockopt none]

/-- **Connected in progress.** In both traces the call returns 0, and the kernel has not established the connection. -/
theorem connect_in_progress :
    (run (step connect5000) init addEventFailsTrace).pc = .returned ⟨0, 0⟩ .inProgress ∧
      ¬ Truthful (run (step connect5000) init addEventFailsTrace) ∧
      (run (step connect5000) init cancelledTrace).pc = .returned ⟨0, 0⟩ .inProgress ∧
      ¬ Truthful (run (step connect5000) init cancelledTrace) := by
  have hfails : (run (step connect5000) init addEventFailsTrace).pc = .returned ⟨0, 0⟩ .inProgress := by decide
  have hcancelled : (run (step connect5000) init cancelledTrace).pc = .returned ⟨0, 0⟩ .inProgress := by decide
  exact ⟨hfails, not_truthful hfails, hcancelled, not_truthful hcancelled⟩

end Sylar.Hook.Connect

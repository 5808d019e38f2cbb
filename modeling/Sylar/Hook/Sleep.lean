/-
The hooked `sleep`, `usleep` and `nanosleep`.

Each makes a one-shot timer that schedules the calling fiber, and yields. The delay of the timer is computed as an unsigned
int, as a useconds_t, and as a long that becomes an int; addTimer takes an uint64_t and adds it to the clock. A long that
overflows has no value.

Results:
- `addTimer_timer`: the timer of a call is the one that addTimer makes in the system of the timers;
- `intMs_spec`: what the int makes of a number of milliseconds;
- `lastsLongEnough_iff`: when a call lasts at least as long as requested.
-/
import Sylar.Core.MachineInt
import Sylar.Timer.System

namespace Sylar.Hook.Sleep

open Sylar.MachineInt

/-! ## Model -/

/-- a timespec that nanosleep accepts -/
structure Timespec where
  tv_sec : ℕ
  tv_nsec : ℕ
  sec_lt : tv_sec < 2 ^ 63
  nsec_lt : tv_nsec < 10 ^ 9

/-- `req->tv_sec * 1000 + req->tv_nsec / 1000 / 1000` -/
def Timespec.ms (req : Timespec) : ℕ := req.tv_sec * 1000 + req.tv_nsec / 1000 / 1000

inductive Call where
  | sleep (seconds : UInt32)
  | usleep (usec : UInt32)
  | nanosleep (req : Timespec)

/-- an int as an uint64_t -/
def intMs (ms : ℕ) : UInt64 := UInt64.ofInt (toSigned 32 ms)

/-- the first argument of addTimer -/
def Call.delay : Call → Option UInt64
  | sleep seconds => some (seconds * 1000).toUInt64
  | usleep usec => some (usec / 1000).toUInt64
  | nanosleep req => if req.ms < 2 ^ 63 then some (intMs req.ms) else none

/-- `Timer::Timer` with that delay, at a reading `now` of the clock; the callback schedules the fiber -/
def Call.timer (call : Call) (fiber : ℕ) (now : UInt64) : Option Timers.Timer :=
  call.delay.map fun ms => ⟨false, ms, now + ms, some fiber⟩

/-- the requested duration in nanoseconds -/
def Call.requested : Call → ℕ
  | sleep seconds => seconds.toNat * 10 ^ 9
  | usleep usec => usec.toNat * 1000
  | nanosleep req => req.tv_sec * 10 ^ 9 + req.tv_nsec

/-- the contract of a sleep -/
def LastsLongEnough (call : Call) (fiber : ℕ) (now : UInt64) : Prop :=
  ∃ timer ∈ call.timer fiber now, call.requested ≤ timer.ms.toNat * 10 ^ 6 ∧ now ≤ timer.next

/-- when it is met: the milliseconds fit, there is no part of one, and the clock does not wrap. An int that comes out
negative is a delay of almost 2^64 ms, for which the clock has to be smaller still -/
def DelayRight (now : ℕ) : Call → Prop
  | .sleep seconds => seconds.toNat * 1000 < 2 ^ 32 ∧ now + seconds.toNat * 1000 < 2 ^ 64
  | .usleep usec => 1000 ∣ usec.toNat ∧ now + usec.toNat / 1000 < 2 ^ 64
  | .nanosleep req =>
    req.ms < 2 ^ 31 ∧ 10 ^ 6 ∣ req.tv_nsec ∧ now + req.ms < 2 ^ 64 ∨
      req.ms < 2 ^ 63 ∧ 2 ^ 31 ≤ req.ms % 2 ^ 32 ∧ now + req.ms % 2 ^ 32 < 2 ^ 32

/-! ## The timer -/

/-- the timer of a call is the one that addTimer makes -/
theorem addTimer_timer {call : Call} {ms : UInt64} (hdelay : call.delay = some ms) {s : Timers.Sys} {t p : ℕ}
    (hout : s.pc t = .out) (hunused : s.used p = false) (fiber : ℕ) :
    some ((Timers.step s (.addTimer t p ms (some fiber) false)).mgr.heap p) = call.timer fiber s.clock := by
  simp [Timers.step, hout, hunused, Timers.Sys.setPc, Timers.Sys.arm, Timers.TimerManager.setTimer, Call.timer, hdelay]

/-- the sum does not lie before the clock unless it wraps -/
theorem le_add_iff (now ms : UInt64) : now ≤ now + ms ↔ now.toNat + ms.toNat < 2 ^ 64 := by
  have hnow := now.toNat_lt
  have hms := ms.toNat_lt
  rw [UInt64.le_iff_toNat_le, UInt64.toNat_add]
  omega

theorem lastsLongEnough_of_delay {call : Call} {ms : UInt64} (hdelay : call.delay = some ms) (fiber : ℕ) (now : UInt64) :
    LastsLongEnough call fiber now ↔ call.requested ≤ ms.toNat * 10 ^ 6 ∧ now.toNat + ms.toNat < 2 ^ 64 := by
  rw [← le_add_iff]
  simp [LastsLongEnough, Call.timer, hdelay]

/-! ## The int of nanosleep -/

/-- the low 32 bits, or those below 2^64 if their highest bit is set -/
theorem intMs_spec (ms : ℕ) :
    (intMs ms).toNat = if ms % 2 ^ 32 < 2 ^ 31 then ms % 2 ^ 32 else 2 ^ 64 - 2 ^ 32 + ms % 2 ^ 32 := by
  have hval := toNat_ofInt (toSigned 32 ms)
  have hmod := Int.bmod_def (ms : ℤ) (2 ^ 32)
  rw [toUnsigned, toSigned] at hval
  rw [intMs, toSigned]
  split_ifs <;> omega

theorem nanosleep_iff (req : Timespec) (now : ℕ) (hms : req.ms < 2 ^ 63) :
    (req.tv_sec * 10 ^ 9 + req.tv_nsec ≤ (intMs req.ms).toNat * 10 ^ 6 ∧ now + (intMs req.ms).toNat < 2 ^ 64) ↔
      DelayRight now (.nanosleep req) := by
  have hnsec := req.nsec_lt
  rw [intMs_spec, DelayRight]
  rw [Timespec.ms] at hms ⊢
  split_ifs with hpos <;> omega

/-! ## Main result -/

/-- **Sleeps last long enough** exactly when their milliseconds survive the conversions, the clock does not wrap, and the
duration is in whole milliseconds. -/
theorem lastsLongEnough_iff (call : Call) (fiber : ℕ) (now : UInt64) :
    LastsLongEnough call fiber now ↔ DelayRight now.toNat call := by
  cases call with
  | sleep seconds =>
    rw [lastsLongEnough_of_delay rfl, DelayRight]
    simp only [Call.requested, UInt32.toNat_toUInt64, UInt32.toNat_mul, UInt32.reduceToNat]
    omega
  | usleep usec =>
    rw [lastsLongEnough_of_delay rfl, DelayRight]
    simp only [Call.requested, UInt32.toNat_toUInt64, UInt32.toNat_div, UInt32.reduceToNat]
    omega
  | nanosleep req =>
    by_cases hms : req.ms < 2 ^ 63
    · rw [lastsLongEnough_of_delay (by rw [Call.delay, if_pos hms]), Call.requested, nanosleep_iff req _ hms]
    · -- the long has overflown, and there is no delay
      have hnone : (Call.nanosleep req).delay = none := by rw [Call.delay, if_neg hms]
      refine iff_of_false (by simp [LastsLongEnough, Call.timer, hnone]) ?_
      rw [DelayRight]
      omega

/-- **Sleeps that end early.** 4294968 s is 704 ms as an unsigned int, half a millisecond is no time at all, and
2147483648 ms is a negative int, by which the clock goes back. -/
theorem sleep_ends_early :
    (Call.sleep 4294968).delay = some 704 ∧ ¬ LastsLongEnough (.sleep 4294968) 0 0 ∧
      (Call.usleep 500).delay = some 0 ∧ ¬ LastsLongEnough (.usleep 500) 0 0 ∧
      ¬ LastsLongEnough (.nanosleep ⟨2147483, 648000000, by decide, by decide⟩) 0 1700000000000 := by
  have hsleep : (Call.sleep 4294968).delay = some 704 := by decide
  have husleep : (Call.usleep 500).delay = some 0 := by decide
  have hnano : (Call.nanosleep ⟨2147483, 648000000, by decide, by decide⟩).delay = some 0xFFFFFFFF80000000 := by decide
  refine ⟨hsleep, ?_, husleep, ?_, ?_⟩
  · rw [lastsLongEnough_of_delay hsleep]
    decide
  · rw [lastsLongEnough_of_delay husleep]
    decide
  · rw [lastsLongEnough_of_delay hnano]
    decide

end Sylar.Hook.Sleep

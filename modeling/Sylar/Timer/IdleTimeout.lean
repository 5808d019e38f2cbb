/-
The timeout that `IOManager::idle` waits for.

getNextTimer returns an uint64_t: 0, the distance to the front of the set, or ~0 for an empty set. The loop around
epoll_wait compares it with MAX_TIMEOUT as an int, keeps the uint64_t, and passes it on as an int once more; an interrupted
wait goes through the loop again with what the variable holds then.

Results:
- `epollArg_eq`: every turn of the loop passes the same timeout;
- `sleepsRight_iff`: it is the smaller of MAX_TIMEOUT and the distance exactly when the distance is that small, or its low
  32 bits are a large int, or it is ~0.
-/
import Sylar.Timer.Wakeup

namespace Sylar.Timers

/-! ## Model -/

/-- `next_timeout` after a turn of the do-while loop has limited it -/
def limitTimeout (next_timeout : UInt64) : UInt64 :=
  if next_timeout ≠ ~~~0 then if toInt32 next_timeout > 3000 then 3000 else next_timeout else 3000

/-- the last argument of epoll_wait after `interrupts` waits that ended with EINTR -/
def epollArg (next_timeout : UInt64) (interrupts : ℕ) : ℤ := toInt32 (limitTimeout^[interrupts + 1] next_timeout)

/-- the contract: the smaller of MAX_TIMEOUT and what getNextTimer returned, so never negative, and 0 for a due timer only -/
def SleepsRight (m : TimerManager) (now_ms : UInt64) : Prop :=
  ∀ interrupts, let timeout := epollArg (m.getNextTimer now_ms).1 interrupts
    timeout = min 3000 ((m.getNextTimer now_ms).1.toNat : ℤ) ∧ 0 ≤ timeout ∧
      (timeout = 0 → ∃ front ∈ m.timers.head?, (m.heap front).next ≤ now_ms)

/-- when it is met, by the distance `d` to the front of the set -/
def TimeoutRight (d : ℕ) : Prop := d ≤ 3000 ∨ (3000 ≤ d % 2 ^ 32 ∧ d % 2 ^ 32 < 2 ^ 31) ∨ d = 2 ^ 64 - 1

instance (d : ℕ) : Decidable (TimeoutRight d) := by unfold TimeoutRight; infer_instance

/-! ## The loop -/

theorem limitTimeout_idem (d : UInt64) : limitTimeout (limitTimeout d) = limitTimeout d := by
  have hmax : limitTimeout 3000 = 3000 := by decide
  have hcases : limitTimeout d = 3000 ∨ limitTimeout d = d := by
    rw [limitTimeout]
    split_ifs
    · exact .inl rfl
    · exact .inr rfl
    · exact .inl rfl
  rcases hcases with h | h
  · rw [h, hmax]
  · rw [h, h]

/-- every turn passes the same timeout -/
theorem epollArg_eq (d : UInt64) (interrupts : ℕ) : epollArg d interrupts = epollTimeout d := by
  have hlimit : toInt32 (limitTimeout d) = epollTimeout d := by
    have hmax : toInt32 3000 = 3000 := by decide
    rw [limitTimeout, epollTimeout]
    split_ifs <;> first | exact hmax | rfl
  rw [← hlimit, epollArg]
  congr 1
  induction interrupts with
  | zero => rfl
  | succ n ih => rw [Function.iterate_succ_apply', ih, limitTimeout_idem]

/-- the two conversions keep the smaller of the two under the condition only -/
theorem epollTimeout_eq_min_iff (d : UInt64) : epollTimeout d = min 3000 (d.toNat : ℤ) ↔ TimeoutRight d.toNat := by
  have hlt := d.toNat_lt
  have hmod := Int.bmod_def (d.toNat : ℤ) (2 ^ 32)
  rw [TimeoutRight, epollTimeout, Wakeup.toInt32_eq]
  by_cases hnone : d = ~~~0
  · subst hnone
    decide
  · have hne : d.toNat ≠ 2 ^ 64 - 1 := fun h => hnone (by rw [← UInt64.toNat_inj, h]; rfl)
    rw [if_pos hnone]
    split_ifs with hlarge <;> omega

theorem getNextTimer_zero {m : TimerManager} {now_ms : UInt64} (h : (m.getNextTimer now_ms).1 = 0) :
    ∃ front ∈ m.timers.head?, (m.heap front).next ≤ now_ms := by
  cases htimers : m.timers with
  | nil =>
    simp only [TimerManager.getNextTimer, htimers] at h
    exact absurd h (by decide)
  | cons front l =>
    have hget := (TimerManager.getNextTimer_spec m now_ms).2 front l htimers
    rw [h] at hget
    refine ⟨front, rfl, ?_⟩
    rw [UInt64.le_iff_toNat_le]
    simp only [UInt64.toNat_zero] at hget
    omega

/-! ## Main result -/

/-- **The timeout of the idle loop** is right exactly when there is no timer or the distance to the first one is small
enough, or survives the conversion to an int. -/
theorem sleepsRight_iff (m : TimerManager) (now_ms : UInt64) :
    SleepsRight m now_ms ↔ ∀ front ∈ m.timers.head?, TimeoutRight ((m.heap front).next.toNat - now_ms.toNat) := by
  have hright : SleepsRight m now_ms ↔ TimeoutRight (m.getNextTimer now_ms).1.toNat := by
    rw [← epollTimeout_eq_min_iff]
    refine ⟨fun h => ?_, fun h interrupts => ?_⟩
    · have hmin := (h 0).1
      rwa [epollArg_eq] at hmin
    · dsimp only
      rw [epollArg_eq, h]
      refine ⟨rfl, by omega, fun hzero => getNextTimer_zero ?_⟩
      rw [← UInt64.toNat_inj, UInt64.toNat_zero]
      omega
  rw [hright]
  cases htimers : m.timers with
  | nil =>
    have hnone : (m.getNextTimer now_ms).1 = ~~~0 := by simp only [TimerManager.getNextTimer, htimers]
    rw [hnone]
    simp only [List.head?_nil, Option.mem_def, reduceCtorEq, false_imp_iff, implies_true, iff_true]
    decide
  | cons front l =>
    rw [(TimerManager.getNextTimer_spec m now_ms).2 front l htimers]
    simp

/-- one timer, which expires at `next` -/
def oneTimer (next : UInt64) : TimerManager where
  heap := fun _ => ⟨false, next, next, some 1⟩
  timers := [1]
  tickled := false
  previouseTime := 0
  erasures := fun _ => 0
  eraseEnd := false

/-- **Timers weeks away.** A distance of 2^31 ms is passed as a negative timeout, which never ends, and one of 2^32 ms as 0,
which does not wait at all. -/
theorem timeout_wraps :
    epollArg ((oneTimer 0x80000000).getNextTimer 0).1 0 = -2147483648 ∧ ¬ SleepsRight (oneTimer 0x80000000) 0 ∧
      epollArg ((oneTimer 0x100000000).getNextTimer 0).1 0 = 0 ∧ ¬ SleepsRight (oneTimer 0x100000000) 0 := by
  have hneg : epollArg ((oneTimer 0x80000000).getNextTimer 0).1 0 = -2147483648 := by decide
  have hzero : epollArg ((oneTimer 0x100000000).getNextTimer 0).1 0 = 0 := by decide
  refine ⟨hneg, fun h => ?_, hzero, fun h => ?_⟩
  · have hpos := (h 0).2.1
    rw [hneg] at hpos
    exact absurd hpos (by decide)
  · obtain ⟨front, hfront, hdue⟩ := (h 0).2.2 hzero
    revert hdue
    cases hfront
    decide

end Sylar.Timers

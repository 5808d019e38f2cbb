/-
What cancel, refresh and reset return, against the timer they were called on.

A timer is armed when it is in the set with a callback. The three operations find out in different ways: cancel looks at
the callback, refresh and reset at the callback and the set, and reset asks first whether there is anything to do at all.
`TimerOp.perform` is such a call from its beginning to its end, with the result.

Results:
- `perform_run`: it is what the steps of the call do to the manager;
- `cancel_truthful`, `refresh_truthful`, `reset_truthful`: the calls on a set that holds exactly the timers with a
  callback;
- `truthful_iff`: after any complete calls, a result is truthful unless a reset to the interval that the timer has, not
  from now, meets a timer that is not armed.
-/
import Sylar.Timer.Cancel

namespace Sylar.Timers

open Sylar.OrderedSet Sylar.Run

/-! ## Model -/

namespace TimerManager

/-- `addTimer(val)` to its end; onTimerInsertedAtFront changes nothing of the manager -/
def addVal (m : TimerManager) (p : ℕ) : TimerManager :=
  if (m.insert p).atFront p (m.erasures p) false then { m.insert p with tickled := true } else m.insert p

/-- `Timer::reset` -/
def reset (m : TimerManager) (p : ℕ) (ms : UInt64) (from_now : Bool) (now : UInt64) : Bool × TimerManager :=
  if m.resetSkips p ms from_now then (true, m)
  else
    let (done, m) := m.resetErase p
    if done then (true, (m.resetWrite p ms (m.resetStart p from_now now)).addVal p) else (false, m)

end TimerManager

/-- the calls through a pointer to a timer; `now` is what the clock shows -/
inductive TimerOp where
  | cancel
  | refresh (now : UInt64)
  | reset (ms : UInt64) (from_now : Bool) (now : UInt64)
deriving DecidableEq, Repr

namespace TimerOp

/-- the result of the call and the manager afterwards -/
def perform (m : TimerManager) (p : ℕ) : TimerOp → Bool × TimerManager
  | cancel => m.cancel p
  | refresh now => m.refresh p now
  | reset ms from_now now => m.reset p ms from_now now

def call (p : ℕ) : TimerOp → Call
  | cancel => .cancel p
  | refresh now => .refresh p now
  | reset ms from_now now => .reset p ms from_now now

/-- the expiry that the call asks for -/
def newNext (t : Timer) : TimerOp → UInt64
  | cancel => t.next
  | refresh now => now + t.ms
  | reset ms from_now now => (if from_now then now else t.next - t.ms) + ms

end TimerOp

/-- the timer is in the set and has a callback -/
def Armed (m : TimerManager) (p : ℕ) : Prop := p ∈ m.timers ∧ (m.heap p).cb.isSome = true

instance (m : TimerManager) (p : ℕ) : Decidable (Armed m p) := inferInstanceAs (Decidable (_ ∧ _))

/-- the contract of a call -/
structure Truthful (m : TimerManager) (p : ℕ) (op : TimerOp) : Prop where
  result : (op.perform m p).1 = true ↔ Armed m p
  unchanged : (op.perform m p).1 = false → (op.perform m p).2 = m
  armed : (op.perform m p).1 = true → op ≠ .cancel → (op.perform m p).2.timers.count p = 1 ∧
    ((op.perform m p).2.heap p).cb.isSome = true ∧ ((op.perform m p).2.heap p).next = op.newNext (m.heap p)

/-! ## The calls as steps -/

namespace TimerManager

variable {m : TimerManager} {p : ℕ}

theorem cancel_false (h : (m.cancel p).1 = false) : m.cancel p = (false, m) := by
  simp only [cancel] at h ⊢
  split_ifs at h ⊢
  rfl

theorem refresh_false {now : UInt64} (h : (m.refresh p now).1 = false) : m.refresh p now = (false, m) := by
  simp only [refresh] at h ⊢
  split_ifs at h ⊢
  · cases hfind : m.find p with
    | none => rfl
    | some it =>
      rw [hfind] at h
      cases h
  · rfl

theorem resetErase_false (h : (m.resetErase p).1 = false) : m.resetErase p = (false, m) := by
  simp only [resetErase] at h ⊢
  split_ifs at h ⊢
  · cases hfind : m.find p with
    | none => rfl
    | some it =>
      rw [hfind] at h
      cases h
  · rfl

end TimerManager

theorem addVal_mgr {s : Sys} {p : ℕ} {fresh : Bool} (h : s.pc 0 = .inserting p fresh) :
    (run step s addVal).mgr = s.mgr.addVal p := by
  have hinsert : step s (.insert 0) =
      { s with mgr := s.mgr.insert p }.setPc 0 (.checking p fresh (s.mgr.erasures p)) := by simp only [step, h]
  simp only [addVal, run_cons, run_nil, hinsert, TimerManager.addVal]
  by_cases hfront : (s.mgr.insert p).atFront p (s.mgr.erasures p) false = true
  · simp only [step, Sys.setPc, Function.update_self, hfront, if_true]
    simp only [Sys.tickle, Sys.ret, Sys.setPc]
    split_ifs <;> rfl
  · simp only [step, Sys.setPc, Function.update_self, hfront, Sys.ret]
    simp

/-- the sections of a reset call behind its first test -/
theorem reset_mgr {s : Sys} {p : ℕ} {ms : UInt64} {from_now : Bool} (h : s.pc 0 = .resetting p ms from_now)
    (hskip : s.mgr.resetSkips p ms from_now = false) :
    (run step s ([.resetErase 0, .resetStart 0, .resetWrite 0] ++ addVal)).mgr =
      (s.mgr.reset p ms from_now s.clock).2 := by
  rw [run_append]
  simp only [run_cons, run_nil]
  by_cases hdone : (s.mgr.resetErase p).1 = true
  · have herase : step s (.resetErase 0) =
        { s with mgr := (s.mgr.resetErase p).2 }.setPc 0 (.resetErased p ms from_now) := by
      simp only [step, h, hdone, if_true]
    have hstart : (step (step s (.resetErase 0)) (.resetStart 0)).mgr = (s.mgr.resetErase p).2 ∧
        (step (step s (.resetErase 0)) (.resetStart 0)).pc 0 =
          .resetStarted p ms ((s.mgr.resetErase p).2.resetStart p from_now s.clock) := by
      rw [herase]
      simp only [step, Sys.setPc, Function.update_self]
      split_ifs <;> exact ⟨rfl, trivial⟩
    generalize step (step s (.resetErase 0)) (.resetStart 0) = s2 at hstart
    have hwrite : step s2 (.resetWrite 0) =
        { s2 with mgr := s2.mgr.resetWrite p ms ((s.mgr.resetErase p).2.resetStart p from_now s.clock) }.setPc 0
          (.inserting p false) := by
      simp only [step, hstart.2]
    rw [hwrite, @addVal_mgr _ p false (by simp [Sys.setPc])]
    simp only [TimerManager.reset, hskip, Bool.false_eq_true, if_false, hdone, if_true, Sys.setPc, hstart.1]
  · have hout := TimerManager.resetErase_false (Bool.eq_false_iff.2 hdone)
    have herase : step s (.resetErase 0) = s.setPc 0 .out := by simp only [step, h, hout, Bool.false_eq_true, if_false]
    have hrest : step (step (s.setPc 0 .out) (.resetStart 0)) (.resetWrite 0) = s.setPc 0 .out := by
      simp [step, Sys.setPc]
    rw [herase, hrest, addVal_out (by simp [Sys.setPc])]
    simp [TimerManager.reset, hskip, hout, Sys.setPc]

/-- the steps of the call do to the manager what `perform` says -/
theorem perform_run {s : Sys} (h : Quiet s) {p : ℕ} (hp : s.handles p = true) (op : TimerOp) :
    (callStep s (op.call p)).mgr = (op.perform s.mgr p).2 := by
  have hen : (op.call p).enabled s = true := by cases op <;> exact hp
  rw [callStep, if_pos hen]
  cases op with
  | cancel =>
    simp only [TimerOp.call, Call.ops, run_cons, run_nil, step, h 0, hp, and_self, if_true, TimerOp.perform]
    split_ifs with hdone
    · rfl
    · rw [TimerManager.cancel_false (Bool.eq_false_iff.2 hdone)]
  | refresh now =>
    simp only [TimerOp.call, Call.ops, run_cons, run_nil, step, h 0, hp, and_self, if_true, TimerOp.perform]
    split_ifs with hdone
    · rfl
    · rw [TimerManager.refresh_false (Bool.eq_false_iff.2 hdone)]
  | reset ms from_now now =>
    simp only [TimerOp.call, Call.ops, List.cons_append, List.nil_append, run_cons, TimerOp.perform]
    by_cases hskip : s.mgr.resetSkips p ms from_now = true
    · have hstay : step (step s (.clock now)) (.reset 0 p ms from_now) = step s (.clock now) := by
        simp only [step, h 0, hp, and_self, if_true, hskip]
      rw [hstay]
      simp [step, addVal, h 0, TimerManager.reset, hskip]
    · have hmove : step (step s (.clock now)) (.reset 0 p ms from_now) =
          (step s (.clock now)).setPc 0 (.resetting p ms from_now) := by
        simp only [step, h 0, hp, and_self, if_true, hskip]
        rfl
      rw [hmove]
      have hrun := @reset_mgr ((step s (.clock now)).setPc 0 (.resetting p ms from_now)) p ms from_now
        (by simp [Sys.setPc]) (Bool.eq_false_iff.2 hskip)
      exact hrun

/-! ## The results -/

/-- the set is in order and holds exactly the timers with a callback -/
structure Exact (m : TimerManager) : Prop where
  ordered : m.Ordered
  callbacks : ∀ p, p ∈ m.timers ↔ (m.heap p).cb.isSome = true

theorem armed_iff {m : TimerManager} (h : Exact m) {p : ℕ} : Armed m p ↔ (m.heap p).cb.isSome = true := by
  rw [Armed, h.callbacks, and_self]

theorem count_of_mem {m : TimerManager} (h : m.Ordered) {p : ℕ} (hp : p ∈ m.timers) : m.timers.count p = 1 :=
  List.count_eq_one_of_mem (Sorted.nodup h) hp

theorem addVal_spec {m : TimerManager} (h : m.Ordered) {p : ℕ} (hp : p ∉ m.timers) :
    (m.addVal p).timers.count p = 1 ∧ (m.addVal p).heap = m.heap := by
  obtain ⟨hord, hmem⟩ := TimerManager.insert_spec h hp
  have hone := count_of_mem hord ((hmem p).2 (.inl rfl))
  rw [TimerManager.addVal]
  split_ifs <;> exact ⟨hone, rfl⟩

theorem cancel_truthful {m : TimerManager} (h : Exact m) (p : ℕ) : Truthful m p .cancel := by
  refine ⟨?_, fun hfalse => ?_, fun _ hne => absurd rfl hne⟩
  · rw [armed_iff h]
    exact TimerManager.cancel_done
  · rw [TimerOp.perform, TimerManager.cancel_false hfalse]

theorem refresh_truthful {m : TimerManager} (h : Exact m) (p : ℕ) (now : UInt64) : Truthful m p (.refresh now) := by
  refine ⟨?_, fun hfalse => ?_, fun hdone _ => ?_⟩
  · rw [Armed, and_comm]
    exact TimerManager.refresh_done h.ordered
  · rw [TimerOp.perform, TimerManager.refresh_false hfalse]
  · obtain ⟨hcb, hp⟩ := (TimerManager.refresh_done h.ordered).1 hdone
    obtain ⟨-, hord, hheap, hmem, -⟩ := @TimerManager.refresh_spec m h.ordered p now hcb hp
    rw [TimerOp.perform, hheap, Function.update_self]
    exact ⟨count_of_mem hord ((hmem p).2 hp), hcb, rfl⟩

/-- a reset that goes past its first test -/
theorem reset_truthful {m : TimerManager} (h : Exact m) {p : ℕ} {ms : UInt64} {from_now : Bool}
    (hskip : m.resetSkips p ms from_now = false) (now : UInt64) : Truthful m p (.reset ms from_now now) := by
  by_cases hdone : (m.resetErase p).1 = true
  · obtain ⟨hcb, hp⟩ := (TimerManager.resetErase_done h.ordered).1 hdone
    obtain ⟨-, hord, hheap, hmem, -⟩ := TimerManager.resetErase_spec h.ordered hcb hp
    have hout : p ∉ (m.resetErase p).2.timers := fun hin => ((hmem p).1 hin).2 rfl
    have hperform : (TimerOp.reset ms from_now now).perform m p = (true, ((m.resetErase p).2.resetWrite p ms
        ((m.resetErase p).2.resetStart p from_now now)).addVal p) := by
      simp only [TimerOp.perform, TimerManager.reset, hskip, Bool.false_eq_true, if_false, hdone, if_true]
    obtain ⟨hone, hheap'⟩ := addVal_spec (m := (m.resetErase p).2.resetWrite p ms
      ((m.resetErase p).2.resetStart p from_now now)) (TimerManager.setTimer_ordered hord _ hout) hout
    refine ⟨iff_of_true (by rw [hperform]) ⟨hp, hcb⟩, fun hfalse => ?_, fun _ _ => ?_⟩
    · rw [hperform] at hfalse
      cases hfalse
    · rw [hperform]
      refine ⟨hone, ?_, ?_⟩
      · rw [hheap', TimerManager.resetWrite, TimerManager.setTimer_self, hheap]
        exact hcb
      · rw [hheap', TimerManager.resetWrite, TimerManager.setTimer_self, TimerManager.resetStart, hheap]
        rfl
  · have hnot : ¬ Armed m p := fun harmed => hdone ((TimerManager.resetErase_done h.ordered).2 ⟨harmed.2, harmed.1⟩)
    have hperform : (TimerOp.reset ms from_now now).perform m p = (false, m) := by
      simp [TimerOp.perform, TimerManager.reset, hskip, TimerManager.resetErase_false (Bool.eq_false_iff.2 hdone)]
    refine ⟨iff_of_false (by simp [hperform]) hnot, fun _ => by rw [hperform], fun htrue _ => ?_⟩
    rw [hperform] at htrue
    cases htrue

/-- a reset that stops at its first test, on an armed timer -/
theorem skip_truthful {m : TimerManager} (h : Exact m) {p : ℕ} {ms : UInt64} {from_now : Bool}
    (hskip : m.resetSkips p ms from_now = true) (now : UInt64) :
    Truthful m p (.reset ms from_now now) ↔ Armed m p := by
  have hperform : (TimerOp.reset ms from_now now).perform m p = (true, m) := by
    simp [TimerOp.perform, TimerManager.reset, hskip]
  refine ⟨fun htruth => ?_, fun harmed => ?_⟩
  · exact htruth.result.1 (by rw [hperform])
  · obtain ⟨hms, hnow⟩ : ms = (m.heap p).ms ∧ from_now = false := by
      simpa [TimerManager.resetSkips] using hskip
    refine ⟨iff_of_true (by rw [hperform]) harmed, fun hfalse => ?_, fun _ _ => ?_⟩
    · rw [hperform] at hfalse
      cases hfalse
    · rw [hperform]
      refine ⟨count_of_mem h.ordered harmed.1, harmed.2, ?_⟩
      simp [TimerOp.newNext, hnow, hms]

/-- the state after complete calls -/
theorem exact_of_calls (c : UInt64) (calls : List Call) : Exact (run callStep (init c) calls).mgr := by
  have hquiet : Quiet (init c) := fun _ => rfl
  obtain ⟨h, hq⟩ : Inv (run callStep (init c) calls) ∧ Quiet (run callStep (init c) calls) :=
    run_preserves callStep_inv ⟨inv_init c, hquiet⟩ calls
  have hout : ∀ p, ¬ Owned (run callStep (init c) calls).pc p := fun p ⟨t, ht⟩ => by rw [hq t] at ht; cases ht
  refine ⟨h.shape.ordered, fun p => ?_⟩
  rw [h.exact p]
  simp [hout]

/-- **The results of the timer operations.** After any complete calls, a call is truthful exactly when it is not a reset to
the interval that the timer has, not from now, on a timer that is not armed. -/
theorem truthful_iff (c : UInt64) (calls : List Call) (p : ℕ) (op : TimerOp) :
    let m := (run callStep (init c) calls).mgr
    Truthful m p op ↔ ∀ ms now, op = .reset ms false now → ms = (m.heap p).ms → Armed m p := by
  intro m
  have h : Exact m := exact_of_calls c calls
  cases op with
  | cancel => exact iff_of_true (cancel_truthful h p) fun _ _ heq => by cases heq
  | refresh now => exact iff_of_true (refresh_truthful h p now) fun _ _ heq => by cases heq
  | reset ms from_now now =>
    cases hskip : m.resetSkips p ms from_now with
    | false =>
      refine iff_of_true (reset_truthful h hskip now) fun ms' now' heq hms => ?_
      cases heq
      simp [TimerManager.resetSkips, hms] at hskip
    | true =>
      rw [skip_truthful h hskip now]
      obtain ⟨hms, hnow⟩ : ms = (m.heap p).ms ∧ from_now = false := by
        simpa [TimerManager.resetSkips] using hskip
      constructor
      · exact fun harmed _ _ _ _ => harmed
      · exact fun hall => hall ms now (by rw [hnow]) hms

/-- a timer is made and cancelled -/
def cancelledTimer : List Call := [.addTimer 7 10 1 false 0, .cancel 7]

/-- **A reset that does nothing and returns true.** The interval of a cancelled timer is what the caller asks for. -/
theorem reset_of_cancelled :
    let m := (run callStep (init 0) cancelledTimer).mgr
    (m.heap 7).ms = 10 ∧ ¬ Armed m 7 ∧ (m.reset 7 10 false 3).1 = true ∧ ¬ Truthful m 7 (.reset 10 false 3) := by
  intro m
  have hnot : ¬ Armed m 7 := by decide
  have htrue : (m.reset 7 10 false 3).1 = true := by decide
  exact ⟨by decide, hnot, htrue, fun htruth => hnot (htruth.result.1 htrue)⟩

end Sylar.Timers

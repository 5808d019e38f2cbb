/-
What a hooked call leaves with others while its fiber waits: the condition timers, the callbacks of timers that
listExpiredCb has taken out, and the registration of its event.

The timers of a call share `tinfo`. A callback locks the weak pointer, tests `cancelled`, writes it, and calls cancelEvent,
in steps of its own; a timer that `timer->cancel()` finds gone has a callback that still runs. The clock counts from the
beginning of the call. The call is the only waiter on its descriptor and event, and timers do not fire early.

Results:
- `env_does`: what a step of the other parties can be;
- `Inv`: `cancelled` is written only when the timeout has passed, only the timer of the handle is armed, and a fiber that
  the timeout has woken finds `cancelled` set;
- `env_inv`, `addConditionTimer_inv`, `cancelTimer_inv`, `addEvent_inv`, `resume_inv`: every party keeps it.
-/
import Mathlib.Tactic

namespace Sylar.Hook

/-! ## Model -/

def EBADF : ℕ := 9

def ETIMEDOUT : ℕ := 110

/-- what a call returns, with errno if that is -1 -/
structure Result where
  ret : ℤ
  errno : ℕ
deriving DecidableEq, Repr

/-- the timeout of a call, `(uint64_t)-1` for none -/
def noTimeout : UInt64 := -1

/-- a timer of the call and its callback -/
inductive Timer where
  | unmade
  /-- in `m_timers` since that time -/
  | armed (since : ℕ)
  /-- taken out by `timer->cancel()` -/
  | cancelled
  /-- taken out by listExpiredCb, and the callback has not begun -/
  | expired
  /-- the callback holds `tinfo` -/
  | locked
  /-- it has found `cancelled` to be 0 -/
  | tested
  /-- it has written `cancelled`, and cancelEvent is next -/
  | flagged
  | over
deriving DecidableEq, Repr

/-- the callback keeps `tinfo` alive -/
def Timer.holds : Timer → Bool
  | .locked | .tested | .flagged => true
  | _ => false

/-- listExpiredCb has taken the timer out -/
def Timer.fired : Timer → Bool
  | .unmade | .armed _ | .cancelled => false
  | _ => true

/-- who calls triggerEvent on the registration -/
inductive Source where
  /-- a report of epoll_wait on the registered event -/
  | report
  /-- a report that epoll_wait returned before the call, and that is processed now -/
  | staleReport
  /-- from another fiber, also as `Socket::cancelRead` or `Socket::cancelWrite` -/
  | cancelEvent
  | cancelAll
  /-- cancelEvent in a callback of the call -/
  | timeout
deriving DecidableEq, Repr

structure Waiter where
  clock : ℕ
  timers : ℕ → Timer
  /-- the number of timers made -/
  made : ℕ
  /-- the handle `timer` -/
  timer : Option ℕ
  /-- `tinfo->cancelled` -/
  cancelled : ℕ
  /-- the call holds `tinfo` -/
  alive : Bool
  registered : Bool
  /-- the fiber has been scheduled by triggerEvent -/
  woken : Option Source

namespace Waiter

def init : Waiter := ⟨0, fun _ => .unmade, 0, none, 0, true, false, none⟩

def set (w : Waiter) (i : ℕ) (x : Timer) : Waiter := { w with timers := Function.update w.timers i x }

@[simp] theorem set_timers (w : Waiter) (i : ℕ) (x : Timer) (j : ℕ) :
    (w.set i x).timers j = if j = i then x else w.timers j := Function.update_apply _ _ _ _

/-! ### The call -/

/-- `to != (uint64_t)-1` and addConditionTimer; without a timeout `timer` is null -/
def addConditionTimer (w : Waiter) (ms : UInt64) : Waiter :=
  if ms ≠ noTimeout then { w.set w.made (.armed w.clock) with made := w.made + 1, timer := some w.made }
  else { w with timer := none }

/-- `if(timer) timer->cancel()`; nothing happens to a timer that listExpiredCb has taken out -/
def cancelTimer (w : Waiter) : Waiter :=
  match w.timer with
  | none => w
  | some i =>
    match w.timers i with
    | .armed _ => w.set i .cancelled
    | _ => w

/-- addEvent, when epoll_ctl succeeds -/
def addEvent (w : Waiter) : Waiter := { w with registered := true }

/-- the fiber goes on behind YieldToHold -/
def resume (w : Waiter) : Waiter := { w with woken := none }

/-- the call returns, and gives up `tinfo` -/
def leave (w : Waiter) : Waiter := { w with alive := false }

/-! ### The other parties -/

/-- triggerEvent: the registration goes, and the fiber is scheduled -/
def trigger (w : Waiter) (src : Source) : Waiter :=
  if w.registered then { w with registered := false, woken := some src } else w

inductive Env where
  | tick
  /-- a readiness report, or a cancel by another fiber -/
  | trigger (src : Source)
  /-- listExpiredCb takes the timer out -/
  | expire (i : ℕ)
  /-- OnTimer locks the weak pointer, and so does the callback -/
  | lock (i : ℕ)
  /-- the callback tests `cancelled` -/
  | test (i : ℕ)
  /-- the callback writes `cancelled` -/
  | flag (i : ℕ)
  /-- the callback calls cancelEvent, in which epoll_ctl may fail -/
  | cancelEvent (i : ℕ) (ok : Bool)
deriving DecidableEq, Repr

/-- the weak pointer can be locked -/
def held (w : Waiter) : Bool := w.alive || (List.range w.made).any fun i => (w.timers i).holds

def env (w : Waiter) (ms : UInt64) : Env → Waiter
  | .tick => { w with clock := w.clock + 1 }
  | .trigger src => if src ≠ .timeout then w.trigger src else w
  | .expire i =>
    match w.timers i with
    | .armed since => if since + ms.toNat ≤ w.clock then w.set i .expired else w
    | _ => w
  | .lock i => if w.timers i = .expired then w.set i (if w.held then .locked else .over) else w
  | .test i => if w.timers i = .locked then w.set i (if w.cancelled ≠ 0 then .over else .tested) else w
  | .flag i => if w.timers i = .tested then { w.set i .flagged with cancelled := ETIMEDOUT } else w
  | .cancelEvent i ok =>
    if w.timers i = .flagged then
      if ok then (w.set i .over).trigger .timeout else w.set i .over
    else w

/-- the cases of a step of the other parties -/
inductive Does (ms : UInt64) (w : Waiter) : Env → Waiter → Prop where
  | nothing (e : Env) : Does ms w e w
  | tick : Does ms w .tick { w with clock := w.clock + 1 }
  | trigger (src : Source) (hsrc : src ≠ .timeout) : Does ms w (.trigger src) (w.trigger src)
  | expire (i since : ℕ) (hat : w.timers i = .armed since) (hdue : since + ms.toNat ≤ w.clock) :
    Does ms w (.expire i) (w.set i .expired)
  /-- a callback moves on, and has written nothing -/
  | callback (e : Env) (i : ℕ) (x : Timer) (hat : (w.timers i).fired = true) (hx : x = .locked ∨ x = .tested ∨ x = .over) :
    Does ms w e (w.set i x)
  | flag (i : ℕ) (hat : w.timers i = .tested) : Does ms w (.flag i) { w.set i .flagged with cancelled := ETIMEDOUT }
  | cancelEvent (i : ℕ) (hat : w.timers i = .flagged) : Does ms w (.cancelEvent i true) ((w.set i .over).trigger .timeout)

theorem env_does (ms : UInt64) (w : Waiter) (e : Env) : Does ms w e (w.env ms e) := by
  cases e with
  | tick => exact .tick
  | trigger src =>
    simp only [env]
    split_ifs with hsrc
    · exact .trigger src hsrc
    · exact .nothing _
  | expire i =>
    simp only [env]
    split
    · rename_i since hat
      split_ifs with hdue
      · exact .expire i since hat hdue
      · exact .nothing _
    · exact .nothing _
  | lock i =>
    simp only [env]
    split_ifs with hat
    · exact .callback _ i .locked (by rw [hat]; rfl) (.inl rfl)
    · exact .callback _ i .over (by rw [hat]; rfl) (.inr (.inr rfl))
    · exact .nothing _
  | test i =>
    simp only [env]
    split_ifs with hat
    · exact .callback _ i .over (by rw [hat]; rfl) (.inr (.inr rfl))
    · exact .callback _ i .tested (by rw [hat]; rfl) (.inr (.inl rfl))
    · exact .nothing _
  | flag i =>
    simp only [env]
    split_ifs with hat
    · exact .flag i hat
    · exact .nothing _
  | cancelEvent i ok =>
    simp only [env]
    split_ifs with hat hok
    · subst hok
      exact .cancelEvent i hat
    · exact .callback _ i .over (by rw [hat]; rfl) (.inr (.inr rfl))
    · exact .nothing _

/-! ## What every party keeps -/

/-- the call has a timeout, and it has passed -/
def Passed (w : Waiter) (ms : UInt64) : Prop := ms ≠ noTimeout ∧ ms.toNat ≤ w.clock

structure Inv (ms : UInt64) (w : Waiter) : Prop where
  /-- only the timer of the handle is armed -/
  armed : ∀ i since, w.timers i = .armed since → w.timer = some i ∧ ms ≠ noTimeout
  fired : ∀ i, (w.timers i).fired = true → w.Passed ms
  cancelled : w.cancelled = 0 ∨ w.cancelled = ETIMEDOUT ∧ w.Passed ms
  flagged : ∀ i, w.timers i = .flagged → w.cancelled = ETIMEDOUT
  /-- a registration that has been triggered is gone -/
  once : w.registered = true → w.woken = none
  byTimeout : w.woken = some .timeout → w.cancelled = ETIMEDOUT

/-- no timer of the call is in `m_timers` -/
def Unarmed (w : Waiter) : Prop := ∀ i since, w.timers i ≠ .armed since

theorem inv_init (ms : UInt64) : Inv ms init := by
  refine ⟨?_, ?_, .inl rfl, ?_, fun _ => rfl, ?_⟩ <;> simp [init, Timer.fired]

/-- a timer moves on to `x`, and none is armed anew -/
theorem Inv.set {ms : UInt64} {w : Waiter} (h : Inv ms w) (i : ℕ) {x : Timer} (harmed : ∀ since, x ≠ .armed since)
    (hfired : x.fired = true → w.Passed ms) (hflagged : x = .flagged → w.cancelled = ETIMEDOUT) : Inv ms (w.set i x) := by
  refine ⟨?_, ?_, h.cancelled, ?_, h.once, h.byTimeout⟩
  · intro j since hj
    rw [set_timers] at hj
    split_ifs at hj
    · exact absurd hj (harmed since)
    · exact h.armed j since hj
  · intro j hj
    rw [set_timers] at hj
    split_ifs at hj
    · exact hfired hj
    · exact h.fired j hj
  · intro j hj
    rw [set_timers] at hj
    split_ifs at hj
    · exact hflagged hj
    · exact h.flagged j hj

/-- a callback that has been taken out moves on -/
theorem Inv.callback {ms : UInt64} {w : Waiter} (h : Inv ms w) {i : ℕ} {x : Timer} (hat : (w.timers i).fired = true)
    (hx : x = .locked ∨ x = .tested ∨ x = .over) : Inv ms (w.set i x) := by
  rcases hx with rfl | rfl | rfl
  all_goals exact h.set i (by simp) (fun _ => h.fired i hat) (by simp)

/-- the registration is triggered -/
theorem Inv.trigger {ms : UInt64} {w : Waiter} (h : Inv ms w) {src : Source}
    (hsrc : src = .timeout → w.cancelled = ETIMEDOUT) : Inv ms (w.trigger src) := by
  unfold Waiter.trigger
  split_ifs
  · refine ⟨h.armed, h.fired, h.cancelled, h.flagged, (fun hr => by cases hr), ?_⟩
    intro heq
    exact hsrc (Option.some.inj heq)
  · exact h

/-- **The other parties.** Time, reports, cancels and callbacks keep the invariant, in any order. -/
theorem env_inv {ms : UInt64} {w : Waiter} (h : Inv ms w) (e : Env) : Inv ms (w.env ms e) := by
  have hdoes := env_does ms w e
  generalize w.env ms e = w' at hdoes ⊢
  cases hdoes with
  | nothing => exact h
  | tick =>
    have hpassed : w.Passed ms → ({ w with clock := w.clock + 1 } : Waiter).Passed ms := by
      intro hp
      exact ⟨hp.1, hp.2.trans (Nat.le_succ _)⟩
    exact ⟨h.armed, fun i hi => hpassed (h.fired i hi), h.cancelled.imp_right (And.imp_right hpassed), h.flagged,
      h.once, h.byTimeout⟩
  | trigger src hsrc => exact h.trigger fun heq => absurd heq hsrc
  | expire i since hat hdue =>
    -- not before the timeout: the timer was armed in the call
    exact h.set i (by simp) (fun _ => ⟨(h.armed i since hat).2, by omega⟩) (by simp)
  | callback e i x hat hx => exact h.callback hat hx
  | flag i hat =>
    have hpassed : w.Passed ms := h.fired i (by rw [hat]; rfl)
    have hwritten : Inv ms { w with cancelled := ETIMEDOUT } :=
      ⟨h.armed, h.fired, .inr ⟨rfl, hpassed⟩, fun _ _ => rfl, h.once, fun _ => rfl⟩
    exact hwritten.set i (by simp) (fun _ => hpassed) (fun _ => rfl)
  | cancelEvent i hat =>
    have hflagged : w.cancelled = ETIMEDOUT := h.flagged i hat
    have hover : Inv ms (w.set i .over) := h.callback (by rw [hat]; rfl) (.inr (.inr rfl))
    exact hover.trigger fun _ => hflagged

/-! ## What the call does -/

/-- a new timer, while none is armed -/
theorem addConditionTimer_inv {ms : UInt64} {w : Waiter} (h : Inv ms w) (hun : w.Unarmed) :
    Inv ms (w.addConditionTimer ms) := by
  unfold addConditionTimer
  split_ifs with hms
  · have hat : ∀ i, (w.set w.made (.armed w.clock)).timers i = if i = w.made then .armed w.clock else w.timers i :=
      set_timers w _ _
    refine ⟨?_, ?_, h.cancelled, ?_, h.once, h.byTimeout⟩
    · intro i since hi
      rw [hat] at hi
      split_ifs at hi with hlast
      · exact ⟨by rw [hlast], hms⟩
      · exact absurd hi (hun i since)
    · intro i hi
      rw [hat] at hi
      split_ifs at hi
      · cases hi
      · exact h.fired i hi
    · intro i hi
      rw [hat] at hi
      split_ifs at hi
      · exact h.flagged i hi
  · exact ⟨fun i since hi => absurd hi (hun i since), h.fired, h.cancelled, h.flagged, h.once, h.byTimeout⟩

theorem cancelTimer_inv {ms : UInt64} {w : Waiter} (h : Inv ms w) : Inv ms w.cancelTimer := by
  unfold cancelTimer
  split
  · exact h
  · split
    · exact h.set _ (by simp) (by simp [Timer.fired]) (by simp)
    · exact h

/-- **timer->cancel().** Whether it finds the timer or not, no timer of the call is armed behind it. -/
theorem cancelTimer_unarmed {ms : UInt64} {w : Waiter} (h : Inv ms w) : w.cancelTimer.Unarmed := by
  intro i since hi
  unfold cancelTimer at hi
  split at hi
  · rename_i hnone
    have hsome := (h.armed i since hi).1
    rw [hnone] at hsome
    cases hsome
  · rename_i j hsome
    split at hi
    · -- the armed timer is the one of the handle
      rw [set_timers] at hi
      split_ifs at hi with hij
      have hhandle := (h.armed i since hi).1
      rw [hsome] at hhandle
      exact hij (Option.some.inj hhandle).symm
    · rename_i hnot
      have hhandle := (h.armed i since hi).1
      rw [hsome] at hhandle
      cases hhandle
      exact hnot since hi

theorem addEvent_inv {ms : UInt64} {w : Waiter} (h : Inv ms w) (hwoken : w.woken = none) : Inv ms w.addEvent :=
  ⟨h.armed, h.fired, h.cancelled, h.flagged, fun _ => hwoken, h.byTimeout⟩

theorem resume_inv {ms : UInt64} {w : Waiter} (h : Inv ms w) : Inv ms w.resume :=
  ⟨h.armed, h.fired, h.cancelled, h.flagged, fun _ => rfl, fun heq => by cases heq⟩

theorem leave_inv {ms : UInt64} {w : Waiter} (h : Inv ms w) : Inv ms w.leave :=
  ⟨h.armed, h.fired, h.cancelled, h.flagged, h.once, h.byTimeout⟩

theorem set_unarmed {w : Waiter} (h : w.Unarmed) (i : ℕ) {x : Timer} (hx : ∀ since, x ≠ .armed since) :
    (w.set i x).Unarmed := by
  intro j since hj
  rw [set_timers] at hj
  split_ifs at hj
  · exact hx since hj
  · exact h j since hj

theorem trigger_unarmed {w : Waiter} (h : w.Unarmed) (src : Source) : (w.trigger src).Unarmed := by
  unfold trigger
  split_ifs <;> exact h

/-- the other parties arm no timer -/
theorem env_unarmed {w : Waiter} (h : w.Unarmed) (ms : UInt64) (e : Env) : (w.env ms e).Unarmed := by
  have hdoes := env_does ms w e
  generalize w.env ms e = w' at hdoes ⊢
  cases hdoes with
  | nothing | tick => exact h
  | trigger src hsrc => exact trigger_unarmed h src
  | expire i since hat hdue => exact absurd hat (h i since)
  | callback e i x hat hx =>
    apply set_unarmed h i
    rcases hx with rfl | rfl | rfl <;> simp
  | flag i hat => exact set_unarmed h i (by simp)
  | cancelEvent i hat => exact trigger_unarmed (set_unarmed h i (by simp)) .timeout

/-- the timeout stays passed -/
theorem env_passed {w : Waiter} {ms : UInt64} (h : w.Passed ms) (e : Env) : (w.env ms e).Passed ms := by
  have hdoes := env_does ms w e
  generalize w.env ms e = w' at hdoes ⊢
  cases hdoes with
  | nothing | expire | callback | flag => exact h
  | tick => exact ⟨h.1, h.2.trans (Nat.le_succ _)⟩
  | trigger | cancelEvent =>
    unfold trigger
    split_ifs <;> exact h

/-- `cancelled` is not taken back -/
theorem env_cancelled {w : Waiter} (h : w.cancelled ≠ 0) (ms : UInt64) (e : Env) : (w.env ms e).cancelled ≠ 0 := by
  have hdoes := env_does ms w e
  generalize w.env ms e = w' at hdoes ⊢
  cases hdoes with
  | nothing | tick | expire | callback => exact h
  | flag => exact Nat.succ_ne_zero _
  | trigger | cancelEvent =>
    unfold trigger
    split_ifs <;> exact h

/-- what the other parties do to the registration: nothing, or they take it and wake the fiber -/
theorem env_registered (w : Waiter) (ms : UInt64) (e : Env) :
    (w.env ms e).registered = w.registered ∧ (w.env ms e).woken = w.woken ∨
      w.registered = true ∧ ∃ src, (w.env ms e).woken = some src ∧ (e = .trigger src ∨ src = .timeout) := by
  have hdoes := env_does ms w e
  generalize w.env ms e = w' at hdoes ⊢
  cases hdoes with
  | nothing | tick | expire | callback | flag => exact .inl ⟨rfl, rfl⟩
  | trigger src hsrc =>
    unfold trigger
    split_ifs with hr
    · exact .inr ⟨hr, src, rfl, .inl rfl⟩
    · exact .inl ⟨rfl, rfl⟩
  | cancelEvent i hat =>
    unfold trigger
    split_ifs with hr
    · exact .inr ⟨hr, .timeout, rfl, .inr rfl⟩
    · exact .inl ⟨rfl, rfl⟩

/-- nothing is registered, and no old wakeup is left -/
def Idle (w : Waiter) : Prop := w.registered = false ∧ w.woken = none

theorem env_idle {w : Waiter} (h : w.Idle) (ms : UInt64) (e : Env) : (w.env ms e).Idle := by
  rcases env_registered w ms e with hsame | htaken
  · exact ⟨hsame.1.trans h.1, hsame.2.trans h.2⟩
  · rw [h.1] at htaken
    cases htaken.1

theorem addConditionTimer_idle {w : Waiter} (h : w.Idle) (ms : UInt64) : (w.addConditionTimer ms).Idle := by
  unfold addConditionTimer
  split_ifs <;> exact h

theorem cancelTimer_idle {w : Waiter} (h : w.Idle) : w.cancelTimer.Idle := by
  unfold cancelTimer
  split
  · exact h
  · split <;> exact h

theorem cancelTimer_cancelled (w : Waiter) : w.cancelTimer.cancelled = w.cancelled := by
  unfold cancelTimer
  split
  · rfl
  · split <;> rfl

/-- the registration that has woken the fiber is gone -/
theorem resume_idle {ms : UInt64} {w : Waiter} (h : Inv ms w) (hwoken : w.woken ≠ none) : w.resume.Idle := by
  refine ⟨?_, rfl⟩
  by_contra hr
  exact hwoken (h.once (by simpa [resume] using hr))

end Waiter

end Sylar.Hook

/-
`TimerManager` under concurrent calls: any number of threads in addTimer, Timer::cancel, Timer::refresh, Timer::reset,
listExpiredCb and the waiting part of `IOManager::idle`.

A step is one section under `m_mutex`, or one stretch of code between two sections: the front test of addTimer, the
write of `m_tickled`, the call of onTimerInsertedAtFront, and in reset the reading of the clock and the two writes all
happen without the lock. The clock is set by a step of its own, to any value. A list of steps is an interleaving.

Timers are never freed here: an address names one timer of a run. A thread calls a member function only on a timer it has
a pointer to, so after the addTimer call that made the timer has returned.

`armed`, `peak` and `log` are not in the code. `armed p` is the reading `p` was last armed with, `peak p` the largest
clock value since then; `log` keeps the successful cancels and what each listExpiredCb section returned.

Results:
- `step_shape`, `shape_run`: the set stays in order, and a timer that a call is about to insert is outside the set and
  in no other such call;
- `step_other`, `run_other`: a step moves its own thread only.
-/
import Sylar.Core.Run
import Sylar.Timer.Manager

namespace Sylar.Timers

open Sylar.Run

/-! ## Model -/

/-- where a thread is -/
inductive Pc where
  | out
  /-- in `addTimer(val)`, before its section; `fresh`: the timer was made by this call of addTimer -/
  | inserting (p : ℕ) (fresh : Bool)
  /-- before the front test; `n` nodes of the timer had been erased when the iterator was taken -/
  | checking (p : ℕ) (fresh : Bool) (n : ℕ)
  | flagging (p : ℕ) (fresh : Bool)
  | tickling (p : ℕ) (fresh : Bool)
  | resetting (p : ℕ) (ms : UInt64) (from_now : Bool)
  | resetErased (p : ℕ) (ms : UInt64) (from_now : Bool)
  | resetStarted (p : ℕ) (ms start : UInt64)
  /-- in listExpiredCb with its reading of the clock -/
  | listing (now_ms : UInt64) (idle : Bool)
  | listingLocked (now_ms : UInt64) (idle : Bool)
  | idleTop
  /-- in idle with the argument of epoll_wait and the reading it was computed from -/
  | waiting (timeout : ℤ) (now_ms : UInt64)
  /-- in epoll_wait; `none`: without a deadline -/
  | blocked (deadline : Option ℕ)
  | woken
deriving DecidableEq, Repr

/-- a callback returned by listExpiredCb -/
structure Fire where
  timer : ℕ
  cb : Option ℕ
  now : UInt64
  armed : UInt64
  ms : UInt64
  peak : UInt64
deriving DecidableEq, Repr

inductive Event where
  /-- `Timer::cancel` returned true -/
  | cancelled (p : ℕ)
  /-- the section of listExpiredCb -/
  | listed (fires : List Fire)
deriving DecidableEq, Repr

structure Sys where
  mgr : TimerManager
  clock : UInt64
  pc : ℕ → Pc
  used : ℕ → Bool
  /-- a pointer to the timer was returned -/
  handles : ℕ → Bool
  idleThreadCount : ℕ
  /-- the bytes in the tickle pipe -/
  bytes : ℕ
  armed : ℕ → UInt64
  peak : ℕ → UInt64
  log : List Event

/-- `TimerManager::TimerManager` at clock value `c` -/
def init (c : UInt64) : Sys where
  mgr := ⟨fun _ => ⟨false, 0, 0, none⟩, [], false, c, fun _ => 0, false⟩
  clock := c
  pc := fun _ => .out
  used := fun _ => false
  handles := fun _ => false
  idleThreadCount := 0
  bytes := 0
  armed := fun _ => 0
  peak := fun _ => 0
  log := []

inductive Op where
  | clock (c : UInt64)
  | addTimer (t p : ℕ) (ms : UInt64) (cb : Option ℕ) (recurring : Bool)
  | insert (t : ℕ)
  | check (t : ℕ) (dangling : Bool)
  | flag (t : ℕ)
  | tickle (t : ℕ)
  | cancel (t p : ℕ)
  | refresh (t p : ℕ)
  | reset (t p : ℕ) (ms : UInt64) (from_now : Bool)
  | resetErase (t : ℕ)
  | resetStart (t : ℕ)
  | resetWrite (t : ℕ)
  | list (t : ℕ)
  | listEmpty (t : ℕ)
  | listExpired (t q : ℕ)
  | enterIdle (t : ℕ)
  | getNextTimer (t : ℕ)
  | epollWait (t : ℕ)
  | wake (t : ℕ)
  | drain (t : ℕ)
  | leaveIdle (t : ℕ)
deriving DecidableEq, Repr

def Sys.setPc (s : Sys) (t : ℕ) (x : Pc) : Sys := { s with pc := Function.update s.pc t x }

/-- the end of `addTimer(val)`: the call that made the timer returns a pointer to it -/
def Sys.ret (s : Sys) (t p : ℕ) (fresh : Bool) : Sys :=
  { s with handles := if fresh then Function.update s.handles p true else s.handles }.setPc t .out

/-- `p` is armed with a reading `now` -/
def Sys.arm (s : Sys) (p : ℕ) (now : UInt64) : Sys :=
  { s with armed := Function.update s.armed p now, peak := Function.update s.peak p (max now s.clock) }

/-- `IOManager::onTimerInsertedAtFront`, that is `IOManager::tickle` -/
def Sys.tickle (s : Sys) : Sys := if 0 < s.idleThreadCount then { s with bytes := s.bytes + 1 } else s

/-- the low 32 bits as an int -/
def toInt32 (x : UInt64) : ℤ := x.toUInt32.toInt32.toInt

/-- the timeout that `IOManager::idle` passes to epoll_wait -/
def epollTimeout (next_timeout : UInt64) : ℤ :=
  if next_timeout ≠ ~~~0 then if toInt32 next_timeout > 3000 then 3000 else toInt32 next_timeout else 3000

/-- where listExpiredCb returns to -/
def afterList (idle : Bool) : Pc := if idle then .woken else .out

/-- what is logged of the callbacks that a listExpiredCb section returns -/
def Sys.fires (s : Sys) (now : UInt64) (cbs : List (ℕ × Option ℕ)) : List Fire :=
  cbs.map fun c => ⟨c.1, c.2, now, s.armed c.1, (s.mgr.heap c.1).ms, s.peak c.1⟩

/-- the recurring timers among those whose callbacks were returned are armed again -/
def Sys.rearm (s : Sys) (now : UInt64) (cbs : List (ℕ × Option ℕ)) : Sys :=
  let again := fun p => p ∈ cbs.map Prod.fst ∧ (s.mgr.heap p).recurring = true
  { s with
    armed := fun p => if again p then now else s.armed p
    peak := fun p => if again p then max now s.clock else s.peak p }

def step (s : Sys) : Op → Sys
  | .clock c => { s with clock := c, peak := fun p => max (s.peak p) c }
  | .addTimer t p ms cb recurring =>
    if s.pc t = .out ∧ s.used p = false then
      { s with
        mgr := s.mgr.setTimer p ⟨recurring, ms, s.clock + ms, cb⟩
        used := Function.update s.used p true }.arm p s.clock |>.setPc t (.inserting p true)
    else s
  | .insert t =>
    match s.pc t with
    | .inserting p fresh => { s with mgr := s.mgr.insert p }.setPc t (.checking p fresh (s.mgr.erasures p))
    | _ => s
  | .check t dangling =>
    match s.pc t with
    | .checking p fresh n =>
      if s.mgr.atFront p n dangling then s.setPc t (.flagging p fresh) else s.ret t p fresh
    | _ => s
  | .flag t =>
    match s.pc t with
    | .flagging p fresh => { s with mgr := { s.mgr with tickled := true } }.setPc t (.tickling p fresh)
    | _ => s
  | .tickle t =>
    match s.pc t with
    | .tickling p fresh => s.tickle.ret t p fresh
    | _ => s
  | .cancel t p =>
    if s.pc t = .out ∧ s.handles p = true then
      let (done, mgr) := s.mgr.cancel p
      if done then { s with mgr := mgr, log := s.log ++ [.cancelled p] } else s
    else s
  | .refresh t p =>
    if s.pc t = .out ∧ s.handles p = true then
      let (done, mgr) := s.mgr.refresh p s.clock
      if done then { s with mgr := mgr }.arm p s.clock else s
    else s
  | .reset t p ms from_now =>
    if s.pc t = .out ∧ s.handles p = true then
      if s.mgr.resetSkips p ms from_now then s else s.setPc t (.resetting p ms from_now)
    else s
  | .resetErase t =>
    match s.pc t with
    | .resetting p ms from_now =>
      let (done, mgr) := s.mgr.resetErase p
      if done then { s with mgr := mgr }.setPc t (.resetErased p ms from_now) else s.setPc t .out
    | _ => s
  | .resetStart t =>
    match s.pc t with
    | .resetErased p ms from_now =>
      (if from_now then s.arm p s.clock else s).setPc t (.resetStarted p ms (s.mgr.resetStart p from_now s.clock))
    | _ => s
  | .resetWrite t =>
    match s.pc t with
    | .resetStarted p ms start => { s with mgr := s.mgr.resetWrite p ms start }.setPc t (.inserting p false)
    | _ => s
  | .list t =>
    if s.pc t = .out then s.setPc t (.listing s.clock false)
    else if s.pc t = .woken then s.setPc t (.listing s.clock true)
    else s
  | .listEmpty t =>
    match s.pc t with
    | .listing now_ms idle =>
      if s.mgr.timers = [] then s.setPc t (afterList idle) else s.setPc t (.listingLocked now_ms idle)
    | _ => s
  | .listExpired t q =>
    match s.pc t with
    | .listingLocked now_ms idle =>
      if s.used q = false then
        let (cbs, mgr) := s.mgr.listExpired now_ms q
        { s.rearm now_ms cbs with mgr := mgr, log := s.log ++ [Event.listed (s.fires now_ms cbs)] }.setPc t (afterList idle)
      else s
    | _ => s
  | .enterIdle t =>
    if s.pc t = .out then { s with idleThreadCount := s.idleThreadCount + 1 }.setPc t .idleTop else s
  | .getNextTimer t =>
    if s.pc t = .idleTop then
      let (next_timeout, mgr) := s.mgr.getNextTimer s.clock
      { s with mgr := mgr }.setPc t (.waiting (epollTimeout next_timeout) s.clock)
    else s
  | .epollWait t =>
    match s.pc t with
    | .waiting timeout now_ms =>
      -- a zero timeout does not block
      if timeout = 0 then s.setPc t .woken
      else s.setPc t (.blocked (if timeout < 0 then none else some (now_ms.toNat + timeout.toNat)))
    | _ => s
  | .wake t =>
    match s.pc t with
    | .blocked _ => s.setPc t .woken
    | _ => s
  | .drain t => if s.pc t = .woken then { s with bytes := 0 } else s
  | .leaveIdle t =>
    if s.pc t = .woken then { s with idleThreadCount := s.idleThreadCount - 1 }.setPc t .out else s

/-! ## Ownership -/

/-- the timer a thread is about to insert -/
def Pc.owns : Pc → Option ℕ
  | .inserting p _ | .resetErased p _ _ | .resetStarted p _ _ => some p
  | _ => none

/-- the timer a thread has erased in reset and is about to insert again -/
def Pc.window : Pc → Option ℕ
  | .inserting p false | .resetErased p _ _ | .resetStarted p _ _ => some p
  | _ => none

/-- the timer that a call of addTimer has made and not yet returned -/
def Pc.fresh : Pc → Option ℕ
  | .inserting p true | .checking p true _ | .flagging p true | .tickling p true => some p
  | _ => none

/-- the timer of a reset call -/
def Pc.resets : Pc → Option ℕ
  | .resetting p _ _ => some p
  | x => x.window

theorem Pc.owns_cases {x : Pc} {p : ℕ} (h : x.owns = some p) : x = .inserting p true ∨ x.window = some p := by
  cases x with
  | inserting q fresh =>
    cases fresh
    · exact .inr h
    · cases h; exact .inl rfl
  | resetErased => exact .inr h
  | resetStarted => exact .inr h
  | _ => cases h

theorem Pc.window_resets {x : Pc} {p : ℕ} (h : x.window = some p) : x.resets = some p := by
  cases x <;> first | exact h | cases h

/-- what the pointers, the set and the positions of the threads have to do with each other -/
structure Shape (m : TimerManager) (pc : ℕ → Pc) (used handles : ℕ → Bool) : Prop where
  ordered : m.Ordered
  timers : ∀ p ∈ m.timers, used p = true
  handle : ∀ p, handles p = true → used p = true
  unused : ∀ p, used p = false → (m.heap p).cb = none
  owned : ∀ t p, (pc t).owns = some p → p ∉ m.timers
  owner : ∀ t t' p, (pc t).owns = some p → (pc t').owns = some p → t = t'
  fresh : ∀ t p, (pc t).fresh = some p → used p = true ∧ handles p = false
  maker : ∀ t t' p, (pc t).fresh = some p → (pc t').fresh = some p → t = t'
  resets : ∀ t p, (pc t).resets = some p → handles p = true

/-- what one thread's position says after that thread has moved -/
theorem of_update {β : Type*} {f : Pc → Option β} {pc : ℕ → Pc} {t t' : ℕ} {x : Pc} {b : β}
    (h : f (Function.update pc t x t') = some b) : t' = t ∧ f x = some b ∨ t' ≠ t ∧ f (pc t') = some b := by
  by_cases ht : t' = t
  · subst ht; exact .inl ⟨rfl, by simpa using h⟩
  · rw [Function.update_of_ne ht] at h; exact .inr ⟨ht, h⟩

/-- what is marked stays marked when another one is -/
theorem update_true {used : ℕ → Bool} {q : ℕ} (p : ℕ) (hq : used q = true) : Function.update used p true q = true := by
  by_cases hqp : q = p
  · rw [hqp, Function.update_self]
  · rwa [Function.update_of_ne hqp]

/-- one thread moves and takes at most what no other thread has -/
theorem unique_update {β : Type*} {f : Pc → Option β} {pc : ℕ → Pc} {t : ℕ} {x : Pc}
    (h : ∀ t1 t2 b, f (pc t1) = some b → f (pc t2) = some b → t1 = t2)
    (hx : ∀ b, f x = some b → ∀ t', t' ≠ t → f (pc t') ≠ some b) {t1 t2 : ℕ} {b : β}
    (h1 : f (Function.update pc t x t1) = some b) (h2 : f (Function.update pc t x t2) = some b) : t1 = t2 := by
  rcases of_update h1 with ⟨e1, h1⟩ | ⟨e1, h1⟩ <;> rcases of_update h2 with ⟨e2, h2⟩ | ⟨e2, h2⟩
  · rw [e1, e2]
  · exact absurd h2 (hx b h1 t2 e2)
  · exact absurd h1 (hx b h2 t1 e1)
  · exact h t1 t2 b h1 h2

namespace Shape

variable {m m' : TimerManager} {pc : ℕ → Pc} {used handles : ℕ → Bool}

/-- a timer nobody has made is in no thread's hands -/
theorem unused_owns (h : Shape m pc used handles) {p : ℕ} (hp : used p = false) (t : ℕ) :
    (pc t).owns ≠ some p ∧ (pc t).fresh ≠ some p := by
  have hfresh : (pc t).fresh ≠ some p := fun hf => by simp [(h.fresh t p hf).1] at hp
  refine ⟨fun ho => ?_, hfresh⟩
  rcases Pc.owns_cases ho with hx | hx
  · exact hfresh (by rw [hx]; rfl)
  · simp [h.handle p (h.resets t p (Pc.window_resets hx))] at hp

/-- a thread goes on without taking a timer -/
theorem move (h : Shape m pc used handles) (t : ℕ) (x : Pc) (hown : ∀ p, x.owns = some p → (pc t).owns = some p)
    (hfresh : ∀ p, x.fresh = some p → (pc t).fresh = some p) (hreset : ∀ p, x.resets = some p → handles p = true) :
    Shape m (Function.update pc t x) used handles := by
  have hown' : ∀ t' p, (Function.update pc t x t').owns = some p → (pc t').owns = some p := by
    intro t' p hp
    rcases of_update hp with ⟨rfl, hx⟩ | ⟨-, hp⟩
    · exact hown p hx
    · exact hp
  have hfresh' : ∀ t' p, (Function.update pc t x t').fresh = some p → (pc t').fresh = some p := by
    intro t' p hp
    rcases of_update hp with ⟨rfl, hx⟩ | ⟨-, hp⟩
    · exact hfresh p hx
    · exact hp
  refine ⟨h.ordered, h.timers, h.handle, h.unused, fun t' p hp => h.owned t' p (hown' t' p hp),
    fun t1 t2 p h1 h2 => h.owner t1 t2 p (hown' t1 p h1) (hown' t2 p h2), fun t' p hp => h.fresh t' p (hfresh' t' p hp),
    fun t1 t2 p h1 h2 => h.maker t1 t2 p (hfresh' t1 p h1) (hfresh' t2 p h2), fun t' p hp => ?_⟩
  rcases of_update hp with ⟨-, hp⟩ | ⟨-, hp⟩
  · exact hreset p hp
  · exact h.resets t' p hp

/-- a thread that is in no call on a timer afterwards -/
theorem leave (h : Shape m pc used handles) (t : ℕ) {x : Pc} (ho : x.owns = none) (hf : x.fresh = none)
    (hr : x.resets = none) : Shape m (Function.update pc t x) used handles :=
  h.move t x (by simp [ho]) (by simp [hf]) (by simp [hr])

/-- a section that puts no further timer into the set -/
theorem shrink (h : Shape m pc used handles) (hord : m'.Ordered) (hsub : ∀ p ∈ m'.timers, p ∈ m.timers)
    (hcb : ∀ p, (m.heap p).cb = none → (m'.heap p).cb = none) : Shape m' pc used handles :=
  ⟨hord, fun p hp => h.timers p (hsub p hp), h.handle, fun p hp => hcb p (h.unused p hp),
    fun t p hp hmem => h.owned t p hp (hsub p hmem), h.owner, h.fresh, h.maker, h.resets⟩

/-- addTimer makes a timer -/
theorem make (h : Shape m pc used handles) (t p : ℕ) (x : Timer) (hp : used p = false) :
    Shape (m.setTimer p x) (Function.update pc t (.inserting p true)) (Function.update used p true) handles := by
  have hnot : p ∉ m.timers := fun hmem => by simp [h.timers p hmem] at hp
  have hused : ∀ q, used q = true → Function.update used p true q = true := fun q hq => update_true p hq
  refine ⟨TimerManager.setTimer_ordered h.ordered x hnot, fun q hq => hused q (h.timers q hq),
    fun q hq => hused q (h.handle q hq), fun q hq => ?_, fun t' q hq => ?_, fun t1 t2 q => unique_update h.owner ?_,
    fun t' q hq => ?_, fun t1 t2 q => unique_update h.maker ?_, fun t' q hq => ?_⟩
  · by_cases hqp : q = p
    · subst hqp; simp at hq
    · rw [Function.update_of_ne hqp] at hq
      rw [TimerManager.setTimer_other m x hqp]
      exact h.unused q hq
  · rcases of_update hq with ⟨-, hq⟩ | ⟨-, hq⟩
    · cases hq; exact hnot
    · exact h.owned t' q hq
  · intro q hq t' _
    cases hq
    exact (h.unused_owns hp t').1
  · rcases of_update hq with ⟨-, hq⟩ | ⟨-, hq⟩
    · cases hq
      refine ⟨by simp, ?_⟩
      by_contra hh
      simp [h.handle p (by simpa using hh)] at hp
    · exact ⟨hused q (h.fresh t' q hq).1, (h.fresh t' q hq).2⟩
  · intro q hq t' _
    cases hq
    exact (h.unused_owns hp t').2
  · rcases of_update hq with ⟨-, hq⟩ | ⟨-, hq⟩
    · cases hq
    · exact h.resets t' q hq

/-- the section of `addTimer(val)` -/
theorem insert (h : Shape m pc used handles) {t p n : ℕ} {fresh : Bool} (hpc : pc t = .inserting p fresh) :
    Shape (m.insert p) (Function.update pc t (.checking p fresh n)) used handles := by
  have hown : (pc t).owns = some p := by rw [hpc]; rfl
  obtain ⟨hord, hmem⟩ := TimerManager.insert_spec h.ordered (h.owned t p hown)
  have hused : used p = true := by
    cases fresh
    · exact h.handle p (h.resets t p (by rw [hpc]; rfl))
    · exact (h.fresh t p (by rw [hpc]; rfl)).1
  have hmove := h.move t (.checking p fresh n) (by simp [Pc.owns])
    (fun q hq => by rw [hpc]; cases fresh <;> exact hq) (by simp [Pc.resets, Pc.window])
  refine ⟨hord, fun q hq => ?_, h.handle, h.unused, fun t' q hq hqmem => ?_, hmove.owner, hmove.fresh, hmove.maker,
    hmove.resets⟩
  · rcases (hmem q).1 hq with rfl | hq
    · exact hused
    · exact h.timers q hq
  · rcases (hmem q).1 hqmem with rfl | hqmem
    · -- the inserting thread was the only owner
      rcases of_update hq with ⟨-, hq⟩ | ⟨ht', hq⟩
      · cases hq
      · exact ht' (h.owner t' t q hq hown)
    · exact hmove.owned t' q hq hqmem

/-- the section of reset takes the timer out of the set -/
theorem take (h : Shape m pc used handles) {t p : ℕ} {ms : UInt64} {from_now : Bool}
    (hpc : pc t = .resetting p ms from_now) (hord : m'.Ordered) (hmem : ∀ i, i ∈ m'.timers ↔ i ∈ m.timers ∧ i ≠ p)
    (hheap : m'.heap = m.heap) (hp : p ∈ m.timers) :
    Shape m' (Function.update pc t (.resetErased p ms from_now)) used handles := by
  have hhandle : handles p = true := h.resets t p (by rw [hpc]; rfl)
  refine ⟨hord, fun q hq => h.timers q ((hmem q).1 hq).1, h.handle, fun q hq => by rw [hheap]; exact h.unused q hq,
    fun t' q hq => ?_, fun t1 t2 q => unique_update h.owner ?_, fun t' q hq => ?_,
    fun t1 t2 q => unique_update h.maker (by simp [Pc.fresh]), fun t' q hq => ?_⟩
  · rcases of_update hq with ⟨-, hq⟩ | ⟨-, hq⟩
    · cases hq
      exact fun hmem' => ((hmem p).1 hmem').2 rfl
    · exact fun hmem' => h.owned t' q hq ((hmem q).1 hmem').1
  · intro q hq t' _ ht'
    cases hq
    exact h.owned t' p ht' hp
  · rcases of_update hq with ⟨-, hq⟩ | ⟨-, hq⟩
    · cases hq
    · exact h.fresh t' q hq
  · rcases of_update hq with ⟨-, hq⟩ | ⟨-, hq⟩
    · cases hq; exact hhandle
    · exact h.resets t' q hq

/-- a call of addTimer returns its timer -/
theorem ret (h : Shape m pc used handles) {t p : ℕ} {fresh : Bool} (hfresh : fresh = true → (pc t).fresh = some p) :
    Shape m (Function.update pc t .out) used (if fresh then Function.update handles p true else handles) := by
  have hmove := h.leave t (x := .out) rfl rfl rfl
  cases fresh with
  | false => simpa using hmove
  | true =>
    have hp := hfresh rfl
    have hmono : ∀ q, handles q = true → Function.update handles p true q = true := fun q hq => update_true p hq
    refine ⟨h.ordered, h.timers, fun q hq => ?_, h.unused, hmove.owned, hmove.owner, fun t' q hq => ?_, hmove.maker,
      fun t' q hq => hmono q (hmove.resets t' q hq)⟩
    · by_cases hqp : q = p
      · subst hqp; exact (h.fresh t q hp).1
      · exact h.handle q (by simpa [Function.update_of_ne hqp] using hq)
    · refine ⟨(hmove.fresh t' q hq).1, ?_⟩
      rcases of_update hq with ⟨-, hq⟩ | ⟨ht', hq⟩
      · cases hq
      · have hqp : q ≠ p := by
          rintro rfl
          exact ht' (h.maker t' t q hq hp)
        simpa [Function.update_of_ne hqp] using (h.fresh t' q hq).2

/-! The sections of the set; each takes timers out of it at most. -/

theorem cancel (h : Shape m pc used handles) {p : ℕ} (hcb : (m.heap p).cb.isSome) :
    Shape (m.cancel p).2 pc used handles := by
  obtain ⟨-, hord, hheap, hmem, -⟩ := TimerManager.cancel_spec h.ordered hcb
  refine h.shrink hord (fun i hi => ((hmem i).1 hi).1) fun i hi => ?_
  rw [hheap]
  by_cases hip : i = p
  · subst hip; simp
  · rwa [Function.update_of_ne hip]

theorem refresh (h : Shape m pc used handles) {p : ℕ} (now : UInt64) (hcb : (m.heap p).cb.isSome)
    (hp : p ∈ m.timers) : Shape (m.refresh p now).2 pc used handles := by
  obtain ⟨-, hord, hheap, hmem, -⟩ := @TimerManager.refresh_spec m h.ordered p now hcb hp
  refine h.shrink hord (fun i hi => (hmem i).1 hi) fun i hi => ?_
  rw [hheap]
  exact (TimerManager.update_field Timer.cb (by rfl) i).trans hi

theorem resetWrite (h : Shape m pc used handles) {t p : ℕ} (hown : (pc t).owns = some p) (ms start : UInt64) :
    Shape (m.resetWrite p ms start) pc used handles := by
  refine h.shrink (TimerManager.setTimer_ordered h.ordered _ (h.owned t p hown)) (fun _ hq => hq) fun q hq => ?_
  exact (TimerManager.update_field Timer.cb (by rfl) q).trans hq

theorem listExpired (h : Shape m pc used handles) (now_ms : UInt64) {q : ℕ} (hq : used q = false) :
    Shape (m.listExpired now_ms q).2 pc used handles := by
  have hnot : q ∉ m.timers := fun hmem => by simp [h.timers q hmem] at hq
  obtain ⟨expired, rest, happ, hexp, -, -⟩ := TimerManager.listExpired_spec h.ordered now_ms hnot
  refine h.shrink hexp.ordered (fun p hp => ?_) fun p hp => ?_
  · rw [← happ, List.mem_append]
    rcases (hexp.mem p).1 hp with hp | hp
    · exact .inr hp
    · exact .inl hp.1
  · rw [hexp.heap]
    split_ifs
    · rw [TimerManager.rearmed]
      split_ifs
      · exact hp
      · rfl
    · exact hp

end Shape

abbrev Sys.Shape (s : Sys) : Prop := Timers.Shape s.mgr s.pc s.used s.handles

theorem init_shape (c : UInt64) : (init c).Shape := by
  refine ⟨List.Pairwise.nil, ?_, ?_, ?_, ?_, ?_, ?_, ?_, ?_⟩ <;>
    simp [init, Pc.owns, Pc.fresh, Pc.resets, Pc.window]

theorem step_shape (s : Sys) (o : Op) (h : s.Shape) : (step s o).Shape := by
  cases o with
  | clock c => exact h
  | addTimer t p ms cb recurring =>
    simp only [step]
    split_ifs with hpc
    · exact h.make t p _ hpc.2
    · exact h
  | insert t =>
    simp only [step]
    split
    · rename_i p fresh hpc
      exact h.insert hpc
    · exact h
  | check t dangling =>
    simp only [step]
    split
    · rename_i p fresh n hpc
      have hfresh : fresh = true → (s.pc t).fresh = some p := by rintro rfl; rw [hpc]; rfl
      split_ifs
      · refine h.move t _ (by simp [Pc.owns]) (fun q hq => ?_) (by simp [Pc.resets, Pc.window])
        rw [hpc]
        cases fresh <;> exact hq
      · exact h.ret hfresh
    · exact h
  | flag t =>
    simp only [step]
    split
    · rename_i p fresh hpc
      have hflag : Shape { s.mgr with tickled := true } s.pc s.used s.handles :=
        h.shrink h.ordered (fun _ hp => hp) (fun _ hp => hp)
      refine hflag.move t _ (by simp [Pc.owns]) (fun q hq => ?_) (by simp [Pc.resets, Pc.window])
      rw [hpc]
      cases fresh <;> exact hq
    · exact h
  | tickle t =>
    simp only [step]
    split
    · rename_i p fresh hpc
      have hfresh : fresh = true → (s.pc t).fresh = some p := by rintro rfl; rw [hpc]; rfl
      rw [Sys.tickle]
      split_ifs <;> exact h.ret hfresh
    · exact h
  | cancel t p =>
    simp only [step]
    split_ifs with hpc hdone
    · exact Shape.cancel h (TimerManager.cancel_done.1 hdone)
    · exact h
    · exact h
  | refresh t p =>
    simp only [step]
    split_ifs with hpc hdone
    · obtain ⟨hcb, hp⟩ := (TimerManager.refresh_done h.ordered).1 hdone
      exact Shape.refresh h s.clock hcb hp
    · exact h
    · exact h
  | reset t p ms from_now =>
    simp only [step]
    split_ifs with hpc hskip
    · exact h
    · refine h.move t _ (by simp [Pc.owns]) (by simp [Pc.fresh]) fun q hq => ?_
      cases hq
      exact hpc.2
    · exact h
  | resetErase t =>
    simp only [step]
    split
    · rename_i p ms from_now hpc
      split_ifs with hdone
      · obtain ⟨hcb, hp⟩ := (TimerManager.resetErase_done h.ordered).1 hdone
        obtain ⟨-, hord, hheap, hmem, -⟩ := TimerManager.resetErase_spec h.ordered hcb hp
        exact h.take hpc hord hmem hheap hp
      · exact h.leave t rfl rfl rfl
    · exact h
  | resetStart t =>
    simp only [step]
    split
    · rename_i p ms from_now hpc
      have hown : (s.pc t).owns = some p := by rw [hpc]; rfl
      have hreset := h.resets t p (by rw [hpc]; rfl)
      have hmove : Shape s.mgr (Function.update s.pc t (.resetStarted p ms (s.mgr.resetStart p from_now s.clock)))
          s.used s.handles :=
        h.move t _ (fun q hq => by cases hq; exact hown) (by simp [Pc.fresh]) (fun q hq => by cases hq; exact hreset)
      split_ifs <;> exact hmove
    · exact h
  | resetWrite t =>
    simp only [step]
    split
    · rename_i p ms start hpc
      have hown : (s.pc t).owns = some p := by rw [hpc]; rfl
      have hreset := h.resets t p (by rw [hpc]; rfl)
      exact (Shape.resetWrite h hown ms start).move t _ (fun q hq => by cases hq; exact hown) (by simp [Pc.fresh])
        (fun q hq => by cases hq; exact hreset)
    · exact h
  | list t =>
    simp only [step]
    split_ifs
    · exact h.leave t rfl rfl rfl
    · exact h.leave t rfl rfl rfl
    · exact h
  | listEmpty t =>
    simp only [step]
    split
    · rename_i now_ms idle hpc
      split_ifs
      · cases idle <;> exact h.leave t rfl rfl rfl
      · exact h.leave t rfl rfl rfl
    · exact h
  | listExpired t q =>
    simp only [step]
    split
    · rename_i now_ms idle hpc
      split_ifs with hq
      · have hshape := Shape.listExpired h now_ms hq
        cases idle <;> exact hshape.leave t rfl rfl rfl
      · exact h
    · exact h
  | enterIdle t =>
    simp only [step]
    split_ifs
    · exact h.leave t rfl rfl rfl
    · exact h
  | getNextTimer t =>
    simp only [step]
    split_ifs
    · have hshape : Shape (s.mgr.getNextTimer s.clock).2 s.pc s.used s.handles := by
        rw [(TimerManager.getNextTimer_spec s.mgr s.clock).1]
        exact h.shrink h.ordered (fun _ hp => hp) (fun _ hp => hp)
      exact hshape.leave t rfl rfl rfl
    · exact h
  | epollWait t =>
    simp only [step]
    split
    · split_ifs <;> exact h.leave t rfl rfl rfl
    · exact h
  | wake t =>
    simp only [step]
    split
    · exact h.leave t rfl rfl rfl
    · exact h
  | drain t =>
    simp only [step]
    split_ifs <;> exact h
  | leaveIdle t =>
    simp only [step]
    split_ifs
    · exact h.leave t rfl rfl rfl
    · exact h

theorem shape_run (c : UInt64) (ops : List Op) : (run step (init c) ops).Shape :=
  run_preserves step_shape (init_shape c) ops

/-! ## Threads -/

/-- the thread whose step it is -/
def Op.thread : Op → Option ℕ
  | .clock _ => none
  | .addTimer t _ _ _ _ | .insert t | .check t _ | .flag t | .tickle t | .cancel t _ | .refresh t _ | .reset t _ _ _
  | .resetErase t | .resetStart t | .resetWrite t | .list t | .listEmpty t | .listExpired t _ | .enterIdle t
  | .getNextTimer t | .epollWait t | .wake t | .drain t | .leaveIdle t => some t

@[simp] theorem setPc_self (s : Sys) (t : ℕ) (x : Pc) : (s.setPc t x).pc t = x := by simp [Sys.setPc]

theorem setPc_other (s : Sys) {t t' : ℕ} (x : Pc) (h : t' ≠ t) : (s.setPc t x).pc t' = s.pc t' := by
  simp [Sys.setPc, h]

@[simp] theorem ret_self (s : Sys) (t p : ℕ) (fresh : Bool) : (s.ret t p fresh).pc t = .out := by simp [Sys.ret]

theorem ret_other (s : Sys) {t t' : ℕ} (p : ℕ) (fresh : Bool) (h : t' ≠ t) : (s.ret t p fresh).pc t' = s.pc t' :=
  setPc_other _ _ h

@[simp] theorem tickle_pc (s : Sys) : s.tickle.pc = s.pc := by
  rw [Sys.tickle]; split_ifs <;> rfl

@[simp] theorem arm_pc (s : Sys) (p : ℕ) (now : UInt64) : (s.arm p now).pc = s.pc := rfl

@[simp] theorem rearm_pc (s : Sys) (now : UInt64) (cbs : List (ℕ × Option ℕ)) : (s.rearm now cbs).pc = s.pc := rfl

/-- a step moves its own thread -/
theorem step_other (s : Sys) (o : Op) (t : ℕ) (h : o.thread ≠ some t) : (step s o).pc t = s.pc t := by
  cases o <;> simp only [Op.thread, ne_eq, Option.some.injEq] at h <;> simp only [step] <;>
    repeat' (first | split | split_ifs)
  all_goals first
    | rfl
    | simp only [setPc_other _ _ (Ne.symm h), ret_other _ _ _ (Ne.symm h), tickle_pc, arm_pc, rearm_pc]

theorem run_other (s : Sys) (ops : List Op) (t : ℕ) (h : ∀ o ∈ ops, o.thread ≠ some t) :
    (run step s ops).pc t = s.pc t := by
  induction ops generalizing s with
  | nil => rfl
  | cons o ops ih =>
    rw [run_cons, ih _ fun o' ho' => h o' (List.mem_cons_of_mem o ho'), step_other s o t (h o List.mem_cons_self)]

end Sylar.Timers

/-
`Timer` and `TimerManager`: the data of timer.h and the lock-protected sections of timer.cc.

A timer is named by its address, and `heap` holds the timers. `m_timers` is the ordered set of addresses under
`Timer::Comparator`, which reads `m_next` out of the heap. Each function below is one section under `m_mutex`, or one
stretch of code outside it; the calls are put together from them elsewhere. A reading of the clock is an argument.

`m_timers.erase(m_timers.end())` has no defined result: the manager is left as it is and `eraseEnd` records the call.

Results: one specification for each section.
- `cancel_spec`, `refresh_spec`, `resetErase_spec`, `insert_spec`: what is in the set afterwards, and in which order;
- `listExpired_spec`: what a call returns, and what it puts back;
- `getNextTimer_spec`: the distance to the front of the set.
-/
import Sylar.Core.OrderedSet

namespace Sylar.Timers

open Sylar.OrderedSet

/-! ## Model -/

structure Timer where
  recurring : Bool
  ms : UInt64
  next : UInt64
  /-- m_cb, the callback by its number; `none` is nullptr -/
  cb : Option ℕ
deriving DecidableEq, Repr

structure TimerManager where
  heap : ℕ → Timer
  timers : List ℕ
  tickled : Bool
  previouseTime : UInt64
  /-- how many nodes of a timer were erased: an iterator to an earlier node dangles -/
  erasures : ℕ → ℕ
  eraseEnd : Bool

/-- `Timer::Comparator::operator()`; the set holds no null pointer -/
def Comparator (heap : ℕ → Timer) (lhs rhs : ℕ) : Bool :=
  if (heap lhs).next < (heap rhs).next then true
  else if (heap rhs).next < (heap lhs).next then false
  else lhs < rhs

abbrev Less (heap : ℕ → Timer) (lhs rhs : ℕ) : Prop := Comparator heap lhs rhs = true

namespace TimerManager

def setTimer (m : TimerManager) (p : ℕ) (t : Timer) : TimerManager := { m with heap := Function.update m.heap p t }

def find (m : TimerManager) (p : ℕ) : Option ℕ := OrderedSet.find (Less m.heap) p m.timers

/-- `m_timers.erase(it)` -/
def erase (m : TimerManager) : Option ℕ → TimerManager
  | some p => { m with timers := m.timers.erase p, erasures := Function.update m.erasures p (m.erasures p + 1) }
  | none => { m with eraseEnd := true }

/-- `m_timers.insert(val)`, the section of both `addTimer(val)` functions -/
def insert (m : TimerManager) (p : ℕ) : TimerManager := { m with timers := OrderedSet.insert (Less m.heap) p m.timers }

/-- `Timer::cancel` -/
def cancel (m : TimerManager) (p : ℕ) : Bool × TimerManager :=
  if (m.heap p).cb.isSome then
    let m := m.setTimer p { m.heap p with cb := none }
    (true, m.erase (m.find p))
  else (false, m)

/-- `Timer::refresh` -/
def refresh (m : TimerManager) (p : ℕ) (now : UInt64) : Bool × TimerManager :=
  if (m.heap p).cb.isSome then
    match m.find p with
    | none => (false, m)
    | some it =>
      let m := m.erase (some it)
      let m := m.setTimer p { m.heap p with next := now + (m.heap p).ms }
      (true, m.insert p)
  else (false, m)

/-- the test in front of `Timer::reset`, without the lock -/
def resetSkips (m : TimerManager) (p : ℕ) (ms : UInt64) (from_now : Bool) : Bool := ms == (m.heap p).ms && !from_now

/-- the section of `Timer::reset` -/
def resetErase (m : TimerManager) (p : ℕ) : Bool × TimerManager :=
  if (m.heap p).cb.isSome then
    match m.find p with
    | none => (false, m)
    | some it => (true, m.erase (some it))
  else (false, m)

/-- `start` of `Timer::reset` -/
def resetStart (m : TimerManager) (p : ℕ) (from_now : Bool) (now : UInt64) : UInt64 :=
  if from_now then now else (m.heap p).next - (m.heap p).ms

/-- `m_ms` and `m_next` in `Timer::reset` -/
def resetWrite (m : TimerManager) (p : ℕ) (ms start : UInt64) : TimerManager :=
  m.setTimer p { m.heap p with ms := ms, next := start + ms }

/-- `at_front` of `addTimer(val)`, whose iterator was taken when `n` nodes of `p` had been erased; the comparison of a
dangling iterator may answer anything -/
def atFront (m : TimerManager) (p n : ℕ) (dangling : Bool) : Bool :=
  (if m.erasures p = n then m.timers.head? == some p else dangling) && !m.tickled

def getNextTimer (m : TimerManager) (now_ms : UInt64) : UInt64 × TimerManager :=
  let m := { m with tickled := false }
  match m.timers with
  | [] => (~~~0, m)
  | next :: _ => if now_ms ≥ (m.heap next).next then (0, m) else ((m.heap next).next - now_ms, m)

def rollover (m : TimerManager) (now_ms : UInt64) : Bool :=
  now_ms < m.previouseTime && now_ms < m.previouseTime - 60 * 60 * 1000

def detectClockRollover (m : TimerManager) (now_ms : UInt64) : Bool × TimerManager :=
  (m.rollover now_ms, { m with previouseTime := now_ms })

/-- the timers in front of `it` and those from `it` on; `q` is the address of `now_timer` -/
def splitExpired (m : TimerManager) (now_ms : UInt64) (q : ℕ) : List ℕ × List ℕ :=
  let less := Less (Function.update m.heap q ⟨false, 0, now_ms, none⟩)
  let from_lower := lowerBound less q m.timers
  (before less q m.timers ++ from_lower.takeWhile fun p => (m.heap p).next == now_ms,
    from_lower.dropWhile fun p => (m.heap p).next == now_ms)

/-- one turn of the loop over `expired` -/
def expireOne (now_ms : UInt64) (acc : List (ℕ × Option ℕ) × TimerManager) (p : ℕ) :
    List (ℕ × Option ℕ) × TimerManager :=
  let (cbs, m) := acc
  let timer := m.heap p
  if timer.recurring then (cbs ++ [(p, timer.cb)], (m.setTimer p { timer with next := now_ms + timer.ms }).insert p)
  else (cbs ++ [(p, timer.cb)], m.setTimer p { timer with cb := none })

/-- the section of `TimerManager::listExpiredCb`; each callback is returned with its timer -/
def listExpired (m : TimerManager) (now_ms : UInt64) (q : ℕ) : List (ℕ × Option ℕ) × TimerManager :=
  match m.timers with
  | [] => ([], m)
  | front :: _ =>
    let (rollover, m) := m.detectClockRollover now_ms
    if rollover = false ∧ (m.heap front).next > now_ms then ([], m)
    else
      let (expired, rest) := if rollover then (m.timers, []) else m.splitExpired now_ms q
      let m := { m with
        timers := rest
        erasures := fun p => if p ∈ expired then m.erasures p + 1 else m.erasures p }
      expired.foldl (expireOne now_ms) ([], m)

end TimerManager

/-! ## The order of the set -/

theorem less_iff {heap : ℕ → Timer} {a b : ℕ} :
    Less heap a b ↔ (heap a).next < (heap b).next ∨ (heap a).next = (heap b).next ∧ a < b := by
  simp only [Less, Comparator, UInt64.lt_iff_toNat_lt, ← UInt64.toNat_inj]
  split_ifs with h1 h2 <;> simp <;> omega

instance (heap : ℕ → Timer) : IsStrictTotalOrder ℕ (Less heap) where
  irrefl a h := by
    rw [less_iff, UInt64.lt_iff_toNat_lt] at h
    omega
  trans a b c hab hbc := by
    rw [less_iff, UInt64.lt_iff_toNat_lt, ← UInt64.toNat_inj] at *
    omega
  trichotomous a b hab hba := by
    rw [less_iff, UInt64.lt_iff_toNat_lt, ← UInt64.toNat_inj] at *
    omega

/-- a timer that expires at `b` or before, below `b` -/
theorem less_le {heap : ℕ → Timer} {a b : ℕ} (h : Less heap a b) : (heap a).next ≤ (heap b).next := by
  rw [less_iff, UInt64.lt_iff_toNat_lt] at h
  rw [UInt64.le_iff_toNat_le]
  rcases h with h | h
  · exact h.le
  · rw [h.1]

/-- the set is in the order of its comparator -/
def TimerManager.Ordered (m : TimerManager) : Prop := Sorted (Less m.heap) m.timers

/-- timers outside the set may change -/
theorem sorted_of_heap {heap heap' : ℕ → Timer} {l : List ℕ} (h : Sorted (Less heap) l)
    (heq : ∀ p ∈ l, heap' p = heap p) : Sorted (Less heap') l := by
  refine h.congr fun a ha b hb hab => ?_
  rw [less_iff] at hab ⊢
  rwa [heq a ha, heq b hb]

/-- the front of the set expires first -/
theorem front_le {m : TimerManager} (h : m.Ordered) {p q : ℕ} {l : List ℕ} (hl : m.timers = p :: l)
    (hq : q ∈ m.timers) : (m.heap p).next ≤ (m.heap q).next := by
  rw [TimerManager.Ordered, hl] at h
  rw [hl] at hq
  rcases List.mem_cons.1 hq with rfl | hq
  · rw [UInt64.le_iff_toNat_le]
  · exact less_le ((List.pairwise_cons.1 h).1 q hq)

/-! ## The sections -/

namespace TimerManager

variable {m : TimerManager}

@[simp] theorem setTimer_timers (m : TimerManager) (p : ℕ) (t : Timer) : (m.setTimer p t).timers = m.timers := rfl

@[simp] theorem setTimer_self (m : TimerManager) (p : ℕ) (t : Timer) : (m.setTimer p t).heap p = t := by
  simp [setTimer]

theorem setTimer_other (m : TimerManager) {p i : ℕ} (t : Timer) (h : i ≠ p) :
    (m.setTimer p t).heap i = m.heap i := by
  simp [setTimer, h]

/-- a field that the new record has as the old one had it -/
theorem update_field {β : Type*} (f : Timer → β) {heap : ℕ → Timer} {p : ℕ} {t : Timer} (h : f t = f (heap p)) (i : ℕ) :
    f (Function.update heap p t i) = f (heap i) := by
  by_cases hip : i = p
  · rw [hip, Function.update_self, h]
  · rw [Function.update_of_ne hip]

theorem setTimer_ordered (h : m.Ordered) {p : ℕ} (t : Timer) (hp : p ∉ m.timers) : (m.setTimer p t).Ordered :=
  sorted_of_heap h fun _ hi => setTimer_other m t fun hip => hp (hip ▸ hi)

theorem find_spec (h : m.Ordered) {p it : ℕ} : m.find p = some it ↔ p ∈ m.timers ∧ it = p :=
  find_eq_some h

theorem find_none (h : m.Ordered) {p : ℕ} : m.find p = none ↔ p ∉ m.timers := find_eq_none h

/-- writing `m_cb` leaves the order as it is -/
theorem find_setTimer (m : TimerManager) (p : ℕ) (cb : Option ℕ) (q : ℕ) :
    (m.setTimer p { m.heap p with cb := cb }).find q = m.find q := by
  have hheap : ∀ a, ((m.setTimer p { m.heap p with cb := cb }).heap a).next = (m.heap a).next :=
    update_field Timer.next rfl
  exact find_congr (fun a b => by rw [less_iff, less_iff, hheap, hheap]) q m.timers

theorem ordered_setTimer_cb (h : m.Ordered) (p : ℕ) (cb : Option ℕ) :
    (m.setTimer p { m.heap p with cb := cb }).Ordered := by
  refine Sorted.congr (r := Less m.heap) h fun a _ b _ hab => ?_
  have hheap : ∀ a, ((m.setTimer p { m.heap p with cb := cb }).heap a).next = (m.heap a).next :=
    update_field Timer.next rfl
  rw [less_iff] at hab ⊢
  rwa [hheap, hheap]

theorem insert_spec (h : m.Ordered) {p : ℕ} (hp : p ∉ m.timers) :
    (m.insert p).Ordered ∧ ∀ i, i ∈ (m.insert p).timers ↔ i = p ∨ i ∈ m.timers :=
  ⟨sorted_insert h hp, fun _ => mem_insert h hp⟩

theorem erase_spec (h : m.Ordered) (p : ℕ) :
    (m.erase (some p)).Ordered ∧ ∀ i, i ∈ (m.erase (some p)).timers ↔ i ∈ m.timers ∧ i ≠ p :=
  ⟨sorted_erase h p, fun _ => mem_erase h⟩

/-- the callback goes, and the timer with it; without the timer in the set, `end()` is erased -/
theorem cancel_spec (h : m.Ordered) {p : ℕ} (hcb : (m.heap p).cb.isSome) :
    (m.cancel p).1 = true ∧ (m.cancel p).2.Ordered ∧
      (m.cancel p).2.heap = Function.update m.heap p { m.heap p with cb := none } ∧
      (∀ i, i ∈ (m.cancel p).2.timers ↔ i ∈ m.timers ∧ i ≠ p) ∧
      (m.cancel p).2.eraseEnd = (m.eraseEnd || decide (p ∉ m.timers)) ∧ (m.cancel p).2.tickled = m.tickled := by
  have hord := ordered_setTimer_cb h p none
  simp only [cancel, hcb, ite_true, find_setTimer]
  by_cases hp : p ∈ m.timers
  · have hfind : m.find p = some p := (find_spec h).2 ⟨hp, rfl⟩
    obtain ⟨hord', hmem⟩ := erase_spec hord p
    rw [hfind]
    refine ⟨trivial, hord', rfl, hmem, ?_, rfl⟩
    simp [erase, setTimer, hp]
  · rw [(find_none h).2 hp]
    refine ⟨trivial, hord, rfl, fun i => ⟨fun hi => ⟨hi, fun hip => hp (hip ▸ hi)⟩, And.left⟩, ?_, rfl⟩
    simp [erase, hp]

theorem cancel_timers (h : m.Ordered) {p : ℕ} (hcb : (m.heap p).cb.isSome) :
    (m.cancel p).2.timers = m.timers.erase p ∧ ∀ i, i ≠ p → (m.cancel p).2.erasures i = m.erasures i := by
  simp only [cancel, hcb, ite_true, find_setTimer]
  by_cases hp : p ∈ m.timers
  · rw [(find_spec h).2 ⟨hp, rfl⟩]
    exact ⟨rfl, fun i hi => Function.update_of_ne hi _ _⟩
  · rw [(find_none h).2 hp]
    exact ⟨(List.erase_of_not_mem hp).symm, fun _ _ => rfl⟩

theorem cancel_done {p : ℕ} : (m.cancel p).1 = true ↔ (m.heap p).cb.isSome = true := by
  simp only [cancel]
  split_ifs with hcb <;> simp [hcb]

/-- `refresh` on a timer it finds -/
theorem refresh_spec (h : m.Ordered) {p : ℕ} {now : UInt64} (hcb : (m.heap p).cb.isSome) (hp : p ∈ m.timers) :
    (m.refresh p now).1 = true ∧ (m.refresh p now).2.Ordered ∧
      (m.refresh p now).2.heap = Function.update m.heap p { m.heap p with next := now + (m.heap p).ms } ∧
      (∀ i, i ∈ (m.refresh p now).2.timers ↔ i ∈ m.timers) ∧ (m.refresh p now).2.eraseEnd = m.eraseEnd := by
  have hfind : m.find p = some p := (find_spec h).2 ⟨hp, rfl⟩
  simp only [refresh, hcb, ite_true, hfind]
  obtain ⟨hord, hmem⟩ := erase_spec h p
  have hnot : p ∉ (m.erase (some p)).timers := fun hp' => ((hmem p).1 hp').2 rfl
  have hord' := setTimer_ordered hord { m.heap p with next := now + (m.heap p).ms } hnot
  obtain ⟨hord'', hmem'⟩ := insert_spec hord' hnot
  refine ⟨trivial, hord'', rfl, fun i => ?_, rfl⟩
  rw [show (m.erase (some p)).heap = m.heap from rfl, hmem', setTimer_timers, hmem]
  by_cases hip : i = p
  · simp [hip, hp]
  · simp [hip]

theorem refresh_skip (h : m.Ordered) {p : ℕ} {now : UInt64} (hp : (m.heap p).cb = none ∨ p ∉ m.timers) :
    m.refresh p now = (false, m) := by
  simp only [refresh]
  split_ifs with hcb
  · rw [(find_none h).2 (hp.resolve_left fun hn => by simp [hn] at hcb)]
  · rfl

theorem refresh_done (h : m.Ordered) {p : ℕ} {now : UInt64} :
    (m.refresh p now).1 = true ↔ (m.heap p).cb.isSome = true ∧ p ∈ m.timers := by
  by_cases hin : (m.heap p).cb.isSome = true ∧ p ∈ m.timers
  · simp [(@refresh_spec m h p now hin.1 hin.2).1, hin]
  · rw [refresh_skip h (by rw [not_and_or] at hin; simpa using hin)]
    simp [hin]

/-- `reset` on a timer it finds takes it out of the set -/
theorem resetErase_spec (h : m.Ordered) {p : ℕ} (hcb : (m.heap p).cb.isSome) (hp : p ∈ m.timers) :
    (m.resetErase p).1 = true ∧ (m.resetErase p).2.Ordered ∧ (m.resetErase p).2.heap = m.heap ∧
      (∀ i, i ∈ (m.resetErase p).2.timers ↔ i ∈ m.timers ∧ i ≠ p) ∧ (m.resetErase p).2.eraseEnd = m.eraseEnd := by
  have hfind : m.find p = some p := (find_spec h).2 ⟨hp, rfl⟩
  simp only [resetErase, hcb, ite_true, hfind]
  obtain ⟨hord, hmem⟩ := erase_spec h p
  exact ⟨trivial, hord, rfl, hmem, rfl⟩

theorem resetErase_skip (h : m.Ordered) {p : ℕ} (hp : (m.heap p).cb = none ∨ p ∉ m.timers) :
    m.resetErase p = (false, m) := by
  simp only [resetErase]
  split_ifs with hcb
  · rw [(find_none h).2 (hp.resolve_left fun hn => by simp [hn] at hcb)]
  · rfl

theorem resetErase_done (h : m.Ordered) {p : ℕ} :
    (m.resetErase p).1 = true ↔ (m.heap p).cb.isSome = true ∧ p ∈ m.timers := by
  by_cases hin : (m.heap p).cb.isSome = true ∧ p ∈ m.timers
  · simp [(resetErase_spec h hin.1 hin.2).1, hin]
  · rw [resetErase_skip h (by rw [not_and_or] at hin; simpa using hin)]
    simp [hin]

/-! ## Expiry -/

/-- a timer after its callback was returned -/
def rearmed (now_ms : UInt64) (t : Timer) : Timer :=
  if t.recurring then { t with next := now_ms + t.ms } else { t with cb := none }

theorem expireOne_heap (now_ms : UInt64) (cbs : List (ℕ × Option ℕ)) (p i : ℕ) :
    (expireOne now_ms (cbs, m) p).2.heap i = if i = p then rearmed now_ms (m.heap p) else m.heap i := by
  simp only [expireOne, rearmed]
  split_ifs with hr hi hi <;> simp_all [setTimer, insert]

theorem expireOne_cbs (now_ms : UInt64) (cbs : List (ℕ × Option ℕ)) (p : ℕ) :
    (expireOne now_ms (cbs, m) p).1 = cbs ++ [(p, (m.heap p).cb)] := by
  simp only [expireOne]
  split_ifs <;> rfl

theorem expireOne_timers (h : m.Ordered) (now_ms : UInt64) (cbs : List (ℕ × Option ℕ)) {p : ℕ} (hp : p ∉ m.timers) :
    (expireOne now_ms (cbs, m) p).2.Ordered ∧
      ∀ i, i ∈ (expireOne now_ms (cbs, m) p).2.timers ↔ i ∈ m.timers ∨ i = p ∧ (m.heap p).recurring = true := by
  simp only [expireOne]
  split_ifs with hr
  · obtain ⟨hord, hmem⟩ := insert_spec (setTimer_ordered h { m.heap p with next := now_ms + (m.heap p).ms } hp) hp
    refine ⟨hord, fun i => ?_⟩
    rw [hmem, setTimer_timers, or_comm]
    simp [hr]
  · refine ⟨setTimer_ordered h _ hp, fun i => ?_⟩
    simp [hr]

theorem expireOne_rest (now_ms : UInt64) (cbs : List (ℕ × Option ℕ)) (p : ℕ) :
    (expireOne now_ms (cbs, m) p).2.tickled = m.tickled ∧ (expireOne now_ms (cbs, m) p).2.eraseEnd = m.eraseEnd ∧
      (expireOne now_ms (cbs, m) p).2.previouseTime = m.previouseTime := by
  simp only [expireOne]
  split_ifs <;> exact ⟨rfl, rfl, rfl⟩

/-- what the section of `listExpiredCb` does with the timers `expired` that leave a set of them and `rest` -/
structure Expires (m : TimerManager) (now_ms : UInt64) (expired rest : List ℕ) (cbs : List (ℕ × Option ℕ))
    (m' : TimerManager) : Prop where
  cbs : cbs = expired.map fun p => (p, (m.heap p).cb)
  heap : ∀ i, m'.heap i = if i ∈ expired then rearmed now_ms (m.heap i) else m.heap i
  ordered : m'.Ordered
  mem : ∀ i, i ∈ m'.timers ↔ i ∈ rest ∨ i ∈ expired ∧ (m.heap i).recurring = true
  tickled : m'.tickled = m.tickled
  eraseEnd : m'.eraseEnd = m.eraseEnd

/-- the loop over `expired`; the induction is on the timers still to be handled, none of which is in the set -/
theorem expire_loop (now_ms : UInt64) (expired : List ℕ) (cbs : List (ℕ × Option ℕ)) {m : TimerManager}
    (h : m.Ordered) (hnodup : expired.Nodup) (hout : ∀ p ∈ expired, p ∉ m.timers) :
    ∃ cbs' m', expired.foldl (expireOne now_ms) (cbs, m) = (cbs ++ cbs', m') ∧
      Expires m now_ms expired m.timers cbs' m' := by
  induction expired generalizing cbs m with
  | nil => exact ⟨[], m, by simp, by simp, by simp, h, by simp, rfl, rfl⟩
  | cons p expired ih =>
    obtain ⟨hp, hnodup⟩ := List.nodup_cons.1 hnodup
    have hpout := hout p List.mem_cons_self
    obtain ⟨hord, hmem⟩ := expireOne_timers h now_ms cbs hpout
    have hheap := expireOne_heap (m := m) now_ms cbs p
    obtain ⟨htick, hend, -⟩ := expireOne_rest (m := m) now_ms cbs p
    have hout' : ∀ i ∈ expired, i ∉ (expireOne now_ms (cbs, m) p).2.timers := by
      intro i hi himem
      rcases (hmem i).1 himem with him | ⟨rfl, -⟩
      · exact hout i (List.mem_cons_of_mem _ hi) him
      · exact hp hi
    obtain ⟨cbs', m', hrun, hexp⟩ := ih _ hord hnodup hout'
    have hsame : ∀ i ∈ expired, (expireOne now_ms (cbs, m) p).2.heap i = m.heap i := by
      intro i hi
      rw [hheap, if_neg fun hip : i = p => hp (hip ▸ hi)]
    refine ⟨(p, (m.heap p).cb) :: cbs', m', ?_, ?_, fun i => ?_, hexp.ordered, fun i => ?_, hexp.tickled.trans htick,
      hexp.eraseEnd.trans hend⟩
    · rw [List.foldl_cons, ← Prod.mk.eta (p := expireOne now_ms (cbs, m) p), hrun, expireOne_cbs]
      simp
    · rw [hexp.cbs, List.map_cons]
      congr 1
      exact List.map_congr_left fun i hi => by rw [hsame i hi]
    · rw [hexp.heap]
      by_cases hi : i ∈ expired
      · rw [if_pos hi, if_pos (List.mem_cons_of_mem _ hi), hsame i hi]
      · rw [if_neg hi, hheap]
        by_cases hip : i = p
        · simp [hip]
        · simp [hip, hi]
    · rw [hexp.mem, hmem]
      by_cases hip : i = p
      · subst hip
        simp [hp]
      · simp only [hip, false_and, or_false, List.mem_cons, false_or]
        by_cases hi : i ∈ expired
        · rw [hsame i hi]
        · simp [hi]

/-- the prefix that `lower_bound` and the loop behind it find: the timers that are due -/
theorem splitExpired_spec (h : m.Ordered) (now_ms : UInt64) {q : ℕ} (hq : q ∉ m.timers) :
    let (expired, rest) := m.splitExpired now_ms q
    expired ++ rest = m.timers ∧ (∀ p ∈ expired, (m.heap p).next ≤ now_ms) ∧
      ∀ p ∈ rest, now_ms < (m.heap p).next := by
  have hheap : ∀ p ∈ m.timers, Function.update m.heap q ⟨false, 0, now_ms, none⟩ p = m.heap p :=
    fun p hp => Function.update_of_ne (fun hpq : p = q => hq (hpq ▸ hp)) _ _
  have hsorted := sorted_of_heap h hheap
  have hless : ∀ p ∈ m.timers, Less (Function.update m.heap q ⟨false, 0, now_ms, none⟩) p q ↔
      (m.heap p).next < now_ms ∨ (m.heap p).next = now_ms ∧ p < q := by
    intro p hp
    rw [less_iff, hheap p hp, Function.update_self]
  -- from lower_bound on, no timer is due before now_ms
  have hlower : ∀ p ∈ lowerBound (Less (Function.update m.heap q ⟨false, 0, now_ms, none⟩)) q m.timers,
      p ∈ m.timers ∧ now_ms ≤ (m.heap p).next := by
    intro p hp
    obtain ⟨hp, hnot⟩ := (mem_lowerBound hsorted).1 hp
    rw [hless p hp, UInt64.lt_iff_toNat_lt, ← UInt64.toNat_inj] at hnot
    exact ⟨hp, by rw [UInt64.le_iff_toNat_le]; omega⟩
  have hdown : ∀ a ∈ lowerBound (Less (Function.update m.heap q ⟨false, 0, now_ms, none⟩)) q m.timers,
      ∀ b ∈ lowerBound (Less (Function.update m.heap q ⟨false, 0, now_ms, none⟩)) q m.timers,
      Less (Function.update m.heap q ⟨false, 0, now_ms, none⟩) a b →
      ((m.heap b).next == now_ms) = true → ((m.heap a).next == now_ms) = true := by
    intro a ha b hb hab heq
    have hle := less_le hab
    rw [hheap a (hlower a ha).1, hheap b (hlower b hb).1] at hle
    have hge := (hlower a ha).2
    rw [beq_iff_eq] at heq ⊢
    rw [heq] at hle
    exact UInt64.le_antisymm hle hge
  refine ⟨?_, fun p hp => ?_, fun p hp => ?_⟩
  · rw [List.append_assoc, List.takeWhile_append_dropWhile, before_append_lowerBound]
  · rcases List.mem_append.1 hp with hp | hp
    · obtain ⟨hp, hpq⟩ := (mem_before hsorted).1 hp
      rw [hless p hp, UInt64.lt_iff_toNat_lt, ← UInt64.toNat_inj] at hpq
      rw [UInt64.le_iff_toNat_le]
      omega
    · have := ((mem_takeWhile (hsorted.dropWhile _) hdown).1 hp).2
      rw [beq_iff_eq] at this
      rw [this]
      exact UInt64.le_refl _
  · obtain ⟨hp, hne⟩ := (mem_dropWhile (hsorted.dropWhile _) hdown).1 hp
    have hge := (hlower p hp).2
    rw [beq_eq_false_iff_ne, ne_eq, ← UInt64.toNat_inj] at hne
    rw [UInt64.le_iff_toNat_le] at hge
    rw [UInt64.lt_iff_toNat_lt]
    omega

/-- **Expiry.** The section returns the callbacks of a part `expired` of the set: without a rollover the timers that are
due and no others, with one all of them. The recurring ones are put back. -/
theorem listExpired_spec (h : m.Ordered) (now_ms : UInt64) {q : ℕ} (hq : q ∉ m.timers) :
    ∃ expired rest, expired ++ rest = m.timers ∧
      Expires m now_ms expired rest (m.listExpired now_ms q).1 (m.listExpired now_ms q).2 ∧
      (∀ p ∈ expired, (m.heap p).next ≤ now_ms ∨ m.rollover now_ms = true) ∧
      (∀ p ∈ rest, now_ms < (m.heap p).next) := by
  rw [listExpired]
  split
  · rename_i hnil
    refine ⟨[], [], by simp [hnil], ⟨rfl, by simp, h, by simp [hnil], rfl, rfl⟩, by simp, by simp⟩
  · rename_i front l hcons
    rw [show m.detectClockRollover now_ms = (m.rollover now_ms, { m with previouseTime := now_ms }) from rfl]
    dsimp only
    by_cases hearly : m.rollover now_ms = false ∧ (m.heap front).next > now_ms
    · -- nothing is due
      rw [if_pos hearly]
      refine ⟨[], m.timers, rfl, ⟨rfl, by simp, h, by simp, rfl, rfl⟩, by simp, fun p hp => ?_⟩
      exact UInt64.lt_of_lt_of_le hearly.2 (front_le h hcons hp)
    · rw [if_neg hearly]
      set m1 : TimerManager := { m with previouseTime := now_ms } with hm1
      have hsplit : ∃ expired rest, (if m.rollover now_ms = true then (m1.timers, []) else m1.splitExpired now_ms q) =
          (expired, rest) ∧ expired ++ rest = m.timers ∧
          (∀ p ∈ expired, (m.heap p).next ≤ now_ms ∨ m.rollover now_ms = true) ∧
          (∀ p ∈ rest, now_ms < (m.heap p).next) := by
        split_ifs with hroll
        · exact ⟨m.timers, [], rfl, by simp, fun p _ => .inr hroll, by simp⟩
        · obtain ⟨happ, hdue, hrest⟩ := splitExpired_spec (m := m1) h now_ms hq
          exact ⟨_, _, rfl, happ, fun p hp => .inl (hdue p hp), hrest⟩
      obtain ⟨expired, rest, heq, happ, hdue, hrest⟩ := hsplit
      rw [heq]
      have hnodup : (expired ++ rest).Nodup := happ ▸ Sorted.nodup h
      obtain ⟨hne, -, hdisj⟩ := List.nodup_append.1 hnodup
      have hord : Sorted (Less m.heap) rest :=
        List.Pairwise.sublist (List.sublist_append_right expired rest) (happ ▸ h)
      obtain ⟨cbs, m', hrun, hexp⟩ := expire_loop now_ms expired []
        (m := { m1 with timers := rest, erasures := fun p => if p ∈ expired then m1.erasures p + 1 else m1.erasures p })
        hord hne (fun p hp hp' => hdisj p hp p hp' rfl)
      refine ⟨expired, rest, happ, ?_, hdue, hrest⟩
      dsimp only [m1] at hrun ⊢
      rw [hrun]
      exact ⟨hexp.cbs, hexp.heap, hexp.ordered, hexp.mem, hexp.tickled, hexp.eraseEnd⟩

/-! ## The next timer -/

theorem getNextTimer_spec (m : TimerManager) (now_ms : UInt64) :
    (m.getNextTimer now_ms).2 = { m with tickled := false } ∧
      (∀ p l, m.timers = p :: l → (m.getNextTimer now_ms).1.toNat = (m.heap p).next.toNat - now_ms.toNat) := by
  simp only [getNextTimer]
  cases htimers : m.timers with
  | nil => exact ⟨rfl, fun p l hl => by cases hl⟩
  | cons p l =>
    simp only [ge_iff_le]
    split_ifs with hle
    · refine ⟨by simp, fun p' l' hl => ?_⟩
      cases hl
      rw [UInt64.le_iff_toNat_le] at hle
      simp only [UInt64.toNat_zero]
      omega
    · refine ⟨by simp, fun p' l' hl => ?_⟩
      cases hl
      rw [UInt64.le_iff_toNat_le] at hle
      exact UInt64.toNat_sub_of_le _ _ (by rw [UInt64.le_iff_toNat_le]; omega)

end TimerManager

end Sylar.Timers

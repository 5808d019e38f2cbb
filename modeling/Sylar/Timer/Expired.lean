/-
Which timers listExpiredCb takes out of the set.

The probe `now_timer` is compared by its own address with the timers that expire at `now_ms` exactly, so `lower_bound`
may stop anywhere among them; the loop behind it goes on to their end. `dueTimers` says what comes out of the two, without
the probe.

Results:
- `listExpired_eq`: the call is the loop over `dueTimers`, whatever the address of the probe;
- `listExpiredCb_exact`: it returns the callbacks of exactly these timers in the order of the set, puts the recurring
  ones back once, and leaves the others alone.
-/
import Sylar.Timer.Manager

namespace Sylar.Timers

open Sylar.OrderedSet

namespace TimerManager

variable {m : TimerManager}

/-- `TimerManager::listExpiredCb` with no other thread between its two sections -/
def listExpiredCb (m : TimerManager) (now_ms : UInt64) (q : ℕ) : List (ℕ × Option ℕ) × TimerManager :=
  if m.timers = [] then ([], m) else m.listExpired now_ms q

/-- the timers that expire at `now_ms` or before, in order; all of them when the clock has gone back by more than an hour -/
def dueTimers (m : TimerManager) (now_ms : UInt64) : List ℕ :=
  if now_ms.toNat + 3600000 < m.previouseTime.toNat then m.timers
  else m.timers.filter fun p => (m.heap p).next ≤ now_ms

/-- the set without these timers, and the nodes that are gone with them -/
def takeOut (m : TimerManager) (now_ms : UInt64) : TimerManager :=
  { m with
    previouseTime := now_ms
    timers := m.timers.filter fun p => p ∉ m.dueTimers now_ms
    erasures := fun p => if p ∈ m.dueTimers now_ms then m.erasures p + 1 else m.erasures p }

/-- with at least an hour on the last reading the comparison is the one of integers -/
theorem rollover_iff (hprev : 3600000 ≤ m.previouseTime) (now_ms : UInt64) :
    m.rollover now_ms = true ↔ now_ms.toNat + 3600000 < m.previouseTime.toNat := by
  have hhour : (3600000 : UInt64).toNat = 3600000 := rfl
  have hsub : (m.previouseTime - 60 * 60 * 1000).toNat = m.previouseTime.toNat - 3600000 :=
    UInt64.toNat_sub_of_le _ _ hprev
  rw [UInt64.le_iff_toNat_le, hhour] at hprev
  rw [rollover, Bool.and_eq_true, decide_eq_true_iff, decide_eq_true_iff, UInt64.lt_iff_toNat_lt,
    UInt64.lt_iff_toNat_lt, hsub]
  omega

/-- a list split into the elements that pass a test and those behind them that do not -/
theorem split_eq_filter {l a b : List ℕ} (test : ℕ → Bool) (happ : a ++ b = l) (ha : ∀ p ∈ a, test p = true)
    (hb : ∀ p ∈ b, test p = false) : a = l.filter test ∧ b = l.filter fun p => !test p := by
  have ha' : a.filter (fun p => !test p) = [] := List.filter_eq_nil_iff.2 fun p hp => by simp [ha p hp]
  have hb' : b.filter test = [] := List.filter_eq_nil_iff.2 fun p hp => by simp [hb p hp]
  have hb'' : b.filter (fun p => !test p) = b := List.filter_eq_self.2 fun p hp => by simp [hb p hp]
  rw [← happ, List.filter_append, List.filter_append, List.filter_eq_self.2 ha, hb', ha', hb'', List.append_nil]
  exact ⟨rfl, rfl⟩

/-- the probe makes no difference -/
theorem splitExpired_eq (h : m.Ordered) (now_ms : UInt64) {q : ℕ} (hq : q ∉ m.timers) :
    m.splitExpired now_ms q = (m.timers.filter fun p => (m.heap p).next ≤ now_ms,
      m.timers.filter fun p => !decide ((m.heap p).next ≤ now_ms)) := by
  obtain ⟨happ, hdue, hrest⟩ := splitExpired_spec h now_ms hq
  obtain ⟨hexpired, hleft⟩ := split_eq_filter (fun p => decide ((m.heap p).next ≤ now_ms)) happ
    (fun p hp => by simpa using hdue p hp) fun p hp => by simpa using hrest p hp
  exact Prod.ext hexpired hleft

theorem dueTimers_sub (m : TimerManager) (now_ms : UInt64) : ∀ p ∈ m.dueTimers now_ms, p ∈ m.timers := by
  intro p hp
  rw [dueTimers] at hp
  split_ifs at hp
  · exact hp
  · exact List.mem_of_mem_filter hp

/-- the timers that the call takes out, and what it leaves of the set -/
theorem expired_eq (h : m.Ordered) (hprev : 3600000 ≤ m.previouseTime) (now_ms : UInt64) {q : ℕ} (hq : q ∉ m.timers) :
    (if m.rollover now_ms = true then (m.timers, []) else m.splitExpired now_ms q) =
      (m.dueTimers now_ms, m.timers.filter fun p => p ∉ m.dueTimers now_ms) := by
  by_cases hroll : m.rollover now_ms = true
  · have hall : m.dueTimers now_ms = m.timers := if_pos ((rollover_iff hprev now_ms).1 hroll)
    have hnone : (m.timers.filter fun p => p ∉ m.timers) = [] := List.filter_eq_nil_iff.2 fun p hp => by simp [hp]
    rw [if_pos hroll, hall, hnone]
  · have hdue : m.dueTimers now_ms = m.timers.filter fun p => (m.heap p).next ≤ now_ms :=
      if_neg fun hback => hroll ((rollover_iff hprev now_ms).2 hback)
    rw [if_neg hroll, splitExpired_eq h now_ms hq, hdue]
    refine Prod.ext rfl (List.filter_congr fun p hp => ?_)
    simp only [List.mem_filter, hp, true_and, decide_eq_true_eq, decide_not]

/-- nothing is due when the front of the set is not -/
theorem dueTimers_early (h : m.Ordered) (hprev : 3600000 ≤ m.previouseTime) {now_ms : UInt64} {front : ℕ} {l : List ℕ}
    (hcons : m.timers = front :: l) (hearly : m.rollover now_ms = false ∧ (m.heap front).next > now_ms) :
    m.dueTimers now_ms = [] := by
  have hroll : ¬ now_ms.toNat + 3600000 < m.previouseTime.toNat := by
    rw [← rollover_iff hprev, hearly.1]
    exact Bool.false_ne_true
  rw [dueTimers, if_neg hroll, List.filter_eq_nil_iff]
  intro p hp
  have hlt := UInt64.lt_of_lt_of_le hearly.2 (front_le h hcons hp)
  simpa using hlt

/-- the call is the loop over the timers that are due -/
theorem listExpired_eq (h : m.Ordered) (hprev : 3600000 ≤ m.previouseTime) (now_ms : UInt64) {q : ℕ}
    (hq : q ∉ m.timers) : m.listExpiredCb now_ms q =
      if m.timers = [] then ([], m)
      else (m.dueTimers now_ms).foldl (expireOne now_ms) ([], m.takeOut now_ms) := by
  rw [listExpiredCb]
  split_ifs with hempty
  · rfl
  obtain ⟨front, l, hcons⟩ := List.exists_cons_of_ne_nil hempty
  have hsplit := expired_eq h hprev now_ms hq
  rw [listExpired]
  split
  · contradiction
  · rename_i front' l' hcons'
    rw [hcons] at hcons'
    cases hcons'
    rw [show m.detectClockRollover now_ms = (m.rollover now_ms, { m with previouseTime := now_ms }) from rfl]
    dsimp only
    by_cases hearly : m.rollover now_ms = false ∧ (m.heap front).next > now_ms
    · have hnone := dueTimers_early h hprev hcons hearly
      rw [if_pos hearly, takeOut, hnone]
      simp
    · have hsplit' : (if m.rollover now_ms = true then (m.timers, [])
          else splitExpired { m with previouseTime := now_ms } now_ms q) =
          (m.dueTimers now_ms, m.timers.filter fun p => p ∉ m.dueTimers now_ms) := hsplit
      rw [if_neg hearly, hsplit']
      rfl

end TimerManager

/-! ## Main result -/

/-- what a call at `now_ms` leaves behind: `cbs` are the callbacks of the timers that are due, in the order of the set -/
structure ExtractsDue (m : TimerManager) (now_ms : UInt64) (cbs : List (ℕ × Option ℕ)) (m' : TimerManager) : Prop where
  cbs : cbs = (m.dueTimers now_ms).map fun p => (p, (m.heap p).cb)
  inOrder : Sorted (Less m.heap) (m.dueTimers now_ms)
  oneShot : ∀ p ∈ m.dueTimers now_ms, (m.heap p).recurring = false →
    p ∉ m'.timers ∧ m'.heap p = { m.heap p with cb := none }
  recurring : ∀ p ∈ m.dueTimers now_ms, (m.heap p).recurring = true →
    m'.timers.count p = 1 ∧ m'.heap p = { m.heap p with next := now_ms + (m.heap p).ms }
  others : ∀ p ∉ m.dueTimers now_ms, m'.timers.count p = m.timers.count p ∧ m'.heap p = m.heap p
  ordered : m'.Ordered

/-- **What listExpiredCb extracts.** On a set in order, at any reading of the clock, the call returns the callbacks of
exactly the timers that are due, and the outcome is the same for every address of the probe. -/
theorem listExpiredCb_exact (m : TimerManager) (h : m.Ordered) (now_ms : UInt64) (hprev : 3600000 ≤ m.previouseTime) :
    ∃ cbs m', (∀ q, q ∉ m.timers → m.listExpiredCb now_ms q = (cbs, m')) ∧ ExtractsDue m now_ms cbs m' := by
  by_cases hempty : m.timers = []
  · have hnone : m.dueTimers now_ms = [] := List.eq_nil_iff_forall_not_mem.2 fun p hp => by
      have hin := m.dueTimers_sub now_ms p hp
      rw [hempty] at hin
      exact List.not_mem_nil hin
    refine ⟨[], m, fun q _ => by rw [TimerManager.listExpiredCb, if_pos hempty], ?_⟩
    refine ⟨by rw [hnone]; rfl, by rw [hnone]; exact List.Pairwise.nil, ?_, ?_, fun p _ => ⟨rfl, rfl⟩, h⟩
    all_goals
      rw [hnone]
      exact fun p hp => absurd hp List.not_mem_nil
  · have hinOrder : Sorted (Less m.heap) (m.dueTimers now_ms) := by
      rw [TimerManager.dueTimers]
      split_ifs
      · exact h
      · exact List.Pairwise.filter _ h
    have hout : ∀ p ∈ m.dueTimers now_ms, p ∉ (m.takeOut now_ms).timers := fun p hp hrest => by
      simpa [hp] using List.of_mem_filter hrest
    have hleft : (m.takeOut now_ms).Ordered := List.Pairwise.filter _ h
    obtain ⟨cbs, m', hrun, hexp⟩ := TimerManager.expire_loop now_ms (m.dueTimers now_ms) [] hleft hinOrder.nodup hout
    refine ⟨cbs, m', fun q hq => ?_, hexp.cbs, hinOrder, fun p hp hr => ?_, fun p hp hr => ?_, fun p hp => ?_, hexp.ordered⟩
    · rw [TimerManager.listExpired_eq h hprev now_ms hq, if_neg hempty, hrun]
      rfl
    · refine ⟨fun hin => ?_, ?_⟩
      · rcases (hexp.mem p).1 hin with hrest | ⟨-, hr'⟩
        · exact hout p hp hrest
        · rw [show (m.takeOut now_ms).heap = m.heap from rfl, hr] at hr'
          cases hr'
      · rw [hexp.heap, if_pos hp, TimerManager.rearmed, if_neg]
        · rfl
        · rw [show (m.takeOut now_ms).heap = m.heap from rfl, hr]
          exact Bool.false_ne_true
    · refine ⟨List.count_eq_one_of_mem (Sorted.nodup hexp.ordered) ((hexp.mem p).2 (.inr ⟨hp, hr⟩)), ?_⟩
      rw [hexp.heap, if_pos hp, TimerManager.rearmed, if_pos]
      · rfl
      · exact hr
    · have hmem : p ∈ m'.timers ↔ p ∈ m.timers := by
        rw [hexp.mem]
        simp [TimerManager.takeOut, hp]
      refine ⟨?_, by rw [hexp.heap, if_neg hp]; rfl⟩
      rw [(Sorted.nodup hexp.ordered).count, (Sorted.nodup h).count]
      simp only [hmem]

/-- two timers that expire at 7000000, the second one recurring, and a later one -/
def threeTimers : TimerManager where
  heap := fun p => if p = 1 then ⟨false, 5, 7000000, some 11⟩ else if p = 2 then ⟨true, 8, 7000000, some 12⟩
    else ⟨false, 9, 7000001, some 13⟩
  timers := [1, 2, 3]
  tickled := false
  previouseTime := 6000000
  erasures := fun _ => 0
  eraseEnd := false

theorem listExpiredCb_example : ∃ cbs m', (∀ q, q ∉ threeTimers.timers → threeTimers.listExpiredCb 7000000 q = (cbs, m')) ∧
    ExtractsDue threeTimers 7000000 cbs m' := by
  apply listExpiredCb_exact threeTimers _ 7000000 (by decide)
  show Sorted (Less threeTimers.heap) [1, 2, 3]
  simp only [Sorted]
  decide

end Sylar.Timers

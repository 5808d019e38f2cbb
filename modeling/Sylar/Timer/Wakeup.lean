/-
A waiter that sleeps until the next timer, and the threads that put an earlier one in front of it.

The waiter `w` is an idle thread: it computes the argument of epoll_wait from getNextTimer and blocks until then or until
a byte comes through the tickle pipe. addTimer tests outside the lock whether its timer is at the front, and tickles
only when `m_tickled` is not set yet; getNextTimer clears `m_tickled`.

Results:
- `step_inv`: as long as the waiter sleeps, a set `m_tickled` means that a tickle is in the pipe or on its way, and a
  front that is earlier than the deadline means the same or that the thread that inserted it has its test before it;
- `no_lost_wakeup`: over all interleavings, with no addTimer on the way, a blocked waiter has a byte waiting or wakes in
  time, provided that each timeout computed keeps its value as an int;
- `sleeps_forever`: a timeout of 2^32 - 1 ms becomes -1, and the waiter has no deadline.
-/
import Sylar.Timer.System

namespace Sylar.Timers.Wakeup

open Sylar.Run

/-! ## Runs with one waiter -/

/-- the steps of threads that add and cancel timers, and of an idle thread `w` -/
def waiterOp (w : ℕ) : Op → Bool
  | .refresh _ _ | .reset _ _ _ _ | .resetErase _ | .resetStart _ | .resetWrite _ => false
  | .list t | .listEmpty t | .listExpired t _ | .enterIdle t | .getNextTimer t | .epollWait t | .wake t | .drain t
  | .leaveIdle t => t == w
  | _ => true

def WaiterRun (w : ℕ) (_ : Sys) (o : Op) : Prop := waiterOp w o = true

/-- the distance to a front in the future is no negative int (the largest one stands for an empty set) -/
def FrontFits (s : Sys) : Prop :=
  ∀ p ∈ s.mgr.timers.head?, s.clock < (s.mgr.heap p).next →
    ((s.mgr.heap p).next - s.clock).toNat % UInt32.size < 2147483648 ∨ (s.mgr.heap p).next - s.clock = ~~~0

def getsNext : Op → Bool
  | .getNextTimer _ => true
  | _ => false

/-- the condition of a run: the timeouts computed keep their value as an int -/
def TimeoutFits (s : Sys) (o : Op) : Prop := getsNext o = true → FrontFits s

instance (w : ℕ) (s : Sys) (o : Op) : Decidable (WaiterRun w s o) := inferInstanceAs (Decidable (_ = _))

instance (s : Sys) : Decidable (FrontFits s) := inferInstanceAs (Decidable (∀ p ∈ s.mgr.timers.head?, _))

instance (s : Sys) (o : Op) : Decidable (TimeoutFits s o) := inferInstanceAs (Decidable (_ → _))

/-- when a sleeping thread wakes by itself; the inner `none` is never -/
def deadline : Pc → Option (Option ℕ)
  | .waiting timeout now_ms =>
    if timeout = 0 then none else some (if timeout < 0 then none else some (now_ms.toNat + timeout.toNat))
  | .blocked d => some d
  | _ => none

/-- a deadline is later than `x` -/
def Late (d : Option ℕ) (x : ℕ) : Prop := ∀ k, d = some k → x < k

/-- a tickle is on its way -/
def tickling : Pc → Bool
  | .tickling _ _ => true
  | _ => false

/-- the front test has succeeded -/
def alarming : Pc → Bool
  | .flagging _ _ | .tickling _ _ => true
  | _ => false

/-- in addTimer behind the insertion -/
def adding : Pc → Bool
  | .checking _ _ _ | .flagging _ _ | .tickling _ _ => true
  | _ => false

/-- in `IOManager::idle` -/
def inIdle : Pc → Bool
  | .listing _ idle | .listingLocked _ idle => idle
  | .idleTop | .waiting _ _ | .blocked _ | .woken => true
  | _ => false

/-- in a reset call -/
def inReset : Pc → Bool
  | .resetting _ _ _ | .resetErased _ _ _ | .resetStarted _ _ _ => true
  | .inserting _ fresh | .checking _ fresh _ | .flagging _ fresh | .tickling _ fresh => !fresh
  | _ => false

/-- the waiter will be woken, or the front test of the thread that inserted `q` is still to come -/
def Alarm (s : Sys) (q : ℕ) : Prop :=
  0 < s.bytes ∨ (∃ t, alarming (s.pc t) = true) ∨ ∃ t fresh, s.pc t = .checking q fresh (s.mgr.erasures q)

structure Inv (w : ℕ) (s : Sys) : Prop where
  shape : s.Shape
  adds : ∀ t, inReset (s.pc t) = false
  idle : s.idleThreadCount = if inIdle (s.pc w) then 1 else 0
  tickled : ∀ d, deadline (s.pc w) = some d → s.mgr.tickled = true → 0 < s.bytes ∨ ∃ t, tickling (s.pc t) = true
  front : ∀ d, deadline (s.pc w) = some d → ∀ q ∈ s.mgr.timers.head?, Late d (s.mgr.heap q).next.toNat → Alarm s q

theorem inv_init (w : ℕ) (c : UInt64) : Inv w (init c) := by
  refine ⟨init_shape c, fun _ => rfl, rfl, fun d hd => ?_, fun d hd => ?_⟩ <;> cases hd

theorem deadline_inIdle {x : Pc} {d : Option ℕ} (h : deadline x = some d) : inIdle x = true := by
  cases x <;> first | rfl | cases h

theorem tickling_alarming {x : Pc} (h : tickling x = true) : alarming x = true := by
  cases x <;> first | rfl | cases h

theorem alarming_adding {x : Pc} (h : alarming x = true) : adding x = true := by
  cases x <;> first | rfl | cases h

/-! ## The timeout -/

theorem toInt32_eq (x : UInt64) : toInt32 x = (x.toNat : ℤ).bmod (2 ^ 32) := by
  simp only [toInt32]
  rw [← Int32.toInt_toBitVec]
  simp only [UInt32.toBitVec_toInt32, BitVec.toInt_eq_toNat_bmod, UInt64.toBitVec_toUInt32, BitVec.toNat_setWidth,
    UInt64.toNat_toBitVec, Nat.reducePow, Int.natCast_emod, Nat.cast_ofNat]
  exact Int.emod_bmod _ 4294967296

/-- a timeout that is an int is not longer than the distance it stands for -/
theorem epollTimeout_spec {d : UInt64} (h : d.toNat % UInt32.size < 2147483648 ∨ d = ~~~0) :
    0 ≤ epollTimeout d ∧ epollTimeout d ≤ d.toNat := by
  simp only [epollTimeout, toInt32_eq]
  have hmod := Int.bmod_def (d.toNat : ℤ) (2 ^ 32)
  split_ifs with h0 h1
  · exact ⟨by norm_num, by omega⟩
  · have := h.resolve_right h0
    simp only [UInt32.size] at this
    omega
  · rw [not_not] at h0
    subst h0
    decide

/-- getNextTimer: the waiter wakes before the front is due -/
theorem getNextTimer_deadline {s : Sys} (hfit : FrontFits s) {q : ℕ} (hq : q ∈ s.mgr.timers.head?)
    {d : Option ℕ} (hd : deadline (.waiting (epollTimeout (s.mgr.getNextTimer s.clock).1) s.clock) = some d) :
    ¬ Late d (s.mgr.heap q).next.toNat := by
  cases htimers : s.mgr.timers with
  | nil => simp [htimers] at hq
  | cons p l =>
    rw [htimers] at hq
    cases hq
    have hget := (TimerManager.getNextTimer_spec s.mgr s.clock).2 q l htimers
    by_cases hdue : s.clock < (s.mgr.heap q).next
    · have hlt := UInt64.lt_iff_toNat_lt.1 hdue
      have hsub : (s.mgr.getNextTimer s.clock).1 = (s.mgr.heap q).next - s.clock := by
        rw [← UInt64.toNat_inj, hget, UInt64.toNat_sub_of_le _ _ (by rw [UInt64.le_iff_toNat_le]; omega)]
      have hfit' := hfit q (by rw [htimers]; rfl) hdue
      rw [← hsub] at hfit'
      obtain ⟨hnonneg, hle⟩ := epollTimeout_spec hfit'
      simp only [deadline] at hd
      split_ifs at hd with h0 hneg
      · omega
      · cases hd
        intro hlate
        have := hlate _ rfl
        omega
    · -- a front that is due: a zero timeout, and the waiter does not sleep
      have hzero : (s.mgr.getNextTimer s.clock).1 = 0 := by
        rw [UInt64.lt_iff_toNat_lt] at hdue
        rw [← UInt64.toNat_inj, hget]
        simp only [UInt64.toNat_zero]
        omega
      have hnone : epollTimeout 0 = 0 := by decide
      simp [hzero, hnone, deadline] at hd

/-! ## The steps -/

theorem inIdle_update {pc : ℕ → Pc} {t : ℕ} {x : Pc} (h : inIdle x = inIdle (pc t)) (w : ℕ) :
    inIdle (Function.update pc t x w) = inIdle (pc w) := by
  by_cases hw : w = t
  · subst hw; rw [Function.update_self, h]
  · rw [Function.update_of_ne hw]

theorem inReset_update {pc : ℕ → Pc} (h : ∀ t, inReset (pc t) = false) {t : ℕ} {x : Pc} (hx : inReset x = false)
    (t' : ℕ) : inReset (Function.update pc t x t') = false := by
  by_cases ht : t' = t
  · subst ht; rw [Function.update_self]; exact hx
  · rw [Function.update_of_ne ht]; exact h t'

/-- a thread outside addTimer moves, the front of the set stays, and no tickle is taken from a sleeping waiter -/
theorem Inv.move {w : ℕ} {s s' : Sys} (h : Inv w s) {t : ℕ} {x : Pc} (hshape : s'.Shape)
    (hpc : s'.pc = Function.update s.pc t x) (hadd : adding (s.pc t) = false) (hreset : inReset x = false)
    (hidle : s'.idleThreadCount = if inIdle (s'.pc w) then 1 else 0)
    (hsleep : ∀ d, deadline x = some d → deadline (s.pc t) = some d) (htickled : s'.mgr.tickled = s.mgr.tickled)
    (hfront : ∀ q ∈ s'.mgr.timers.head?, q ∈ s.mgr.timers.head? ∧ (s'.mgr.heap q).next = (s.mgr.heap q).next ∧
      s'.mgr.erasures q = s.mgr.erasures q)
    (hbytes : s'.bytes = s.bytes) : Inv w s' := by
  have hsleep' : ∀ d, deadline (s'.pc w) = some d → deadline (s.pc w) = some d := by
    intro d hd
    rw [hpc] at hd
    rcases of_update hd with ⟨rfl, hx⟩ | ⟨-, hd⟩
    · exact hsleep d hx
    · exact hd
  have hstay : ∀ t', adding (s.pc t') = true → s'.pc t' = s.pc t' := by
    intro t' ht'
    rw [hpc, Function.update_of_ne]
    rintro rfl
    simp [hadd] at ht'
  refine ⟨hshape, hpc ▸ inReset_update h.adds hreset, hidle, fun d hd ht => ?_, fun d hd q hq hlate => ?_⟩
  · rw [hbytes]
    refine (h.tickled d (hsleep' d hd) (htickled ▸ ht)).imp_right (Exists.imp fun t' ht' => ?_)
    rw [hstay t' (alarming_adding (tickling_alarming ht')), ht']
  · obtain ⟨hq', hnext, her⟩ := hfront q hq
    rw [hnext] at hlate
    rcases h.front d (hsleep' d hd) q hq' hlate with hb | ⟨t', ht'⟩ | ⟨t', fresh, ht'⟩
    · exact .inl (hbytes ▸ hb)
    · refine .inr (.inl ⟨t', ?_⟩)
      rw [hstay t' (alarming_adding ht'), ht']
    · refine .inr (.inr ⟨t', fresh, ?_⟩)
      rw [hstay t' (by rw [ht']; rfl), ht', her]

/-- the waiter is awake -/
theorem Inv.awake {w : ℕ} {s' : Sys} (hshape : s'.Shape) (hadds : ∀ t, inReset (s'.pc t) = false)
    (hidle : s'.idleThreadCount = if inIdle (s'.pc w) then 1 else 0) (hawake : deadline (s'.pc w) = none) : Inv w s' :=
  ⟨hshape, hadds, hidle, by simp [hawake], by simp [hawake]⟩

/-- the insertion: a new front has its thread's test before it -/
theorem Inv.insert {w : ℕ} {s : Sys} (h : Inv w s) (t : ℕ) : Inv w (step s (.insert t)) := by
  have hshape := step_shape s (.insert t) h.shape
  simp only [step] at hshape ⊢
  split at hshape
  · rename_i p fresh hpc
    have hown : (s.pc t).owns = some p := by rw [hpc]; rfl
    have hfresh : inReset (.checking p fresh (s.mgr.erasures p)) = false := by
      have := h.adds t
      rw [hpc] at this
      exact this
    have hsleep : ∀ d, deadline (Function.update s.pc t (.checking p fresh (s.mgr.erasures p)) w) = some d →
        deadline (s.pc w) = some d := by
      intro d hd
      rcases of_update hd with ⟨-, hx⟩ | ⟨-, hx⟩
      · cases hx
      · exact hx
    have hother : ∀ t', s.pc t' ≠ .inserting p fresh →
        Function.update s.pc t (.checking p fresh (s.mgr.erasures p)) t' = s.pc t' := by
      intro t' ht'
      refine Function.update_of_ne ?_ _ _
      rintro rfl
      exact ht' hpc
    refine ⟨hshape, inReset_update h.adds hfresh, ?_, fun d hd ht => ?_, fun d hd q hq hlate => ?_⟩
    · exact h.idle.trans (by rw [Sys.setPc, inIdle_update (by rw [hpc]; rfl)])
    · refine (h.tickled d (hsleep d hd) ht).imp_right (Exists.imp fun t' ht' => ?_)
      change tickling (Function.update s.pc t _ t') = true
      rw [hother t' (fun he => by rw [he] at ht'; cases ht'), ht']
    · rcases OrderedSet.head?_insert h.shape.ordered (h.shape.owned t p hown) with hnew | hold
      · have hqp : q = p := by
          change (OrderedSet.insert (Less s.mgr.heap) p s.mgr.timers).head? = some q at hq
          rw [hnew] at hq
          exact (Option.some.inj hq).symm
        subst hqp
        exact .inr (.inr ⟨t, fresh, setPc_self _ _ _⟩)
      · have hq' : q ∈ s.mgr.timers.head? := hold ▸ hq
        rcases h.front d (hsleep d hd) q hq' hlate with hb | ⟨t', ht'⟩ | ⟨t', fresh', ht'⟩
        · exact .inl hb
        · refine .inr (.inl ⟨t', ?_⟩)
          change alarming (Function.update s.pc t _ t') = true
          rw [hother t' (fun he => by rw [he] at ht'; cases ht'), ht']
        · refine .inr (.inr ⟨t', fresh', ?_⟩)
          change Function.update s.pc t _ t' = _
          rw [hother t' (fun he => by rw [he] at ht'; cases ht'), ht']
          rfl
  · exact h

/-- the front test: where it fails for the front itself, `m_tickled` was set -/
theorem Inv.check {w : ℕ} {s : Sys} (h : Inv w s) (t : ℕ) (dangling : Bool) : Inv w (step s (.check t dangling)) := by
  have hshape := step_shape s (.check t dangling) h.shape
  simp only [step] at hshape ⊢
  split at hshape
  · rename_i p fresh n hpc
    have hadds := h.adds t
    rw [hpc] at hadds
    -- what holds for whatever position the thread goes to
    have hgo : ∀ x : Pc, deadline x = none → ∀ d, deadline (Function.update s.pc t x w) = some d →
        deadline (s.pc w) = some d := by
      intro x hx d hd
      rcases of_update hd with ⟨-, hd⟩ | ⟨-, hd⟩
      · rw [hx] at hd; cases hd
      · exact hd
    have hother : ∀ (x : Pc) (t' : ℕ), s.pc t' ≠ .checking p fresh n → Function.update s.pc t x t' = s.pc t' := by
      intro x t' ht'
      refine Function.update_of_ne ?_ _ _
      rintro rfl
      exact ht' hpc
    have hkeep : ∀ x : Pc, deadline x = none → ∀ d, deadline (Function.update s.pc t x w) = some d →
        s.mgr.tickled = true → 0 < s.bytes ∨ ∃ t', tickling (Function.update s.pc t x t') = true := by
      intro x hx d hd ht
      refine (h.tickled d (hgo x hx d hd) ht).imp_right (Exists.imp fun t' ht' => ?_)
      rw [hother x t' (fun he => by rw [he] at ht'; cases ht'), ht']
    split_ifs at hshape ⊢ with hfront
    · refine ⟨hshape, inReset_update h.adds hadds, ?_, hkeep _ rfl, fun d hd q hq hlate => ?_⟩
      · exact h.idle.trans (by rw [Sys.setPc, inIdle_update (by rw [hpc]; rfl)])
      · exact .inr (.inl ⟨t, by rw [setPc_self]; rfl⟩)
    · refine ⟨hshape, inReset_update h.adds rfl, ?_, hkeep _ rfl, fun d hd q hq hlate => ?_⟩
      · exact h.idle.trans (by rw [Sys.ret, Sys.setPc, inIdle_update (by rw [hpc]; rfl)])
      · have hd' := hgo .out rfl d hd
        rcases h.front d hd' q hq hlate with hb | ⟨t', ht'⟩ | ⟨t', fresh', ht'⟩
        · exact .inl hb
        · refine .inr (.inl ⟨t', ?_⟩)
          change alarming (Function.update s.pc t .out t') = true
          rw [hother .out t' (fun he => by rw [he] at ht'; cases ht'), ht']
        · by_cases htt : t' = t
          · -- the test of the thread that inserted the front has failed: some tickle is under way
            subst htt
            rw [hpc] at ht'
            cases ht'
            have hset : s.mgr.tickled = true := by
              simp only [TimerManager.atFront, ite_true] at hfront
              rw [show s.mgr.timers.head? = some p from hq] at hfront
              simpa using hfront
            rcases hkeep .out rfl d hd hset with hb | ⟨t', ht'⟩
            · exact .inl hb
            · exact .inr (.inl ⟨t', tickling_alarming ht'⟩)
          · refine .inr (.inr ⟨t', fresh', ?_⟩)
            change Function.update s.pc t .out t' = _
            rw [Function.update_of_ne htt, ht']
            rfl
  · exact h

theorem Inv.flag {w : ℕ} {s : Sys} (h : Inv w s) (t : ℕ) : Inv w (step s (.flag t)) := by
  have hshape := step_shape s (.flag t) h.shape
  simp only [step] at hshape ⊢
  split at hshape
  · rename_i p fresh hpc
    have hadds := h.adds t
    rw [hpc] at hadds
    refine ⟨hshape, inReset_update h.adds hadds, ?_, fun d hd _ => ?_, fun d hd q hq hlate => ?_⟩
    · exact h.idle.trans (by rw [Sys.setPc, inIdle_update (by rw [hpc]; rfl)])
    · exact .inr ⟨t, by rw [setPc_self]; rfl⟩
    · exact .inr (.inl ⟨t, by rw [setPc_self]; rfl⟩)
  · exact h

/-- the tickle: a sleeping waiter is counted idle, so a byte is written -/
theorem Inv.tickle {w : ℕ} {s : Sys} (h : Inv w s) (t : ℕ) : Inv w (step s (.tickle t)) := by
  have hshape := step_shape s (.tickle t) h.shape
  simp only [step] at hshape ⊢
  split at hshape
  · rename_i p fresh hpc
    have hin : inIdle (s.tickle.ret t p fresh |>.pc w) = inIdle (s.pc w) := by
      rw [Sys.ret, Sys.setPc, tickle_pc, inIdle_update (by rw [hpc]; rfl)]
    have hbytes : ∀ d, deadline ((s.tickle.ret t p fresh).pc w) = some d → 0 < (s.tickle.ret t p fresh).bytes := by
      intro d hd
      have hcount : 0 < s.idleThreadCount := by
        rw [h.idle, ← hin, if_pos (deadline_inIdle hd)]
        exact Nat.zero_lt_one
      change 0 < s.tickle.bytes
      rw [Sys.tickle, if_pos hcount]
      exact Nat.succ_pos _
    refine ⟨hshape, ?_, ?_, fun d hd _ => .inl (hbytes d hd), fun d hd q _ _ => .inl (hbytes d hd)⟩
    · rw [Sys.ret, Sys.setPc, tickle_pc]
      exact inReset_update h.adds rfl
    · rw [hin, ← h.idle]
      change s.tickle.idleThreadCount = _
      rw [Sys.tickle]
      split_ifs <;> rfl
  · exact h

/-- a cancel brings a later timer to the front; no thread has the test of the cancelled one before it -/
theorem Inv.cancel {w : ℕ} {s : Sys} (h : Inv w s) (t p : ℕ) : Inv w (step s (.cancel t p)) := by
  have hshape := step_shape s (.cancel t p) h.shape
  simp only [step] at hshape ⊢
  split_ifs at hshape ⊢ with hpc hdone
  · have hcb := TimerManager.cancel_done.1 hdone
    obtain ⟨-, -, hheap, -, -, htick⟩ := TimerManager.cancel_spec h.shape.ordered hcb
    obtain ⟨htimers, her⟩ := TimerManager.cancel_timers h.shape.ordered hcb
    have hnext : ∀ q, ((s.mgr.cancel p).2.heap q).next = (s.mgr.heap q).next := by
      intro q
      rw [hheap]
      exact TimerManager.update_field Timer.next (by rfl) q
    refine ⟨hshape, h.adds, h.idle, fun d hd ht => h.tickled d hd (htick ▸ ht), fun d hd q hq hlate => ?_⟩
    change (s.mgr.cancel p).2.timers.head? = some q at hq
    rw [htimers] at hq
    rw [hnext] at hlate
    have hqmem : q ∈ s.mgr.timers.erase p := List.mem_of_mem_head? hq
    have hqp : q ≠ p := ((OrderedSet.mem_erase h.shape.ordered).1 hqmem).2
    rcases OrderedSet.head?_erase hq with hold | hold
    · refine (h.front d hd q hold hlate).imp_right (Or.imp_right (Exists.imp fun t' => Exists.imp fun fresh ht' => ?_))
      change s.pc t' = _
      rw [ht', her q hqp]
    · -- the old front was not later
      obtain ⟨l, hl⟩ : ∃ l, s.mgr.timers = p :: l := by
        cases hs : s.mgr.timers with
        | nil => rw [hs] at hold; cases hold
        | cons a l => rw [hs] at hold; cases hold; exact ⟨l, rfl⟩
      have hle := UInt64.le_iff_toNat_le.1 (front_le h.shape.ordered hl (List.mem_of_mem_erase hqmem))
      rcases h.front d hd p hold (fun k hk => lt_of_le_of_lt hle (hlate k hk)) with hb | ht' | ⟨t', fresh, ht'⟩
      · exact .inl hb
      · exact .inr (.inl ht')
      · have hadds := h.adds t'
        rw [ht'] at hadds
        have hfresh : (s.pc t').fresh = some p := by
          rw [ht']
          cases fresh
          · cases hadds
          · rfl
        simp [(h.shape.fresh t' p hfresh).2] at hpc
  · exact h
  · exact h

theorem Inv.getNextTimer {w : ℕ} {s : Sys} (h : Inv w s) (hfit : TimeoutFits s (.getNextTimer w)) :
    Inv w (step s (.getNextTimer w)) := by
  have hshape := step_shape s (.getNextTimer w) h.shape
  have hget := (TimerManager.getNextTimer_spec s.mgr s.clock).1
  simp only [step] at hshape ⊢
  split_ifs at hshape ⊢ with hpc
  · refine ⟨hshape, inReset_update h.adds rfl, ?_, fun d _ ht => ?_, fun d hd q hq hlate => ?_⟩
    · exact h.idle.trans (by rw [Sys.setPc, inIdle_update (by rw [hpc]; rfl)])
    · change (s.mgr.getNextTimer s.clock).2.tickled = true at ht
      rw [hget] at ht
      cases ht
    · change q ∈ (s.mgr.getNextTimer s.clock).2.timers.head? at hq
      change Late d ((s.mgr.getNextTimer s.clock).2.heap q).next.toNat at hlate
      rw [setPc_self] at hd
      rw [hget] at hq hlate
      exact absurd hlate (getNextTimer_deadline (hfit rfl) hq hd)
  · exact h

theorem step_inv (w : ℕ) (s : Sys) (o : Op) (h : Inv w s) (hok : WaiterRun w s o ∧ TimeoutFits s o) :
    Inv w (step s o) := by
  have hshape := step_shape s o h.shape
  obtain ⟨hrun, hfit⟩ := hok
  cases o with
  | clock c => exact ⟨hshape, h.adds, h.idle, h.tickled, h.front⟩
  | insert t => exact h.insert t
  | check t dangling => exact h.check t dangling
  | flag t => exact h.flag t
  | tickle t => exact h.tickle t
  | cancel t p => exact h.cancel t p
  | refresh => cases hrun
  | reset => cases hrun
  | resetErase => cases hrun
  | resetStart => cases hrun
  | resetWrite => cases hrun
  | addTimer t p ms cb recurring =>
    simp only [step] at hshape ⊢
    split_ifs at hshape ⊢ with hpc
    · refine h.move hshape rfl (by rw [hpc.1]; rfl) rfl ?_ (fun d hd => by cases hd) rfl (fun q hq => ?_) rfl
      · exact h.idle.trans (by rw [Sys.setPc, inIdle_update (by rw [arm_pc, hpc.1]; rfl)]; rfl)
      · have hqp : q ≠ p := by
          rintro rfl
          simp [h.shape.timers q (List.mem_of_mem_head? hq)] at hpc
        refine ⟨hq, ?_, rfl⟩
        change ((s.mgr.setTimer p _).heap q).next = _
        rw [TimerManager.setTimer_other _ _ hqp]
    · exact h
  | getNextTimer t =>
    obtain rfl : t = w := eq_of_beq hrun
    exact h.getNextTimer hfit
  | list t =>
    obtain rfl : t = w := eq_of_beq hrun
    simp only [step] at hshape ⊢
    split_ifs at hshape ⊢ with hout hwoken
    · exact .awake hshape (inReset_update h.adds rfl)
        (h.idle.trans (by rw [Sys.setPc, inIdle_update (by rw [hout]; rfl)])) (by rw [setPc_self]; rfl)
    · exact .awake hshape (inReset_update h.adds rfl)
        (h.idle.trans (by rw [Sys.setPc, inIdle_update (by rw [hwoken]; rfl)])) (by rw [setPc_self]; rfl)
    · exact h
  | listEmpty t =>
    obtain rfl : t = w := eq_of_beq hrun
    simp only [step] at hshape ⊢
    split at hshape
    · rename_i now_ms idle hpc
      split_ifs at hshape ⊢
      · exact .awake hshape (inReset_update h.adds (by cases idle <;> rfl))
          (h.idle.trans (by rw [Sys.setPc, inIdle_update (by rw [hpc]; cases idle <;> rfl)]))
          (by rw [setPc_self]; cases idle <;> rfl)
      · exact .awake hshape (inReset_update h.adds rfl)
          (h.idle.trans (by rw [Sys.setPc, inIdle_update (by rw [hpc]; rfl)])) (by rw [setPc_self]; rfl)
    · exact h
  | listExpired t q =>
    obtain rfl : t = w := eq_of_beq hrun
    simp only [step] at hshape ⊢
    split at hshape
    · rename_i now_ms idle hpc
      split_ifs at hshape ⊢
      · exact .awake hshape (inReset_update h.adds (by cases idle <;> rfl))
          (h.idle.trans (by rw [Sys.setPc, inIdle_update (by rw [rearm_pc, hpc]; cases idle <;> rfl)]; rfl))
          (by rw [setPc_self]; cases idle <;> rfl)
      · exact h
    · exact h
  | enterIdle t =>
    obtain rfl : t = w := eq_of_beq hrun
    simp only [step] at hshape ⊢
    split_ifs at hshape ⊢ with hpc
    · refine .awake hshape (inReset_update h.adds rfl) ?_ (by rw [setPc_self]; rfl)
      have hcount := h.idle
      rw [hpc] at hcount
      rw [setPc_self]
      exact congrArg (· + 1) hcount
    · exact h
  | epollWait t =>
    obtain rfl : t = w := eq_of_beq hrun
    simp only [step] at hshape ⊢
    split at hshape
    · rename_i timeout now_ms hpc
      by_cases hzero : timeout = 0
      · rw [if_pos hzero] at hshape ⊢
        exact .awake hshape (inReset_update h.adds rfl)
          (h.idle.trans (by rw [Sys.setPc, inIdle_update (by rw [hpc]; rfl)])) (by rw [setPc_self]; rfl)
      · rw [if_neg hzero] at hshape ⊢
        refine h.move hshape rfl (by rw [hpc]; rfl) rfl ?_ (fun d hd => ?_) rfl (fun q hq => ⟨hq, rfl, rfl⟩) rfl
        · exact h.idle.trans (by rw [Sys.setPc, inIdle_update (by rw [hpc]; rfl)])
        · rw [hpc]
          simp only [deadline] at hd ⊢
          rw [if_neg hzero]
          exact hd
    · exact h
  | wake t =>
    obtain rfl : t = w := eq_of_beq hrun
    simp only [step] at hshape ⊢
    split at hshape
    · rename_i d hpc
      exact .awake hshape (inReset_update h.adds rfl)
        (h.idle.trans (by rw [Sys.setPc, inIdle_update (by rw [hpc]; rfl)])) (by rw [setPc_self]; rfl)
    · exact h
  | drain t =>
    obtain rfl : t = w := eq_of_beq hrun
    simp only [step] at hshape ⊢
    split_ifs at hshape ⊢ with hpc
    · exact .awake hshape h.adds h.idle (by change deadline (s.pc t) = none; rw [hpc]; rfl)
    · exact h
  | leaveIdle t =>
    obtain rfl : t = w := eq_of_beq hrun
    simp only [step] at hshape ⊢
    split_ifs at hshape ⊢ with hpc
    · refine .awake hshape (inReset_update h.adds rfl) ?_ (by rw [setPc_self]; rfl)
      have hcount := h.idle
      rw [hpc] at hcount
      rw [setPc_self]
      exact congrArg (· - 1) hcount
    · exact h

/-! ## Main results -/

/-- with no addTimer on its way, a blocked waiter has a byte waiting, or a deadline that no timer in the set precedes -/
def Awakes (w : ℕ) (s : Sys) : Prop :=
  (∀ t, adding (s.pc t) = false) → ∀ d, s.pc w = .blocked d →
    0 < s.bytes ∨ ∀ q ∈ s.mgr.timers, ∃ k, d = some k ∧ k ≤ (s.mgr.heap q).next.toNat

theorem Inv.awakes {w : ℕ} {s : Sys} (h : Inv w s) : Awakes w s := by
  intro hadd d hpc
  by_cases hbytes : 0 < s.bytes
  · exact .inl hbytes
  right
  intro q hq
  cases htimers : s.mgr.timers with
  | nil => rw [htimers] at hq; cases hq
  | cons p l =>
    have hle := UInt64.le_iff_toNat_le.1 (front_le h.shape.ordered htimers hq)
    have hp : p ∈ s.mgr.timers.head? := by rw [htimers]; rfl
    have hlate : ¬ Late d (s.mgr.heap p).next.toNat := by
      intro hlate
      rcases h.front d (by rw [hpc]; rfl) p hp hlate with hb | ⟨t, ht⟩ | ⟨t, fresh, ht⟩
      · exact hbytes hb
      · exact absurd (alarming_adding ht) (by simp [hadd t])
      · have := hadd t
        rw [ht] at this
        cases this
    simp only [Late, not_forall, not_lt] at hlate
    obtain ⟨k, hk, hkle⟩ := hlate
    exact ⟨k, hk, hkle.trans hle⟩

/-- **No lost wakeup for timers.** In a run of adding and cancelling threads with one waiter, in which each timeout
keeps its value as an int, the waiter is never left asleep over an earlier timer. -/
theorem no_lost_wakeup (w : ℕ) (c : UInt64) (ops : List Op) (hrun : Guarded step (WaiterRun w) (init c) ops)
    (hfit : Guarded step TimeoutFits (init c) ops) : ∀ pre, pre <+: ops → Awakes w (run step (init c) pre) := by
  intro pre hpre
  exact (states_inv (step_inv w) (inv_init w c) (guarded_and.2 ⟨hrun, hfit⟩) pre hpre).awakes

/-- thread 0 waits for a timer of 2 s; thread 1 puts one of 500 ms in front of it -/
def frontTrace : List Op :=
  [.addTimer 1 7 2000 (some 0) false, .insert 1, .check 1 false, .flag 1, .tickle 1, .enterIdle 0, .getNextTimer 0,
    .epollWait 0, .addTimer 1 8 500 (some 1) true, .insert 1, .check 1 false, .flag 1, .tickle 1, .cancel 1 8]

theorem no_lost_wakeup_example : Awakes 0 (run step (init 1000) frontTrace) :=
  no_lost_wakeup 0 1000 frontTrace (by decide) (by decide) _ (List.prefix_refl _)

/-- the only timer has a delay of 2^32 - 1 ms -/
def longDelayTrace : List Op :=
  [.addTimer 1 7 4294967295 (some 0) false, .insert 1, .check 1 false, .flag 1, .tickle 1, .enterIdle 0,
    .getNextTimer 0, .epollWait 0]

/-- **A sleep without end.** The timeout becomes -1: the waiter is blocked without a deadline, no byte is on its way, and
a timer is in the set. -/
theorem sleeps_forever :
    let s := run step (init 1000) longDelayTrace
    ¬ Awakes 0 s ∧ s.pc 0 = .blocked none ∧ s.bytes = 0 ∧ 7 ∈ s.mgr.timers := by
  have hpc : (run step (init 1000) longDelayTrace).pc 0 = .blocked none := by decide
  have hbytes : (run step (init 1000) longDelayTrace).bytes = 0 := by decide
  have hmem : 7 ∈ (run step (init 1000) longDelayTrace).mgr.timers := by decide
  refine ⟨fun h => ?_, hpc, hbytes, hmem⟩
  have hadd : ∀ t, adding ((run step (init 1000) longDelayTrace).pc t) = false := by
    intro t
    by_cases h0 : t = 0
    · subst h0; rw [hpc]; rfl
    · by_cases h1 : t = 1
      · subst h1; decide
      · rw [run_other _ _ t (by simp [longDelayTrace, Op.thread, Ne.symm h0, Ne.symm h1])]; rfl
  rcases h hadd none hpc with hb | hq
  · omega
  · obtain ⟨k, hk, -⟩ := hq 7 hmem
    cases hk

end Sylar.Timers.Wakeup

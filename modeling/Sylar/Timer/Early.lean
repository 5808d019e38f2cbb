/-
When a timer fires: `m_next` against the reading the timer was armed with.

A timer is due when `m_next` is not in the future, and all timers are returned when detectClockRollover says that the
clock has been set back. Both can be wrong: `m_next` is a sum of two 64-bit numbers, and the reading that the rollover
test compares with, `m_previouseTime`, is as old as the last expiry on a non-empty set.

Results:
- `step_inv`: `m_next` is the arming reading plus the delay, as long as no such sum leaves 64 bits;
- `never_early`: with that, and with `m_previouseTime` an hour or more and not older than the arming of any timer that
  a rollover makes fire, each callback returned is due, or the clock has gone back by more than an hour;
- `fires_early`: a delay near 2^64 fires at once, and so does a timer armed after the clock was set back.
-/
import Sylar.Timer.System

namespace Sylar.Timers.Early

open Sylar.Run

/-! ## The condition -/

/-- a callback that is due, or whose timer has seen the clock go back by more than an hour since it was armed -/
def Punctual (f : Fire) : Prop :=
  f.armed.toNat + f.ms.toNat ≤ f.now.toNat ∨ f.now.toNat + 3600000 < f.peak.toNat

instance (f : Fire) : Decidable (Punctual f) := inferInstanceAs (Decidable (_ ∨ _))

def AllPunctual (s : Sys) : Prop := ∀ e ∈ s.log, ∀ fires, e = .listed fires → ∀ f ∈ fires, Punctual f

/-- the sums `start + m_ms` that a step computes, as they are before 64 bits cut them -/
def arms (s : Sys) : Op → List ℕ
  | .addTimer t p ms _ _ => if s.pc t = .out ∧ s.used p = false then [s.clock.toNat + ms.toNat] else []
  | .refresh t p =>
    if s.pc t = .out ∧ s.handles p = true ∧ (s.mgr.refresh p s.clock).1 = true then
      [s.clock.toNat + (s.mgr.heap p).ms.toNat]
    else []
  | .resetWrite t =>
    match s.pc t with
    | .resetStarted _ ms start => [start.toNat + ms.toNat]
    | _ => []
  | .listExpired t q =>
    match s.pc t with
    | .listingLocked now_ms _ =>
      if s.used q = false then
        (s.mgr.listExpired now_ms q).1.filterMap fun c =>
          if (s.mgr.heap c.1).recurring then some (now_ms.toNat + (s.mgr.heap c.1).ms.toNat) else none
      else []
    | _ => []
  | _ => []

/-- what a rollover verdict on a timer that is not due is based on: an hour can be taken from `m_previouseTime`, and
the timer was armed early enough to see the clock there -/
def FreshFor (s : Sys) (p : ℕ) : Pc → Prop
  | .listingLocked now_ms _ => s.mgr.rollover now_ms = true → now_ms < (s.mgr.heap p).next →
      3600000 ≤ s.mgr.previouseTime.toNat ∧ s.mgr.previouseTime ≤ s.peak p
  | _ => True

def RolloverFresh (s : Sys) : Op → Prop
  | .listExpired t _ => ∀ p ∈ s.mgr.timers, FreshFor s p (s.pc t)
  | _ => True

/-- the condition of a run: no armed time leaves 64 bits, and rollovers are told from fresh readings -/
def ArmsInRange (s : Sys) (o : Op) : Prop := (∀ a ∈ arms s o, a < UInt64.size) ∧ RolloverFresh s o

instance (s : Sys) (p : ℕ) (x : Pc) : Decidable (FreshFor s p x) := by
  cases x <;> dsimp only [FreshFor] <;> infer_instance

instance (s : Sys) (o : Op) : Decidable (RolloverFresh s o) := by
  cases o <;> dsimp only [RolloverFresh] <;> infer_instance

instance (s : Sys) (o : Op) : Decidable (ArmsInRange s o) := inferInstanceAs (Decidable (_ ∧ _))

/-! ## The invariant -/

def OnTime (s : Sys) (p : ℕ) : Prop :=
  (s.mgr.heap p).next.toNat = (s.armed p).toNat + (s.mgr.heap p).ms.toNat

/-- the timer a thread holds outside the set with `m_next` in place -/
def armedTimer : Pc → Option ℕ
  | .inserting p _ | .resetErased p _ _ => some p
  | _ => none

def Held (s : Sys) (p : ℕ) : Prop := p ∈ s.mgr.timers ∨ ∃ t, armedTimer (s.pc t) = some p

structure Inv (s : Sys) : Prop where
  shape : s.Shape
  onTime : ∀ p, Held s p → OnTime s p
  start : ∀ t p ms start, s.pc t = .resetStarted p ms start → s.armed p = start
  log : AllPunctual s

theorem inv_init (c : UInt64) : Inv (init c) := by
  refine ⟨init_shape c, fun p hp => ?_, fun t p ms start hpc => ?_, fun e he => ?_⟩
  · rcases hp with hp | ⟨t, ht⟩
    · cases hp
    · cases ht
  · cases hpc
  · cases he

theorem armedTimer_owns {x : Pc} {p : ℕ} (h : armedTimer x = some p) : x.owns = some p := by
  cases x <;> first | exact h | cases h

/-- a step that concerns the timers in `T` only: the others keep their times, and nobody new holds them -/
theorem Inv.keep {s s' : Sys} (h : Inv s) (T : ℕ → Prop) (hshape : s'.Shape)
    (hsame : ∀ p, ¬ T p → (s'.mgr.heap p).next = (s.mgr.heap p).next ∧ (s'.mgr.heap p).ms = (s.mgr.heap p).ms ∧
      s'.armed p = s.armed p)
    (hheld : ∀ p, ¬ T p → Held s' p → Held s p) (hnew : ∀ p, T p → Held s' p → OnTime s' p)
    (hstart : ∀ t p ms start, s'.pc t = .resetStarted p ms start →
      ¬ T p ∧ s.pc t = .resetStarted p ms start ∨ s'.armed p = start)
    (hlog : AllPunctual s') : Inv s' := by
  refine ⟨hshape, fun p hp => ?_, fun t p ms start hpc => ?_, hlog⟩
  · by_cases hT : T p
    · exact hnew p hT hp
    · obtain ⟨hnext, hms, harmed⟩ := hsame p hT
      rw [OnTime, hnext, hms, harmed]
      exact h.onTime p (hheld p hT hp)
  · rcases hstart t p ms start hpc with ⟨hT, hold⟩ | harmed
    · rw [(hsame p hT).2.2]
      exact h.start t p ms start hold
    · exact harmed

/-- what a thread that moves holds -/
theorem held_update {s s' : Sys} {t : ℕ} {x : Pc} (hpc : s'.pc = Function.update s.pc t x)
    (htimers : ∀ p ∈ s'.mgr.timers, Held s p) (hx : ∀ p, armedTimer x = some p → Held s p) (p : ℕ) (hp : Held s' p) :
    Held s p := by
  rcases hp with hp | ⟨t', ht'⟩
  · exact htimers p hp
  · rw [hpc] at ht'
    rcases of_update ht' with ⟨-, h⟩ | ⟨-, h⟩
    · exact hx p h
    · exact .inr ⟨t', h⟩

/-- a step that moves thread `t` and leaves the times alone -/
theorem Inv.move {s s' : Sys} (h : Inv s) {t : ℕ} {x : Pc} (hshape : s'.Shape)
    (hpc : s'.pc = Function.update s.pc t x) (hx : armedTimer x = none) (hstart : ∀ p ms start, x ≠ .resetStarted p ms start)
    (hheap : s'.mgr.heap = s.mgr.heap) (htimers : ∀ p ∈ s'.mgr.timers, Held s p) (harmed : s'.armed = s.armed)
    (hlog : s'.log = s.log) : Inv s' := by
  refine h.keep (fun _ => False) hshape (fun p _ => by rw [hheap, harmed]; exact ⟨rfl, rfl, rfl⟩)
    (fun p _ => held_update hpc htimers (by simp [hx]) p) (fun p hT => hT.elim) (fun t' p ms start ht' => .inl ⟨id, ?_⟩) ?_
  · rw [hpc] at ht'
    by_cases ht : t' = t
    · subst ht; simp only [Function.update_self] at ht'; exact absurd ht' (hstart p ms start)
    · rwa [Function.update_of_ne ht] at ht'
  · rw [AllPunctual, hlog]; exact h.log

/-! ## The steps -/

theorem Inv.make {s : Sys} (h : Inv s) {t p : ℕ} {ms : UInt64} {cb : Option ℕ} {recurring : Bool}
    (hpc : s.pc t = .out) (hp : s.used p = false) (hms : s.clock.toNat + ms.toNat < UInt64.size) :
    Inv (step s (.addTimer t p ms cb recurring)) := by
  have hshape := step_shape s (.addTimer t p ms cb recurring) h.shape
  have hstep : step s (.addTimer t p ms cb recurring) = ({ s with
      mgr := s.mgr.setTimer p ⟨recurring, ms, s.clock + ms, cb⟩
      used := Function.update s.used p true }.arm p s.clock).setPc t (.inserting p true) := by
    simp [step, hpc, hp]
  rw [hstep] at hshape ⊢
  have hnot : ¬ Held s p := by
    rintro (hmem | ⟨t', ht'⟩)
    · simp [h.shape.timers p hmem] at hp
    · exact (h.shape.unused_owns hp t').1 (armedTimer_owns ht')
  refine h.keep (· = p) hshape (fun q hq => ?_) (fun q hq hheld => ?_) (fun q hq _ => ?_) (fun t' q ms' start ht' => ?_) h.log
  · change _ = _ ∧ _ = _ ∧ Function.update s.armed p s.clock q = _
    rw [Function.update_of_ne hq]
    change ((s.mgr.setTimer p _).heap q).next = _ ∧ ((s.mgr.setTimer p _).heap q).ms = _ ∧ _
    rw [TimerManager.setTimer_other _ _ hq]
    exact ⟨rfl, rfl, rfl⟩
  · rcases hheld with hmem | ⟨t', ht'⟩
    · exact .inl hmem
    · rcases of_update ht' with ⟨-, hx⟩ | ⟨-, hx⟩
      · cases hx; exact absurd rfl hq
      · exact .inr ⟨t', hx⟩
  · subst hq
    change ((s.mgr.setTimer q _).heap q).next.toNat = (Function.update s.armed q s.clock q).toNat +
      ((s.mgr.setTimer q _).heap q).ms.toNat
    rw [Function.update_self, TimerManager.setTimer_self, UInt64.toNat_add]
    exact Nat.mod_eq_of_lt hms
  · by_cases ht : t' = t
    · subst ht; simp [Sys.setPc] at ht'
    · rw [setPc_other _ _ ht] at ht'
      have hqp : q ≠ p := by
        rintro rfl
        exact (h.shape.unused_owns hp t').1 (by rw [show s.pc t' = _ from ht']; rfl)
      exact .inl ⟨hqp, ht'⟩

theorem Inv.refresh {s : Sys} (h : Inv s) {t p : ℕ} (hok : ∀ a ∈ arms s (.refresh t p), a < UInt64.size) :
    Inv (step s (.refresh t p)) := by
  have hshape := step_shape s (.refresh t p) h.shape
  simp only [step] at hshape ⊢
  split_ifs at hshape ⊢ with hpc hdone
  · have hms := hok (s.clock.toNat + (s.mgr.heap p).ms.toNat) (by simp [arms, hpc, hdone])
    obtain ⟨hcb, hp⟩ := (TimerManager.refresh_done h.shape.ordered).1 hdone
    obtain ⟨-, -, hheap, hmem, -⟩ := @TimerManager.refresh_spec s.mgr h.shape.ordered p s.clock hcb hp
    refine h.keep (· = p) hshape (fun q hq => ?_) (fun q _ hheld => ?_) (fun q hq _ => ?_) (fun t' q ms start ht' => ?_)
      h.log
    · change ((s.mgr.refresh p s.clock).2.heap q).next = _ ∧ ((s.mgr.refresh p s.clock).2.heap q).ms = _ ∧
        Function.update s.armed p s.clock q = _
      rw [hheap, Function.update_of_ne hq, Function.update_of_ne hq]
      exact ⟨rfl, rfl, rfl⟩
    · exact hheld.imp (hmem q).1 id
    · subst hq
      change ((s.mgr.refresh q s.clock).2.heap q).next.toNat = (Function.update s.armed q s.clock q).toNat +
        ((s.mgr.refresh q s.clock).2.heap q).ms.toNat
      rw [hheap, Function.update_self, Function.update_self, UInt64.toNat_add]
      exact Nat.mod_eq_of_lt hms
    · -- a timer in the set is in no reset
      refine .inl ⟨?_, ht'⟩
      rintro rfl
      exact h.shape.owned t' q (by rw [show s.pc t' = _ from ht']; rfl) hp
  · exact h
  · exact h

/-- reset has the timer for itself while it computes the new time -/
theorem Inv.resetStart {s : Sys} (h : Inv s) (t : ℕ) : Inv (step s (.resetStart t)) := by
  have hshape := step_shape s (.resetStart t) h.shape
  simp only [step] at hshape ⊢
  split at hshape
  · rename_i p ms from_now hpc
    have hown : (s.pc t).owns = some p := by rw [hpc]; rfl
    have htime : OnTime s p := h.onTime p (.inr ⟨t, by rw [hpc]; rfl⟩)
    have hx : ∀ q, armedTimer (.resetStarted p ms (s.mgr.resetStart p from_now s.clock)) = some q → Held s q :=
      fun q hq => by cases hq
    -- the reading the new time starts from
    have harmed : (if from_now then s.arm p s.clock else s).armed p = s.mgr.resetStart p from_now s.clock := by
      cases from_now with
      | true => simp [Sys.arm, TimerManager.resetStart]
      | false =>
        rw [OnTime] at htime
        simp only [TimerManager.resetStart, Bool.false_eq_true, ite_false]
        rw [← UInt64.toNat_inj, UInt64.toNat_sub_of_le _ _ (by rw [UInt64.le_iff_toNat_le]; omega)]
        omega
    have hmgr : (if from_now then s.arm p s.clock else s).mgr = s.mgr := by split_ifs <;> rfl
    have hpcs : (if from_now then s.arm p s.clock else s).pc = s.pc := by split_ifs <;> rfl
    have hlog : (if from_now then s.arm p s.clock else s).log = s.log := by split_ifs <;> rfl
    have hother : ∀ q, q ≠ p → (if from_now then s.arm p s.clock else s).armed q = s.armed q := by
      intro q hq
      split_ifs
      · exact Function.update_of_ne hq _ _
      · rfl
    generalize (if from_now then s.arm p s.clock else s) = s1 at *
    refine h.keep (· = p) hshape (fun q hq => ?_) (fun q _ => ?_) (fun q hq hheld => ?_) (fun t' q ms' start ht' => ?_) ?_
    · change (s1.mgr.heap q).next = _ ∧ (s1.mgr.heap q).ms = _ ∧ s1.armed q = _
      rw [hmgr, hother q hq]
      exact ⟨rfl, rfl, rfl⟩
    · refine held_update (by rw [Sys.setPc, hpcs]) (fun r hr => .inl ?_) hx q
      rwa [Sys.setPc, hmgr] at hr
    · subst hq
      exfalso
      rcases hheld with hmem | ⟨t', ht'⟩
      · rw [Sys.setPc, hmgr] at hmem
        exact h.shape.owned t q hown hmem
      · rw [Sys.setPc, hpcs] at ht'
        rcases of_update ht' with ⟨-, hx'⟩ | ⟨ht, hx'⟩
        · cases hx'
        · exact ht (h.shape.owner t' t q (armedTimer_owns hx') hown)
    · by_cases ht : t' = t
      · subst ht
        rw [setPc_self] at ht'
        cases ht'
        exact .inr harmed
      · rw [setPc_other _ _ ht, hpcs] at ht'
        refine .inl ⟨?_, ht'⟩
        rintro rfl
        exact ht (h.shape.owner t' t q (by rw [ht']; rfl) hown)
    · rw [AllPunctual, Sys.setPc, hlog]; exact h.log
  · exact h

theorem Inv.resetWrite {s : Sys} (h : Inv s) {t : ℕ}
    (hok : ∀ a ∈ arms s (.resetWrite t), a < UInt64.size) : Inv (step s (.resetWrite t)) := by
  have hshape := step_shape s (.resetWrite t) h.shape
  simp only [step] at hshape ⊢
  split at hshape
  · rename_i p ms start hpc
    have hms := hok (start.toNat + ms.toNat) (by simp [arms, hpc])
    have hown : (s.pc t).owns = some p := by rw [hpc]; rfl
    have harmed := h.start t p ms start hpc
    refine h.keep (· = p) hshape (fun q hq => ?_) (fun q hq hheld => ?_) (fun q hq _ => ?_) (fun t' q ms' start' ht' => ?_)
      h.log
    · change ((s.mgr.resetWrite p ms start).heap q).next = _ ∧ ((s.mgr.resetWrite p ms start).heap q).ms = _ ∧ _
      rw [TimerManager.resetWrite, TimerManager.setTimer_other _ _ hq]
      exact ⟨rfl, rfl, rfl⟩
    · rcases hheld with hmem | ⟨t', ht'⟩
      · exact .inl hmem
      · rcases of_update ht' with ⟨-, hx⟩ | ⟨-, hx⟩
        · cases hx; exact absurd rfl hq
        · exact .inr ⟨t', hx⟩
    · subst hq
      change ((s.mgr.resetWrite q ms start).heap q).next.toNat = (s.armed q).toNat +
        ((s.mgr.resetWrite q ms start).heap q).ms.toNat
      rw [TimerManager.resetWrite, TimerManager.setTimer_self, harmed, UInt64.toNat_add]
      exact Nat.mod_eq_of_lt hms
    · by_cases ht : t' = t
      · subst ht; simp [Sys.setPc] at ht'
      · rw [setPc_other _ _ ht] at ht'
        refine .inl ⟨?_, ht'⟩
        rintro rfl
        exact ht (h.shape.owner t' t q (by rw [show s.pc t' = _ from ht']; rfl) hown)
  · exact h

/-- a rollover verdict from a fresh reading: the clock has gone back by more than an hour -/
theorem rollover_gap {m : TimerManager} {now_ms peak : UInt64} (h : m.rollover now_ms = true)
    (hhour : 3600000 ≤ m.previouseTime.toNat) (hpeak : m.previouseTime ≤ peak) :
    now_ms.toNat + 3600000 < peak.toNat := by
  simp only [TimerManager.rollover, Bool.and_eq_true, decide_eq_true_eq, UInt64.lt_iff_toNat_lt] at h
  rw [UInt64.le_iff_toNat_le] at hpeak
  have hsub : (m.previouseTime - 60 * 60 * 1000).toNat = m.previouseTime.toNat - 3600000 :=
    UInt64.toNat_sub_of_le _ _ (by rw [UInt64.le_iff_toNat_le]; exact hhour)
  omega

theorem Inv.list {s : Sys} (h : Inv s) {t q : ℕ} (hok : ArmsInRange s (.listExpired t q)) :
    Inv (step s (.listExpired t q)) := by
  have hshape := step_shape s (.listExpired t q) h.shape
  obtain ⟨hms, hfresh⟩ := hok
  simp only [step] at hshape ⊢
  simp only [arms] at hms
  split at hshape
  · rename_i now_ms idle hpc
    simp only [hpc] at hms
    split_ifs at hshape ⊢ with hq
    · rw [if_pos hq] at hms
      have hnot : q ∉ s.mgr.timers := fun hmem => by simp [h.shape.timers q hmem] at hq
      obtain ⟨expired, rest, happ, hexp, hdue, -⟩ := TimerManager.listExpired_spec h.shape.ordered now_ms hnot
      have hin : ∀ p ∈ expired, p ∈ s.mgr.timers := fun p hp => by rw [← happ]; exact List.mem_append_left _ hp
      have hfst : (s.mgr.listExpired now_ms q).1.map Prod.fst = expired := by rw [hexp.cbs]; simp [Function.comp_def]
      have hagain : ∀ p, (s.rearm now_ms (s.mgr.listExpired now_ms q).1).armed p =
          if p ∈ expired ∧ (s.mgr.heap p).recurring = true then now_ms else s.armed p := by
        intro p; simp only [Sys.rearm, hfst]
      have hpunctual : ∀ f ∈ s.fires now_ms (s.mgr.listExpired now_ms q).1, Punctual f := by
        intro f hf
        rw [hexp.cbs] at hf
        simp only [Sys.fires, List.map_map, List.mem_map, Function.comp_apply] at hf
        obtain ⟨p, hp, rfl⟩ := hf
        have htime := h.onTime p (.inl (hin p hp))
        rw [OnTime] at htime
        by_cases hnext : (s.mgr.heap p).next ≤ now_ms
        · left
          rw [UInt64.le_iff_toNat_le] at hnext
          exact htime ▸ hnext
        · right
          have hroll := (hdue p hp).resolve_left hnext
          have hpfresh := hfresh p (hin p hp)
          rw [hpc] at hpfresh
          obtain ⟨hhour, hpeak⟩ := hpfresh hroll (UInt64.not_le.1 hnext)
          exact rollover_gap hroll hhour hpeak
      refine h.keep (· ∈ expired) hshape (fun p hp => ?_) (fun p _ => ?_) (fun p hp hheld => ?_)
        (fun t' p ms start ht' => ?_) ?_
      · change ((s.mgr.listExpired now_ms q).2.heap p).next = _ ∧ ((s.mgr.listExpired now_ms q).2.heap p).ms = _ ∧
          (s.rearm now_ms (s.mgr.listExpired now_ms q).1).armed p = _
        rw [hexp.heap, if_neg hp, hagain, if_neg (fun hh => hp hh.1)]
        exact ⟨rfl, rfl, rfl⟩
      · refine held_update (t := t) (x := afterList idle) rfl (fun p hp => .inl ?_)
          (fun p hp => by cases idle <;> cases hp) p
        rw [← happ, List.mem_append]
        exact ((hexp.mem p).1 hp).elim .inr fun hp => .inl hp.1
      · -- a timer that fired and is held is a recurring one, armed again
        have hrec : (s.mgr.heap p).recurring = true := by
          rcases hheld with hmem | ⟨t', ht'⟩
          · rcases (hexp.mem p).1 hmem with hrest | ⟨-, hr⟩
            · have hnodup : (expired ++ rest).Nodup := happ ▸ OrderedSet.Sorted.nodup h.shape.ordered
              exact absurd rfl ((List.nodup_append.1 hnodup).2.2 p hp p hrest)
            · exact hr
          · rcases of_update ht' with ⟨-, hx⟩ | ⟨-, hx⟩
            · cases idle <;> cases hx
            · exact absurd (hin p hp) (h.shape.owned t' p (armedTimer_owns hx))
        have hsum := hms (now_ms.toNat + (s.mgr.heap p).ms.toNat) (by
          rw [List.mem_filterMap]
          exact ⟨(p, (s.mgr.heap p).cb), by rw [hexp.cbs]; exact List.mem_map_of_mem hp, by simp [hrec]⟩)
        change ((s.mgr.listExpired now_ms q).2.heap p).next.toNat =
          ((s.rearm now_ms (s.mgr.listExpired now_ms q).1).armed p).toNat +
            ((s.mgr.listExpired now_ms q).2.heap p).ms.toNat
        rw [hexp.heap, if_pos hp, hagain, if_pos ⟨hp, hrec⟩, TimerManager.rearmed, if_pos hrec, UInt64.toNat_add]
        exact Nat.mod_eq_of_lt hsum
      · by_cases ht : t' = t
        · subst ht; rw [setPc_self] at ht'; cases idle <;> cases ht'
        · rw [setPc_other _ _ ht] at ht'
          exact .inl ⟨fun hp => h.shape.owned t' p (by rw [show s.pc t' = _ from ht']; rfl) (hin p hp), ht'⟩
      · intro e he fires hfires f hf
        rcases List.mem_append.1 he with he | he
        · exact h.log e he fires hfires f hf
        · rw [List.mem_singleton.1 he] at hfires
          cases hfires
          exact hpunctual f hf
    · exact h
  · exact h

theorem Inv.cancel {s : Sys} (h : Inv s) (t p : ℕ) : Inv (step s (.cancel t p)) := by
  have hshape := step_shape s (.cancel t p) h.shape
  simp only [step] at hshape ⊢
  split_ifs at hshape ⊢ with hpc hdone
  · obtain ⟨-, -, hheap, hmem, -⟩ := TimerManager.cancel_spec h.shape.ordered (TimerManager.cancel_done.1 hdone)
    refine h.keep (fun _ => False) hshape (fun q _ => ?_) (fun q _ hheld => ?_) (fun q hq => hq.elim)
      (fun t' q ms start ht' => .inl ⟨id, ht'⟩) ?_
    · change ((s.mgr.cancel p).2.heap q).next = _ ∧ ((s.mgr.cancel p).2.heap q).ms = _ ∧ _
      rw [hheap]
      exact ⟨TimerManager.update_field Timer.next (by rfl) q, TimerManager.update_field Timer.ms (by rfl) q, rfl⟩
    · exact hheld.imp (fun hq => ((hmem q).1 hq).1) id
    · intro e he fires hfires f hf
      rcases List.mem_append.1 he with he | he
      · exact h.log e he fires hfires f hf
      · rw [List.mem_singleton.1 he] at hfires
        cases hfires
  · exact h
  · exact h

theorem step_inv (s : Sys) (o : Op) (h : Inv s) (hok : ArmsInRange s o) : Inv (step s o) := by
  have hshape := step_shape s o h.shape
  have hstay : ∀ p ∈ s.mgr.timers, Held s p := fun _ hp => .inl hp
  cases o with
  | clock c =>
    exact h.keep (fun _ => False) hshape (fun _ _ => ⟨rfl, rfl, rfl⟩) (fun _ _ hp => hp) (fun _ hp => hp.elim)
      (fun _ _ _ _ hpc => .inl ⟨id, hpc⟩) h.log
  | addTimer t p ms cb recurring =>
    by_cases hpc : s.pc t = .out ∧ s.used p = false
    · exact h.make hpc.1 hpc.2 (hok.1 (s.clock.toNat + ms.toNat) (by simp [arms, hpc]))
    · rwa [step, if_neg hpc]
  | cancel t p => exact h.cancel t p
  | refresh t p => exact h.refresh hok.1
  | resetStart t => exact h.resetStart t
  | resetWrite t => exact h.resetWrite hok.1
  | listExpired t q => exact h.list hok
  | insert t =>
    simp only [step] at hshape ⊢
    split at hshape
    · rename_i p fresh hpc
      have hown : (s.pc t).owns = some p := by rw [hpc]; rfl
      obtain ⟨-, hmem⟩ := TimerManager.insert_spec h.shape.ordered (h.shape.owned t p hown)
      refine h.move hshape rfl rfl (fun _ _ _ => Pc.noConfusion) rfl (fun q hq => ?_) rfl rfl
      rcases (hmem q).1 hq with rfl | hq
      · exact .inr ⟨t, by rw [hpc]; rfl⟩
      · exact .inl hq
    · exact h
  | check t dangling =>
    simp only [step] at hshape ⊢
    split at hshape
    · split_ifs at hshape ⊢ <;> exact h.move hshape rfl rfl (fun _ _ _ => Pc.noConfusion) rfl hstay rfl rfl
    · exact h
  | flag t =>
    simp only [step] at hshape ⊢
    split at hshape
    · exact h.move hshape rfl rfl (fun _ _ _ => Pc.noConfusion) rfl hstay rfl rfl
    · exact h
  | tickle t =>
    simp only [step] at hshape ⊢
    split at hshape
    · rw [Sys.tickle] at hshape ⊢
      split_ifs at hshape ⊢ <;> exact h.move hshape rfl rfl (fun _ _ _ => Pc.noConfusion) rfl hstay rfl rfl
    · exact h
  | reset t p ms from_now =>
    simp only [step] at hshape ⊢
    split_ifs at hshape ⊢
    · exact h
    · exact h.move hshape rfl rfl (fun _ _ _ => Pc.noConfusion) rfl hstay rfl rfl
    · exact h
  | resetErase t =>
    simp only [step] at hshape ⊢
    split at hshape
    · rename_i p ms from_now hpc
      split_ifs at hshape ⊢ with hdone
      · obtain ⟨hcb, hp⟩ := (TimerManager.resetErase_done h.shape.ordered).1 hdone
        obtain ⟨-, -, hheap, hmem, -⟩ := TimerManager.resetErase_spec h.shape.ordered hcb hp
        refine h.keep (fun _ => False) hshape (fun q _ => ?_) (fun q _ => ?_) (fun q hq => hq.elim)
          (fun t' q ms' start ht' => .inl ⟨id, ?_⟩) h.log
        · change ((s.mgr.resetErase p).2.heap q).next = _ ∧ ((s.mgr.resetErase p).2.heap q).ms = _ ∧ _
          rw [hheap]
          exact ⟨rfl, rfl, rfl⟩
        · exact held_update (t := t) (x := .resetErased p ms from_now) rfl (fun q hq => .inl ((hmem q).1 hq).1)
            (fun q hq => by cases hq; exact .inl hp) q
        · by_cases ht : t' = t
          · subst ht; rw [setPc_self] at ht'; cases ht'
          · rwa [setPc_other _ _ ht] at ht'
      · exact h.move hshape rfl rfl (fun _ _ _ => Pc.noConfusion) rfl hstay rfl rfl
    · exact h
  | list t =>
    simp only [step] at hshape ⊢
    split_ifs at hshape ⊢
    · exact h.move hshape rfl rfl (fun _ _ _ => Pc.noConfusion) rfl hstay rfl rfl
    · exact h.move hshape rfl rfl (fun _ _ _ => Pc.noConfusion) rfl hstay rfl rfl
    · exact h
  | listEmpty t =>
    simp only [step] at hshape ⊢
    split at hshape
    · rename_i now_ms idle hpc
      split_ifs at hshape ⊢
      · cases idle <;> exact h.move hshape rfl rfl (fun _ _ _ => Pc.noConfusion) rfl hstay rfl rfl
      · exact h.move hshape rfl rfl (fun _ _ _ => Pc.noConfusion) rfl hstay rfl rfl
    · exact h
  | enterIdle t =>
    simp only [step] at hshape ⊢
    split_ifs at hshape ⊢
    · exact h.move hshape rfl rfl (fun _ _ _ => Pc.noConfusion) rfl hstay rfl rfl
    · exact h
  | getNextTimer t =>
    simp only [step] at hshape ⊢
    split_ifs at hshape ⊢
    · have hget := (TimerManager.getNextTimer_spec s.mgr s.clock).1
      refine h.move hshape rfl rfl (fun _ _ _ => Pc.noConfusion) ?_ (fun q hq => .inl ?_) rfl rfl
      · simp only [Sys.setPc, hget]
      · simpa only [Sys.setPc, hget] using hq
    · exact h
  | epollWait t =>
    simp only [step] at hshape ⊢
    split at hshape
    · split_ifs at hshape ⊢ <;> exact h.move hshape rfl rfl (fun _ _ _ => Pc.noConfusion) rfl hstay rfl rfl
    · exact h
  | wake t =>
    simp only [step] at hshape ⊢
    split at hshape
    · exact h.move hshape rfl rfl (fun _ _ _ => Pc.noConfusion) rfl hstay rfl rfl
    · exact h
  | drain t =>
    simp only [step] at hshape ⊢
    split_ifs at hshape ⊢
    · exact h.keep (fun _ => False) hshape (fun _ _ => ⟨rfl, rfl, rfl⟩) (fun _ _ hp => hp) (fun _ hp => hp.elim)
        (fun _ _ _ _ hpc => .inl ⟨id, hpc⟩) h.log
    · exact h
  | leaveIdle t =>
    simp only [step] at hshape ⊢
    split_ifs at hshape ⊢
    · exact h.move hshape rfl rfl (fun _ _ _ => Pc.noConfusion) rfl hstay rfl rfl
    · exact h

/-! ## Main results -/

/-- **No early timer.** In a run in which no armed time leaves 64 bits and every rollover is told from a fresh reading,
each callback ever returned is due, or its timer has seen the clock go back by more than an hour. -/
theorem never_early (c : UInt64) (ops : List Op) (h : Guarded step ArmsInRange (init c) ops) :
    ∀ pre, pre <+: ops → AllPunctual (run step (init c) pre) := by
  intro pre hpre
  exact (states_inv step_inv (inv_init c) h pre hpre).log

/-- a recurring timer that is due, and one made to fire by a clock that went back by two hours -/
def recurringTrace : List Op :=
  [.addTimer 0 7 1000 (some 0) true, .insert 0, .check 0 false, .flag 0, .tickle 0, .clock 8001000,
    .list 0, .listEmpty 0, .listExpired 0 9, .clock 801000, .list 0, .listEmpty 0, .listExpired 0 9]

theorem never_early_example : AllPunctual (run step (init 8000000) recurringTrace) :=
  never_early 8000000 recurringTrace (by decide) _ (List.prefix_refl _)

/-- a delay of 2^64 - 1 ms at clock 1000 -/
def wrappedDelayTrace : List Op :=
  [.addTimer 0 7 18446744073709551615 (some 0) false, .insert 0, .check 0 false, .flag 0, .tickle 0,
    .list 0, .listEmpty 0, .listExpired 0 9]

/-- made at clock 8000000; with an empty set the clock goes back by two hours, and a timer of one second is armed there -/
def staleRolloverTrace : List Op :=
  [.clock 800000, .addTimer 0 7 1000 (some 0) false, .insert 0, .check 0 false, .flag 0, .tickle 0,
    .list 0, .listEmpty 0, .listExpired 0 9]

/-- **Early timers.** The first timer fires as soon as it is armed, since `m_next` wraps to 999; the second one too,
since the rollover test compares with a reading from before it was armed. -/
theorem fires_early :
    ¬ AllPunctual (run step (init 1000) wrappedDelayTrace) ∧ ¬ AllPunctual (run step (init 8000000) staleRolloverTrace) := by
  have hwrap : (run step (init 1000) wrappedDelayTrace).log = [.listed [⟨7, some 0, 1000, 1000, 18446744073709551615, 1000⟩]] := by
    decide
  have hstale : (run step (init 8000000) staleRolloverTrace).log = [.listed [⟨7, some 0, 800000, 800000, 1000, 800000⟩]] := by
    decide
  refine ⟨fun h => ?_, fun h => ?_⟩
  · exact absurd (h _ (by rw [hwrap]; exact List.mem_singleton_self _) _ rfl _ (List.mem_singleton_self _)) (by decide)
  · exact absurd (h _ (by rw [hstale]; exact List.mem_singleton_self _) _ rfl _ (List.mem_singleton_self _)) (by decide)

end Sylar.Timers.Early

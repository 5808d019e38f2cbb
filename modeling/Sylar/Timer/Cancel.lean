/-
The life of a timer: armed, fired, cancelled.

`Timer::cancel` erases what `find` returned without a test. That is right as long as a timer with a callback is in the
set, which a reset call between its two sections breaks: `reset` erases the timer in one section and inserts it in
another one.

Results:
- `step_inv`: the invariant, with the condition that no timer is cancelled while it is being reset;
- `timers_safe`: under that condition, over all interleavings, cancel erases an element of the set, the set holds
  exactly the timers with a callback, and a cancelled timer is gone for good;
- `cancel_in_reset`: a cancel between the two sections of a reset erases `end()`, and the timer is back in the set
  after its cancel returned true;
- `calls_fire_once`: complete calls, one after the other with any readings of the clock, keep all of it; a one-shot
  timer fires at most once, a recurring one at most once per call.
-/
import Sylar.Timer.System

namespace Sylar.Timers

open Sylar.Run

/-! ## Properties of a state -/

/-- a reset call on the timer is between its erasing and its inserting section -/
def Resetting (s : Sys) (p : ℕ) : Prop := ∃ t, (s.pc t).window = some p

/-- some call is about to insert the timer -/
def Owned (pc : ℕ → Pc) (p : ℕ) : Prop := ∃ t, (pc t).owns = some p

/-- the timers whose callbacks an event returned -/
def Event.timers : Event → List ℕ
  | .cancelled _ => []
  | .listed fires => fires.map Fire.timer

def fired (log : List Event) : List ℕ := log.flatMap Event.timers

def NoFireAfter (e e' : Event) : Prop := ∀ p, e = .cancelled p → p ∉ e'.timers

/-- what the callers of the timers may rely on. A timer that addTimer has made and not yet inserted does not count as
one of the manager's. -/
structure TimersSafe (s : Sys) : Prop where
  erases : s.mgr.eraseEnd = false
  exact : ∀ p, ¬ Resetting s p → (∀ t, s.pc t ≠ .inserting p true) →
    (p ∈ s.mgr.timers ↔ (s.mgr.heap p).cb.isSome = true)
  gone : ∀ p, .cancelled p ∈ s.log → p ∉ s.mgr.timers
  silent : s.log.Pairwise NoFireAfter

/-- the condition of a run: callbacks are not null, and no timer is cancelled while it is being reset -/
def CancelsOutsideReset (s : Sys) : Op → Prop
  | .addTimer _ _ _ cb _ => cb.isSome = true
  | .cancel t p => s.pc t = .out → s.handles p = true → ¬ Resetting s p
  | _ => True

/-! ## The invariant -/

structure Inv (s : Sys) : Prop where
  shape : s.Shape
  exact : ∀ p, (s.mgr.heap p).cb.isSome = true ↔ p ∈ s.mgr.timers ∨ Owned s.pc p
  erases : s.mgr.eraseEnd = false
  cancelled : ∀ p, .cancelled p ∈ s.log → s.used p = true ∧ (s.mgr.heap p).cb = none
  spent : ∀ p ∈ fired s.log, s.used p = true ∧ ((s.mgr.heap p).recurring = false → (s.mgr.heap p).cb = none)
  once : ∀ p, (s.mgr.heap p).recurring = false → (fired s.log).count p ≤ 1
  nodup : ∀ fires, .listed fires ∈ s.log → (fires.map Fire.timer).Nodup
  silent : s.log.Pairwise NoFireAfter

theorem inv_init (c : UInt64) : Inv (init c) := by
  refine ⟨init_shape c, fun p => ?_, rfl, ?_, ?_, ?_, ?_, List.Pairwise.nil⟩
  · simp [init, Owned, Pc.owns]
  · simp [init]
  · simp [init, fired]
  · simp [init, fired]
  · simp [init]

theorem owned_update {pc : ℕ → Pc} {t : ℕ} {x : Pc} {p : ℕ} :
    Owned (Function.update pc t x) p ↔ x.owns = some p ∨ ∃ t', t' ≠ t ∧ (pc t').owns = some p := by
  constructor
  · rintro ⟨t', ht'⟩
    rcases of_update ht' with ⟨-, h⟩ | ⟨hne, h⟩
    · exact .inl h
    · exact .inr ⟨t', hne, h⟩
  · rintro (h | ⟨t', hne, h⟩)
    · exact ⟨t, by simpa using h⟩
    · exact ⟨t', by rwa [Function.update_of_ne hne]⟩

theorem owned_iff (pc : ℕ → Pc) (t : ℕ) {p : ℕ} :
    Owned pc p ↔ (pc t).owns = some p ∨ ∃ t', t' ≠ t ∧ (pc t').owns = some p := by
  rw [← Function.update_eq_self t pc, owned_update, Function.update_eq_self]

theorem owned_move {pc : ℕ → Pc} {t : ℕ} {x : Pc} (h : x.owns = (pc t).owns) (p : ℕ) :
    Owned (Function.update pc t x) p ↔ Owned pc p := by
  rw [owned_update, owned_iff pc t, h]

/-- a step that neither makes, fires nor cancels a timer -/
theorem Inv.keep {s s' : Sys} (h : Inv s) (hshape : s'.Shape) (hused : s'.used = s.used) (hlog : s'.log = s.log)
    (hend : s'.mgr.eraseEnd = s.mgr.eraseEnd) (hcb : ∀ p, (s'.mgr.heap p).cb = (s.mgr.heap p).cb)
    (hrec : ∀ p, (s'.mgr.heap p).recurring = (s.mgr.heap p).recurring)
    (hmem : ∀ p, p ∈ s'.mgr.timers ∨ Owned s'.pc p ↔ p ∈ s.mgr.timers ∨ Owned s.pc p) : Inv s' := by
  refine ⟨hshape, fun p => ?_, hend.trans h.erases, ?_, ?_, ?_, ?_, ?_⟩
  · rw [hcb, hmem]; exact h.exact p
  · rw [hlog, hused]
    exact fun p hp => ⟨(h.cancelled p hp).1, by rw [hcb]; exact (h.cancelled p hp).2⟩
  · rw [hlog, hused]
    exact fun p hp => ⟨(h.spent p hp).1, by rw [hcb, hrec]; exact (h.spent p hp).2⟩
  · rw [hlog]
    exact fun p hp => h.once p (by rwa [hrec] at hp)
  · rw [hlog]; exact h.nodup
  · rw [hlog]; exact h.silent

/-- a step that moves thread `t` and leaves the timers alone -/
theorem Inv.move {s s' : Sys} (h : Inv s) {t : ℕ} {x : Pc} (hshape : s'.Shape) (hx : x.owns = (s.pc t).owns)
    (hpc : s'.pc = Function.update s.pc t x) (hheap : s'.mgr.heap = s.mgr.heap) (htimers : s'.mgr.timers = s.mgr.timers)
    (hend : s'.mgr.eraseEnd = s.mgr.eraseEnd) (hused : s'.used = s.used) (hlog : s'.log = s.log) : Inv s' :=
  h.keep hshape hused hlog hend (fun p => by rw [hheap]) (fun p => by rw [hheap])
    fun p => by rw [htimers, hpc, owned_move hx]

/-- addTimer makes a timer -/
theorem Inv.make {s : Sys} (h : Inv s) {t p : ℕ} {ms : UInt64} {cb : Option ℕ} {recurring : Bool}
    (hpc : s.pc t = .out) (hp : s.used p = false) (hcb : cb.isSome = true) :
    Inv (step s (.addTimer t p ms cb recurring)) := by
  have hshape := step_shape s (.addTimer t p ms cb recurring) h.shape
  have hstep : step s (.addTimer t p ms cb recurring) = ({ s with
      mgr := s.mgr.setTimer p ⟨recurring, ms, s.clock + ms, cb⟩
      used := Function.update s.used p true }.arm p s.clock).setPc t (.inserting p true) := by
    simp [step, hpc, hp]
  rw [hstep] at hshape ⊢
  have hheap : ∀ q, q ≠ p → (s.mgr.setTimer p ⟨recurring, ms, s.clock + ms, cb⟩).heap q = s.mgr.heap q :=
    fun q hq => TimerManager.setTimer_other s.mgr _ hq
  have hused : ∀ q, s.used q = true → Function.update s.used p true q = true := fun q hq => update_true p hq
  have hnew : p ∉ s.mgr.timers := fun hmem => by simp [h.shape.timers p hmem] at hp
  have hnf : p ∉ fired s.log := fun hmem => by simp [(h.spent p hmem).1] at hp
  refine ⟨hshape, fun q => ?_, h.erases, fun q hq => ?_, fun q hq => ?_, fun q hq => ?_, h.nodup, h.silent⟩
  · by_cases hqp : q = p
    · subst hqp
      refine iff_of_true (by simpa [Sys.setPc, Sys.arm] using hcb) (.inr ⟨t, by simp [Sys.setPc, Pc.owns]⟩)
    · have hown : Owned (Function.update s.pc t (.inserting p true)) q ↔ Owned s.pc q := by
        rw [owned_update, owned_iff s.pc t]
        simp [hpc, Pc.owns, Ne.symm hqp]
      change ((s.mgr.setTimer p _).heap q).cb.isSome = true ↔ q ∈ s.mgr.timers ∨ Owned (Function.update s.pc t _) q
      rw [hheap q hqp, hown]
      exact h.exact q
  · obtain ⟨hu, hn⟩ := h.cancelled q hq
    have hqp : q ≠ p := fun hqp => by simp [hqp ▸ hu] at hp
    exact ⟨hused q hu, by change ((s.mgr.setTimer p _).heap q).cb = none; rw [hheap q hqp, hn]⟩
  · obtain ⟨hu, hn⟩ := h.spent q hq
    have hqp : q ≠ p := fun hqp => hnf (hqp ▸ hq)
    refine ⟨hused q hu, ?_⟩
    change ((s.mgr.setTimer p _).heap q).recurring = false → ((s.mgr.setTimer p _).heap q).cb = none
    rw [hheap q hqp]
    exact hn
  · by_cases hqp : q = p
    · subst hqp
      change (fired s.log).count q ≤ 1
      rw [List.count_eq_zero_of_not_mem hnf]
      exact Nat.zero_le 1
    · apply h.once q
      rw [← hheap q hqp]
      exact hq

theorem Inv.cancel {s : Sys} (h : Inv s) {t p : ℕ} (hok : CancelsOutsideReset s (.cancel t p)) :
    Inv (step s (.cancel t p)) := by
  have hshape := step_shape s (.cancel t p) h.shape
  simp only [step] at hshape ⊢
  split_ifs at hshape ⊢ with hpc hdone
  · have hcb := TimerManager.cancel_done.1 hdone
    have hwin := hok hpc.1 hpc.2
    -- the callback is set and no reset is on the way, so the timer is in the set
    have hout : ¬ Owned s.pc p := by
      rintro ⟨t', ht'⟩
      rcases Pc.owns_cases ht' with hx | hx
      · have := (h.shape.fresh t' p (by rw [hx]; rfl)).2
        simp [hpc.2] at this
      · exact hwin ⟨t', hx⟩
    have hp : p ∈ s.mgr.timers := ((h.exact p).1 hcb).resolve_right hout
    obtain ⟨-, -, hheap, hmem, hend, -⟩ := TimerManager.cancel_spec h.shape.ordered hcb
    have hother : ∀ q, q ≠ p → (s.mgr.cancel p).2.heap q = s.mgr.heap q := by
      intro q hq
      rw [hheap, Function.update_of_ne hq]
    have hself : (s.mgr.cancel p).2.heap p = { s.mgr.heap p with cb := none } := by
      rw [hheap, Function.update_self]
    have hnone : ∀ q, (s.mgr.heap q).cb = none → ((s.mgr.cancel p).2.heap q).cb = none := by
      intro q hq
      by_cases hqp : q = p
      · subst hqp; rw [hself]
      · rwa [hother q hqp]
    have hrec : ∀ q, ((s.mgr.cancel p).2.heap q).recurring = (s.mgr.heap q).recurring := by
      intro q
      rw [hheap]
      exact TimerManager.update_field Timer.recurring (by rfl) q
    have hfired : fired (s.log ++ [.cancelled p]) = fired s.log := by simp [fired, Event.timers]
    refine ⟨hshape, fun q => ?_, ?_, fun q hq => ?_, fun q hq => ?_, fun q hq => ?_, fun fires hf => ?_, ?_⟩
    · change ((s.mgr.cancel p).2.heap q).cb.isSome = true ↔ q ∈ (s.mgr.cancel p).2.timers ∨ Owned s.pc q
      rw [hmem]
      by_cases hqp : q = p
      · subst hqp
        rw [hself]
        simp [hout]
      · rw [hother q hqp, h.exact q]
        simp [hqp]
    · exact hend.trans (by simp [h.erases, hp])
    · rcases List.mem_append.1 hq with hq | hq
      · exact ⟨(h.cancelled q hq).1, hnone q (h.cancelled q hq).2⟩
      · simp only [List.mem_singleton, Event.cancelled.injEq] at hq
        subst hq
        refine ⟨h.shape.handle q hpc.2, ?_⟩
        change ((s.mgr.cancel q).2.heap q).cb = none
        rw [hself]
    · rw [show ({ s with mgr := (s.mgr.cancel p).2, log := s.log ++ [Event.cancelled p] } : Sys).log =
        s.log ++ [.cancelled p] from rfl, hfired] at hq
      exact ⟨(h.spent q hq).1, fun hr => hnone q ((h.spent q hq).2 (by rw [← hrec]; exact hr))⟩
    · change (fired (s.log ++ [.cancelled p])).count q ≤ 1
      rw [hfired]
      exact h.once q (by rw [← hrec]; exact hq)
    · exact h.nodup fires (by simpa using hf)
    · refine List.pairwise_append.2 ⟨h.silent, List.pairwise_singleton _ _, fun e _ e' he' q _ => ?_⟩
      rw [List.mem_singleton.1 he']
      exact List.not_mem_nil
  · exact h
  · exact h

theorem Inv.list {s : Sys} (h : Inv s) (t q : ℕ) : Inv (step s (.listExpired t q)) := by
  have hshape := step_shape s (.listExpired t q) h.shape
  simp only [step] at hshape ⊢
  split at hshape
  · rename_i now_ms idle hpc
    split_ifs at hshape ⊢ with hq
    · have hnot : q ∉ s.mgr.timers := fun hmem => by simp [h.shape.timers q hmem] at hq
      obtain ⟨expired, rest, happ, hexp, -, -⟩ := TimerManager.listExpired_spec h.shape.ordered now_ms hnot
      set m' := (s.mgr.listExpired now_ms q).2
      have hfires : (s.fires now_ms (s.mgr.listExpired now_ms q).1).map Fire.timer = expired := by
        rw [hexp.cbs]
        simp [Sys.fires, Function.comp_def]
      have hnodup : expired.Nodup :=
        (List.nodup_append.1 (happ ▸ OrderedSet.Sorted.nodup h.shape.ordered : (expired ++ rest).Nodup)).1
      have hin : ∀ p ∈ expired, p ∈ s.mgr.timers := fun p hp => by
        rw [← happ]; exact List.mem_append_left _ hp
      have hdisj : ∀ p ∈ expired, p ∉ rest := fun p hp hp' =>
        (List.nodup_append.1 (happ ▸ OrderedSet.Sorted.nodup h.shape.ordered : (expired ++ rest).Nodup)).2.2 p hp p hp' rfl
      have hrec : ∀ p, (m'.heap p).recurring = (s.mgr.heap p).recurring := by
        intro p
        rw [hexp.heap]
        split_ifs
        · rw [TimerManager.rearmed]; split_ifs <;> rfl
        · rfl
      have hnone : ∀ p, (s.mgr.heap p).cb = none → (m'.heap p).cb = none := by
        intro p hp
        rw [hexp.heap]
        split_ifs
        · rw [TimerManager.rearmed]; split_ifs
          · exact hp
          · rfl
        · exact hp
      have hshot : ∀ p ∈ expired, (s.mgr.heap p).recurring = false → (m'.heap p).cb = none := by
        intro p hp hr
        rw [hexp.heap, if_pos hp, TimerManager.rearmed, if_neg (by simp [hr])]
      have howned : ∀ p, Owned (Function.update s.pc t (afterList idle)) p ↔ Owned s.pc p :=
        owned_move (by rw [hpc]; cases idle <;> rfl)
      have hlog : fired (s.log ++ [.listed (s.fires now_ms (s.mgr.listExpired now_ms q).1)]) = fired s.log ++ expired := by
        simp [fired, Event.timers, hfires]
      refine ⟨hshape, fun p => ?_, hexp.eraseEnd.trans h.erases, fun p hp => ?_, fun p hp => ?_, fun p hp => ?_,
        fun fires hf => ?_, ?_⟩
      · change (m'.heap p).cb.isSome = true ↔ p ∈ m'.timers ∨ Owned (Function.update s.pc t _) p
        rw [howned, hexp.mem]
        have hex := h.exact p
        by_cases hp : p ∈ expired
        · have hnown : ¬ Owned s.pc p := by
            rintro ⟨t', ht'⟩
            exact h.shape.owned t' p ht' (hin p hp)
          have hcb := hex.2 (.inl (hin p hp))
          rw [hexp.heap, if_pos hp, TimerManager.rearmed]
          cases hr : (s.mgr.heap p).recurring with
          | true => simp [hcb, hp]
          | false => simp [hnown, hdisj p hp]
        · rw [hexp.heap, if_neg hp, hex, ← happ, List.mem_append]
          simp [hp]
      · rcases List.mem_append.1 hp with hp | hp
        · exact ⟨(h.cancelled p hp).1, hnone p (h.cancelled p hp).2⟩
        · simp at hp
      · change p ∈ fired (s.log ++ [Event.listed _]) at hp
        rw [hlog, List.mem_append] at hp
        rcases hp with hp | hp
        · exact ⟨(h.spent p hp).1, fun hr => hnone p ((h.spent p hp).2 (by rw [← hrec]; exact hr))⟩
        · exact ⟨h.shape.timers p (hin p hp), fun hr => hshot p hp (by rw [← hrec]; exact hr)⟩
      · change (fired (s.log ++ [Event.listed _])).count p ≤ 1
        have hr : (s.mgr.heap p).recurring = false := by rw [← hrec]; exact hp
        rw [hlog, List.count_append]
        by_cases hp' : p ∈ expired
        · -- a one-shot timer in the set has its callback, so it has not fired before
          have hcb := (h.exact p).2 (.inl (hin p hp'))
          have hnf : p ∉ fired s.log := fun hmem => by simp [(h.spent p hmem).2 hr] at hcb
          rw [List.count_eq_zero_of_not_mem hnf]
          have := List.nodup_iff_count_le_one.1 hnodup p
          omega
        · rw [List.count_eq_zero_of_not_mem hp']
          exact h.once p hr
      · rcases List.mem_append.1 hf with hf | hf
        · exact h.nodup fires hf
        · simp only [List.mem_singleton, Event.listed.injEq] at hf
          rw [hf, hfires]
          exact hnodup
      · refine List.pairwise_append.2 ⟨h.silent, List.pairwise_singleton _ _, fun e he e' he' p hep => ?_⟩
        rw [List.mem_singleton.1 he', Event.timers, hfires]
        subst hep
        intro hp
        have hcb := (h.exact p).2 (.inl (hin p hp))
        simp [(h.cancelled p he).2] at hcb
    · exact h
  · exact h

theorem step_inv (s : Sys) (o : Op) (h : Inv s) (hok : CancelsOutsideReset s o) : Inv (step s o) := by
  have hshape := step_shape s o h.shape
  cases o with
  | clock c => exact h.keep hshape rfl rfl rfl (fun _ => rfl) (fun _ => rfl) fun _ => Iff.rfl
  | addTimer t p ms cb recurring =>
    by_cases hpc : s.pc t = .out ∧ s.used p = false
    · exact h.make hpc.1 hpc.2 hok
    · rwa [step, if_neg hpc]
  | cancel t p => exact h.cancel hok
  | listExpired t q => exact h.list t q
  | insert t =>
    simp only [step] at hshape ⊢
    split at hshape
    · rename_i p fresh hpc
      have hown : (s.pc t).owns = some p := by rw [hpc]; rfl
      obtain ⟨-, hmem⟩ := TimerManager.insert_spec h.shape.ordered (h.shape.owned t p hown)
      refine h.keep hshape rfl rfl rfl (fun _ => rfl) (fun _ => rfl) fun q => ?_
      change q ∈ (s.mgr.insert p).timers ∨ Owned (Function.update s.pc t _) q ↔ _
      rw [hmem, owned_update, owned_iff s.pc t, hown]
      simp only [Pc.owns, Option.some.injEq, eq_comm (a := p)]
      tauto
    · exact h
  | check t dangling =>
    simp only [step] at hshape ⊢
    split at hshape
    · rename_i p fresh n hpc
      split_ifs at hshape ⊢
      · exact h.move hshape (by rw [hpc]; rfl) rfl rfl rfl rfl rfl rfl
      · exact h.move hshape (by rw [hpc]; rfl) rfl rfl rfl rfl rfl rfl
    · exact h
  | flag t =>
    simp only [step] at hshape ⊢
    split at hshape
    · rename_i p fresh hpc
      exact h.move hshape (by rw [hpc]; rfl) rfl rfl rfl rfl rfl rfl
    · exact h
  | tickle t =>
    simp only [step] at hshape ⊢
    split at hshape
    · rename_i p fresh hpc
      rw [Sys.tickle] at hshape ⊢
      split_ifs at hshape ⊢ <;>
        exact h.move hshape (by rw [hpc]; rfl) rfl rfl rfl rfl rfl rfl
    · exact h
  | refresh t p =>
    simp only [step] at hshape ⊢
    split_ifs at hshape ⊢ with hpc hdone
    · obtain ⟨hcb, hp⟩ := (TimerManager.refresh_done h.shape.ordered).1 hdone
      obtain ⟨-, -, hheap, hmem, hend⟩ := @TimerManager.refresh_spec s.mgr h.shape.ordered p s.clock hcb hp
      refine h.keep hshape rfl rfl hend (fun q => ?_) (fun q => ?_) fun q => or_congr_left (hmem q)
      · change ((s.mgr.refresh p s.clock).2.heap q).cb = _
        rw [hheap]
        exact TimerManager.update_field Timer.cb (by rfl) q
      · change ((s.mgr.refresh p s.clock).2.heap q).recurring = _
        rw [hheap]
        exact TimerManager.update_field Timer.recurring (by rfl) q
    · exact h
    · exact h
  | reset t p ms from_now =>
    simp only [step] at hshape ⊢
    split_ifs at hshape ⊢ with hpc hskip
    · exact h
    · exact h.move hshape (by rw [hpc.1]; rfl) rfl rfl rfl rfl rfl rfl
    · exact h
  | resetErase t =>
    simp only [step] at hshape ⊢
    split at hshape
    · rename_i p ms from_now hpc
      split_ifs at hshape ⊢ with hdone
      · obtain ⟨hcb, hp⟩ := (TimerManager.resetErase_done h.shape.ordered).1 hdone
        obtain ⟨-, -, hheap, hmem, hend⟩ := TimerManager.resetErase_spec h.shape.ordered hcb hp
        refine h.keep hshape rfl rfl hend (fun q => ?_) (fun q => ?_) fun q => ?_
        · exact congrArg Timer.cb (congrFun hheap q)
        · exact congrArg Timer.recurring (congrFun hheap q)
        · change q ∈ (s.mgr.resetErase p).2.timers ∨ Owned (Function.update s.pc t _) q ↔ _
          rw [hmem, owned_update, owned_iff s.pc t, hpc]
          simp only [Pc.owns, Option.some.injEq]
          by_cases hqp : q = p
          · subst hqp; simp [hp]
          · simp [hqp, Ne.symm hqp]
      · exact h.move hshape (by rw [hpc]; rfl) rfl rfl rfl rfl rfl rfl
    · exact h
  | resetStart t =>
    simp only [step] at hshape ⊢
    split at hshape
    · rename_i p ms from_now hpc
      have hx : (Pc.resetStarted p ms (s.mgr.resetStart p from_now s.clock)).owns = (s.pc t).owns := by rw [hpc]; rfl
      split_ifs at hshape ⊢ <;> exact h.move hshape hx rfl rfl rfl rfl rfl rfl
    · exact h
  | resetWrite t =>
    simp only [step] at hshape ⊢
    split at hshape
    · rename_i p ms start hpc
      refine h.keep hshape rfl rfl rfl (fun q => ?_) (fun q => ?_) fun q =>
        or_congr_right (owned_move (by rw [hpc]; rfl) q)
      · exact TimerManager.update_field Timer.cb (by rfl) q
      · exact TimerManager.update_field Timer.recurring (by rfl) q
    · exact h
  | list t =>
    simp only [step] at hshape ⊢
    split_ifs at hshape ⊢ with hout hwoken
    · exact h.move hshape (by rw [hout]; rfl) rfl rfl rfl rfl rfl rfl
    · exact h.move hshape (by rw [hwoken]; rfl) rfl rfl rfl rfl rfl rfl
    · exact h
  | listEmpty t =>
    simp only [step] at hshape ⊢
    split at hshape
    · rename_i now_ms idle hpc
      split_ifs at hshape ⊢
      · exact h.move hshape (by rw [hpc]; cases idle <;> rfl) rfl rfl rfl rfl rfl rfl
      · exact h.move hshape (by rw [hpc]; rfl) rfl rfl rfl rfl rfl rfl
    · exact h
  | enterIdle t =>
    simp only [step] at hshape ⊢
    split_ifs at hshape ⊢ with hpc
    · exact h.move hshape (by rw [hpc]; rfl) rfl rfl rfl rfl rfl rfl
    · exact h
  | getNextTimer t =>
    simp only [step] at hshape ⊢
    split_ifs at hshape ⊢ with hpc
    · have hget := (TimerManager.getNextTimer_spec s.mgr s.clock).1
      refine h.move hshape (by rw [hpc]; rfl) rfl ?_ ?_ ?_ rfl rfl <;> simp only [Sys.setPc, hget]
    · exact h
  | epollWait t =>
    simp only [step] at hshape ⊢
    split at hshape
    · rename_i timeout now_ms hpc
      split_ifs at hshape ⊢ <;> exact h.move hshape (by rw [hpc]; rfl) rfl rfl rfl rfl rfl rfl
    · exact h
  | wake t =>
    simp only [step] at hshape ⊢
    split at hshape
    · rename_i deadline hpc
      exact h.move hshape (by rw [hpc]; rfl) rfl rfl rfl rfl rfl rfl
    · exact h
  | drain t =>
    simp only [step] at hshape ⊢
    split_ifs at hshape ⊢
    · exact h.keep hshape rfl rfl rfl (fun _ => rfl) (fun _ => rfl) fun _ => Iff.rfl
    · exact h
  | leaveIdle t =>
    simp only [step] at hshape ⊢
    split_ifs at hshape ⊢ with hpc
    · exact h.move hshape (by rw [hpc]; rfl) rfl rfl rfl rfl rfl rfl
    · exact h

/-! ## Interleavings -/

theorem Inv.safe {s : Sys} (h : Inv s) : TimersSafe s := by
  refine ⟨h.erases, fun p hwin hnew => ?_, fun p hp hmem => ?_, h.silent⟩
  · have hout : ¬ Owned s.pc p := by
      rintro ⟨t, ht⟩
      exact (Pc.owns_cases ht).elim (hnew t) fun hx => hwin ⟨t, hx⟩
    rw [h.exact p]
    simp [hout]
  · have hcb := (h.exact p).2 (.inl hmem)
    simp [(h.cancelled p hp).2] at hcb

/-- **Timer operations under concurrency.** In a run in which no timer is cancelled between the two sections of a reset
of it, and no callback is null, every state reached is safe. -/
theorem timers_safe (c : UInt64) (ops : List Op) (h : Guarded step CancelsOutsideReset (init c) ops) :
    ∀ pre, pre <+: ops → TimersSafe (run step (init c) pre) := by
  intro pre hpre
  exact (states_inv step_inv (inv_init c) h pre hpre).safe

/-- thread 0 makes two timers and resets one of them; thread 1 cancels the other one between the two sections -/
def cancelBesideResetTrace : List Op :=
  ([.addTimer 0 7 1000 (some 0) false, .insert 0, .check 0 false, .flag 0, .tickle 0,
    .addTimer 0 8 500 (some 1) true, .insert 0, .check 0 false, .reset 0 7 2000 true, .resetErase 0] : List Op) ++
  ([.cancel 1 8, .resetStart 0, .resetWrite 0, .insert 0, .check 0 false] : List Op)

theorem timers_safe_example : TimersSafe (run step (init 0) cancelBesideResetTrace) := by
  refine timers_safe 0 cancelBesideResetTrace (guarded_append.2 ⟨by simp [Guarded, CancelsOutsideReset], ?_⟩) _
    (List.prefix_refl _)
  simp only [Guarded, CancelsOutsideReset, and_true]
  rintro - - ⟨t, ht⟩
  -- only thread 0 is in a call
  by_cases h0 : t = 0
  · subst h0; revert ht; decide
  · rw [run_other _ _ t (by simp [Op.thread, Ne.symm h0])] at ht
    cases ht

/-- thread 0 makes a timer and resets it; thread 1 cancels it between the two sections -/
def cancelInResetTrace : List Op :=
  [.addTimer 0 7 1000 (some 0) false, .insert 0, .check 0 false, .flag 0, .tickle 0,
    .reset 0 7 2000 true, .resetErase 0, .cancel 1 7, .resetStart 0, .resetWrite 0, .insert 0]

/-- **A cancel inside a reset.** It erases `end()`, and the timer whose cancel returned true is in the set again. -/
theorem cancel_in_reset :
    let s := run step (init 0) cancelInResetTrace
    ¬ TimersSafe s ∧ s.mgr.eraseEnd = true ∧ .cancelled 7 ∈ s.log ∧ 7 ∈ s.mgr.timers := by
  have hend : (run step (init 0) cancelInResetTrace).mgr.eraseEnd = true := by decide
  exact ⟨fun hsafe => absurd hsafe.erases (by rw [hend]; decide), hend, by decide, by decide⟩

/-! ## Complete calls -/

/-- a call of a member function that runs to its end; `now` is what the clock shows meanwhile -/
inductive Call where
  | addTimer (p : ℕ) (ms : UInt64) (cb : ℕ) (recurring : Bool) (now : UInt64)
  | cancel (p : ℕ)
  | refresh (p : ℕ) (now : UInt64)
  | reset (p : ℕ) (ms : UInt64) (from_now : Bool) (now : UInt64)
  | listExpiredCb (now : UInt64) (q : ℕ)
deriving DecidableEq, Repr

/-- the part behind the insertion: `addTimer(val)` to its end -/
def addVal : List Op := [.insert 0, .check 0 false, .flag 0, .tickle 0]

/-- the steps of a call -/
def Call.ops : Call → List Op
  | .addTimer p ms cb recurring now => [.clock now, .addTimer 0 p ms (some cb) recurring] ++ addVal
  | .cancel p => [.cancel 0 p]
  | .refresh p now => [.clock now, .refresh 0 p]
  | .reset p ms from_now now =>
    [.clock now, .reset 0 p ms from_now, .resetErase 0, .resetStart 0, .resetWrite 0] ++ addVal
  | .listExpiredCb now q => [.clock now, .list 0, .listEmpty 0, .listExpired 0 q]

/-- a new object has an address of its own, and a member function is called through a pointer -/
def Call.enabled (s : Sys) : Call → Bool
  | .addTimer p _ _ _ _ => !s.used p
  | .cancel p | .refresh p _ | .reset p _ _ _ => s.handles p
  | .listExpiredCb _ q => !s.used q

def callStep (s : Sys) (c : Call) : Sys := if c.enabled s then run step s c.ops else s

/-- no call is on the way -/
def Quiet (s : Sys) : Prop := ∀ t, s.pc t = .out

theorem addVal_out {s : Sys} (h : s.pc 0 = .out) : run step s addVal = s := by
  simp [addVal, step, h]

/-- `addTimer(val)` runs to its end, with or without a tickle -/
theorem addVal_inserting {s : Sys} {p : ℕ} {fresh : Bool} (h : s.pc 0 = .inserting p fresh) :
    (run step s addVal).pc 0 = .out := by
  have hinsert : (step s (.insert 0)).pc 0 = .checking p fresh (s.mgr.erasures p) := by simp [step, h]
  simp only [addVal, run_cons, run_nil]
  generalize step s (.insert 0) = s1 at hinsert
  by_cases hfront : s1.mgr.atFront p (s.mgr.erasures p) false = true
  · have hcheck : (step s1 (.check 0 false)).pc 0 = .flagging p fresh := by simp [step, hinsert, hfront]
    generalize step s1 (.check 0 false) = s2 at hcheck
    have hflag : (step s2 (.flag 0)).pc 0 = .tickling p fresh := by simp [step, hcheck]
    generalize step s2 (.flag 0) = s3 at hflag
    simp [step, hflag]
  · have hcheck : (step s1 (.check 0 false)).pc 0 = .out := by simp [step, hinsert, hfront]
    generalize step s1 (.check 0 false) = s2 at hcheck
    simp [step, hcheck]

/-- the rest of a reset call behind its first test -/
theorem reset_resetting {s : Sys} {p : ℕ} {ms : UInt64} {from_now : Bool} (h : s.pc 0 = .resetting p ms from_now) :
    (run step s ([.resetErase 0, .resetStart 0, .resetWrite 0] ++ addVal)).pc 0 = .out := by
  rw [run_append]
  simp only [run_cons, run_nil]
  by_cases hdone : (s.mgr.resetErase p).1 = true
  · have herase : (step s (.resetErase 0)).pc 0 = .resetErased p ms from_now := by simp [step, h, hdone]
    generalize step s (.resetErase 0) = s1 at herase
    obtain ⟨start, hstart⟩ : ∃ start, (step s1 (.resetStart 0)).pc 0 = .resetStarted p ms start :=
      ⟨_, by simp only [step, herase, setPc_self]; rfl⟩
    generalize step s1 (.resetStart 0) = s2 at hstart
    have hwrite : (step s2 (.resetWrite 0)).pc 0 = .inserting p false := by simp [step, hstart]
    exact addVal_inserting hwrite
  · have herase : (step s (.resetErase 0)).pc 0 = .out := by simp [step, h, hdone]
    generalize step s (.resetErase 0) = s1 at herase
    have hrest : step (step s1 (.resetStart 0)) (.resetWrite 0) = s1 := by simp [step, herase]
    rw [hrest, addVal_out herase, herase]

/-- a complete call leaves no thread in a call -/
theorem quiet_call {s : Sys} (h : Quiet s) (c : Call) (hen : c.enabled s = true) : Quiet (run step s c.ops) := by
  intro t
  by_cases ht : t = 0
  · subst ht
    cases c with
    | addTimer p ms cb recurring now =>
      simp only [Call.enabled, Bool.not_eq_true'] at hen
      rw [Call.ops, run_append]
      have hpc : (run step s [.clock now, .addTimer 0 p ms (some cb) recurring]).pc 0 = .inserting p true := by
        simp [step, h 0, hen]
      exact addVal_inserting hpc
    | cancel p =>
      simp only [Call.ops, run_cons, run_nil, step]
      split_ifs <;> exact h 0
    | refresh p now =>
      simp only [Call.ops, run_cons, run_nil, step]
      split_ifs <;> exact h 0
    | reset p ms from_now now =>
      simp only [Call.enabled] at hen
      by_cases hskip : s.mgr.resetSkips p ms from_now = true
      · simp [Call.ops, addVal, step, h 0, hskip]
      · have hpc : (step (step s (.clock now)) (.reset 0 p ms from_now)).pc 0 = .resetting p ms from_now := by
          simp [step, h 0, hen, hskip]
        exact reset_resetting hpc
    | listExpiredCb now q =>
      simp only [Call.enabled, Bool.not_eq_true'] at hen
      simp only [Call.ops, run_cons, run_nil, step, h 0, ite_true]
      by_cases hempty : s.mgr.timers = []
      · simp [Sys.setPc, hempty, afterList]
      · simp [Sys.setPc, hempty, afterList, hen]
  · have hthread : ∀ o ∈ c.ops, o.thread ≠ some t := by
      cases c <;> simp [Call.ops, addVal, Op.thread, Ne.symm ht]
    rw [run_other s c.ops t hthread, h t]

/-- when no call is on the way, no timer is being reset -/
theorem guarded_call {s : Sys} (h : Quiet s) (c : Call) : Guarded step CancelsOutsideReset s c.ops := by
  have hwin : ∀ p, ¬ Resetting s p := fun p ⟨t, ht⟩ => by rw [h t] at ht; cases ht
  cases c <;> simp [Call.ops, addVal, Guarded, CancelsOutsideReset, hwin]

theorem callStep_inv (s : Sys) (c : Call) (h : Inv s ∧ Quiet s) : Inv (callStep s c) ∧ Quiet (callStep s c) := by
  rw [callStep]
  split_ifs with hen
  · exact ⟨run_inv step_inv h.1 (guarded_call h.2 c), quiet_call h.2 c hen⟩
  · exact h

/-- **Complete calls.** After any calls with any readings of the clock the set is in strict order and holds exactly the
timers with a callback; a one-shot timer has fired at most once, each call has returned a timer at most once, and none
after a cancel of it returned true. -/
theorem calls_fire_once (c : UInt64) (calls : List Call) :
    let s := run callStep (init c) calls
    s.mgr.timers.Pairwise (fun a b => (s.mgr.heap a).next < (s.mgr.heap b).next ∨
      (s.mgr.heap a).next = (s.mgr.heap b).next ∧ a < b) ∧
    s.mgr.timers.Nodup ∧
    (∀ p, p ∈ s.mgr.timers ↔ (s.mgr.heap p).cb.isSome = true) ∧
    (∀ p, (s.mgr.heap p).recurring = false → (fired s.log).count p ≤ 1) ∧
    (∀ fires, .listed fires ∈ s.log → (fires.map Fire.timer).Nodup) ∧
    s.log.Pairwise NoFireAfter := by
  intro s
  have hquiet : Quiet (init c) := fun _ => rfl
  obtain ⟨h, hq⟩ : Inv s ∧ Quiet s :=
    run_preserves callStep_inv ⟨inv_init c, hquiet⟩ calls
  have hout : ∀ p, ¬ Owned s.pc p := fun p ⟨t, ht⟩ => by rw [hq t] at ht; cases ht
  refine ⟨h.shape.ordered.imp fun hab => less_iff.1 hab, OrderedSet.Sorted.nodup h.shape.ordered, fun p => ?_,
    h.once, h.nodup, h.silent⟩
  rw [h.exact p]
  simp [hout]

end Sylar.Timers

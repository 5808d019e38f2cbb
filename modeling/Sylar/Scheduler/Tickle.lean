/-
A task is queued, and a worker that may take it sleeps.

A worker that finds nothing in its scan goes to epoll_wait; it is counted idle on the way. `schedule` tickles only when
the queue was empty, `tickle` writes a byte only when a worker is counted idle, the worker that wakes reads all bytes,
and an entry that was left alone because its fiber was in EXEC can be taken as soon as the fiber yields.

Results:
- `step_tickled`: a worker on its way to epoll_wait that may take an entry has a byte or a scheduler's tickle coming, and
  `m_idleThreadCount` is the number of workers in the idle branch;
- `no_missed_tickle`: over all interleavings in which none of the four steps above leaves such a worker without one, a
  blocked worker that may take an entry has a byte waiting, in all states in which no scheduler is in front of its tickle;
- `queue_never_empty`: an entry for another thread keeps the queue from being empty, and the next one is not announced.
-/
import Sylar.Scheduler.Model
import Sylar.Core.Count

namespace Sylar.Scheduler

open Sylar.Run Sylar.Count

/-! ## Sleepers and tickles -/

/-- behind a scan that took nothing: the thread blocks in epoll_wait before it scans again -/
def Pc.headed : Pc → Bool
  | .dispatch none | .idleIn | .idleTop | .blocked => true
  | .tickle _ back | .write _ back => back.headed
  | _ => false

/-- counted in `m_idleThreadCount` -/
def Pc.counted : Pc → Bool
  | .idleIn | .idleTop | .blocked | .woken | .idleOut => true
  | .tickle _ back | .write _ back => back.counted
  | _ => false

/-- between the push of a `schedule` call and the end of its tickle -/
def Pc.pending : Pc → Bool
  | .tickle pushed _ | .write pushed _ => pushed
  | _ => false

/-- a thread on its way to epoll_wait could take one of the entries -/
def Sys.Awaited (s : Sys) (es : List FiberAndThread) : Prop :=
  ∃ t ∈ s.threads, (s.pc t).headed = true ∧ ∃ e ∈ es, e.takeable s.state t = true

/-- a byte is in the pipe or a scheduler is in front of its tickle -/
def Sys.Due (s : Sys) : Prop := 0 < s.bytes ∨ ∃ t ∈ s.threads, (s.pc t).pending = true

/-- the condition on `schedule`: it does not take a queue that is not empty for a sign that nobody sleeps -/
def Sys.PushFits (s : Sys) (es : List FiberAndThread) : Prop := s.fibers.isEmpty = true ∨ ¬ s.Awaited es ∨ s.Due

/-- the condition on the tickle of thread `t`: it does not miss a thread that is not counted idle yet -/
def Sys.TestFits (s : Sys) (t : ℕ) : Prop :=
  0 < s.idleThreadCount ∨ 0 < s.bytes ∨ (∃ t' ∈ s.threads, t' ≠ t ∧ (s.pc t').pending = true) ∨
    ∀ t' ∈ s.threads, (s.pc t').headed = true → (s.pc t').counted = false → ∀ e ∈ s.fibers,
      e.takeable s.state t' = false

/-- the condition on an assignment that takes `f` out of EXEC: no thread has left an entry of it alone and sleeps -/
def Sys.LeavesFits (s : Sys) (f : ℕ) : Prop :=
  s.state f = .exec → s.Due ∨ ∀ t ∈ s.threads, (s.pc t).headed = true → ∀ e ∈ s.fibers, e.fiber = some f →
    e.allows t = false

/-- the condition on reading the pipe: the bytes were not for another thread -/
def Sys.DrainFits (s : Sys) : Prop := ¬ s.Awaited s.fibers ∨ ∃ t ∈ s.threads, (s.pc t).pending = true

/-- the condition on the steps inside of `run` -/
def Sys.WorkFits (s : Sys) (t : ℕ) : Pc → Prop
  | .requeue _ f => s.PushFits [⟨some (.fiber f), -1⟩]
  | .tickle true _ => s.TestFits t
  | .resetInit _ f | .setHold _ f => s.LeavesFits f
  | _ => True

/-- the condition on a yield and on the end of a fiber -/
def Sys.YieldFits (s : Sys) : Pc → Prop
  | .running _ f => s.LeavesFits f
  | _ => True

/-- the condition of a run -/
def Announced (s : Sys) : Op → Prop
  | .schedule _ es => s.PushFits es
  | .work t => s.WorkFits t (s.pc t)
  | .yieldToHold t | .yieldToReady t | .finish t => s.YieldFits (s.pc t)
  | .drain _ => s.DrainFits
  | _ => True

instance (s : Sys) (es : List FiberAndThread) : Decidable (s.Awaited es) :=
  inferInstanceAs (Decidable (∃ t ∈ s.threads, _))

instance (s : Sys) : Decidable s.Due := inferInstanceAs (Decidable (_ ∨ _))

instance (s : Sys) (es : List FiberAndThread) : Decidable (s.PushFits es) := inferInstanceAs (Decidable (_ ∨ _))

instance (s : Sys) (t : ℕ) : Decidable (s.TestFits t) := inferInstanceAs (Decidable (_ ∨ _))

instance (s : Sys) (f : ℕ) : Decidable (s.LeavesFits f) := inferInstanceAs (Decidable (_ → _))

instance (s : Sys) : Decidable s.DrainFits := inferInstanceAs (Decidable (_ ∨ _))

instance (s : Sys) (t : ℕ) : ∀ p, Decidable (s.WorkFits t p)
  | .requeue _ f => inferInstanceAs (Decidable (s.PushFits [⟨some (.fiber f), -1⟩]))
  | .tickle true _ => inferInstanceAs (Decidable (s.TestFits t))
  | .resetInit _ f | .setHold _ f => inferInstanceAs (Decidable (s.LeavesFits f))
  | .tickle false _ | .write _ _ | .off | .out | .scan | .dispatch _ | .resetAssert _ _ | .assertIn _ _ | .setExec _ _
  | .switchIn _ _ | .running _ _ | .leaving _ _ | .post _ _ | .testReady _ _ | .testTerm _ _ | .release _ _ | .idleIn
  | .idleTop | .blocked | .woken | .idleOut | .idleHold => isTrue trivial

instance (s : Sys) : ∀ p, Decidable (s.YieldFits p)
  | .running _ f => inferInstanceAs (Decidable (s.LeavesFits f))
  | .requeue _ _ | .tickle _ _ | .resetInit _ _ | .setHold _ _ | .write _ _ | .off | .out | .scan | .dispatch _
  | .resetAssert _ _ | .assertIn _ _ | .setExec _ _ | .switchIn _ _ | .leaving _ _ | .post _ _ | .testReady _ _
  | .testTerm _ _ | .release _ _ | .idleIn | .idleTop | .blocked | .woken | .idleOut | .idleHold => isTrue trivial

instance (s : Sys) : ∀ o, Decidable (Announced s o)
  | .schedule _ es => inferInstanceAs (Decidable (s.PushFits es))
  | .work t => inferInstanceAs (Decidable (s.WorkFits t (s.pc t)))
  | .yieldToHold t | .yieldToReady t | .finish t => inferInstanceAs (Decidable (s.YieldFits (s.pc t)))
  | .drain _ => inferInstanceAs (Decidable s.DrainFits)
  | .spawn _ | .enter _ | .newFiber | .throw _ | .release _ _ | .epollWait _ _ | .wake _ | .leaveIdle _ | .stop _ _
  | .timerAtFront _ => isTrue trivial

/-! ## The invariant -/

structure Tickled (s : Sys) : Prop where
  off : ∀ t, t ∉ s.threads → s.pc t = .off
  idle : Counts (fun t => (s.pc t).counted = true) s.idleThreadCount
  due : ∀ t, (s.pc t).headed = true → ∀ e ∈ s.fibers, e.takeable s.state t = true → s.Due

theorem tickled_init : Tickled init := by
  refine ⟨fun _ _ => rfl, Counts.none ?_, ?_⟩ <;> simp [init, Pc.counted, Pc.headed]

theorem takeable_mono {s s' : Sys} {e : FiberAndThread} {t : ℕ}
    (hexec : ∀ f, e.fiber = some f → s.state f = .exec → s'.state f = .exec) (he : e.takeable s'.state t = true) :
    e.takeable s.state t = true := by
  unfold FiberAndThread.takeable FiberAndThread.executing at he ⊢
  cases hf : e.fiber with
  | none => simpa [hf] using he
  | some f =>
    have := hexec f hf
    simp only [hf, Bool.and_eq_true, Bool.not_eq_true', beq_eq_false_iff_ne] at he ⊢
    exact ⟨he.1, fun hf' => he.2 (this hf')⟩

theorem Tickled.stays {s : Sys} (h : Tickled s) {t : ℕ} (ht : s.pc t ≠ .off) (t' : ℕ) (hnot : t' ∉ s.threads) :
    t' ≠ t ∧ t' ∉ s.threads :=
  others_stay h.off ht t' hnot

theorem Tickled.mem_threads {s : Sys} (h : Tickled s) {t : ℕ} (ht : s.pc t ≠ .off) : t ∈ s.threads := by
  by_contra hnot
  exact ht (h.off t hnot)

theorem Tickled.mem_of_headed {s : Sys} (h : Tickled s) {t : ℕ} (ht : (s.pc t).headed = true) : t ∈ s.threads := by
  apply h.mem_threads
  intro hoff
  rw [hoff] at ht
  cases ht

/-- one thread moves and stays counted or not counted -/
theorem counts_move {s : Sys} {n : ℕ} (h : Counts (fun t => (s.pc t).counted = true) n) {pc : ℕ → Pc} {t : ℕ} {p : Pc}
    (hpc : pc = Function.update s.pc t p) (hp : p.counted = (s.pc t).counted) :
    Counts (fun t => (pc t).counted = true) n := by
  apply h.congr
  intro t'
  by_cases hne : t' = t
  · subst hne
    rw [hpc, Function.update_self, hp]
  · rw [hpc, Function.update_of_ne hne]

/-- thread `t` moves: it was on its way to epoll_wait, or there is nothing that it may take -/
theorem Tickled.move {s s' : Sys} (h : Tickled s) {t : ℕ} {p : Pc}
    (hthreads : ∀ t', t' ∉ s'.threads → t' ≠ t ∧ t' ∉ s.threads) (hpc : s'.pc = Function.update s.pc t p)
    (hidle : Counts (fun t => (s'.pc t).counted = true) s'.idleThreadCount)
    (hqueue : ∀ e ∈ s'.fibers, e ∈ s.fibers) (hexec : ∀ f, s.state f = .exec → s'.state f = .exec)
    (hhead : p.headed = true → (s.pc t).headed = true ∨ ∀ e ∈ s'.fibers, e.takeable s'.state t = false)
    (hdue : s.Due → s'.Due) : Tickled s' := by
  refine ⟨?_, hidle, ?_⟩
  · intro t' hnot
    obtain ⟨hne, hnot⟩ := hthreads t' hnot
    rw [hpc, Function.update_of_ne hne]
    exact h.off t' hnot
  · intro t' hhead' e he htake
    have hold : e.takeable s.state t' = true := takeable_mono (fun f _ => hexec f) htake
    by_cases hne : t' = t
    · subst hne
      rw [hpc, Function.update_self] at hhead'
      rcases hhead hhead' with hheaded | hnone
      · exact hdue (h.due t' hheaded e (hqueue e he) hold)
      · rw [hnone e he] at htake
        cases htake
    · rw [hpc, Function.update_of_ne hne] at hhead'
      exact hdue (h.due t' hhead' e (hqueue e he) hold)

/-- a tickle that is coming stays when a thread moves that is not the one to write it -/
theorem Sys.Due.move {s s' : Sys} (h : s.Due) {t : ℕ} {p : Pc} (hthreads : ∀ t' ∈ s.threads, t' ∈ s'.threads)
    (hpc : s'.pc = Function.update s.pc t p) (hbytes : s.bytes ≤ s'.bytes)
    (hpending : (s.pc t).pending = true → p.pending = true ∨ 0 < s'.bytes) : s'.Due := by
  rcases h with hpos | ⟨t', ht', hpend⟩
  · exact .inl (hpos.trans_le hbytes)
  · by_cases hne : t' = t
    · subst hne
      rcases hpending hpend with hp | hpos
      · exact .inr ⟨t', hthreads t' ht', by rw [hpc, Function.update_self, hp]⟩
      · exact .inl hpos
    · exact .inr ⟨t', hthreads t' ht', by rw [hpc, Function.update_of_ne hne, hpend]⟩

/-- thread `t` moves and nothing else changes that counts here -/
theorem Tickled.goto {s s' : Sys} (h : Tickled s) {t : ℕ} {p : Pc} (ht : s.pc t ≠ .off)
    (hthreads : s'.threads = s.threads) (hpc : s'.pc = Function.update s.pc t p)
    (hidle : s'.idleThreadCount = s.idleThreadCount) (hqueue : s'.fibers = s.fibers)
    (hexec : ∀ f, s.state f = .exec → s'.state f = .exec) (hbytes : s'.bytes = s.bytes)
    (hcounted : p.counted = (s.pc t).counted) (hhead : p.headed = true → (s.pc t).headed = true)
    (hpending : (s.pc t).pending = true → p.pending = true) : Tickled s' := by
  refine h.move (hthreads ▸ h.stays ht) hpc (hidle ▸ counts_move h.idle hpc hcounted) (by rw [hqueue]; simp) hexec
    (fun hp => .inl (hhead hp)) ?_
  intro hdue
  exact hdue.move (by rw [hthreads]; simp) hpc hbytes.ge fun hp => .inl (hpending hp)

theorem Tickled.congr {s s' : Sys} (h : Tickled s) (hthreads : s'.threads = s.threads) (hpc : s'.pc = s.pc)
    (hidle : s'.idleThreadCount = s.idleThreadCount) (hqueue : s'.fibers = s.fibers) (hstate : s'.state = s.state)
    (hbytes : s'.bytes = s.bytes) : Tickled s' := by
  refine ⟨by rw [hthreads, hpc]; exact h.off, by rw [hpc, hidle]; exact h.idle, ?_⟩
  rw [hpc, hqueue, hstate]
  unfold Sys.Due
  rw [hbytes, hthreads, hpc]
  exact h.due

/-- thread `t` writes the state of a fiber: nobody sleeps over an entry that can be taken now -/
theorem Tickled.assign {s s' : Sys} (h : Tickled s) {t f : ℕ} {x : State} {p : Pc} (ht : s.pc t ≠ .off)
    (hthreads : s'.threads = s.threads) (hpc : s'.pc = Function.update s.pc t p)
    (hidle : s'.idleThreadCount = s.idleThreadCount) (hqueue : s'.fibers = s.fibers)
    (hstate : s'.state = Function.update s.state f x) (hbytes : s'.bytes = s.bytes)
    (hcounted : p.counted = (s.pc t).counted) (hhead : p.headed = false) (hpending : (s.pc t).pending = false)
    (hfits : x ≠ .exec → s.LeavesFits f) : Tickled s' := by
  have hdue : s.Due → s'.Due := by
    intro hdue
    apply hdue.move (by rw [hthreads]; simp) hpc hbytes.ge
    simp [hpending]
  refine ⟨?_, hidle ▸ counts_move h.idle hpc hcounted, ?_⟩
  · intro t' hnot
    obtain ⟨hne, hnot⟩ := h.stays ht t' (hthreads ▸ hnot)
    rw [hpc, Function.update_of_ne hne]
    exact h.off t' hnot
  · intro t' hhead' e he htake
    have hne : t' ≠ t := by
      rintro rfl
      rw [hpc, Function.update_self, hhead] at hhead'
      cases hhead'
    rw [hpc, Function.update_of_ne hne] at hhead'
    rw [hqueue] at he
    apply hdue
    by_cases hold : e.takeable s.state t' = true
    · exact h.due t' hhead' e he hold
    · -- the entry was left alone because of this fiber
      have hef : e.fiber = some f ∧ s.state f = .exec ∧ x ≠ .exec := by
        by_contra hnot
        apply hold
        refine takeable_mono ?_ htake
        intro g hg hexec
        rw [hstate]
        by_cases hgf : g = f
        · subst hgf
          rw [Function.update_self]
          by_contra hx
          exact hnot ⟨hg, hexec, hx⟩
        · rwa [Function.update_of_ne hgf]
      obtain ⟨hef, hexec, hx⟩ := hef
      rcases hfits hx hexec with hdue' | hnone
      · exact hdue'
      · have hallow : e.allows t' = true := by
          unfold FiberAndThread.takeable at htake
          exact (Bool.and_eq_true_iff.1 htake).1
        rw [hnone t' (h.mem_of_headed hhead') hhead' e he hef] at hallow
        cases hallow

/-- the critical section of `schedule`: the caller announces the entries if the queue was empty -/
theorem Tickled.push {s : Sys} (h : Tickled s) {t : ℕ} {es : List FiberAndThread} {back : Pc} (ht : s.pc t ≠ .off)
    (hcounted : back.counted = (s.pc t).counted) (hhead : back.headed = false) (hpending : (s.pc t).pending = false)
    (hfits : s.PushFits es) : Tickled (s.push t es back) := by
  unfold Sys.push
  generalize hp : (if s.fibers.isEmpty && !es.isEmpty then Pc.tickle true back else back) = p
  have hp' : p.counted = back.counted ∧ p.headed = back.headed := by
    rw [← hp]
    split_ifs <;> exact ⟨rfl, rfl⟩
  have hmem := h.mem_threads ht
  refine ⟨?_, counts_move h.idle rfl (hp'.1.trans hcounted), ?_⟩
  · intro t' hnot
    obtain ⟨hne, hnot⟩ := h.stays ht t' hnot
    exact (Function.update_of_ne hne _ _).trans (h.off t' hnot)
  · intro t' hhead' e he htake
    have hdue : s.Due → ({ s.goto t p with fibers := s.fibers ++ es.filter (·.task.isSome) } : Sys).Due := by
      intro hdue
      refine hdue.move (fun _ => id) rfl le_rfl ?_
      simp [hpending]
    have hne : t' ≠ t := by
      rintro rfl
      simp only [Sys.goto, Function.update_self, hp'.2, hhead] at hhead'
      cases hhead'
    simp only [Sys.goto, Function.update_of_ne hne] at hhead' htake
    rcases List.mem_append.1 he with he | he
    · exact hdue (h.due t' hhead' e he htake)
    · have hes := List.mem_of_mem_filter he
      rcases hfits with hempty | hnone | hdue'
      · -- the caller is in front of its tickle
        refine .inr ⟨t, hmem, ?_⟩
        have hcons : es.isEmpty = false := by
          cases es with
          | nil => cases hes
          | cons => rfl
        rw [if_pos (by simp [hempty, hcons])] at hp
        simp [Sys.goto, ← hp, Pc.pending]
      · exact absurd ⟨t', h.mem_of_headed hhead', hhead', e, hes, htake⟩ hnone
      · exact hdue hdue'

/-! ## The steps -/

/-- a scan that took nothing left nothing that the thread may take -/
theorem Tickled.scan {s : Sys} (h : Tickled s) {t : ℕ} (hpc : s.pc t = .scan) : Tickled (s.work t) := by
  have ht : s.pc t ≠ .off := by simp [hpc]
  unfold Sys.work
  rw [hpc]
  dsimp only
  by_cases hok : (Scheduler.scan s.state t s.fibers).asserted = true
  swap
  · rw [if_neg hok]
    exact h.congr rfl rfl rfl rfl rfl rfl
  rw [if_pos hok]
  generalize hp : (if (Scheduler.scan s.state t s.fibers).tickleMe = true then
    Pc.tickle false (.dispatch (Scheduler.scan s.state t s.fibers).ft)
    else .dispatch (Scheduler.scan s.state t s.fibers).ft) = p
  have hp' : p.counted = false ∧ p.headed = (Pc.dispatch (Scheduler.scan s.state t s.fibers).ft).headed := by
    rw [← hp]
    split_ifs <;> exact ⟨rfl, rfl⟩
  have hcounts : Counts (fun t' => ((s.goto t p).pc t').counted = true) s.idleThreadCount := by
    apply counts_move h.idle rfl
    rw [hp'.1, hpc]
    rfl
  have hdue : s.Due → (s.goto t p).Due := by
    intro hdue
    refine hdue.move (fun _ => id) rfl le_rfl ?_
    simp [hpc, Pc.pending]
  cases hft : (Scheduler.scan s.state t s.fibers).ft with
  | none =>
    obtain ⟨hfibers, hnone⟩ := scan_none hok hft
    refine h.move (h.stays ht) rfl hcounts ?_ (fun _ => id) ?_ hdue
    · rw [hfibers]
      exact fun _ => id
    · intro _
      rw [hfibers]
      exact .inr hnone
  | some ft =>
    obtain ⟨a, b, hqueue, hfibers, -, -⟩ := scan_some hft
    refine h.move (h.stays ht) rfl hcounts ?_ (fun _ => id) ?_ hdue
    · rw [hfibers, hqueue]
      intro e he
      rcases List.mem_append.1 he with he | he
      · exact List.mem_append_left _ he
      · exact List.mem_append_right _ (List.mem_cons_of_mem _ he)
    · intro hhead
      rw [hp'.2, hft] at hhead
      cases hhead

/-- a worker without a task is counted idle, or leaves `run` -/
theorem Tickled.dispatch {s : Sys} (h : Tickled s) {t : ℕ} {ft : Option FiberAndThread} (hpc : s.pc t = .dispatch ft) :
    Tickled (s.work t) := by
  have ht : s.pc t ≠ .off := by simp [hpc]
  unfold Sys.work
  rw [hpc]
  cases ft with
  | none =>
    dsimp only
    split_ifs
    · refine h.goto ht rfl rfl rfl rfl (fun _ => id) rfl ?_ ?_ ?_ <;>
        simp [hpc, Pc.counted, Pc.headed, Pc.pending]
    · refine h.move (h.stays ht) rfl ?_ (fun _ => id) (fun _ => id) ?_ ?_
      · apply h.idle.gain (a := t) (by simp [hpc, Pc.counted])
        intro t'
        by_cases hne : t' = t
        · subst hne
          simp [Sys.goto, Pc.counted]
        · simp [Sys.goto, hne]
      · intro _
        exact .inl (by rw [hpc]; rfl)
      · intro hdue
        refine hdue.move (fun _ => id) rfl le_rfl ?_
        simp [hpc, Pc.pending]
  | some ft =>
    dsimp only
    have hmove : ∀ (s' : Sys) (p : Pc), s'.threads = s.threads → s'.pc = Function.update s.pc t p →
        s'.idleThreadCount = s.idleThreadCount → s'.fibers = s.fibers → s'.state = s.state → s'.bytes = s.bytes →
        p.counted = false → p.headed = false → Tickled s' := by
      intro s' p hthreads hpc' hidle hqueue hstate hbytes hcounted hhead
      refine h.goto ht hthreads hpc' hidle hqueue (by rw [hstate]; exact fun _ => id) hbytes ?_ ?_ ?_ <;>
        simp [hpc, Pc.counted, Pc.pending, hcounted, hhead]
    split
    · split_ifs <;> exact hmove _ _ rfl rfl rfl rfl rfl rfl rfl rfl
    · split <;> exact hmove _ _ rfl rfl rfl rfl rfl rfl rfl rfl
    · exact hmove _ _ rfl rfl rfl rfl rfl rfl rfl rfl

/-- the tickle of a scheduler finds a thread that is counted, or nobody sleeps over the queue -/
theorem Tickled.tickle {s : Sys} (h : Tickled s) {t : ℕ} {pushed : Bool} {back : Pc} (hpc : s.pc t = .tickle pushed back)
    (hfits : pushed = true → s.TestFits t) : Tickled (s.work t) := by
  have ht : s.pc t ≠ .off := by simp [hpc]
  unfold Sys.work
  rw [hpc]
  dsimp only
  split_ifs with hidle
  · refine h.goto ht rfl rfl rfl rfl (fun _ => id) rfl ?_ ?_ ?_ <;>
      simp [hpc, Pc.counted, Pc.headed, Pc.pending]
  · cases pushed with
    | false =>
      refine h.goto ht rfl rfl rfl rfl (fun _ => id) rfl ?_ ?_ ?_ <;>
        simp [hpc, Pc.counted, Pc.headed, Pc.pending]
    | true =>
      have hcounted : back.counted = (s.pc t).counted := by rw [hpc]; rfl
      refine ⟨?_, counts_move h.idle rfl hcounted, ?_⟩
      · intro t' hnot
        obtain ⟨hne, hnot⟩ := h.stays ht t' hnot
        exact (Function.update_of_ne hne _ _).trans (h.off t' hnot)
      · intro t' hhead e he htake
        have hhead' : (s.pc t').headed = true := by
          by_cases hne : t' = t
          · subst hne
            simpa [Sys.goto, hpc, Pc.headed] using hhead
          · simpa [Sys.goto, hne] using hhead
        -- nobody is counted
        have hnot : (s.pc t').counted = false := by
          cases hc : (s.pc t').counted with
          | false => rfl
          | true => exact absurd (h.idle.pos hc) hidle
        rcases hfits rfl with hpos | hpos | ⟨t'', ht'', hne, hpend⟩ | hnone
        · exact absurd hpos hidle
        · exact .inl hpos
        · exact .inr ⟨t'', ht'', by simp [Sys.goto, hne, hpend]⟩
        · have hfalse : e.takeable (s.goto t back).state t' = false :=
            hnone t' (h.mem_of_headed hhead') hhead' hnot e he
          rw [hfalse] at htake
          cases htake

theorem work_tickled {s : Sys} (h : Tickled s) (t : ℕ) (hfits : s.WorkFits t (s.pc t)) : Tickled (s.work t) := by
  have habort : Tickled s.abort := h.congr rfl rfl rfl rfl rfl rfl
  cases hpc : s.pc t with
  | scan => exact h.scan hpc
  | dispatch ft => exact h.dispatch hpc
  | tickle pushed back =>
    apply h.tickle hpc
    rintro rfl
    rwa [hpc] at hfits
  | write pushed back =>
    have ht : s.pc t ≠ .off := by simp [hpc]
    unfold Sys.work
    rw [hpc]
    refine h.move (h.stays ht) rfl (counts_move h.idle rfl (by rw [hpc]; rfl)) (fun _ => id) (fun _ => id) ?_ ?_
    · intro hhead
      exact .inl (by rw [hpc]; exact hhead)
    · exact fun _ => .inl (Nat.succ_pos _)
  | requeue k f =>
    have ht : s.pc t ≠ .off := by simp [hpc]
    rw [hpc] at hfits
    unfold Sys.work
    rw [hpc]
    exact h.push ht (by rw [hpc]; rfl) rfl (by rw [hpc]; rfl) hfits
  | resetInit behind f =>
    have ht : s.pc t ≠ .off := by simp [hpc]
    rw [hpc] at hfits
    unfold Sys.work
    rw [hpc]
    dsimp only
    split_ifs <;> refine h.assign ht rfl rfl rfl rfl rfl rfl ?_ rfl ?_ (fun _ => hfits) <;> rw [hpc] <;> rfl
  | setHold k f =>
    have ht : s.pc t ≠ .off := by simp [hpc]
    rw [hpc] at hfits
    unfold Sys.work
    rw [hpc]
    refine h.assign ht rfl rfl rfl rfl rfl rfl ?_ rfl ?_ (fun _ => hfits) <;> rw [hpc] <;> rfl
  | setExec k f =>
    have ht : s.pc t ≠ .off := by simp [hpc]
    unfold Sys.work
    rw [hpc]
    refine h.assign ht rfl rfl rfl rfl rfl rfl ?_ rfl ?_ (fun hx => absurd rfl hx) <;> rw [hpc] <;> rfl
  | idleOut =>
    have ht : s.pc t ≠ .off := by simp [hpc]
    unfold Sys.work
    rw [hpc]
    refine h.move (h.stays ht) rfl ?_ (fun _ => id) (fun _ => id) ?_ ?_
    · apply h.idle.lose (a := t) (by simp [hpc, Pc.counted])
      intro t'
      by_cases hne : t' = t
      · subst hne
        simp [Sys.goto, Pc.counted]
      · simp [Sys.goto, hne]
    · simp [Pc.headed]
    · intro hdue
      refine hdue.move (fun _ => id) rfl le_rfl ?_
      simp [hpc, Pc.pending]
  | resetAssert behind f | assertIn k f | idleIn =>
    have ht : s.pc t ≠ .off := by simp [hpc]
    unfold Sys.work
    rw [hpc]
    dsimp only
    split_ifs
    all_goals first
      | exact habort
      | refine h.goto ht rfl rfl rfl rfl (fun _ => id) rfl ?_ ?_ ?_ <;> simp [hpc, Pc.counted, Pc.headed, Pc.pending]
  | testReady k f | idleHold =>
    have ht : s.pc t ≠ .off := by simp [hpc]
    unfold Sys.work
    rw [hpc]
    dsimp only
    split_ifs <;> refine h.goto ht rfl rfl rfl rfl (fun _ => id) rfl ?_ ?_ ?_ <;>
      simp [hpc, Pc.counted, Pc.headed, Pc.pending]
  | testTerm k f =>
    have ht : s.pc t ≠ .off := by simp [hpc]
    unfold Sys.work
    rw [hpc]
    dsimp only
    cases k <;> split_ifs <;> refine h.goto ht rfl rfl rfl rfl (fun _ => id) rfl ?_ ?_ ?_ <;>
      simp [hpc, Pc.counted, Pc.headed, Pc.pending]
  | running k f =>
    unfold Sys.work
    rw [hpc]
    dsimp only
    split_ifs
    · exact habort
    · exact h
  | off | out | release | idleTop | blocked | woken =>
    unfold Sys.work
    rw [hpc]
    exact h
  | switchIn | leaving | post =>
    have ht : s.pc t ≠ .off := by simp [hpc]
    unfold Sys.work
    rw [hpc]
    refine h.goto ht rfl rfl rfl rfl (fun _ => id) rfl ?_ ?_ ?_ <;> simp [hpc, Pc.counted, Pc.headed, Pc.pending]

/-- a fiber writes its state and leaves its stack -/
theorem Tickled.swapOut {s : Sys} (h : Tickled s) (t : ℕ) {x : State} {ended : Bool}
    (hfits : x ≠ .exec → s.YieldFits (s.pc t)) : Tickled (s.swapOut t x ended) := by
  unfold Sys.swapOut
  split
  · rename_i k f hpc
    split_ifs
    · exact h
    · rw [hpc] at hfits
      refine h.assign (t := t) (by simp [hpc]) rfl rfl rfl rfl rfl rfl ?_ rfl ?_ hfits <;> rw [hpc] <;> rfl
  · exact h

/-- the pipe is read: nobody sleeps over the queue, or a scheduler is in front of its tickle -/
theorem Tickled.drain {s : Sys} (h : Tickled s) (hfits : s.DrainFits) : Tickled { s with bytes := 0 } := by
  refine ⟨h.off, h.idle, ?_⟩
  intro t hhead e he htake
  rcases hfits with hnone | hpend
  · exact absurd ⟨t, h.mem_of_headed hhead, hhead, e, he, htake⟩ hnone
  · exact .inr hpend

theorem step_tickled (s : Sys) (o : Op) (h : Tickled s) (hfits : Announced s o) : Tickled (step s o) := by
  unfold step
  split_ifs
  · exact h
  cases o with
  | spawn t =>
    dsimp only
    split_ifs with hoff
    · refine h.move (p := .out) (t := t) ?_ rfl (counts_move h.idle rfl (by rw [hoff]; rfl)) (fun _ => id) (fun _ => id)
        ?_ ?_
      · intro t' hnot
        simp only [List.mem_append, List.mem_singleton, not_or] at hnot
        exact hnot.symm
      · simp [Pc.headed]
      · intro hdue
        refine hdue.move (fun _ => List.mem_append_left _) rfl le_rfl ?_
        simp [hoff, Pc.pending]
    · exact h
  | enter t =>
    dsimp only
    split_ifs with hpc
    · refine h.goto (t := t) (by simp [hpc]) rfl rfl rfl rfl (fun _ => id) rfl ?_ ?_ ?_ <;>
        simp [hpc, Pc.counted, Pc.headed, Pc.pending]
    · exact h
  | newFiber => exact h.congr rfl rfl rfl rfl rfl rfl
  | work t => exact work_tickled h t hfits
  | schedule t es =>
    dsimp only
    split_ifs with hcall
    · have hpc : s.pc t ≠ .off ∧ (s.pc t).headed = false ∧ (s.pc t).pending = false := by
        have hcalls := hcall.1
        unfold Sys.calls at hcalls
        split at hcalls <;> simp_all [Pc.headed, Pc.pending]
      exact h.push hpc.1 rfl hpc.2.1 hpc.2.2 hfits
    · exact h
  | yieldToHold t | yieldToReady t | finish t => exact h.swapOut t fun _ => hfits
  | throw t => exact h.swapOut t fun hx => absurd rfl hx
  | release t last =>
    dsimp only
    split
    · rename_i k f hpc
      split_ifs
      · exact h.congr rfl rfl rfl rfl rfl rfl
      · refine h.goto (t := t) (by simp [hpc]) rfl rfl rfl rfl (fun _ => id) rfl ?_ ?_ ?_ <;>
          simp [hpc, Pc.counted, Pc.headed, Pc.pending]
    · exact h
  | epollWait t quiet =>
    dsimp only
    split_ifs with hpc
    · refine h.goto (t := t) (by simp [hpc]) rfl rfl rfl rfl (fun _ => id) rfl ?_ ?_ ?_ <;>
        simp [hpc, Pc.counted, Pc.headed, Pc.pending]
    · refine h.goto (t := t) (by simp [hpc]) rfl rfl rfl rfl (fun _ => id) rfl ?_ ?_ ?_ <;>
        simp [hpc, Pc.counted, Pc.headed, Pc.pending]
    · exact h
  | wake t | leaveIdle t =>
    dsimp only
    split_ifs with hpc
    · refine h.goto (t := t) (by simp [hpc]) rfl rfl rfl rfl (fun _ => id) rfl ?_ ?_ ?_ <;>
        simp [hpc, Pc.counted, Pc.headed, Pc.pending]
    · exact h
  | drain t =>
    dsimp only
    split_ifs
    · exact h.drain hfits
    · exact h
  | stop t n =>
    dsimp only
    split_ifs with hpc
    · refine h.goto (t := t) (by simp [hpc]) rfl rfl rfl rfl (fun _ => id) rfl ?_ ?_ ?_
      · simp [iterate_tickle (φ := Pc.counted) (fun _ => rfl), hpc]
      · simp [iterate_tickle (φ := Pc.headed) (fun _ => rfl), hpc]
      · simp [hpc, Pc.pending]
    · exact h
  | timerAtFront t =>
    dsimp only
    split_ifs with hcalls
    · have hpc : s.pc t ≠ .off ∧ (s.pc t).pending = false := by
        unfold Sys.calls at hcalls
        split at hcalls <;> simp_all [Pc.pending]
      refine h.goto hpc.1 rfl rfl rfl rfl (fun _ => id) rfl ?_ ?_ ?_ <;>
        simp [hpc.2, Pc.counted, Pc.headed]
    · exact h

/-! ## Main results -/

/-- when no scheduler is in front of its tickle, a blocked thread that may take an entry has a byte waiting -/
def NoMissedTickle (s : Sys) : Prop :=
  (∀ t, (s.pc t).pending = false) → ∀ t, s.pc t = .blocked → ∀ e ∈ s.fibers, e.takeable s.state t = true → 0 < s.bytes

theorem Tickled.noMissedTickle {s : Sys} (h : Tickled s) : NoMissedTickle s := by
  intro hpending t hblocked e he htake
  rcases h.due t (by rw [hblocked]; rfl) e he htake with hpos | ⟨t', -, hpend⟩
  · exact hpos
  · rw [hpending t'] at hpend
    cases hpend

/-- **No missed tickle.** In every run that keeps the condition, the property holds in all states. -/
theorem no_missed_tickle (ops : List Op) (h : Guarded step Announced init ops) :
    ∀ pre, pre <+: ops → NoMissedTickle (run step init pre) := by
  intro pre hpre
  exact (states_inv step_tickled tickled_init h pre hpre).noMissedTickle

/-- worker 1 finds nothing and blocks; a callback is scheduled, and the tickle writes its byte -/
def announcedTrace : List Op :=
  [.spawn 0, .spawn 1, .enter 1, .work 1, .work 1, .work 1, .epollWait 1 false, .schedule 0 [⟨some (.cb 7), -1⟩],
    .work 0, .work 0]

theorem no_missed_tickle_example :
    let s := run step init announcedTrace
    s.pc 1 = .blocked ∧ s.fibers = [⟨some (.cb 7), -1⟩] ∧ s.bytes = 1 ∧
      ∀ pre, pre <+: announcedTrace → NoMissedTickle (run step init pre) :=
  ⟨by decide, by decide, by decide, no_missed_tickle announcedTrace (by decide)⟩

/-- worker 2 runs callback 6, and callback 7 for worker 2 is queued; worker 1 leaves it alone and blocks; then callback 8
for any thread is scheduled -/
def pinnedEntryTrace : List Op :=
  [.spawn 0, .spawn 1, .spawn 2, .enter 2, .schedule 0 [⟨some (.cb 6), -1⟩], .work 0, .work 2, .work 2, .work 2, .work 2,
    .work 2, .schedule 0 [⟨some (.cb 7), 2⟩], .work 0, .enter 1, .work 1, .work 1, .work 1, .work 1,
    .epollWait 1 false, .schedule 0 [⟨some (.cb 8), -1⟩]]

/-- **A queue that is never empty.** The entry for worker 2 is still queued, so callback 8 is not announced: worker 2 is
busy, worker 1 may take it and sleeps, nothing is in the pipe, and no scheduler is in front of a tickle. -/
theorem queue_never_empty :
    let s := run step init pinnedEntryTrace
    ¬ NoMissedTickle s ∧ s.pc 2 = .running .cb 0 ∧ s.pc 1 = .blocked ∧
      s.fibers = [⟨some (.cb 7), 2⟩, ⟨some (.cb 8), -1⟩] ∧ s.bytes = 0 ∧ s.aborted = false := by
  have hblocked : (run step init pinnedEntryTrace).pc 1 = .blocked := by decide
  have hfibers : (run step init pinnedEntryTrace).fibers = [⟨some (.cb 7), 2⟩, ⟨some (.cb 8), -1⟩] := by decide
  have hbytes : (run step init pinnedEntryTrace).bytes = 0 := by decide
  refine ⟨?_, by decide, hblocked, hfibers, hbytes, by decide⟩
  intro h
  have hpending : ∀ t, ((run step init pinnedEntryTrace).pc t).pending = false := by
    intro t
    match t with
    | 0 | 1 | 2 => rfl
    | t + 3 => rfl
  have htake : (⟨some (.cb 8), -1⟩ : FiberAndThread).takeable (run step init pinnedEntryTrace).state 1 = true := by
    decide
  have hpos := h hpending 1 hblocked ⟨some (.cb 8), -1⟩ (by rw [hfibers]; simp) htake
  rw [hbytes] at hpos
  exact lt_irrefl 0 hpos

end Sylar.Scheduler

/-
IO events of `IOManager`: addEvent, delEvent, cancelEvent and cancelAll on any number of contexts, and idle threads that
first obtain reports from epoll_wait and process them one by one later.

A step is the critical section of one `FdContext`, with epoll_ctl succeeding, so the interest list of the kernel is
`events` of the contexts. A report names events that were registered when epoll_wait returned; by the time it is
processed any of them may have been taken away. A failed assertion ends the program: no step changes anything then.

Each successful addEvent has a number, its place in `registrations`. `log` says how the registrations were resolved, and
`triggers` keeps the calls of triggerEvent with the truth of its assertion.

Results:
- `step_inv`: every registration is on exactly one context or resolved, and the counter is the number of bits set;
- `events_resolved_iff`: in all states of a run triggerEvent is only called on registered events, each registration is
  resolved at most once, and `m_pendingEventCount` is right, exactly when each report that is processed finds all of its
  events registered or none;
- `stale_report_aborts`: one event of a report is deleted before the report is processed, and triggerEvent asserts.
-/
import Sylar.Core.Run
import Sylar.Core.Count

namespace Sylar.IOManager

open Sylar.Run Sylar.Count

/-! ## Model -/

inductive Event where
  | read
  | write
deriving DecidableEq, Repr

/-- what an event runs -/
inductive Task where
  | fiber (f : ℕ)
  | cb (n : ℕ)
deriving DecidableEq, Repr

structure EventContext where
  scheduler : Option ℕ
  fiber : Option ℕ
  cb : Option ℕ
deriving DecidableEq, Repr

def EventContext.empty : EventContext := ⟨none, none, none⟩

/-- the context that addEvent leaves behind -/
def EventContext.of (scheduler : ℕ) : Task → EventContext
  | .fiber f => ⟨some scheduler, some f, none⟩
  | .cb n => ⟨some scheduler, none, some n⟩

structure FdContext where
  /-- the fields `read` and `write` -/
  getContext : Event → EventContext
  events : Event → Bool
  /-- the number of the registration, while the event is set -/
  registration : Event → ℕ

def FdContext.new : FdContext := ⟨fun _ => .empty, fun _ => false, fun _ => 0⟩

/-- `FdContext::resetContext` on an event whose bit is taken away -/
def FdContext.clear (x : FdContext) (e : Event) : FdContext :=
  { x with getContext := Function.update x.getContext e .empty, events := Function.update x.events e false }

/-- the scheduler called and the task it is given -/
structure Scheduled where
  scheduler : Option ℕ
  task : Option Task
deriving DecidableEq, Repr

/-- `FdContext::triggerEvent`; `none`: the assertion fails. `schedule` takes the task out of the context. -/
def FdContext.triggerEvent (x : FdContext) (e : Event) : Option (Scheduled × FdContext) :=
  if x.events e then
    let ctx := x.getContext e
    let (task, ctx') := match ctx.cb with
      | some n => (some (Task.cb n), { ctx with cb := none })
      | none => (ctx.fiber.map Task.fiber, { ctx with fiber := none })
    some (⟨ctx.scheduler, task⟩, { x with
      events := Function.update x.events e false
      getContext := Function.update x.getContext e { ctx' with scheduler := none } })
  else none

/-- an `epoll_event` on a context: EPOLLIN and EPOLLOUT, and whether EPOLLERR or EPOLLHUP is set -/
structure Report where
  ctx : ℕ
  events : Event → Bool
  err : Bool

inductive Resolution where
  | scheduled (registration : ℕ) (call : Scheduled)
  | deleted (registration : ℕ)
deriving DecidableEq, Repr

def Resolution.registration : Resolution → ℕ
  | .scheduled r _ | .deleted r => r

structure Trigger where
  ctx : ℕ
  event : Event
  /-- `events & event` -/
  registered : Bool
deriving DecidableEq, Repr

structure Sys where
  contexts : ℕ → FdContext
  /-- an integer, so that a fall below zero shows -/
  pendingEventCount : ℤ
  /-- what the threads have obtained from epoll_wait and not processed -/
  reports : ℕ → List Report
  registrations : List (ℕ × Task)
  log : List Resolution
  triggers : List Trigger
  aborted : Bool

def init : Sys := ⟨fun _ => .new, 0, fun _ => [], [], [], [], false⟩

inductive Op where
  | addEvent (c : ℕ) (e : Event) (scheduler : ℕ) (task : Task)
  | delEvent (c : ℕ) (e : Event)
  | cancelEvent (c : ℕ) (e : Event)
  | cancelAll (c : ℕ)
  | epollWait (t : ℕ) (reports : List Report)
  | process (t : ℕ)

def Sys.setContext (s : Sys) (c : ℕ) (x : FdContext) : Sys := { s with contexts := Function.update s.contexts c x }

/-- `triggerEvent(e); --m_pendingEventCount` -/
def Sys.trigger (s : Sys) (c : ℕ) (e : Event) : Sys :=
  if s.aborted then s
  else match (s.contexts c).triggerEvent e with
    | some (call, x) =>
      { s.setContext c x with
        pendingEventCount := s.pendingEventCount - 1
        log := s.log ++ [.scheduled ((s.contexts c).registration e) call]
        triggers := s.triggers ++ [⟨c, e, true⟩] }
    | none => { s with triggers := s.triggers ++ [⟨c, e, false⟩], aborted := true }

/-- epoll_wait reports what is registered, and errors of what is -/
def Sys.reportable (s : Sys) (r : Report) : Prop :=
  let events := (s.contexts r.ctx).events
  (r.events .read = true → events .read = true) ∧ (r.events .write = true → events .write = true) ∧
    (events .read = true ∨ events .write = true)

instance (s : Sys) (r : Report) : Decidable (s.reportable r) := inferInstanceAs (Decidable (_ ∧ _ ∧ _))

/-- `real_events` in idle -/
def Sys.realEvents (s : Sys) (r : Report) (e : Event) : Bool :=
  r.events e || (r.err && (s.contexts r.ctx).events e)

/-- `(fd_ctx->events & real_events) == NONE` -/
def Sys.misses (s : Sys) (r : Report) : Bool :=
  !((s.contexts r.ctx).events .read && s.realEvents r .read) &&
    !((s.contexts r.ctx).events .write && s.realEvents r .write)

/-- the body of the loop over the reports in `IOManager::idle` -/
def Sys.processReport (s : Sys) (r : Report) : Sys :=
  if s.misses r then s
  else
    let s' := if s.realEvents r .read then s.trigger r.ctx .read else s
    if s.realEvents r .write then s'.trigger r.ctx .write else s'

def step (s : Sys) (o : Op) : Sys :=
  if s.aborted then s
  else match o with
    | .addEvent c e scheduler task =>
      let x := s.contexts c
      if x.events e then { s with aborted := true }
      else
        let s' := { s.setContext c { x with events := Function.update x.events e true } with
          pendingEventCount := s.pendingEventCount + 1 }
        if x.getContext e = .empty then
          { s'.setContext c { x with
              events := Function.update x.events e true
              getContext := Function.update x.getContext e (.of scheduler task)
              registration := Function.update x.registration e s.registrations.length } with
            registrations := s.registrations ++ [(scheduler, task)] }
        else { s' with aborted := true }
    | .delEvent c e =>
      let x := s.contexts c
      if x.events e then
        { s.setContext c (x.clear e) with
          pendingEventCount := s.pendingEventCount - 1
          log := s.log ++ [.deleted (x.registration e)] }
      else s
    | .cancelEvent c e => if (s.contexts c).events e then s.trigger c e else s
    | .cancelAll c =>
      let s1 := if (s.contexts c).events .read then s.trigger c .read else s
      let s2 := if (s1.contexts c).events .write then s1.trigger c .write else s1
      if (s2.contexts c).events .read || (s2.contexts c).events .write then { s2 with aborted := true } else s2
    | .epollWait t reports =>
      if s.reports t = [] ∧ ∀ r ∈ reports, s.reportable r then { s with reports := Function.update s.reports t reports }
      else s
    | .process t =>
      match s.reports t with
      | [] => s
      | r :: rest => { s with reports := Function.update s.reports t rest }.processReport r

/-- the condition on a report: all of its events are still registered, or nothing it could trigger is -/
def Sys.fits (s : Sys) (r : Report) : Bool :=
  s.misses r || ((!r.events .read || (s.contexts r.ctx).events .read) &&
    (!r.events .write || (s.contexts r.ctx).events .write))

/-- the condition of a run: the report processed fits -/
def ReportFits (s : Sys) : Op → Prop
  | .process t => s.aborted = false → ∀ r ∈ (s.reports t).head?, s.fits r = true
  | _ => True

/-! ## The invariant -/

/-- event `e` is registered on context `c` -/
def Registered (s : Sys) (i : ℕ × Event) : Prop := (s.contexts i.1).events i.2 = true

def number (s : Sys) (i : ℕ × Event) : ℕ := (s.contexts i.1).registration i.2

def resolved (log : List Resolution) : List ℕ := log.map Resolution.registration

structure Inv (s : Sys) : Prop where
  empty : ∀ c e, (s.contexts c).events e = false → (s.contexts c).getContext e = .empty
  current : ∀ i, Registered s i → ∃ scheduler task, s.registrations[number s i]? = some (scheduler, task) ∧
    (s.contexts i.1).getContext i.2 = .of scheduler task
  distinct : ∀ i j, Registered s i → Registered s j → number s i = number s j → i = j
  pending : ∀ i, Registered s i → number s i ∉ resolved s.log
  once : (resolved s.log).Nodup
  known : ∀ r ∈ resolved s.log, r < s.registrations.length
  covered : ∀ r < s.registrations.length, r ∉ resolved s.log → ∃ i, Registered s i ∧ number s i = r
  scheduled : ∀ r call, .scheduled r call ∈ s.log → ∃ scheduler task, s.registrations[r]? = some (scheduler, task) ∧
    call = ⟨some scheduler, some task⟩
  count : ∃ n : ℕ, s.pendingEventCount = n ∧ Counts (Registered s) n

theorem inv_init : Inv init := by
  refine ⟨fun _ _ _ => rfl, ?_, ?_, ?_, List.nodup_nil, ?_, ?_, ?_, 0, rfl, Counts.none ?_⟩ <;>
    simp [init, Registered, FdContext.new, resolved]

theorem Inv.congr {s s' : Sys} (h : Inv s) (hc : s'.contexts = s.contexts)
    (hp : s'.pendingEventCount = s.pendingEventCount) (hr : s'.registrations = s.registrations) (hl : s'.log = s.log) :
    Inv s' := by
  obtain ⟨c, p, rs, regs, l, ts, a⟩ := s
  obtain ⟨c', p', rs', regs', l', ts', a'⟩ := s'
  obtain rfl : c' = c := hc
  obtain rfl : p' = p := hp
  obtain rfl : regs' = regs := hr
  obtain rfl : l' = l := hl
  exact ⟨h.empty, h.current, h.distinct, h.pending, h.once, h.known, h.covered, h.scheduled, h.count⟩

@[simp] theorem setContext_self (s : Sys) (c : ℕ) (x : FdContext) : (s.setContext c x).contexts c = x := by
  simp [Sys.setContext]

theorem setContext_other (s : Sys) {c i : ℕ} (x : FdContext) (h : i ≠ c) :
    (s.setContext c x).contexts i = s.contexts i := by
  simp [Sys.setContext, h]

/-- a registered event is taken off its context, and its registration is resolved -/
theorem Inv.resolve {s s' : Sys} (h : Inv s) {c : ℕ} {e : Event} {R : Resolution} (hbit : (s.contexts c).events e = true)
    (hR : R.registration = (s.contexts c).registration e)
    (hcall : ∀ call, R = .scheduled R.registration call → ∃ scheduler task,
      s.registrations[R.registration]? = some (scheduler, task) ∧ call = ⟨some scheduler, some task⟩)
    (hcontexts : s'.contexts = (s.setContext c ((s.contexts c).clear e)).contexts)
    (hpending : s'.pendingEventCount = s.pendingEventCount - 1) (hregs : s'.registrations = s.registrations)
    (hlog : s'.log = s.log ++ [R]) : Inv s' := by
  have hreg : Registered s (c, e) := hbit
  have hother : ∀ i : ℕ × Event, i ≠ (c, e) → (s'.contexts i.1).events i.2 = (s.contexts i.1).events i.2 ∧
      (s'.contexts i.1).getContext i.2 = (s.contexts i.1).getContext i.2 := by
    intro i hi
    rw [hcontexts]
    by_cases hc : i.1 = c
    · have he : i.2 ≠ e := by
        intro he
        exact hi (Prod.ext hc he)
      rw [hc, setContext_self]
      simp [FdContext.clear, he]
    · rw [setContext_other _ _ hc]
      exact ⟨rfl, rfl⟩
  have hnumber : ∀ i, number s' i = number s i := by
    intro i
    rw [number, number, hcontexts]
    by_cases hc : i.1 = c
    · rw [hc, setContext_self]; rfl
    · rw [setContext_other _ _ hc]
  have hself : (s'.contexts c).events e = false ∧ (s'.contexts c).getContext e = .empty := by
    rw [hcontexts, setContext_self]
    simp [FdContext.clear]
  have hiff : ∀ i, Registered s' i ↔ Registered s i ∧ i ≠ (c, e) := by
    intro i
    by_cases hi : i = (c, e)
    · subst hi
      simp [Registered, hself.1]
    · simp [Registered, (hother i hi).1, hi]
  have hres : resolved s'.log = resolved s.log ++ [number s (c, e)] := by
    rw [hlog, resolved, List.map_append, List.map_singleton, hR]
    rfl
  have hlen : number s (c, e) < s.registrations.length := by
    obtain ⟨scheduler, task, hget, -⟩ := h.current _ hreg
    exact (List.getElem?_eq_some_iff.1 hget).1
  refine ⟨?_, ?_, ?_, ?_, ?_, ?_, ?_, ?_, ?_⟩
  · intro c' e' hbit'
    by_cases hi : (c', e') = (c, e)
    · cases hi
      exact hself.2
    · obtain ⟨hev, hctx⟩ := hother (c', e') hi
      exact hctx.trans (h.empty c' e' (hev ▸ hbit'))
  · intro i hi
    obtain ⟨hi, hne⟩ := (hiff i).1 hi
    rw [hnumber, hregs, (hother i hne).2]
    exact h.current i hi
  · intro i j hi hj hij
    rw [hnumber, hnumber] at hij
    exact h.distinct i j ((hiff i).1 hi).1 ((hiff j).1 hj).1 hij
  · intro i hi
    obtain ⟨hi, hne⟩ := (hiff i).1 hi
    rw [hnumber, hres, List.mem_append, List.mem_singleton, not_or]
    exact ⟨h.pending i hi, fun heq => hne (h.distinct i (c, e) hi hreg heq)⟩
  · rw [hres]
    apply List.Nodup.append h.once (List.nodup_singleton _)
    intro r hr hr'
    rw [List.mem_singleton.1 hr'] at hr
    exact h.pending _ hreg hr
  · intro r hr
    rw [hregs]
    rw [hres, List.mem_append, List.mem_singleton] at hr
    rcases hr with hr | rfl
    · exact h.known r hr
    · exact hlen
  · intro r hr hnot
    rw [hregs] at hr
    rw [hres, List.mem_append, List.mem_singleton, not_or] at hnot
    obtain ⟨i, hi, rfl⟩ := h.covered r hr hnot.1
    refine ⟨i, (hiff i).2 ⟨hi, ?_⟩, hnumber i⟩
    rintro rfl
    exact hnot.2 rfl
  · intro r call hmem
    rw [hregs]
    rw [hlog, List.mem_append, List.mem_singleton] at hmem
    rcases hmem with hmem | hmem
    · exact h.scheduled r call hmem
    · have hr : R.registration = r := by rw [← hmem]; rfl
      rw [← hr]
      exact hcall call (by rw [hr]; exact hmem.symm)
  · obtain ⟨n, hn, hcount⟩ := h.count
    have hpos := hcount.pos hreg
    refine ⟨n - 1, ?_, hcount.lose hreg hiff⟩
    rw [hpending, hn]
    omega

/-- addEvent puts a new registration on a free event -/
theorem Inv.register {s s' : Sys} (h : Inv s) {c : ℕ} {e : Event} {scheduler : ℕ} {task : Task}
    (hbit : (s.contexts c).events e = false)
    (hcontexts : s'.contexts = (s.setContext c { s.contexts c with
      events := Function.update (s.contexts c).events e true
      getContext := Function.update (s.contexts c).getContext e (.of scheduler task)
      registration := Function.update (s.contexts c).registration e s.registrations.length }).contexts)
    (hpending : s'.pendingEventCount = s.pendingEventCount + 1)
    (hregs : s'.registrations = s.registrations ++ [(scheduler, task)]) (hlog : s'.log = s.log) : Inv s' := by
  have hnot : ¬ Registered s (c, e) := by simp [Registered, hbit]
  have hother : ∀ i : ℕ × Event, i ≠ (c, e) → (s'.contexts i.1).events i.2 = (s.contexts i.1).events i.2 ∧
      (s'.contexts i.1).getContext i.2 = (s.contexts i.1).getContext i.2 ∧ number s' i = number s i := by
    intro i hi
    rw [number, hcontexts]
    by_cases hc : i.1 = c
    · have he : i.2 ≠ e := by
        intro he
        exact hi (Prod.ext hc he)
      rw [hc, setContext_self]
      simp [number, he, hc]
    · rw [setContext_other _ _ hc]
      exact ⟨rfl, rfl, rfl⟩
  have hself : (s'.contexts c).events e = true ∧ (s'.contexts c).getContext e = .of scheduler task ∧
      number s' (c, e) = s.registrations.length := by
    rw [number, hcontexts, setContext_self]
    simp
  have hiff : ∀ i, Registered s' i ↔ Registered s i ∨ i = (c, e) := by
    intro i
    by_cases hi : i = (c, e)
    · subst hi
      simp [Registered, hself.1]
    · simp [Registered, (hother i hi).1, hi]
  have hlt : ∀ i, Registered s i → number s i < s.registrations.length := by
    intro i hi
    obtain ⟨_, _, hget, -⟩ := h.current i hi
    exact (List.getElem?_eq_some_iff.1 hget).1
  have hold : ∀ i, Registered s' i → i ≠ (c, e) → Registered s i := fun i hi hne => ((hiff i).1 hi).resolve_right hne
  refine ⟨?_, ?_, ?_, ?_, hlog ▸ h.once, ?_, ?_, ?_, ?_⟩
  · intro c' e' hbit'
    by_cases hi : (c', e') = (c, e)
    · cases hi
      rw [hself.1] at hbit'
      cases hbit'
    · obtain ⟨hev, hctx, -⟩ := hother (c', e') hi
      exact hctx.trans (h.empty c' e' (hev ▸ hbit'))
  · intro i hi
    by_cases hne : i = (c, e)
    · subst hne
      exact ⟨scheduler, task, by rw [hself.2.2, hregs]; simp, hself.2.1⟩
    · obtain ⟨sc, tk, hget, hctx⟩ := h.current i (hold i hi hne)
      refine ⟨sc, tk, ?_, (hother i hne).2.1.trans hctx⟩
      rw [(hother i hne).2.2, hregs, List.getElem?_append_left (hlt i (hold i hi hne)), hget]
  · intro i j hi hj hij
    by_cases hie : i = (c, e) <;> by_cases hje : j = (c, e)
    · rw [hie, hje]
    · have := hlt j (hold j hj hje)
      rw [hie, hself.2.2, (hother j hje).2.2] at hij
      omega
    · have := hlt i (hold i hi hie)
      rw [hje, hself.2.2, (hother i hie).2.2] at hij
      omega
    · rw [(hother i hie).2.2, (hother j hje).2.2] at hij
      exact h.distinct i j (hold i hi hie) (hold j hj hje) hij
  · intro i hi hmem
    rw [hlog] at hmem
    by_cases hie : i = (c, e)
    · have := h.known _ hmem
      rw [hie, hself.2.2] at this
      omega
    · rw [(hother i hie).2.2] at hmem
      exact h.pending i (hold i hi hie) hmem
  · intro r hr
    rw [hlog] at hr
    rw [hregs, List.length_append]
    exact Nat.lt_add_right _ (h.known r hr)
  · intro r hr hnot'
    rw [hlog] at hnot'
    rw [hregs, List.length_append, List.length_singleton] at hr
    by_cases hlast : r = s.registrations.length
    · exact ⟨(c, e), (hiff _).2 (.inr rfl), by rw [hself.2.2, hlast]⟩
    · obtain ⟨i, hi, hnum⟩ := h.covered r (by omega) hnot'
      have hne : i ≠ (c, e) := by
        rintro rfl
        exact hnot hi
      exact ⟨i, (hiff i).2 (.inl hi), by rw [(hother i hne).2.2, hnum]⟩
  · intro r call hmem
    rw [hlog] at hmem
    obtain ⟨sc, tk, hget, hcall⟩ := h.scheduled r call hmem
    refine ⟨sc, tk, ?_, hcall⟩
    rw [hregs, List.getElem?_append_left (List.getElem?_eq_some_iff.1 hget).1, hget]
  · obtain ⟨n, hn, hcount⟩ := h.count
    refine ⟨n + 1, ?_, hcount.gain hnot hiff⟩
    rw [hpending, hn]
    rfl

/-! ## The steps -/

/-- triggering a registered event schedules what was registered and clears the event -/
theorem triggerEvent_of {x : FdContext} {e : Event} {scheduler : ℕ} {task : Task} (hbit : x.events e = true)
    (hctx : x.getContext e = .of scheduler task) :
    x.triggerEvent e = some (⟨some scheduler, some task⟩, x.clear e) := by
  rw [FdContext.triggerEvent, if_pos hbit, hctx]
  cases task <;> rfl

theorem trigger_registered {s : Sys} (h : Inv s) (hlive : s.aborted = false) {c : ℕ} {e : Event}
    (hbit : (s.contexts c).events e = true) :
    ∃ scheduler task, s.registrations[(s.contexts c).registration e]? = some (scheduler, task) ∧
      s.trigger c e = { s.setContext c ((s.contexts c).clear e) with
        pendingEventCount := s.pendingEventCount - 1
        log := s.log ++ [.scheduled ((s.contexts c).registration e) ⟨some scheduler, some task⟩]
        triggers := s.triggers ++ [⟨c, e, true⟩] } := by
  obtain ⟨scheduler, task, hget, hctx⟩ := h.current (c, e) hbit
  refine ⟨scheduler, task, hget, ?_⟩
  rw [Sys.trigger, if_neg (by simp [hlive]), triggerEvent_of hbit hctx]

theorem Inv.trigger {s : Sys} (h : Inv s) (c : ℕ) (e : Event) : Inv (s.trigger c e) := by
  by_cases hlive : s.aborted = false
  · cases hbit : (s.contexts c).events e with
    | true =>
      obtain ⟨scheduler, task, hget, heq⟩ := trigger_registered h hlive hbit
      rw [heq]
      refine h.resolve hbit rfl ?_ rfl rfl rfl rfl
      intro call hcall
      cases hcall
      exact ⟨scheduler, task, hget, rfl⟩
    | false =>
      rw [Sys.trigger, if_neg (by simp [hlive]), FdContext.triggerEvent, if_neg (by simp [hbit])]
      exact h.congr rfl rfl rfl rfl
  · rw [Sys.trigger, if_pos (by simpa using hlive)]
    exact h

theorem Inv.processReport {s : Sys} (h : Inv s) (r : Report) : Inv (s.processReport r) := by
  unfold Sys.processReport
  dsimp only
  split_ifs
  · exact h
  · exact (h.trigger r.ctx .read).trigger r.ctx .write
  · exact h.trigger r.ctx .write
  · exact h.trigger r.ctx .read
  · exact h

theorem step_inv (s : Sys) (o : Op) (h : Inv s) : Inv (step s o) := by
  unfold step
  split_ifs with hlive
  · exact h
  cases o with
  | addEvent c e scheduler task =>
    dsimp only
    cases hbit : (s.contexts c).events e with
    | true => exact h.congr rfl rfl rfl rfl
    | false =>
      -- a free event has an empty context
      rw [if_neg (by simp), if_pos (h.empty c e hbit)]
      refine h.register hbit ?_ rfl rfl rfl
      funext i
      by_cases hi : i = c
      · rw [hi]; simp [Sys.setContext]
      · simp [Sys.setContext, hi]
  | delEvent c e =>
    dsimp only
    split_ifs with hbit
    · refine h.resolve (R := .deleted ((s.contexts c).registration e)) hbit rfl ?_ rfl rfl rfl rfl
      intro call hcall
      cases hcall
    · exact h
  | cancelEvent c e =>
    dsimp only
    split_ifs
    · exact h.trigger c e
    · exact h
  | cancelAll c =>
    dsimp only
    have h1 : Inv (if (s.contexts c).events .read = true then s.trigger c .read else s) := by
      split_ifs
      · exact h.trigger c .read
      · exact h
    generalize (if (s.contexts c).events .read = true then s.trigger c .read else s) = s1 at h1
    have h2 : Inv (if (s1.contexts c).events .write = true then s1.trigger c .write else s1) := by
      split_ifs
      · exact h1.trigger c .write
      · exact h1
    generalize (if (s1.contexts c).events .write = true then s1.trigger c .write else s1) = s2 at h2
    split_ifs
    · exact h2.congr rfl rfl rfl rfl
    · exact h2
  | epollWait t reports =>
    dsimp only
    split_ifs
    · exact h.congr rfl rfl rfl rfl
    · exact h
  | process t =>
    dsimp only
    split
    · exact h
    · rename_i r rest _
      have hrest : Inv { s with reports := Function.update s.reports t rest } := h.congr rfl rfl rfl rfl
      exact hrest.processReport r

/-! ## The calls of triggerEvent -/

/-- a call is logged with the truth of its assertion, and a failed one ends the program -/
theorem trigger_triggers (s : Sys) (c : ℕ) (e : Event) (hlive : s.aborted = false) :
    (s.trigger c e).triggers = s.triggers ++ [⟨c, e, (s.contexts c).events e⟩] ∧
      (s.trigger c e).aborted = !(s.contexts c).events e := by
  rw [Sys.trigger, if_neg (by simp [hlive]), FdContext.triggerEvent]
  cases hbit : (s.contexts c).events e with
  | true => exact ⟨rfl, hlive⟩
  | false => exact ⟨rfl, rfl⟩

theorem trigger_aborted (s : Sys) (c : ℕ) (e : Event) (hdead : s.aborted = true) : s.trigger c e = s := by
  rw [Sys.trigger, if_pos hdead]

/-- triggering one event leaves the other one as it is -/
theorem trigger_events (s : Sys) (c : ℕ) {e e' : Event} (he : e' ≠ e) :
    ((s.trigger c e).contexts c).events e' = (s.contexts c).events e' := by
  rw [Sys.trigger]
  split_ifs
  · rfl
  rw [FdContext.triggerEvent]
  split_ifs
  · simp [Sys.setContext, he]
  · rfl

/-- the calls made for a report are on registered events exactly when the report fits -/
theorem processReport_triggers (s : Sys) (r : Report) (hlive : s.aborted = false) :
    ∃ l, (s.processReport r).triggers = s.triggers ++ l ∧ ((∀ c ∈ l, c.registered = true) ↔ s.fits r = true) := by
  rw [Sys.processReport]
  by_cases hmiss : s.misses r = true
  · rw [if_pos hmiss]
    exact ⟨[], by simp, by simp [Sys.fits, hmiss]⟩
  rw [if_neg hmiss]
  obtain ⟨hread, hdead⟩ := trigger_triggers s r.ctx .read hlive
  have hwrite := trigger_triggers s r.ctx .write hlive
  have hmiss' : s.misses r = false := by simpa using hmiss
  by_cases hr : s.realEvents r .read = true
  · rw [if_pos hr]
    by_cases hw : s.realEvents r .write = true
    · rw [if_pos hw]
      cases hbit : (s.contexts r.ctx).events .read with
      | true =>
        have hlive' : (s.trigger r.ctx .read).aborted = false := by rw [hdead, hbit]; rfl
        obtain ⟨hboth, -⟩ := trigger_triggers (s.trigger r.ctx .read) r.ctx .write hlive'
        rw [trigger_events s r.ctx (by decide)] at hboth
        refine ⟨[⟨r.ctx, .read, true⟩, ⟨r.ctx, .write, (s.contexts r.ctx).events .write⟩], ?_, ?_⟩
        · rw [hboth, hread, hbit]; simp
        · simp only [Sys.realEvents, hbit] at hr hw
          cases hwb : (s.contexts r.ctx).events .write <;> simp_all [Sys.fits]
      | false =>
        rw [trigger_aborted _ _ _ (by rw [hdead, hbit]; rfl)]
        refine ⟨[⟨r.ctx, .read, false⟩], by rw [hread, hbit], ?_⟩
        simp only [Sys.realEvents, hbit] at hr
        simp_all [Sys.fits]
    · rw [if_neg hw]
      refine ⟨[⟨r.ctx, .read, (s.contexts r.ctx).events .read⟩], hread, ?_⟩
      simp only [Sys.realEvents] at hr hw
      cases hrb : (s.contexts r.ctx).events .read <;> simp_all [Sys.fits]
  · rw [if_neg hr]
    by_cases hw : s.realEvents r .write = true
    · rw [if_pos hw]
      refine ⟨[⟨r.ctx, .write, (s.contexts r.ctx).events .write⟩], hwrite.1, ?_⟩
      simp only [Sys.realEvents] at hr hw
      cases hwb : (s.contexts r.ctx).events .write <;> simp_all [Sys.fits]
    · simp [Sys.misses, hr, hw] at hmiss

/-- a step calls triggerEvent on registered events only exactly when it meets the condition -/
theorem step_triggers (s : Sys) (o : Op) :
    ∃ l, (step s o).triggers = s.triggers ++ l ∧ ((∀ c ∈ l, c.registered = true) ↔ ReportFits s o) := by
  have hnone : ∀ {s' : Sys}, s'.triggers = s.triggers → ReportFits s o →
      ∃ l, s'.triggers = s.triggers ++ l ∧ ((∀ c ∈ l, c.registered = true) ↔ ReportFits s o) := by
    intro s' hs' hok
    exact ⟨[], by simpa using hs', by simpa using hok⟩
  have hone : ∀ (s : Sys) (c : ℕ) (e : Event), s.aborted = false → (s.contexts c).events e = true →
      (s.trigger c e).triggers = s.triggers ++ [⟨c, e, true⟩] ∧ (s.trigger c e).aborted = false := by
    intro s c e hlive hbit
    have := trigger_triggers s c e hlive
    rwa [hbit] at this
  unfold step
  split_ifs with hlive
  · apply hnone rfl
    cases o <;> simp [ReportFits, hlive]
  rw [Bool.not_eq_true] at hlive
  cases o with
  | addEvent c e scheduler task =>
    dsimp only
    split_ifs <;> exact hnone rfl trivial
  | delEvent c e =>
    dsimp only
    split_ifs <;> exact hnone rfl trivial
  | cancelEvent c e =>
    dsimp only
    split_ifs with hbit
    · exact ⟨_, (hone s c e hlive hbit).1, by simp [ReportFits]⟩
    · exact hnone rfl trivial
  | cancelAll c =>
    dsimp only
    obtain ⟨l1, h1, hl1, hlive1⟩ : ∃ l, (if (s.contexts c).events .read = true then s.trigger c .read else s).triggers =
        s.triggers ++ l ∧ (∀ t ∈ l, t.registered = true) ∧
        (if (s.contexts c).events .read = true then s.trigger c .read else s).aborted = false := by
      split_ifs with hbit
      · exact ⟨_, (hone s c .read hlive hbit).1, by simp, (hone s c .read hlive hbit).2⟩
      · exact ⟨[], by simp, by simp, hlive⟩
    generalize (if (s.contexts c).events .read = true then s.trigger c .read else s) = s1 at h1 hlive1
    obtain ⟨l2, h2, hl2⟩ : ∃ l, (if (s1.contexts c).events .write = true then s1.trigger c .write else s1).triggers =
        s1.triggers ++ l ∧ ∀ t ∈ l, t.registered = true := by
      split_ifs with hbit
      · exact ⟨_, (hone s1 c .write hlive1 hbit).1, by simp⟩
      · exact ⟨[], by simp, by simp⟩
    generalize (if (s1.contexts c).events .write = true then s1.trigger c .write else s1) = s2 at h2
    refine ⟨l1 ++ l2, ?_, ?_⟩
    · split_ifs
      · rw [← List.append_assoc, ← h1]; exact h2
      · rw [← List.append_assoc, ← h1, h2]
    · refine iff_of_true ?_ trivial
      intro t ht
      exact (List.mem_append.1 ht).elim (hl1 t) (hl2 t)
  | epollWait t reports =>
    dsimp only
    split_ifs <;> exact hnone rfl trivial
  | process t =>
    dsimp only
    cases hreports : s.reports t with
    | nil =>
      apply hnone rfl
      intro _ r hr
      rw [hreports] at hr
      cases hr
    | cons r rest =>
      obtain ⟨l, hl, hiff⟩ := processReport_triggers { s with reports := Function.update s.reports t rest } r hlive
      refine ⟨l, hl, hiff.trans ?_⟩
      simp only [ReportFits, hreports, hlive, List.head?_cons, Option.mem_def, Option.some.injEq, forall_true_left]
      exact ⟨fun hfit r' hr' => hr' ▸ hfit, fun hall => hall r rfl⟩

/-! ## Main results -/

/-- triggerEvent was called on registered events only; a registration is resolved at most once, with what was
registered, and is open while its event is set; the counter is the number of events set -/
structure EventsResolved (s : Sys) : Prop where
  triggers : ∀ t ∈ s.triggers, t.registered = true
  once : (resolved s.log).Nodup
  scheduled : ∀ r call, .scheduled r call ∈ s.log → ∃ scheduler task, s.registrations[r]? = some (scheduler, task) ∧
    call = ⟨some scheduler, some task⟩
  unresolved : ∀ r < s.registrations.length, r ∉ resolved s.log ↔ ∃ i, Registered s i ∧ number s i = r
  count : ∃ n : ℕ, s.pendingEventCount = n ∧ Counts (Registered s) n

theorem Inv.eventsResolved {s : Sys} (h : Inv s) (ht : ∀ t ∈ s.triggers, t.registered = true) : EventsResolved s := by
  refine ⟨ht, h.once, h.scheduled, ?_, h.count⟩
  intro r hr
  constructor
  · exact h.covered r hr
  · rintro ⟨i, hi, rfl⟩
    exact h.pending i hi

/-- **IO events.** In all states of a run every registration is resolved as it should be, exactly when each report that
is processed finds all of its events still registered, or none of them. -/
theorem events_resolved_iff (ops : List Op) :
    (∀ pre, pre <+: ops → EventsResolved (run step init pre)) ↔ Guarded step ReportFits init ops := by
  have hcalls := log_good_iff step_triggers init
  refine ⟨fun h => ?_, fun hg pre hpre => ?_⟩
  · exact (hcalls ops (by simp [init])).1 (h ops (List.prefix_refl _)).triggers
  · have hinv := run_preserves step_inv inv_init pre
    exact hinv.eventsResolved ((hcalls pre (by simp [init])).2 (guarded_initial hpre hg))

/-- both events are registered and reported; the write event is deleted before the report is processed -/
def staleReportTrace : List Op :=
  [.addEvent 5 .read 0 (.fiber 1), .addEvent 5 .write 0 (.fiber 2), .epollWait 1 [⟨5, fun _ => true, false⟩],
    .delEvent 5 .write, .process 1]

/-- **A stale report.** triggerEvent is called on the deleted event, and its assertion ends the program. -/
theorem stale_report_aborts :
    let s := run step init staleReportTrace
    ¬ EventsResolved s ∧ s.triggers = [⟨5, .read, true⟩, ⟨5, .write, false⟩] ∧ s.aborted = true := by
  have htriggers : (run step init staleReportTrace).triggers = [⟨5, .read, true⟩, ⟨5, .write, false⟩] := by decide
  refine ⟨?_, htriggers, by decide⟩
  intro h
  have := h.triggers ⟨5, .write, false⟩ (by rw [htriggers]; simp)
  cases this

end Sylar.IOManager

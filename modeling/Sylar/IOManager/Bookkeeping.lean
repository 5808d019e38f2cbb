/-
The books of `IOManager` about IO events, when epoll_ctl may fail.

The same fact is kept four times: the interest list of the kernel, the bits in `events`, the two event contexts and
`m_pendingEventCount`. Calls come one after the other here. An epoll_ctl fails when the environment wants it to, and when
the kernel refuses it (adding an fd that is listed, changing or deleting one that is not).

Results:
- `exec_failure`: a call that reports failure changes nothing;
- `exec_agrees`: a call keeps the four in agreement, and no assertion fails;
- `books_agree`: both over every finite sequence of calls and processed reports.
-/
import Sylar.IOManager.Events

namespace Sylar.IOManager.Books

open Sylar.Run Sylar.Count

/-! ## Model -/

inductive EpollOp where
  | add
  | mod
  | del
deriving DecidableEq, Repr

/-- the events of an entry of the interest list -/
abbrev Mask := Event → Bool

structure Sys where
  /-- a context that was not looked up yet is a new one -/
  contexts : ℕ → FdContext
  /-- the interest list -/
  kernel : ℕ → Option Mask
  /-- an integer, so that a fall below zero shows -/
  pendingEventCount : ℤ
  scheduled : List Scheduled
  aborted : Bool

def init : Sys := ⟨fun _ => .new, fun _ => none, 0, [], false⟩

/-- `epoll_ctl(m_epfd, op, fd, mask)` on the interest list; `none`: it fails -/
def epollCtl (kernel : ℕ → Option Mask) (op : EpollOp) (fd : ℕ) (mask : Mask) (willing : Bool) :
    Option (ℕ → Option Mask) :=
  if !willing then none
  else match op with
    | .add => if (kernel fd).isSome then none else some (Function.update kernel fd (some mask))
    | .mod => if (kernel fd).isSome then some (Function.update kernel fd (some mask)) else none
    | .del => if (kernel fd).isSome then some (Function.update kernel fd none) else none

/-- `events` is not NONE -/
def listed (mask : Mask) : Bool := mask .read || mask .write

/-- the masks of an epoll_event -/
structure EpollEvents where
  epollin : Bool
  epollout : Bool
  epollerr : Bool
  epollhup : Bool
deriving DecidableEq, Repr

inductive Op where
  | addEvent (fd : ℕ) (e : Event) (scheduler : ℕ) (task : Task) (willing : Bool)
  | delEvent (fd : ℕ) (e : Event) (willing : Bool)
  | cancelEvent (fd : ℕ) (e : Event) (willing : Bool)
  | cancelAll (fd : ℕ) (willing : Bool)
  /-- the body of the loop over the reports in `idle` -/
  | report (fd : ℕ) (events : EpollEvents) (willing : Bool)

def Sys.setContext (s : Sys) (fd : ℕ) (x : FdContext) : Sys := { s with contexts := Function.update s.contexts fd x }

def Sys.abort (s : Sys) : Sys := { s with aborted := true }

/-- `triggerEvent(e); --m_pendingEventCount` -/
def Sys.trigger (s : Sys) (fd : ℕ) (e : Event) : Sys :=
  if s.aborted then s
  else match (s.contexts fd).triggerEvent e with
    | some (call, x) =>
      { s.setContext fd x with
        pendingEventCount := s.pendingEventCount - 1
        scheduled := s.scheduled ++ [call] }
    | none => s.abort

/-- `real_events` in idle -/
def realEvents (x : FdContext) (events : EpollEvents) (e : Event) : Bool :=
  (match e with
    | .read => events.epollin
    | .write => events.epollout) || ((events.epollerr || events.epollhup) && x.events e)

/-- a call: what it reports, and the state it leaves; a call in which an assertion fails reports nothing -/
def exec (s : Sys) (o : Op) : Bool × Sys :=
  if s.aborted then (true, s)
  else match o with
    | .addEvent fd e scheduler task willing =>
      let x := s.contexts fd
      if x.events e then (true, s.abort)
      else
        let mask := Function.update x.events e true
        match epollCtl s.kernel (if listed x.events then .mod else .add) fd mask willing with
        | none => (false, s)
        | some kernel =>
          let s' := { s.setContext fd { x with events := mask } with
            kernel := kernel
            pendingEventCount := s.pendingEventCount + 1 }
          if x.getContext e = .empty then
            (true, s'.setContext fd { x with
              events := mask
              getContext := Function.update x.getContext e (.of scheduler task) })
          else (true, s'.abort)
    | .delEvent fd e willing =>
      let x := s.contexts fd
      if x.events e then
        let mask := Function.update x.events e false
        match epollCtl s.kernel (if listed mask then .mod else .del) fd mask willing with
        | none => (false, s)
        | some kernel =>
          (true, { s.setContext fd (x.clear e) with
            kernel := kernel
            pendingEventCount := s.pendingEventCount - 1 })
      else (false, s)
    | .cancelEvent fd e willing =>
      let x := s.contexts fd
      if x.events e then
        let mask := Function.update x.events e false
        match epollCtl s.kernel (if listed mask then .mod else .del) fd mask willing with
        | none => (false, s)
        | some kernel => (true, { s with kernel := kernel }.trigger fd e)
      else (false, s)
    | .cancelAll fd willing =>
      let x := s.contexts fd
      if listed x.events then
        match epollCtl s.kernel .del fd (fun _ => false) willing with
        | none => (false, s)
        | some kernel =>
          let s0 := { s with kernel := kernel }
          let s1 := if (s0.contexts fd).events .read then s0.trigger fd .read else s0
          let s2 := if (s1.contexts fd).events .write then s1.trigger fd .write else s1
          (true, if listed (s2.contexts fd).events then s2.abort else s2)
      else (false, s)
    | .report fd events willing =>
      let x := s.contexts fd
      let real := realEvents x events
      if (x.events .read && real .read) || (x.events .write && real .write) then
        let left : Mask := fun e => x.events e && !real e
        match epollCtl s.kernel (if listed left then .mod else .del) fd left willing with
        | none => (false, s)
        | some kernel =>
          let s0 := { s with kernel := kernel }
          let s1 := if real .read then s0.trigger fd .read else s0
          (true, if real .write then s1.trigger fd .write else s1)
      else (false, s)

def step (s : Sys) (o : Op) : Sys := (exec s o).2

/-- the calls in question: addEvent on an event that is not set, and reports whose effective events are registered -/
def Legal (s : Sys) : Op → Prop
  | .addEvent fd e _ _ _ => (s.contexts fd).events e = false
  | .report fd events _ =>
    (realEvents (s.contexts fd) events .read = true → (s.contexts fd).events .read = true) ∧
      (realEvents (s.contexts fd) events .write = true → (s.contexts fd).events .write = true)
  | _ => True

instance (s : Sys) : ∀ o, Decidable (Legal s o)
  | .addEvent _ _ _ _ _ => inferInstanceAs (Decidable (_ = _))
  | .report _ _ _ => inferInstanceAs (Decidable (_ ∧ _))
  | .delEvent _ _ _ | .cancelEvent _ _ _ | .cancelAll _ _ => isTrue trivial

/-! ## The books -/

/-- event `i.2` is registered on fd `i.1` -/
def Registered (s : Sys) (i : ℕ × Event) : Prop := (s.contexts i.1).events i.2 = true

/-- a context in use has a scheduler, and a callback or a fiber but not both -/
def InUse (ctx : EventContext) : Prop := ctx.scheduler.isSome = true ∧ (ctx.cb.isSome = !ctx.fiber.isSome)

/-- bits, contexts and counter agree, and no assertion has failed -/
structure Booked (s : Sys) : Prop where
  alive : s.aborted = false
  used : ∀ i, Registered s i → InUse ((s.contexts i.1).getContext i.2)
  empty : ∀ i, ¬ Registered s i → (s.contexts i.1).getContext i.2 = .empty
  count : ∃ n : ℕ, s.pendingEventCount = n ∧ Counts (Registered s) n

/-- and so does the interest list: an fd is absent exactly when its `events` is NONE -/
structure Agrees (s : Sys) : Prop extends Booked s where
  kernel : ∀ fd, s.kernel fd = if listed (s.contexts fd).events then some (s.contexts fd).events else none

theorem agrees_init : Agrees init := by
  refine ⟨⟨rfl, ?_, fun _ _ => rfl, 0, rfl, Counts.none ?_⟩, fun _ => rfl⟩ <;> simp [init, Registered, FdContext.new]

theorem listed_iff (mask : Mask) : listed mask = true ↔ ∃ e, mask e = true := by
  constructor
  · intro h
    rcases Bool.or_eq_true_iff.1 h with h | h
    · exact ⟨.read, h⟩
    · exact ⟨.write, h⟩
  · rintro ⟨e, he⟩
    cases e <;> simp [listed, he]

/-- a successful epoll_ctl leaves the mask it was given, and none when it deletes -/
theorem epollCtl_some {kernel kernel' : ℕ → Option Mask} {op : EpollOp} {fd : ℕ} {mask : Mask} {willing : Bool}
    (h : epollCtl kernel op fd mask willing = some kernel') :
    kernel' = Function.update kernel fd (if op = .del then none else some mask) := by
  unfold epollCtl at h
  cases op <;> simp only at h <;> split_ifs at h <;> cases h <;> rfl

@[simp] theorem setContext_self (s : Sys) (fd : ℕ) (x : FdContext) : (s.setContext fd x).contexts fd = x := by
  simp [Sys.setContext]

/-- one event of one fd is cleared, with its context -/
theorem Booked.clear {s s' : Sys} (h : Booked s) {fd : ℕ} {e : Event} (hbit : (s.contexts fd).events e = true)
    (hcontexts : s'.contexts = (s.setContext fd ((s.contexts fd).clear e)).contexts)
    (hpending : s'.pendingEventCount = s.pendingEventCount - 1) (halive : s'.aborted = false) : Booked s' := by
  have hother : ∀ i : ℕ × Event, i ≠ (fd, e) → (s'.contexts i.1).events i.2 = (s.contexts i.1).events i.2 ∧
      (s'.contexts i.1).getContext i.2 = (s.contexts i.1).getContext i.2 := by
    intro i hi
    rw [hcontexts]
    by_cases hfd : i.1 = fd
    · have he : i.2 ≠ e := fun he => hi (Prod.ext hfd he)
      rw [hfd, setContext_self]
      simp [FdContext.clear, he]
    · simp [Sys.setContext, hfd]
  have hself : (s'.contexts fd).events e = false ∧ (s'.contexts fd).getContext e = .empty := by
    rw [hcontexts, setContext_self]
    simp [FdContext.clear]
  have hiff : ∀ i, Registered s' i ↔ Registered s i ∧ i ≠ (fd, e) := by
    intro i
    by_cases hi : i = (fd, e)
    · subst hi
      simp [Registered, hself.1]
    · simp [Registered, (hother i hi).1, hi]
  refine ⟨halive, ?_, ?_, ?_⟩
  · intro i hi
    obtain ⟨hreg, hne⟩ := (hiff i).1 hi
    rw [(hother i hne).2]
    exact h.used i hreg
  · intro i hi
    by_cases hne : i = (fd, e)
    · subst hne
      exact hself.2
    · rw [(hother i hne).2]
      exact h.empty i fun hreg => hi ((hiff i).2 ⟨hreg, hne⟩)
  · obtain ⟨n, hn, hcount⟩ := h.count
    have hreg : Registered s (fd, e) := hbit
    have hpos := hcount.pos hreg
    refine ⟨n - 1, ?_, hcount.lose hreg hiff⟩
    rw [hpending, hn]
    omega

/-- one event of one fd is set, with a context in use -/
theorem Booked.set {s s' : Sys} (h : Booked s) {fd : ℕ} {e : Event} (scheduler : ℕ) (task : Task)
    (hbit : (s.contexts fd).events e = false)
    (hcontexts : s'.contexts = (s.setContext fd { s.contexts fd with
      events := Function.update (s.contexts fd).events e true
      getContext := Function.update (s.contexts fd).getContext e (.of scheduler task) }).contexts)
    (hpending : s'.pendingEventCount = s.pendingEventCount + 1) (halive : s'.aborted = false) : Booked s' := by
  have hother : ∀ i : ℕ × Event, i ≠ (fd, e) → (s'.contexts i.1).events i.2 = (s.contexts i.1).events i.2 ∧
      (s'.contexts i.1).getContext i.2 = (s.contexts i.1).getContext i.2 := by
    intro i hi
    rw [hcontexts]
    by_cases hfd : i.1 = fd
    · have he : i.2 ≠ e := fun he => hi (Prod.ext hfd he)
      rw [hfd, setContext_self]
      simp [he]
    · simp [Sys.setContext, hfd]
  have hself : (s'.contexts fd).events e = true ∧ (s'.contexts fd).getContext e = .of scheduler task := by
    rw [hcontexts, setContext_self]
    simp
  have hiff : ∀ i, Registered s' i ↔ Registered s i ∨ i = (fd, e) := by
    intro i
    by_cases hi : i = (fd, e)
    · subst hi
      simp [Registered, hself.1]
    · simp [Registered, (hother i hi).1, hi]
  refine ⟨halive, ?_, ?_, ?_⟩
  · intro i hi
    by_cases hne : i = (fd, e)
    · subst hne
      rw [hself.2]
      cases task <;> exact ⟨rfl, rfl⟩
    · rw [(hother i hne).2]
      exact h.used i (((hiff i).1 hi).resolve_right hne)
  · intro i hi
    have hne : i ≠ (fd, e) := fun hne => hi ((hiff i).2 (.inr hne))
    rw [(hother i hne).2]
    exact h.empty i fun hreg => hi ((hiff i).2 (.inl hreg))
  · obtain ⟨n, hn, hcount⟩ := h.count
    have hnot : ¬ Registered s (fd, e) := by simp [Registered, hbit]
    refine ⟨n + 1, ?_, hcount.gain hnot hiff⟩
    rw [hpending, hn]
    rfl

/-- triggering a registered event empties its context: `schedule` swaps the task out of it -/
theorem triggerEvent_clear {x : FdContext} {e : Event} (hbit : x.events e = true) (hused : InUse (x.getContext e)) :
    ∃ call, x.triggerEvent e = some (call, x.clear e) := by
  unfold FdContext.triggerEvent
  rw [if_pos hbit]
  cases hctx : x.getContext e with
  | mk scheduler fiber cb =>
    rw [hctx] at hused
    obtain ⟨-, hone⟩ := hused
    cases cb with
    | some n =>
      cases fiber with
      | some f => cases hone
      | none => exact ⟨_, rfl⟩
    | none => exact ⟨_, rfl⟩

/-- `triggerEvent` on a registered event -/
theorem Booked.trigger {s : Sys} (h : Booked s) {fd : ℕ} {e : Event} (hbit : (s.contexts fd).events e = true) :
    Booked (s.trigger fd e) ∧ (s.trigger fd e).kernel = s.kernel ∧
      (s.trigger fd e).contexts = Function.update s.contexts fd ((s.contexts fd).clear e) := by
  obtain ⟨call, hcall⟩ := triggerEvent_clear hbit (h.used (fd, e) hbit)
  have heq : s.trigger fd e = { s.setContext fd ((s.contexts fd).clear e) with
      pendingEventCount := s.pendingEventCount - 1
      scheduled := s.scheduled ++ [call] } := by
    rw [Sys.trigger, if_neg (by simp [h.alive]), hcall]
  rw [heq]
  exact ⟨h.clear hbit rfl rfl h.alive, rfl, rfl⟩

/-- `triggerEvent` on an event if it is asked for, and then it is registered -/
theorem Booked.triggerIf {s : Sys} (h : Booked s) (fd : ℕ) (e : Event) {b : Bool}
    (hbit : b = true → (s.contexts fd).events e = true) :
    Booked (if b then s.trigger fd e else s) ∧ (if b then s.trigger fd e else s).kernel = s.kernel ∧
      (∀ fd', fd' ≠ fd → (if b then s.trigger fd e else s).contexts fd' = s.contexts fd') ∧
      ((if b then s.trigger fd e else s).contexts fd).events =
        Function.update (s.contexts fd).events e ((s.contexts fd).events e && !b) := by
  cases b with
  | false =>
    refine ⟨h, rfl, fun _ _ => rfl, ?_⟩
    simp
  | true =>
    obtain ⟨hbooked, hkernel, hcontexts⟩ := h.trigger (hbit rfl)
    simp only [if_true]
    refine ⟨hbooked, hkernel, ?_, ?_⟩
    · intro fd' hne
      rw [hcontexts, Function.update_of_ne hne]
    · rw [hcontexts, Function.update_self]
      simp [FdContext.clear]

/-! ## The calls -/

/-- a call leaves the state alone and reports failure, or it reports success -/
theorem exec_cases (s : Sys) (o : Op) : exec s o = (false, s) ∨ (exec s o).1 = true := by
  unfold exec
  split_ifs
  · exact .inr rfl
  cases o with
  | addEvent fd e scheduler task willing =>
    dsimp only
    split
    · exact .inr rfl
    · split
      · exact .inl rfl
      · split <;> exact .inr rfl
  | delEvent | cancelEvent | cancelAll | report =>
    dsimp only
    split
    · split
      · exact .inl rfl
      · exact .inr rfl
    · exact .inl rfl

/-- **Failing calls.** A call that reports failure changes nothing. -/
theorem exec_failure (s : Sys) (o : Op) (h : (exec s o).1 = false) : (exec s o).2 = s := by
  rcases exec_cases s o with heq | htrue
  · rw [heq]
  · rw [h] at htrue
    cases htrue

/-- the kernel took the new events of the fd: all agree again -/
theorem Agrees.update {s s' : Sys} (h : Agrees s) {fd : ℕ} {kernel : ℕ → Option Mask} {op : EpollOp} {mask : Mask}
    {willing : Bool} (hctl : epollCtl s.kernel op fd mask willing = some kernel)
    (hop : op = .del ↔ listed mask = false) (hbooked : Booked s') (hkernel : s'.kernel = kernel)
    (hother : ∀ fd', fd' ≠ fd → s'.contexts fd' = s.contexts fd') (hself : (s'.contexts fd).events = mask) :
    Agrees s' := by
  refine ⟨hbooked, ?_⟩
  intro fd'
  rw [hkernel, epollCtl_some hctl]
  by_cases hfd : fd' = fd
  · subst hfd
    rw [Function.update_self, hself]
    by_cases hlisted : listed mask = true
    · rw [if_pos hlisted, if_neg]
      rw [hop, hlisted]
      decide
    · rw [if_neg hlisted, if_pos]
      rw [hop]
      simpa using hlisted
  · rw [Function.update_of_ne hfd, hother fd' hfd]
    exact h.kernel fd'

theorem modDel_iff (mask : Mask) : (if listed mask then EpollOp.mod else .del) = .del ↔ listed mask = false := by
  cases listed mask <;> simp

theorem modAdd_ne (mask : Mask) : (if listed mask then EpollOp.mod else .add) ≠ .del := by
  cases listed mask <;> simp

theorem exec_agrees {s : Sys} {o : Op} (h : Agrees s) (hlegal : Legal s o) : Agrees (exec s o).2 := by
  unfold exec
  rw [if_neg (by simp [h.alive])]
  cases o with
  | addEvent fd e scheduler task willing =>
    have hbit : (s.contexts fd).events e = false := hlegal
    dsimp only
    rw [if_neg (by simp [hbit])]
    split
    · exact h
    · rename_i kernel hctl
      rw [if_pos (h.empty (fd, e) (by simp [Registered, hbit]))]
      refine h.update hctl ?_ (h.toBooked.set scheduler task hbit ?_ rfl h.alive) rfl ?_ ?_
      · apply iff_of_false (modAdd_ne _)
        rw [Bool.not_eq_false, listed_iff]
        exact ⟨e, Function.update_self _ _ _⟩
      · funext fd'
        by_cases hfd : fd' = fd
        · subst hfd
          simp [Sys.setContext]
        · simp [Sys.setContext, hfd]
      · intro fd' hne
        simp [Sys.setContext, hne]
      · simp [Sys.setContext]
  | delEvent fd e willing =>
    dsimp only
    split
    · rename_i hbit
      split
      · exact h
      · rename_i kernel hctl
        refine h.update hctl (modDel_iff _) (h.toBooked.clear hbit rfl rfl h.alive) rfl ?_ ?_
        · intro fd' hne
          simp [Sys.setContext, hne]
        · simp [Sys.setContext, FdContext.clear]
    · exact h
  | cancelEvent fd e willing =>
    dsimp only
    split
    · rename_i hbit
      split
      · exact h
      · rename_i kernel hctl
        have h0 : Booked { s with kernel := kernel } := ⟨h.alive, h.used, h.empty, h.count⟩
        obtain ⟨hbooked, hkernel, hcontexts⟩ := h0.trigger hbit
        refine h.update hctl (modDel_iff _) hbooked hkernel ?_ ?_
        · intro fd' hne
          rw [hcontexts, Function.update_of_ne hne]
        · rw [hcontexts, Function.update_self]
          rfl
    · exact h
  | cancelAll fd willing =>
    dsimp only
    split
    · rename_i hlisted
      split
      · exact h
      · rename_i kernel hctl
        have h0 : Booked { s with kernel := kernel } := ⟨h.alive, h.used, h.empty, h.count⟩
        obtain ⟨h1, hkernel1, hother1, hself1⟩ := h0.triggerIf fd .read (fun hb => hb)
        generalize (if (s.contexts fd).events .read = true then
          ({ s with kernel := kernel } : Sys).trigger fd .read else { s with kernel := kernel }) = s1 at *
        obtain ⟨h2, hkernel2, hother2, hself2⟩ := h1.triggerIf fd .write (fun hb => hb)
        generalize (if (s1.contexts fd).events .write = true then s1.trigger fd .write else s1) = s2 at *
        have hnone : (s2.contexts fd).events = fun _ => false := by
          funext e
          rw [hself2, hself1]
          cases e <;> simp
        have hempty : listed (s2.contexts fd).events = false := by rw [hnone]; rfl
        rw [if_neg (by simp [hempty])]
        refine h.update hctl (by simp [listed]) h2 (hkernel2.trans hkernel1) ?_ hnone
        intro fd' hne
        rw [hother2 fd' hne, hother1 fd' hne]
    · exact h
  | report fd events willing =>
    dsimp only
    split
    · split
      · exact h
      · rename_i kernel hctl
        have h0 : Booked { s with kernel := kernel } := ⟨h.alive, h.used, h.empty, h.count⟩
        obtain ⟨h1, hkernel1, hother1, hself1⟩ := h0.triggerIf fd .read hlegal.1
        generalize (if realEvents (s.contexts fd) events .read = true then
          ({ s with kernel := kernel } : Sys).trigger fd .read else { s with kernel := kernel }) = s1 at *
        have hwrite : realEvents (s.contexts fd) events .write = true → (s1.contexts fd).events .write = true := by
          intro hb
          rw [hself1, Function.update_of_ne (by decide)]
          exact hlegal.2 hb
        obtain ⟨h2, hkernel2, hother2, hself2⟩ := h1.triggerIf fd .write hwrite
        refine h.update hctl (modDel_iff _) h2 (hkernel2.trans hkernel1) ?_ ?_
        · intro fd' hne
          rw [hother2 fd' hne, hother1 fd' hne]
        · funext e
          rw [hself2, hself1]
          cases e <;> simp
    · exact h

/-! ## Main result -/

/-- **The books agree.** After each step of a sequence of legal calls the interest list, the bits, the contexts and the
counter agree and no assertion has failed, and a call that reports failure has changed nothing. -/
theorem books_agree (ops : List Op) (h : Guarded step Legal init ops) :
    ∀ pre o, pre ++ [o] <+: ops → Agrees (run step init (pre ++ [o])) ∧
      ((exec (run step init pre) o).1 = false → run step init (pre ++ [o]) = run step init pre) := by
  intro pre o hpre
  have hstep : ∀ s o, Agrees s → Legal s o → Agrees (step s o) := fun _ _ hs => exec_agrees hs
  refine ⟨states_inv hstep agrees_init h (pre ++ [o]) hpre, ?_⟩
  intro hfail
  rw [run_append]
  exact exec_failure _ _ hfail

/-- read and write are registered on fd 5, the write registration failing once; the fd hangs up, and the kernel refuses
the change once -/
def hangupTrace : List Op :=
  [.addEvent 5 .read 0 (.fiber 1) true, .addEvent 5 .write 0 (.cb 2) false, .addEvent 5 .write 0 (.cb 2) true,
    .report 5 ⟨false, false, false, true⟩ false, .report 5 ⟨false, false, false, true⟩ true]

theorem books_agree_example :
    let s := run step init hangupTrace
    s.pendingEventCount = 0 ∧ s.scheduled = [⟨some 0, some (.fiber 1)⟩, ⟨some 0, some (.cb 2)⟩] ∧
      ∀ pre o, pre ++ [o] <+: hangupTrace → Agrees (run step init (pre ++ [o])) ∧
        ((exec (run step init pre) o).1 = false → run step init (pre ++ [o]) = run step init pre) :=
  ⟨by decide, by decide, books_agree hangupTrace (by decide)⟩

end Sylar.IOManager.Books

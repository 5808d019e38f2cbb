/-
Hooked sockets: the mode that the user sees and the mode in the kernel.

A hooked socket is put into non-blocking mode when its `FdCtx` is made, and the mode that the user asks for is kept in the
context. `fcntl` and `ioctl` go through the context in every thread, `socket` and `close` only in a thread with hooking
enabled, `open` and the like never. An operation is a call that succeeds: a new file gets a number that is not open, the
other calls are on an open one.

Results:
- `step_inv`: in kernel and context the modes stay as asked for, unless a step is excluded by the condition;
- `modes_shown_iff`: along a run a socket with a context is non-blocking in the kernel and F_GETFL reports what the user
  asked for, exactly when no step is excluded;
- `blocks_in_kernel`: FIONBIO with 0, and a context that an unhooked close has left behind.
-/
import Sylar.Core.Run
import Sylar.Hook.FdCtx

namespace Sylar.Hook.Modes

open Sylar.Run

/-! ## Model -/

structure Sys where
  kernel : ℕ → Option File
  mgr : FdManager
  /-- whether the user last asked for O_NONBLOCK on this open file -/
  requested : ℕ → Bool

def init : Sys where
  kernel _ := none
  mgr := FdManager.empty
  requested _ := false

inductive Call where
  | socket (fd : ℕ)
  | accept (s fd : ℕ)
  /-- a file that is no socket -/
  | openFile (fd : ℕ) (flags : BitVec 32)
  | close (fd : ℕ)
  /-- `fcntl(fd, F_SETFL, arg)` -/
  | setfl (fd : ℕ) (arg : BitVec 32)
  /-- `fcntl(fd, F_GETFL)` -/
  | getfl (fd : ℕ)
  /-- `ioctl(fd, FIONBIO, &value)` -/
  | fionbio (fd : ℕ) (value : BitVec 32)
deriving DecidableEq, Repr

/-- a call, and `t_hook_enable` of the thread that makes it -/
structure Op where
  hookEnable : Bool
  call : Call
deriving DecidableEq, Repr

/-- the context that `fcntl` and `ioctl` go by -/
def Sys.socketCtx (s : Sys) (fd : ℕ) : Option FdCtx :=
  match s.mgr.get fd with
  | none => none
  | some ctx => if ctx.isClosed || !ctx.isSocket then none else some ctx

/-- the system call on an open file -/
def Sys.onFile (s : Sys) (fd : ℕ) (act : File → File) : Sys :=
  { s with kernel := Function.update s.kernel fd ((s.kernel fd).map act) }

/-- a new file that nobody has asked anything of -/
def Sys.newFile (s : Sys) (fd : ℕ) (f : File) : Sys :=
  { s with
    kernel := Function.update s.kernel fd (some f)
    requested := Function.update s.requested fd false }

/-- `FdMgr::GetInstance()->get(fd, true)` -/
def Sys.getCreate (s : Sys) (fd : ℕ) : Sys :=
  match s.mgr.get fd with
  | some _ => s
  | none =>
    let made := FdCtx.make (s.kernel fd)
    { s with mgr := s.mgr.create fd made.1, kernel := Function.update s.kernel fd made.2 }

def Sys.socket (s : Sys) (hookEnable : Bool) (fd : ℕ) : Sys :=
  let s' := s.newFile fd ⟨true, O_RDWR⟩
  if hookEnable then s'.getCreate fd else s'

/-- the context is made in every thread -/
def Sys.accept (s : Sys) (fd : ℕ) : Sys := (s.newFile fd ⟨true, O_RDWR⟩).getCreate fd

def Sys.close (s : Sys) (hookEnable : Bool) (fd : ℕ) : Sys :=
  { s with
    mgr := if hookEnable then s.mgr.del fd else s.mgr
    kernel := Function.update s.kernel fd none }

def Sys.setfl (s : Sys) (fd : ℕ) (arg : BitVec 32) : Sys :=
  match s.socketCtx fd with
  | none => s.onFile fd (·.setfl arg)
  | some ctx =>
    let arg' := if ctx.sysNonblock then arg ||| O_NONBLOCK else arg &&& ~~~O_NONBLOCK
    { s.onFile fd (·.setfl arg') with mgr := s.mgr.setUserNonblock fd (nonblock arg) }

/-- what `fcntl(fd, F_GETFL)` returns on an open file -/
def Sys.getfl (s : Sys) (fd : ℕ) (f : File) : BitVec 32 :=
  match s.socketCtx fd with
  | none => f.flags
  | some ctx => if ctx.userNonblock then f.flags ||| O_NONBLOCK else f.flags &&& ~~~O_NONBLOCK

def Sys.fionbio (s : Sys) (fd : ℕ) (value : BitVec 32) : Sys :=
  match s.socketCtx fd with
  | none => s.onFile fd (·.fionbio value)
  | some _ => { s.onFile fd (·.fionbio value) with mgr := s.mgr.setUserNonblock fd (value ≠ 0#32) }

def Sys.request (s : Sys) (fd : ℕ) (v : Bool) : Sys := { s with requested := Function.update s.requested fd v }

/-- the call can succeed -/
def Sys.succeeds (s : Sys) : Call → Bool
  | .socket fd | .openFile fd _ => (s.kernel fd).isNone
  | .accept l fd => (s.kernel l).any (·.isSocket) && (s.kernel fd).isNone
  | .close fd | .setfl fd _ | .getfl fd | .fionbio fd _ => (s.kernel fd).isSome

def step (s : Sys) (o : Op) : Sys :=
  if s.succeeds o.call then
    match o.call with
    | .socket fd => s.socket o.hookEnable fd
    | .accept _ fd => s.accept fd
    | .openFile fd flags => s.newFile fd ⟨false, flags⟩
    | .close fd => s.close o.hookEnable fd
    | .setfl fd arg => (s.setfl fd arg).request fd (nonblock arg)
    | .getfl _ => s
    | .fionbio fd value => (s.fionbio fd value).request fd (value ≠ 0#32)
  else s

/-- an open socket whose context says sysNonblock is non-blocking in the kernel, and F_GETFL reports O_NONBLOCK exactly
if the user has last asked for it -/
structure ModesShown (s : Sys) : Prop where
  sys : ∀ fd f ctx, s.kernel fd = some f → f.isSocket = true → s.mgr.get fd = some ctx → ctx.sysNonblock = true →
    nonblock f.flags = true
  user : ∀ fd f, s.kernel fd = some f → f.isSocket = true → nonblock (s.getfl fd f) = s.requested fd

/-- the condition of a run: FIONBIO with 0 is not called on a socket with a context, and a new socket does not get the
number of a context that is still there -/
def Allowed (s : Sys) (o : Op) : Prop :=
  match o.call with
  | .fionbio fd value => ∀ f, s.kernel fd = some f → f.isSocket = true → (s.socketCtx fd).isSome = true → value ≠ 0#32
  | .socket fd | .accept _ fd => s.succeeds o.call = true → s.mgr.get fd = none
  | _ => True

/-! ## One file -/

/-- what holds of a number, its context and the mode asked for: a context is that of a socket, an open socket without one
has the mode itself, and one with a context is non-blocking with the mode kept in the context -/
structure Agree (file : Option File) (ctx : Option FdCtx) (requested : Bool) : Prop where
  kind : ∀ c ∈ ctx, c.isSocket = true ∧ c.sysNonblock = true ∧ c.isClosed = false
  plain : ∀ f ∈ file, f.isSocket = true → ctx = none → nonblock f.flags = requested
  hooked : ∀ f ∈ file, f.isSocket = true → ∀ c ∈ ctx, nonblock f.flags = true ∧ c.userNonblock = requested

def Inv (s : Sys) : Prop := ∀ fd, Agree (s.kernel fd) (s.mgr.get fd) (s.requested fd)

theorem inv_init : Inv init := by
  intro fd
  constructor <;> simp [init]

/-- the number that a call is about -/
def Call.fd : Call → ℕ
  | .socket fd | .accept _ fd | .openFile fd _ | .close fd | .setfl fd _ | .getfl fd | .fionbio fd _ => fd

theorem getCreate_frame (s : Sys) {fd fd' : ℕ} (h : fd ≠ fd') : (s.getCreate fd').kernel fd = s.kernel fd ∧
    (s.getCreate fd').mgr.get fd = s.mgr.get fd ∧ (s.getCreate fd').requested fd = s.requested fd := by
  unfold Sys.getCreate
  cases s.mgr.get fd' with
  | some c => exact ⟨rfl, rfl, rfl⟩
  | none => exact ⟨Function.update_of_ne h _ _, by rw [FdManager.get_create, if_neg h], rfl⟩

/-- a call leaves all other numbers alone -/
theorem step_frame (s : Sys) (o : Op) (fd : ℕ) (h : fd ≠ o.call.fd) :
    (step s o).kernel fd = s.kernel fd ∧ (step s o).mgr.get fd = s.mgr.get fd ∧
      (step s o).requested fd = s.requested fd := by
  obtain ⟨hookEnable, call⟩ := o
  have hnew : ∀ f, (s.newFile call.fd f).kernel fd = s.kernel fd ∧ (s.newFile call.fd f).mgr.get fd = s.mgr.get fd ∧
      (s.newFile call.fd f).requested fd = s.requested fd := by
    intro f
    exact ⟨Function.update_of_ne h _ _, rfl, Function.update_of_ne h _ _⟩
  have hmade : ∀ f, ((s.newFile call.fd f).getCreate call.fd).kernel fd = s.kernel fd ∧
      ((s.newFile call.fd f).getCreate call.fd).mgr.get fd = s.mgr.get fd ∧
      ((s.newFile call.fd f).getCreate call.fd).requested fd = s.requested fd := by
    intro f
    obtain ⟨hkernel, hmgr, hrequested⟩ := getCreate_frame (s.newFile call.fd f) h
    rw [hkernel, hmgr, hrequested]
    exact hnew f
  unfold step
  split_ifs
  · cases call with
    | socket fd' =>
      simp only [Sys.socket]
      split_ifs
      · exact hmade _
      · exact hnew _
    | accept l fd' => exact hmade _
    | openFile fd' flags => exact hnew _
    | close fd' =>
      refine ⟨Function.update_of_ne h _ _, ?_, rfl⟩
      simp only [Sys.close]
      split_ifs
      · rw [FdManager.get_del]
        exact if_neg h
      · rfl
    | setfl fd' arg =>
      have hne : fd ≠ fd' := h
      simp only [Sys.setfl, Sys.request, Sys.onFile]
      cases s.socketCtx fd' <;> simp [FdManager.get_setUserNonblock, hne]
    | getfl fd' => exact ⟨rfl, rfl, rfl⟩
    | fionbio fd' value =>
      have hne : fd ≠ fd' := h
      simp only [Sys.fionbio, Sys.request, Sys.onFile]
      cases s.socketCtx fd' <;> simp [FdManager.get_setUserNonblock, hne]
  · exact ⟨rfl, rfl, rfl⟩

/-- the invariant asks for the number of the call only -/
theorem Inv.step_of {s : Sys} (h : Inv s) (o : Op)
    (hfd : Agree ((step s o).kernel o.call.fd) ((step s o).mgr.get o.call.fd) ((step s o).requested o.call.fd)) :
    Inv (step s o) := by
  intro fd
  by_cases hne : fd = o.call.fd
  · rw [hne]
    exact hfd
  · obtain ⟨hkernel, hmgr, hrequested⟩ := step_frame s o fd hne
    rw [hkernel, hmgr, hrequested]
    exact h fd

/-- every context is that of a socket, and none is marked closed -/
theorem Inv.socketCtx_eq {s : Sys} (h : Inv s) (fd : ℕ) : s.socketCtx fd = s.mgr.get fd := by
  unfold Sys.socketCtx
  cases hctx : s.mgr.get fd with
  | none => rfl
  | some c =>
    obtain ⟨hsocket, -, hopen⟩ := (h fd).kind c hctx
    simp [hsocket, hopen]

/-- a context is made for a new socket, which gets non-blocking -/
theorem getCreate_socket {s : Sys} {fd : ℕ} {f : File} (hfile : s.kernel fd = some f) (hsocket : f.isSocket = true)
    (hfree : s.mgr.get fd = none) :
    ∃ f' ctx, (s.getCreate fd).kernel fd = some f' ∧ (s.getCreate fd).mgr.get fd = some ctx ∧
      nonblock f'.flags = true ∧ ctx.isSocket = true ∧ ctx.sysNonblock = true ∧ ctx.isClosed = false ∧
      ctx.userNonblock = false := by
  have hmake : s.getCreate fd =
      { s with
        mgr := s.mgr.create fd (FdCtx.make (some f)).1
        kernel := Function.update s.kernel fd (FdCtx.make (some f)).2 } := by
    rw [Sys.getCreate, hfree, hfile]
  simp only [hmake, Function.update_self, FdManager.get_create, if_true, FdCtx.make, hsocket]
  refine ⟨_, _, rfl, rfl, ?_, rfl, rfl, rfl, rfl⟩
  split_ifs with hflags
  · exact hflags
  · rw [nonblock_setfl, nonblock_or]

/-! ## Steps -/

theorem newSocket_agree {s : Sys} {fd : ℕ} (hfree : s.mgr.get fd = none) :
    Agree (((s.newFile fd ⟨true, O_RDWR⟩).getCreate fd).kernel fd)
      (((s.newFile fd ⟨true, O_RDWR⟩).getCreate fd).mgr.get fd)
      (((s.newFile fd ⟨true, O_RDWR⟩).getCreate fd).requested fd) := by
  have hfile : (s.newFile fd ⟨true, O_RDWR⟩).kernel fd = some ⟨true, O_RDWR⟩ := Function.update_self _ _ _
  obtain ⟨f', ctx, hkernel, hmgr, hflags, hsocket, hsys, hopen, huser⟩ := getCreate_socket hfile rfl hfree
  have hrequested : ((s.newFile fd ⟨true, O_RDWR⟩).getCreate fd).requested fd = false := by
    have hnew : (s.newFile fd ⟨true, O_RDWR⟩).requested fd = false := Function.update_self _ _ _
    have hget : (s.newFile fd ⟨true, O_RDWR⟩).mgr.get fd = none := hfree
    rw [Sys.getCreate, hget]
    exact hnew
  rw [hkernel, hmgr, hrequested]
  refine ⟨?_, by simp, ?_⟩
  · intro c hc
    cases hc
    exact ⟨hsocket, hsys, hopen⟩
  · intro f hf _ c hc
    cases hf
    cases hc
    exact ⟨hflags, huser⟩

/-- **The modes stay as asked for.** A step that meets the condition keeps the invariant. -/
theorem step_inv (s : Sys) (o : Op) (h : Inv s) (hallowed : Allowed s o) : Inv (step s o) := by
  apply h.step_of o
  obtain ⟨hookEnable, call⟩ := o
  have hfd := h call.fd
  unfold step
  split_ifs with hok
  · cases call with
    | socket fd =>
      have hfree : s.mgr.get fd = none := hallowed hok
      simp only [Sys.socket, Call.fd]
      split_ifs
      · exact newSocket_agree hfree
      · -- without a context, and in the mode of a new socket
        simp only [Sys.newFile, Function.update_self, hfree]
        refine ⟨by simp, ?_, by simp⟩
        intro f hf _ _
        cases hf
        decide
    | accept l fd => exact newSocket_agree (hallowed hok)
    | openFile fd flags =>
      simp only [Call.fd, Sys.newFile, Function.update_self]
      exact ⟨hfd.kind, by simp, by simp⟩
    | close fd =>
      simp only [Call.fd, Sys.close, Function.update_self]
      refine ⟨?_, by simp, by simp⟩
      split_ifs
      · rw [FdManager.get_del, if_pos rfl]
        simp
      · exact hfd.kind
    | setfl fd arg =>
      simp only [Call.fd, Sys.setfl, h.socketCtx_eq]
      cases hctx : s.mgr.get fd with
      | none =>
        simp only [Sys.request, Sys.onFile, Function.update_self, hctx]
        exact ⟨by simp, by simp, by simp⟩
      | some c =>
        obtain ⟨hsocket, hsys, hopen⟩ := hfd.kind c hctx
        simp only [Sys.request, Sys.onFile, Function.update_self, FdManager.get_setUserNonblock, if_pos, hctx, hsys]
        exact ⟨by simp [hsocket, hsys, hopen], by simp, by simp⟩
    | getfl fd => exact hfd
    | fionbio fd value =>
      simp only [Call.fd, Sys.fionbio, h.socketCtx_eq]
      cases hctx : s.mgr.get fd with
      | none =>
        simp only [Sys.request, Sys.onFile, Function.update_self, hctx]
        exact ⟨by simp, by simp, by simp⟩
      | some c =>
        obtain ⟨hsocket, hsys, hopen⟩ := hfd.kind c hctx
        simp only [Sys.request, Sys.onFile, Function.update_self, FdManager.get_setUserNonblock, if_pos, hctx]
        refine ⟨by simp [hsocket, hsys, hopen], by simp, ?_⟩
        intro f hf hfsocket c' hc'
        obtain ⟨f', hf', rfl⟩ := Option.map_eq_some_iff.1 hf
        obtain rfl : { c with userNonblock := decide (value ≠ 0#32) } = c' := by simpa using hc'
        have hvalue : value ≠ 0#32 := hallowed f' hf' hfsocket (by rw [h.socketCtx_eq, hctx]; rfl)
        exact ⟨by rw [nonblock_fionbio, decide_eq_true hvalue], rfl⟩
  · exact hfd

theorem Inv.modesShown {s : Sys} (h : Inv s) : ModesShown s := by
  refine ⟨fun fd f ctx hfile hsocket hctx _ => ?_, fun fd f hfile hsocket => ?_⟩
  · exact ((h fd).hooked f hfile hsocket ctx hctx).1
  · simp only [Sys.getfl, h.socketCtx_eq]
    cases hctx : s.mgr.get fd with
    | none => exact (h fd).plain f hfile hsocket hctx
    | some c =>
      rw [← ((h fd).hooked f hfile hsocket c hctx).2]
      cases hu : c.userNonblock <;> simp [hu]

/-- a file that is a socket with a context, and blocks -/
theorem not_modesShown {s : Sys} {fd : ℕ} {f : File} (hfile : s.kernel fd = some f) (hsocket : f.isSocket = true)
    (hsys : (s.mgr.get fd).map (·.sysNonblock) = some true) (hflags : nonblock f.flags = false) : ¬ ModesShown s := by
  intro h
  obtain ⟨ctx, hctx, hsys⟩ := Option.map_eq_some_iff.1 hsys
  have htrue := h.sys fd f ctx hfile hsocket hctx hsys
  rw [hflags] at htrue
  cases htrue

/-- a new socket with the number of a context that is still there blocks -/
theorem reused_blocks {s s' : Sys} (h : Inv s) {fd : ℕ} {c : FdCtx} (hctx : s.mgr.get fd = some c)
    (hs' : s' = s.newFile fd ⟨true, O_RDWR⟩ ∨ s' = (s.newFile fd ⟨true, O_RDWR⟩).getCreate fd) : ¬ ModesShown s' := by
  have hget : (s.newFile fd ⟨true, O_RDWR⟩).mgr.get fd = some c := hctx
  have hsame : s' = s.newFile fd ⟨true, O_RDWR⟩ := by
    rcases hs' with rfl | rfl
    · rfl
    · rw [Sys.getCreate, hget]
  rw [hsame]
  refine not_modesShown (Function.update_self _ _ _) rfl ?_ (by decide)
  rw [hget, Option.map_some, ((h fd).kind c hctx).2.1]

/-- a step that does not meet the condition leaves a socket with a context that blocks -/
theorem step_blocks (s : Sys) (o : Op) (h : Inv s) (hnot : ¬ Allowed s o) : ¬ ModesShown (step s o) := by
  obtain ⟨hookEnable, call⟩ := o
  cases call with
  | socket fd =>
    obtain ⟨hok, hctx⟩ := Classical.not_imp.1 hnot
    obtain ⟨c, hc⟩ := Option.ne_none_iff_exists'.1 hctx
    apply reused_blocks h hc
    rw [step, if_pos hok]
    cases hookEnable
    · exact .inl rfl
    · exact .inr rfl
  | accept l fd =>
    obtain ⟨hok, hctx⟩ := Classical.not_imp.1 hnot
    obtain ⟨c, hc⟩ := Option.ne_none_iff_exists'.1 hctx
    refine reused_blocks h hc (.inr ?_)
    rw [step, if_pos hok]
    rfl
  | fionbio fd value =>
    simp only [Allowed, not_forall] at hnot
    obtain ⟨f, hfile, hsocket, hctx, hvalue⟩ := hnot
    obtain ⟨c, hc⟩ := Option.isSome_iff_exists.1 hctx
    have hget : s.mgr.get fd = some c := by rw [← h.socketCtx_eq, hc]
    have hok : s.succeeds (.fionbio fd value) = true := by simp [Sys.succeeds, hfile]
    have hstep : step s ⟨hookEnable, .fionbio fd value⟩ = (s.fionbio fd value).request fd (value ≠ 0#32) := by
      rw [step, if_pos hok]
    have hfionbio : s.fionbio fd value =
        { s.onFile fd (·.fionbio value) with mgr := s.mgr.setUserNonblock fd (value ≠ 0#32) } := by
      rw [Sys.fionbio, hc]
    have hkernel : (step s ⟨hookEnable, .fionbio fd value⟩).kernel fd = some (f.fionbio value) := by
      rw [hstep, hfionbio]
      simp [Sys.request, Sys.onFile, hfile]
    have hsys : ((step s ⟨hookEnable, .fionbio fd value⟩).mgr.get fd).map (·.sysNonblock) = some true := by
      rw [hstep, hfionbio]
      simp [Sys.request, FdManager.get_setUserNonblock, hget, ((h fd).kind c hget).2.1]
    apply not_modesShown hkernel hsocket hsys
    rw [nonblock_fionbio]
    exact decide_eq_false hvalue
  | openFile | close | setfl | getfl => exact absurd trivial hnot

/-! ## Main results -/

/-- **The mode of a hooked socket.** Along a run sockets with a context are non-blocking in the kernel and F_GETFL reports
what the user asked for, exactly when FIONBIO with 0 is not called on such a socket and no new socket gets the number of
a context that is still there. -/
theorem modes_shown_iff (ops : List Op) :
    (∀ pre, pre <+: ops → ModesShown (run step init pre)) ↔ Guarded step Allowed init ops :=
  states_good_iff step_inv (fun _ h => h.modesShown) step_blocks inv_init ops

/-- in a thread with hooking enabled: FIONBIO with 0 on a hooked socket -/
def fionbioTrace : List Op := [⟨true, .socket 5⟩, ⟨true, .fionbio 5 0⟩]

/-- a socket is closed by a thread with hooking disabled, and its number is used again -/
def reusedTrace : List Op := [⟨true, .socket 5⟩, ⟨false, .close 5⟩, ⟨true, .socket 5⟩]

/-- **A hooked socket blocks.** In both traces the file behind 5 has lost O_NONBLOCK, and its context says sysNonblock. -/
theorem blocks_in_kernel :
    (run step init fionbioTrace).kernel 5 = some ⟨true, O_RDWR⟩ ∧ ¬ ModesShown (run step init fionbioTrace) ∧
      (run step init reusedTrace).kernel 5 = some ⟨true, O_RDWR⟩ ∧ ¬ ModesShown (run step init reusedTrace) := by
  have hfionbio : (run step init fionbioTrace).kernel 5 = some ⟨true, O_RDWR⟩ := by decide
  have hreused : (run step init reusedTrace).kernel 5 = some ⟨true, O_RDWR⟩ := by decide
  exact ⟨hfionbio, not_modesShown hfionbio rfl (by decide) (by decide),
    hreused, not_modesShown hreused rfl (by decide) (by decide)⟩

end Sylar.Hook.Modes

/-
`Socket` of socket.cc, over the hooked `socket`, `accept` and `close`.

A member function is a function of the process (its open files and its `FdManager`) and the object. What the kernel answers
is an argument: the number of a new descriptor, which is refused where it is open, the result of `connect` and `bind`, the
addresses of `getsockname` and `getpeername`. `connect` is cut where it waits. The probe of `bind` on a Unix path does not
wait. `setsockopt` and `listen` change nothing here, and m_protocol is 0.

Results:
- `newSock_does`, `connectCall_does`, `bind_does`, `accept_does`, `close_does`: each function opens the descriptor of an object
  without one, closes the one that it has, or leaves the descriptors alone;
- `init_accepts`: `init` never refuses a descriptor that `accept` returned.
-/
import Sylar.Address.Compare
import Sylar.Hook.Modes

namespace Sylar.Sockets

open Sylar.Address
open Sylar.Hook (FdCtx)

/-- the open files and the contexts -/
abbrev Process := Sylar.Hook.Modes.Sys

/-! ## Model -/

inductive SockType where
  | TCP
  | UDP
deriving DecidableEq, Repr

structure Socket where
  /-- none is -1 -/
  m_sock : Option ℕ
  m_family : ℕ
  m_type : SockType
  m_isConnected : Bool
  m_localAddress : Option AnyAddress
  m_remoteAddress : Option AnyAddress

namespace Socket

def new (family : ℕ) (type : SockType) : Socket := ⟨none, family, type, false, none, none⟩

def isValid (s : Socket) : Bool := s.m_sock.isSome

section

variable (hookEnable : Bool)

def newSock (fd : Option ℕ) (p : Process) (s : Socket) : Process × Socket :=
  match fd with
  | none => (p, { s with m_sock := none })
  | some fd =>
    if (p.kernel fd).isSome then (p, { s with m_sock := none })
    else (p.socket hookEnable fd, { s with m_sock := some fd })

/-- `if(!isValid()) newSock()` -/
def ensureSock (fd : Option ℕ) (p : Process) (s : Socket) : Process × Socket :=
  if s.isValid then (p, s) else newSock hookEnable fd p s

def CreateTCP (family : ℕ) : Socket := new family .TCP

/-- a socket that counts as connected from the start -/
def CreateUDP (family : ℕ) (fd : Option ℕ) (p : Process) : Process × Socket :=
  let (p, s) := newSock hookEnable fd p (new family .UDP)
  (p, { s with m_isConnected := true })

def CreateUnixUDPSocket : Socket := new AF_UNIX.toNat .UDP

/-- `reply` is that of getpeername -/
def getRemoteAddress (reply : Option AnyAddress) (s : Socket) : AnyAddress × Socket :=
  match s.m_remoteAddress with
  | some a => (a, s)
  | none =>
    match if s.isValid then reply else none with
    | none => (.unknown (BitVec.ofNat 16 s.m_family), s)
    | some a => (a, { s with m_remoteAddress := some a })

/-- `reply` is that of getsockname -/
def getLocalAddress (reply : Option AnyAddress) (s : Socket) : AnyAddress × Socket :=
  match s.m_localAddress with
  | some a => (a, s)
  | none =>
    match if s.isValid then reply else none with
    | none => (.unknown (BitVec.ofNat 16 s.m_family), s)
    | some a => (a, { s with m_localAddress := some a })

def close (p : Process) (s : Socket) : Bool × Process × Socket :=
  if s.m_isConnected = false ∧ s.m_sock = none then (true, p, s)
  else match s.m_sock with
    | none => (false, p, { s with m_isConnected := false })
    | some fd => (false, p.close hookEnable fd, { s with m_isConnected := false, m_sock := none })

/-- `connect` up to the call of connect_with_timeout, which is made where the result is true -/
def connectCall (addr : AnyAddress) (fd : Option ℕ) (p : Process) (s : Socket) : Bool × Process × Socket :=
  let s := { s with m_remoteAddress := some addr }
  let (p, s) := ensureSock hookEnable fd p s
  if s.isValid = false then (false, p, s)
  else if addr.getFamily ≠ s.m_family then (false, p, s)
  else (true, p, s)

/-- `connect` behind the call; `ok`: it returned 0 -/
def connectReturn (ok : Bool) (peer sock : Option AnyAddress) (p : Process) (s : Socket) : Bool × Process × Socket :=
  if ok = false then (false, (close hookEnable p s).2)
  else
    let s := { s with m_isConnected := true }
    let s := (getRemoteAddress peer s).2
    (true, p, (getLocalAddress sock s).2)

/-- `reconnect` up to the call -/
def reconnectCall (fd : Option ℕ) (p : Process) (s : Socket) : Bool × Process × Socket :=
  match s.m_remoteAddress with
  | none => (false, p, s)
  | some addr => connectCall hookEnable addr fd p { s with m_localAddress := none }

/-- a socket of its own connects to the path; it is destroyed behind that -/
def probe (uaddr : UnixAddress) (fd : Option ℕ) (ok : Bool) (p : Process) : Bool × Process :=
  let (called, p, sock) := connectCall hookEnable (.unix uaddr) fd p (CreateTCP AF_UNIX.toNat)
  let (connected, p, sock) := if called then connectReturn hookEnable ok none none p sock else (false, p, sock)
  (connected, (close hookEnable p sock).2.1)

/-- what the kernel answers to `bind` -/
structure BindReplies where
  fd : Option ℕ
  probeFd : Option ℕ
  probeConnects : Bool
  ok : Bool
  sock : Option AnyAddress

/-- the part of `bind` on Unix paths: whether somebody accepts there, and the path that is unlinked if not -/
def claimPath (addr : AnyAddress) (r : BindReplies) (p : Process) : Bool × Option Bytes × Process :=
  match addr with
  | .unix uaddr =>
    let (connected, p) := probe hookEnable uaddr r.probeFd r.probeConnects p
    (connected, if connected then none else some uaddr.getPath, p)
  | _ => (false, none, p)

/-- the second part is the path that is unlinked -/
def bind (addr : AnyAddress) (r : BindReplies) (p : Process) (s : Socket) : Bool × Option Bytes × Process × Socket :=
  let (p, s) := ensureSock hookEnable r.fd p s
  if s.isValid = false then (false, none, p, s)
  else if addr.getFamily ≠ s.m_family then (false, none, p, s)
  else
    let (accepted, path, p) := claimPath hookEnable addr r p
    if accepted then (false, path, p, s)
    else if r.ok = false then (false, path, p, s)
    else (true, path, p, (getLocalAddress r.sock s).2)

/-- a descriptor that `accept` has returned -/
def init (sock : ℕ) (peer loc : Option AnyAddress) (p : Process) (s : Socket) : Bool × Socket :=
  match p.mgr.get sock with
  | none => (false, s)
  | some ctx =>
    if ctx.isSocket && !ctx.isClosed then
      let s := { s with m_sock := some sock, m_isConnected := true }
      let s := (getLocalAddress loc s).2
      (true, (getRemoteAddress peer s).2)
    else (false, s)

/-- the new object, if it is returned -/
def accept (fd : Option ℕ) (peer loc : Option AnyAddress) (p : Process) (s : Socket) : Process × Option Socket :=
  match if s.isValid then fd else none with
  | none => (p, none)
  | some fd =>
    if (p.kernel fd).isSome then (p, none)
    else
      let p := p.accept fd
      let (ok, sock) := init fd peer loc p (new s.m_family s.m_type)
      (p, if ok then some sock else none)

end

end Socket

/-! ## What a function does to the descriptors -/

/-- the descriptor is open -/
def opens (p : Process) (fd : ℕ) : Bool := (p.kernel fd).isSome

/-- every context is that of a socket, and none is marked closed -/
def Contexts (p : Process) : Prop := ∀ fd ctx, p.mgr.get fd = some ctx → ctx.isSocket = true ∧ ctx.isClosed = false

/-- the descriptors stay, one is opened for an object that has none, or the one of the object is closed -/
inductive Effect (p : Process) (sock : Option ℕ) (p' : Process) (sock' : Option ℕ) : Prop where
  | keep (hopen : opens p' = opens p) (hsock : sock' = sock)
  | opened (fd : ℕ) (hfree : opens p fd = false) (hopen : opens p' = Function.update (opens p) fd true)
      (hsock : sock = none) (hsock' : sock' = some fd)
  | closed (fd : ℕ) (hopen : opens p' = Function.update (opens p) fd false) (hsock : sock = some fd) (hsock' : sock' = none)

/-- and what it keeps: the contexts, and that only an object with a descriptor counts as connected -/
structure Does (p : Process) (s : Socket) (p' : Process) (s' : Socket) : Prop where
  effect : Effect p s.m_sock p' s'.m_sock
  contexts : Contexts p → Contexts p'
  connected : (s.m_isConnected = true → s.isValid = true) → s'.m_isConnected = true → s'.isValid = true

section

variable {p : Process} {fd : ℕ}

theorem opens_getCreate (p : Process) (fd : ℕ) : opens (p.getCreate fd) = opens p := by
  rw [Hook.Modes.Sys.getCreate]
  split
  · rfl
  · funext x
    simp only [opens]
    by_cases hx : x = fd
    · subst hx
      rw [Function.update_self]
      cases p.kernel x with
      | none => rfl
      | some f =>
        rw [FdCtx.make]
        split_ifs <;> rfl
    · rw [Function.update_of_ne hx]

theorem opens_newFile (p : Process) (fd : ℕ) (f : Hook.File) : opens (p.newFile fd f) = Function.update (opens p) fd true := by
  funext x
  by_cases hx : x = fd
  · subst hx
    simp [opens, Hook.Modes.Sys.newFile]
  · simp [opens, Hook.Modes.Sys.newFile, hx]

theorem opens_socket (hookEnable : Bool) : opens (p.socket hookEnable fd) = Function.update (opens p) fd true := by
  simp only [Hook.Modes.Sys.socket]
  split_ifs
  · rw [opens_getCreate, opens_newFile]
  · rw [opens_newFile]

theorem opens_accept : opens (p.accept fd) = Function.update (opens p) fd true := by
  rw [Hook.Modes.Sys.accept, opens_getCreate, opens_newFile]

theorem opens_close (hookEnable : Bool) : opens (p.close hookEnable fd) = Function.update (opens p) fd false := by
  funext x
  by_cases hx : x = fd
  · subst hx
    simp [opens, Hook.Modes.Sys.close]
  · simp [opens, Hook.Modes.Sys.close, hx]

/-- the context of a new socket is there, and a socket's -/
theorem contexts_create (h : Contexts p) : Contexts ((p.newFile fd ⟨true, Hook.O_RDWR⟩).getCreate fd) := by
  intro x ctx hctx
  have hfile : (p.newFile fd ⟨true, Hook.O_RDWR⟩).kernel fd = some ⟨true, Hook.O_RDWR⟩ := Function.update_self _ _ _
  by_cases hx : x = fd
  · subst hx
    cases hget : p.mgr.get x with
    | some c =>
      have hkeep : (p.newFile x ⟨true, Hook.O_RDWR⟩).getCreate x = p.newFile x ⟨true, Hook.O_RDWR⟩ := by
        rw [Hook.Modes.Sys.getCreate, show (p.newFile x ⟨true, Hook.O_RDWR⟩).mgr.get x = some c from hget]
      rw [hkeep] at hctx
      exact h x ctx hctx
    | none =>
      obtain ⟨f', c, -, hc, -, hsocket, -, hopen, -⟩ := Hook.Modes.getCreate_socket hfile rfl hget
      rw [hc] at hctx
      obtain rfl := Option.some.inj hctx
      exact ⟨hsocket, hopen⟩
  · rw [(Hook.Modes.getCreate_frame _ hx).2.1] at hctx
    exact h x ctx hctx

theorem contexts_socket (h : Contexts p) (hookEnable : Bool) : Contexts (p.socket hookEnable fd) := by
  simp only [Hook.Modes.Sys.socket]
  split_ifs
  · exact contexts_create h
  · exact h

theorem contexts_close (h : Contexts p) (hookEnable : Bool) : Contexts (p.close hookEnable fd) := by
  intro x ctx hctx
  simp only [Hook.Modes.Sys.close] at hctx
  split_ifs at hctx
  · rw [Hook.FdManager.get_del] at hctx
    split_ifs at hctx
    exact h x ctx hctx
  · exact h x ctx hctx

/-- a call of the rest of the program -/
theorem contexts_step (h : Contexts p) (o : Hook.Modes.Op) : Contexts (Hook.Modes.step p o) := by
  have huser : ∀ fd v, ∀ x ctx, (p.mgr.setUserNonblock fd v).get x = some ctx → ctx.isSocket = true ∧ ctx.isClosed = false := by
    intro fd v x ctx hctx
    rw [Hook.FdManager.get_setUserNonblock] at hctx
    split_ifs at hctx with hx
    · obtain ⟨c, hc, rfl⟩ := Option.map_eq_some_iff.1 hctx
      exact h _ c hc
    · exact h x ctx hctx
  rw [Hook.Modes.step]
  split_ifs
  · split
    · exact contexts_socket h _
    · exact contexts_create h
    · exact h
    · exact contexts_close h _
    · rw [Hook.Modes.Sys.setfl]
      split
      · exact h
      · exact huser _ _
    · exact h
    · rw [Hook.Modes.Sys.fionbio]
      split
      · exact h
      · exact huser _ _
  · exact h

end

section

variable (hookEnable : Bool) {p : Process} {s : Socket}

/-- the object changes in what does not concern its descriptor -/
theorem Does.same {s' : Socket} (hsock : s'.m_sock = s.m_sock) (hcon : s'.m_isConnected = s.m_isConnected) : Does p s p s' :=
  ⟨.keep rfl hsock, id, fun h hc => by rw [Socket.isValid, hsock]; exact h (hcon ▸ hc)⟩

theorem Does.trans_same {p' : Process} {s' s'' : Socket} (h : Does p s p' s') (hsock : s''.m_sock = s'.m_sock)
    (hcon : s''.m_isConnected = s'.m_isConnected) : Does p s p' s'' :=
  ⟨hsock ▸ h.effect, h.contexts, fun hs hc => by rw [Socket.isValid, hsock]; exact h.connected hs (hcon ▸ hc)⟩

@[simp] theorem getRemoteAddress_m_sock (reply : Option AnyAddress) (s : Socket) :
    (s.getRemoteAddress reply).2.m_sock = s.m_sock ∧ (s.getRemoteAddress reply).2.m_isConnected = s.m_isConnected := by
  rw [Socket.getRemoteAddress]
  split
  · exact ⟨rfl, rfl⟩
  · split <;> exact ⟨rfl, rfl⟩

@[simp] theorem getLocalAddress_m_sock (reply : Option AnyAddress) (s : Socket) :
    (s.getLocalAddress reply).2.m_sock = s.m_sock ∧ (s.getLocalAddress reply).2.m_isConnected = s.m_isConnected := by
  rw [Socket.getLocalAddress]
  split
  · exact ⟨rfl, rfl⟩
  · split <;> exact ⟨rfl, rfl⟩

theorem newSock_does (fd : Option ℕ) (h : s.m_sock = none) :
    Does p s (Socket.newSock hookEnable fd p s).1 (Socket.newSock hookEnable fd p s).2 := by
  cases fd with
  | none => exact Does.same h.symm rfl
  | some fd =>
    rw [Socket.newSock]
    split_ifs with hopen
    · exact Does.same h.symm rfl
    · exact ⟨.opened fd (by simpa [opens] using hopen) (opens_socket hookEnable) h rfl, fun hctx => contexts_socket hctx _,
        fun _ _ => rfl⟩

/-- without a descriptor the object counts as connected all the same -/
theorem CreateUDP_does (family : ℕ) (fd : Option ℕ) (p : Process) :
    ((∃ x, fd = some x ∧ opens p x = false) → Does p (.new family .UDP) (Socket.CreateUDP hookEnable family fd p).1
      (Socket.CreateUDP hookEnable family fd p).2) ∧
      ((¬ ∃ x, fd = some x ∧ opens p x = false) → (Socket.CreateUDP hookEnable family fd p).2.m_sock = none) ∧
      (Socket.CreateUDP hookEnable family fd p).2.m_isConnected = true := by
  refine ⟨?_, fun hnot => ?_, rfl⟩
  · rintro ⟨x, rfl, hfree⟩
    have hnone : (p.kernel x).isSome = false := hfree
    have hcreate : Socket.CreateUDP hookEnable family (some x) p =
        (p.socket hookEnable x, ⟨some x, family, .UDP, true, none, none⟩) := by
      simp [Socket.CreateUDP, Socket.newSock, hnone, Socket.new]
    rw [hcreate]
    exact ⟨.opened x hfree (opens_socket hookEnable) rfl rfl, fun h => contexts_socket h hookEnable, fun _ _ => rfl⟩
  · cases fd with
    | none => rfl
    | some x =>
      have hopen : (p.kernel x).isSome = true := by
        by_contra hclosed
        exact hnot ⟨x, rfl, by simpa [opens] using hclosed⟩
      simp [Socket.CreateUDP, Socket.newSock, hopen]

theorem ensureSock_does (fd : Option ℕ) (p : Process) (s : Socket) :
    Does p s (s.ensureSock hookEnable fd p).1 (s.ensureSock hookEnable fd p).2 := by
  rw [Socket.ensureSock]
  split_ifs with hvalid
  · exact Does.same rfl rfl
  · exact newSock_does hookEnable fd (by simpa [Socket.isValid] using hvalid)

theorem close_does (p : Process) (s : Socket) :
    Does p s (s.close hookEnable p).2.1 (s.close hookEnable p).2.2 ∧ (s.close hookEnable p).2.2.m_sock = none ∧
      (s.close hookEnable p).2.2.m_isConnected = false := by
  rw [Socket.close]
  split_ifs with hclosed
  · exact ⟨Does.same rfl rfl, hclosed.2, hclosed.1⟩
  · cases hsock : s.m_sock with
    | none => exact ⟨⟨.keep rfl hsock.symm, id, fun _ hc => by cases hc⟩, rfl, rfl⟩
    | some fd =>
      exact ⟨⟨.closed fd (opens_close hookEnable) hsock rfl, fun h => contexts_close h hookEnable, fun _ hc => by cases hc⟩,
        rfl, rfl⟩

theorem connectCall_does (addr : AnyAddress) (fd : Option ℕ) (p : Process) (s : Socket) :
    Does p s (s.connectCall hookEnable addr fd p).2.1 (s.connectCall hookEnable addr fd p).2.2 := by
  have h := ensureSock_does hookEnable fd p { s with m_remoteAddress := some addr }
  rw [Socket.connectCall]
  generalize Socket.ensureSock hookEnable fd p { s with m_remoteAddress := some addr } = r at h
  obtain ⟨p', s'⟩ := r
  simp only
  split_ifs <;> exact ⟨h.effect, h.contexts, h.connected⟩

theorem reconnectCall_does (fd : Option ℕ) (p : Process) (s : Socket) :
    Does p s (s.reconnectCall hookEnable fd p).2.1 (s.reconnectCall hookEnable fd p).2.2 := by
  rw [Socket.reconnectCall]
  split
  · exact Does.same rfl rfl
  · have h := connectCall_does hookEnable (by assumption) fd p { s with m_localAddress := none }
    exact ⟨h.effect, h.contexts, h.connected⟩

/-- a call that succeeds on an object that was closed while it waited makes it connected without a descriptor -/
theorem connectReturn_does (ok : Bool) (peer sock : Option AnyAddress) (p : Process) (s : Socket) :
    ((ok = true → s.isValid = true) →
      Does p s (s.connectReturn hookEnable ok peer sock p).2.1 (s.connectReturn hookEnable ok peer sock p).2.2) ∧
      (ok = true → (s.connectReturn hookEnable ok peer sock p).2.1 = p ∧
        (s.connectReturn hookEnable ok peer sock p).2.2.m_sock = s.m_sock ∧
        (s.connectReturn hookEnable ok peer sock p).2.2.m_isConnected = true) := by
  cases ok with
  | false => exact ⟨fun _ => (close_does hookEnable p s).1, fun h => by cases h⟩
  | true =>
    have hsock : (s.connectReturn hookEnable true peer sock p).2.2.m_sock = s.m_sock ∧
        (s.connectReturn hookEnable true peer sock p).2.2.m_isConnected = true := by
      simp [Socket.connectReturn]
    refine ⟨fun hvalid => ⟨.keep rfl hsock.1, id, fun _ _ => ?_⟩, fun _ => ⟨rfl, hsock⟩⟩
    rw [Socket.isValid, hsock.1]
    exact hvalid rfl

/-- an object that is made and closed again leaves no descriptor open -/
theorem Effect.undo {p' p'' : Process} {sock : Option ℕ} (h : Effect p none p' sock) (h' : Effect p' sock p'' none) :
    opens p'' = opens p := by
  cases h with
  | keep hopen hsock =>
    cases h' with
    | keep hopen' _ => rw [hopen', hopen]
    | opened fd _ _ _ hsome => cases hsome
    | closed fd _ hsome _ => rw [hsock] at hsome; cases hsome
  | opened fd hfree hopen _ hsock =>
    cases h' with
    | keep _ hnone => rw [hsock] at hnone; cases hnone
    | opened fd' _ _ hnone _ => rw [hsock] at hnone; cases hnone
    | closed fd' hopen' hsome _ =>
      obtain rfl := Option.some.inj (hsock.symm.trans hsome)
      rw [hopen', hopen, Function.update_idem, ← hfree, Function.update_eq_self]
  | closed fd _ hsome _ => cases hsome

theorem probe_keeps (uaddr : UnixAddress) (fd : Option ℕ) (ok : Bool) (p : Process) :
    opens (Socket.probe hookEnable uaddr fd ok p).2 = opens p ∧
      (Contexts p → Contexts (Socket.probe hookEnable uaddr fd ok p).2) := by
  have hcall := connectCall_does hookEnable (.unix uaddr) fd p (Socket.CreateTCP AF_UNIX.toNat)
  rw [Socket.probe]
  generalize Socket.connectCall hookEnable (.unix uaddr) fd p (Socket.CreateTCP AF_UNIX.toNat) = r at hcall
  obtain ⟨called, p1, s1⟩ := r
  have hcall : Does p (Socket.CreateTCP AF_UNIX.toNat) p1 s1 := hcall
  obtain ⟨hclose, hnone, -⟩ := close_does hookEnable p1 s1
  have hfirst : opens (s1.close hookEnable p1).2.1 = opens p :=
    Effect.undo hcall.effect (hnone ▸ hclose.effect)
  have hctx : Contexts p → Contexts (s1.close hookEnable p1).2.1 := fun h => hclose.contexts (hcall.contexts h)
  cases called with
  | false => exact ⟨hfirst, hctx⟩
  | true =>
    cases ok with
    | true =>
      -- the object that is closed differs in its addresses and in being connected
      obtain ⟨hsame, hsock, -⟩ := (connectReturn_does hookEnable true none none p1 s1).2 rfl
      simp only [if_true]
      generalize Socket.connectReturn hookEnable true none none p1 s1 = r at hsame hsock
      obtain ⟨connected, p2, s2⟩ := r
      obtain rfl : p2 = p1 := hsame
      have hsock : s2.m_sock = s1.m_sock := hsock
      obtain ⟨hclose2, hnone2, -⟩ := close_does hookEnable p2 s2
      exact ⟨Effect.undo hcall.effect (hnone2 ▸ hsock ▸ hclose2.effect), fun h => hclose2.contexts (hcall.contexts h)⟩
    | false =>
      obtain ⟨-, hnone, hcon⟩ := close_does hookEnable p1 s1
      have hreturn : Socket.connectReturn hookEnable false none none p1 s1 = (false, (s1.close hookEnable p1).2) := rfl
      simp only [if_true, hreturn]
      have hagain : ∀ p2 s2, s2.m_sock = none → s2.m_isConnected = false → (Socket.close hookEnable p2 s2).2.1 = p2 := by
        intro p2 s2 h h'
        rw [Socket.close, if_pos ⟨h', h⟩]
      rw [hagain _ _ hnone hcon]
      exact ⟨hfirst, hctx⟩

theorem claimPath_keeps (addr : AnyAddress) (r : Socket.BindReplies) (p : Process) :
    opens (Socket.claimPath hookEnable addr r p).2.2 = opens p ∧
      (Contexts p → Contexts (Socket.claimPath hookEnable addr r p).2.2) := by
  cases addr with
  | unix uaddr => exact probe_keeps hookEnable uaddr r.probeFd r.probeConnects p
  | ipv4 a => exact ⟨rfl, id⟩
  | ipv6 a => exact ⟨rfl, id⟩
  | unknown family => exact ⟨rfl, id⟩

theorem bind_does (addr : AnyAddress) (r : Socket.BindReplies) (p : Process) (s : Socket) :
    Does p s (s.bind hookEnable addr r p).2.2.1 (s.bind hookEnable addr r p).2.2.2 := by
  have h := ensureSock_does hookEnable r.fd p s
  rw [Socket.bind]
  generalize Socket.ensureSock hookEnable r.fd p s = q at h
  obtain ⟨p1, s1⟩ := q
  obtain ⟨hopen, hctx⟩ := claimPath_keeps hookEnable addr r p1
  simp only
  generalize Socket.claimPath hookEnable addr r p1 = q at hopen hctx
  obtain ⟨accepted, path, p2⟩ := q
  have hdoes : Does p s p2 s1 := by
    refine ⟨?_, fun hc => hctx (h.contexts hc), h.connected⟩
    cases h.effect with
    | keep hopen1 hsock => exact .keep (hopen.trans hopen1) hsock
    | opened fd hfree hopen1 hsock hsock' => exact .opened fd hfree (hopen.trans hopen1) hsock hsock'
    | closed fd hopen1 hsock hsock' => exact .closed fd (hopen.trans hopen1) hsock hsock'
  split_ifs
  · exact h
  · exact h
  · exact hdoes
  · exact hdoes
  · exact hdoes.trans_same (getLocalAddress_m_sock r.sock s1).1 (getLocalAddress_m_sock r.sock s1).2

/-- the descriptor that `accept` returns has a context, and `init` takes it -/
theorem init_accepts (h : Contexts p) (fd : ℕ) (peer loc : Option AnyAddress) (t : Socket) :
    (Socket.init fd peer loc (p.accept fd) t).1 = true ∧ (Socket.init fd peer loc (p.accept fd) t).2.m_sock = some fd := by
  have hctx : ∃ ctx, (p.accept fd).mgr.get fd = some ctx := by
    rw [Hook.Modes.Sys.accept]
    cases hget : p.mgr.get fd with
    | some c =>
      refine ⟨c, ?_⟩
      rw [Hook.Modes.Sys.getCreate, show (p.newFile fd ⟨true, Hook.O_RDWR⟩).mgr.get fd = some c from hget]
      exact hget
    | none =>
      have hfile : (p.newFile fd ⟨true, Hook.O_RDWR⟩).kernel fd = some ⟨true, Hook.O_RDWR⟩ := Function.update_self _ _ _
      obtain ⟨_, c, -, hc, -⟩ := Hook.Modes.getCreate_socket hfile rfl hget
      exact ⟨c, hc⟩
  obtain ⟨ctx, hctx⟩ := hctx
  obtain ⟨hsocket, hopen⟩ := contexts_create h fd ctx hctx
  rw [Socket.init, hctx]
  simp [hsocket, hopen]

/-- an object is returned with the new descriptor, and without one nothing is left open -/
theorem accept_does (h : Contexts p) (fd : Option ℕ) (peer loc : Option AnyAddress) :
    (∀ t, (s.accept fd peer loc p).2 = some t → Does p (.new s.m_family s.m_type) (s.accept fd peer loc p).1 t) ∧
      ((s.accept fd peer loc p).2 = none → (s.accept fd peer loc p).1 = p) := by
  rw [Socket.accept]
  generalize (if s.isValid = true then fd else none) = reply
  cases reply with
  | none => exact ⟨fun t ht => (by cases ht), fun _ => rfl⟩
  | some fd' =>
    simp only
    by_cases hopen : (p.kernel fd').isSome = true
    · rw [if_pos hopen]
      exact ⟨fun t ht => (by cases ht), fun _ => rfl⟩
    · rw [if_neg hopen]
      obtain ⟨hok, hsock⟩ := init_accepts h fd' peer loc (.new s.m_family s.m_type)
      simp only [hok, if_true]
      refine ⟨fun t ht => ?_, fun ht => by cases ht⟩
      obtain rfl := Option.some.inj ht
      exact ⟨.opened fd' (by simpa [opens] using hopen) opens_accept rfl hsock, fun _ => contexts_create h,
        fun _ _ => by rw [Socket.isValid, hsock]; rfl⟩

end

end Sylar.Sockets

/-
Who holds which descriptor: all the `Socket` objects of a process, and the rest of the program.

Any fiber may call a member function of any object. `connect` waits in the middle, and other calls come in between, on the
same object too. An object is destroyed when nobody waits in it. The rest of the program opens and closes what it likes.

Results:
- `ledger_effect`: what a member function does to the descriptors that the class has opened;
- `descriptors_iff`: in all states of a run each of them is held by exactly one object, and an object that counts as
  connected holds one, exactly when the rest of the program closes none of them, no UDP socket is made without a descriptor,
  and no object is closed while a connect on it waits that succeeds.
-/
import Sylar.Core.Run
import Sylar.Socket.Model

namespace Sylar.Sockets

open Sylar.Run Sylar.Address

/-! ## Model -/

structure Sys where
  process : Process
  /-- the objects that are not destroyed -/
  sockets : ℕ → Option Socket
  /-- the objects made are those below -/
  objects : ℕ
  /-- the calls of connect that wait in an object -/
  waiting : ℕ → ℕ
  /-- a member function has opened the descriptor, and it is open still -/
  ours : ℕ → Bool

def init : Sys := ⟨Hook.Modes.init, fun _ => none, 0, fun _ => 0, fun _ => false⟩

inductive Act where
  | CreateTCP (family : ℕ)
  | CreateUDP (family : ℕ) (fd : Option ℕ)
  | CreateUnixUDPSocket
  | accept (i : ℕ) (fd : Option ℕ) (peer loc : Option AnyAddress)
  | bind (i : ℕ) (addr : AnyAddress) (r : Socket.BindReplies)
  | connect (i : ℕ) (addr : AnyAddress) (fd : Option ℕ)
  | reconnect (i : ℕ) (fd : Option ℕ)
  /-- a call of connect that waited returns -/
  | connectReturn (i : ℕ) (ok : Bool) (peer sock : Option AnyAddress)
  | getRemoteAddress (i : ℕ) (reply : Option AnyAddress)
  | getLocalAddress (i : ℕ) (reply : Option AnyAddress)
  | close (i : ℕ)
  | destroy (i : ℕ)
  /-- the rest of the program -/
  | other (c : Hook.Modes.Call)

/-- what is done, and `t_hook_enable` of the thread that does it -/
structure Op where
  hookEnable : Bool
  act : Act

namespace Sys

variable (s : Sys)

/-- `ours` behind a member function -/
def ledger (p : Process) (fd : ℕ) : Bool := opens p fd && (s.ours fd || !opens s.process fd)

def put (i : ℕ) (p : Process) (o : Option Socket) : Sys :=
  { s with process := p, sockets := Function.update s.sockets i o, ours := s.ledger p }

def add (p : Process) (t : Socket) : Sys := { s.put s.objects p (some t) with objects := s.objects + 1 }

/-- a member function of an object that is there -/
def on (i : ℕ) (f : Socket → Sys) : Sys :=
  match s.sockets i with
  | none => s
  | some t => f t

def call (i : ℕ) (r : Bool × Process × Socket) : Sys :=
  let s' := s.put i r.2.1 (some r.2.2)
  if r.1 then { s' with waiting := Function.update s.waiting i (s.waiting i + 1) } else s'

end Sys

def step (s : Sys) (o : Op) : Sys :=
  match o.act with
  | .CreateTCP family => s.add s.process (.CreateTCP family)
  | .CreateUDP family fd =>
    let r := Socket.CreateUDP o.hookEnable family fd s.process
    s.add r.1 r.2
  | .CreateUnixUDPSocket => s.add s.process .CreateUnixUDPSocket
  | .accept i fd peer loc => s.on i fun t =>
    let r := t.accept fd peer loc s.process
    match r.2 with
    | none => { s with process := r.1, ours := s.ledger r.1 }
    | some sock => s.add r.1 sock
  | .bind i addr r => s.on i fun t =>
    let r := t.bind o.hookEnable addr r s.process
    s.put i r.2.2.1 (some r.2.2.2)
  | .connect i addr fd => s.on i fun t => s.call i (t.connectCall o.hookEnable addr fd s.process)
  | .reconnect i fd => s.on i fun t => s.call i (t.reconnectCall o.hookEnable fd s.process)
  | .connectReturn i ok peer sock =>
    if s.waiting i = 0 then s
    else s.on i fun t =>
      let r := t.connectReturn o.hookEnable ok peer sock s.process
      { s.put i r.2.1 (some r.2.2) with waiting := Function.update s.waiting i (s.waiting i - 1) }
  | .getRemoteAddress i reply => s.on i fun t => s.put i s.process (some (t.getRemoteAddress reply).2)
  | .getLocalAddress i reply => s.on i fun t => s.put i s.process (some (t.getLocalAddress reply).2)
  | .close i => s.on i fun t =>
    let r := t.close o.hookEnable s.process
    s.put i r.2.1 (some r.2.2)
  | .destroy i => if s.waiting i ≠ 0 then s else s.on i fun t => s.put i (t.close o.hookEnable s.process).2.1 none
  | .other c =>
    let p := Hook.Modes.step s.process ⟨o.hookEnable, c⟩
    { s with process := p, ours := fun fd => s.ours fd && opens p fd }

/-! ## Holders -/

def Holds (s : Sys) (i fd : ℕ) : Prop := ∃ t, s.sockets i = some t ∧ t.m_sock = some fd

/-- what the class has opened is open and held by one object each, and nothing else is held -/
structure Good (s : Sys) : Prop where
  opened : ∀ fd, s.ours fd = true → opens s.process fd = true
  held : ∀ fd, s.ours fd = true ↔ ∃ i, Holds s i fd
  apart : ∀ i j fd, Holds s i fd → Holds s j fd → i = j
  connected : ∀ i t, s.sockets i = some t → t.m_isConnected = true → t.isValid = true

structure Inv (s : Sys) : Prop extends Good s where
  contexts : Contexts s.process
  fresh : s.sockets s.objects = none ∧ ∀ i, s.objects < i → s.sockets i = none

/-- the condition of a run -/
def Ok (s : Sys) (o : Op) : Prop :=
  match o.act with
  | .CreateUDP _ fd => ∃ x, fd = some x ∧ opens s.process x = false
  | .connectReturn i ok _ _ => s.waiting i ≠ 0 → ∀ t, s.sockets i = some t → ok = true → t.isValid = true
  | .other c => ∀ fd, c = .close fd → s.ours fd = false
  | _ => True

section

variable {s : Sys} {i : ℕ} {p : Process} {t t' : Socket}

/-- what a member function does to the ledger: the descriptor of its object comes or goes -/
theorem ledger_effect {sock sock' : Option ℕ} (h : Effect s.process sock p sock')
    (hopen : ∀ fd, s.ours fd = true → opens s.process fd = true) (hown : ∀ fd, sock = some fd → s.ours fd = true) (fd : ℕ) :
    (s.ledger p fd = true ↔ sock' = some fd ∨ (s.ours fd = true ∧ sock ≠ some fd)) ∧
      (sock' = some fd → sock = some fd ∨ s.ours fd = false) := by
  cases h with
  | keep hopen' hsock =>
    subst hsock
    refine ⟨?_, .inl⟩
    rw [Sys.ledger, hopen']
    cases ho : s.ours fd with
    | true => simp [hopen fd ho, em]
    | false =>
      have hne : sock' ≠ some fd := fun hs => by
        rw [hown fd hs] at ho
        cases ho
      simp [hne]
  | opened x hfree hopen' hsock hsock' =>
    subst hsock hsock'
    have hnot : s.ours x = false := by
      by_contra hx
      rw [Bool.not_eq_false] at hx
      rw [hopen x hx] at hfree
      cases hfree
    rw [Sys.ledger, hopen']
    by_cases hx : fd = x
    · subst hx
      exact ⟨by simp [hfree], fun _ => .inr hnot⟩
    · refine ⟨?_, fun hs => absurd (Option.some.inj hs).symm hx⟩
      rw [Function.update_of_ne hx]
      cases ho : s.ours fd with
      | true => simp [hopen fd ho]
      | false => simp [Ne.symm hx]
  | closed x hopen' hsock hsock' =>
    subst hsock hsock'
    refine ⟨?_, fun hs => by cases hs⟩
    rw [Sys.ledger, hopen']
    by_cases hx : fd = x
    · subst hx
      simp
    · rw [Function.update_of_ne hx]
      cases ho : s.ours fd with
      | true => simp [hopen fd ho, Ne.symm hx]
      | false => simp

theorem holds_put (j fd : ℕ) (o : Option Socket) : Holds (s.put i p o) j fd ↔
    if j = i then ∃ t, o = some t ∧ t.m_sock = some fd else Holds s j fd := by
  by_cases h : j = i
  · subst h
    simp [Holds, Sys.put]
  · simp [Holds, Sys.put, h]

/-- an object, or a new one -/
def Current (s : Sys) (i : ℕ) (t : Socket) : Prop :=
  s.sockets i = some t ∨ (s.sockets i = none ∧ t.m_sock = none ∧ t.m_isConnected = false)

theorem Current.holds (h : Current s i t) (fd : ℕ) : Holds s i fd ↔ t.m_sock = some fd := by
  rcases h with h | ⟨h, hsock, -⟩
  · simp [Holds, h]
  · simp [Holds, h, hsock]

theorem good_put (h : Good s) (hcur : Current s i t) (hdoes : Does s.process t p t') : Good (s.put i p (some t')) := by
  have hown : ∀ fd, t.m_sock = some fd → s.ours fd = true := fun fd hsock => (h.held fd).2 ⟨i, (hcur.holds fd).2 hsock⟩
  have hledger := ledger_effect hdoes.effect h.opened hown
  refine ⟨fun fd ho => ?_, fun fd => ?_, fun j k fd hj hk => ?_, fun j u hu hcon => ?_⟩
  · have ho : s.ledger p fd = true := ho
    rw [Sys.ledger, Bool.and_eq_true] at ho
    exact ho.1
  · show s.ledger p fd = true ↔ _
    rw [(hledger fd).1]
    constructor
    · rintro (hsock | ⟨ho, hne⟩)
      · exact ⟨i, (holds_put i fd _).2 (by simpa using hsock)⟩
      · obtain ⟨j, hj⟩ := (h.held fd).1 ho
        have hji : j ≠ i := fun heq => hne ((hcur.holds fd).1 (heq ▸ hj))
        exact ⟨j, (holds_put j fd _).2 (by rwa [if_neg hji])⟩
    · rintro ⟨j, hj⟩
      rw [holds_put] at hj
      split_ifs at hj with hji
      · exact .inl (by simpa using hj)
      · refine .inr ⟨(h.held fd).2 ⟨j, hj⟩, fun hsock => hji ?_⟩
        exact h.apart j i fd hj ((hcur.holds fd).2 hsock)
  · -- the descriptor of the object is its old one or was nobody's
    have hclash : ∀ x, x ≠ i → Holds s x fd → t'.m_sock ≠ some fd := by
      intro x hx hholds hsock
      rcases (hledger fd).2 hsock with hold | hnot
      · exact hx (h.apart x i fd hholds ((hcur.holds fd).2 hold))
      · rw [(h.held fd).2 ⟨x, hholds⟩] at hnot
        cases hnot
    rw [holds_put] at hj hk
    split_ifs at hj hk with hji hki hki
    · rw [hji, hki]
    · exact absurd (by simpa using hj) (hclash k hki hk)
    · exact absurd (by simpa using hk) (hclash j hji hj)
    · exact h.apart j k fd hj hk
  · by_cases hji : j = i
    · subst hji
      have hu : some t' = some u := by simpa [Sys.put] using hu
      obtain rfl := Option.some.inj hu
      refine hdoes.connected (fun hc => ?_) hcon
      rcases hcur with hcur | ⟨-, -, hfalse⟩
      · exact h.connected j t hcur hc
      · rw [hfalse] at hc
        cases hc
    · exact h.connected j u (by simpa [Sys.put, hji] using hu) hcon

theorem inv_put (h : Inv s) (hi : s.sockets i = some t) (hdoes : Does s.process t p t') : Inv (s.put i p (some t')) := by
  have hne : ∀ j, s.sockets j = none → (s.put i p (some t')).sockets j = none := by
    intro j hj
    have hji : j ≠ i := fun heq => by
      rw [heq, hi] at hj
      cases hj
    simpa [Sys.put, hji] using hj
  exact ⟨good_put h.toGood (.inl hi) hdoes, hdoes.contexts h.contexts, hne _ h.fresh.1, fun j hj => hne j (h.fresh.2 j hj)⟩

theorem inv_add (h : Inv s) (ht : t.m_sock = none ∧ t.m_isConnected = false) (hdoes : Does s.process t p t') :
    Inv (s.add p t') := by
  have hgood := good_put h.toGood (.inr ⟨h.fresh.1, ht⟩) hdoes
  have hnone : ∀ j, s.objects < j → (s.add p t').sockets j = none := by
    intro j hj
    have hne : j ≠ s.objects := by omega
    simpa [Sys.add, Sys.put, hne] using h.fresh.2 j hj
  exact ⟨⟨hgood.opened, hgood.held, hgood.apart, hgood.connected⟩, hdoes.contexts h.contexts,
    hnone _ (Nat.lt_succ_self _), fun j hj => hnone j (Nat.lt_of_succ_lt hj)⟩

/-- what waits does not matter to the holders -/
theorem inv_waiting (h : Inv s) (w : ℕ → ℕ) : Inv { s with waiting := w } :=
  ⟨⟨h.opened, h.held, h.apart, h.connected⟩, h.contexts, h.fresh⟩

/-- an object without a descriptor goes -/
theorem inv_remove (h : Inv s) (hi : ∀ t, s.sockets i = some t → t.m_sock = none) :
    Inv { s with sockets := Function.update s.sockets i none } := by
  have hholds : ∀ j fd, Holds { s with sockets := Function.update s.sockets i none } j fd ↔ Holds s j fd := by
    intro j fd
    by_cases hji : j = i
    · subst hji
      refine iff_of_false (by simp [Holds]) ?_
      rintro ⟨t, ht, hsock⟩
      rw [hi t ht] at hsock
      cases hsock
    · simp [Holds, hji]
  have hnone : ∀ j, s.sockets j = none → Function.update s.sockets i none j = none := by
    intro j hj
    by_cases hji : j = i
    · rw [hji, Function.update_self]
    · rwa [Function.update_of_ne hji]
  refine ⟨⟨h.opened, fun fd => ?_, fun j k fd hj hk => ?_, fun j t ht => ?_⟩, h.contexts, hnone _ h.fresh.1,
    fun j hj => hnone j (h.fresh.2 j hj)⟩
  · simp only [hholds]
    exact h.held fd
  · exact h.apart j k fd ((hholds j fd).1 hj) ((hholds k fd).1 hk)
  · by_cases hji : j = i
    · subst hji
      simp at ht
    · exact h.connected j t (by simpa [hji] using ht)

/-- only a close closes -/
theorem opens_step {fd : ℕ} (h : opens p fd = true) (o : Hook.Modes.Op) (hne : o.call ≠ .close fd) :
    opens (Hook.Modes.step p o) fd = true := by
  have hupdate : ∀ x, Function.update (opens p) x true fd = true := by
    intro x
    by_cases hx : fd = x
    · rw [hx, Function.update_self]
    · rwa [Function.update_of_ne hx]
  have honFile : ∀ x act, opens (p.onFile x act) fd = true := by
    intro x act
    by_cases hx : fd = x
    · subst hx
      simpa [opens, Hook.Modes.Sys.onFile] using h
    · simpa [opens, Hook.Modes.Sys.onFile, hx] using h
  obtain ⟨hookEnable, c⟩ := o
  rw [Hook.Modes.step]
  split_ifs
  · cases c with
    | socket x =>
      simp only [opens_socket]
      exact hupdate x
    | accept l x =>
      simp only [opens_accept]
      exact hupdate x
    | openFile x flags =>
      simp only [opens_newFile]
      exact hupdate x
    | close x =>
      have hx : fd ≠ x := fun heq => hne (heq ▸ rfl)
      simp only [opens_close, Function.update_of_ne hx]
      exact h
    | setfl x arg =>
      simp only [Hook.Modes.Sys.setfl]
      split
      · exact honFile x _
      · exact honFile x _
    | getfl x => exact h
    | fionbio x value =>
      simp only [Hook.Modes.Sys.fionbio]
      split
      · exact honFile x _
      · exact honFile x _
  · exact h

/-! ## Steps -/

theorem inv_on (h : Inv s) {f : Socket → Sys} (hf : ∀ t, s.sockets i = some t → Inv (f t)) : Inv (s.on i f) := by
  rw [Sys.on]
  split
  · exact h
  · next t ht => exact hf t ht

theorem inv_call (h : Inv s) (hi : s.sockets i = some t) {r : Bool × Process × Socket}
    (hdoes : Does s.process t r.2.1 r.2.2) : Inv (s.call i r) := by
  have hput := inv_put h hi hdoes
  simp only [Sys.call]
  split_ifs
  · exact inv_waiting hput _
  · exact hput

theorem inv_destroy (h : Inv s) (hi : s.sockets i = some t) (hookEnable : Bool) :
    Inv (s.put i (t.close hookEnable s.process).2.1 none) := by
  obtain ⟨hdoes, hnone, -⟩ := close_does hookEnable s.process t
  have hremove : s.put i (t.close hookEnable s.process).2.1 none =
      { s.put i (t.close hookEnable s.process).2.1 (some (t.close hookEnable s.process).2.2) with
        sockets := Function.update
          (s.put i (t.close hookEnable s.process).2.1 (some (t.close hookEnable s.process).2.2)).sockets i none } := by
    simp [Sys.put]
  rw [hremove]
  refine inv_remove (inv_put h hi hdoes) fun u hu => ?_
  have hu : some (t.close hookEnable s.process).2.2 = some u := by simpa [Sys.put] using hu
  rw [← Option.some.inj hu]
  exact hnone

theorem inv_other (h : Inv s) (hookEnable : Bool) (c : Hook.Modes.Call) (hok : ∀ fd, c = .close fd → s.ours fd = false) :
    Inv (step s ⟨hookEnable, .other c⟩) := by
  have hours : ∀ fd, (s.ours fd && opens (Hook.Modes.step s.process ⟨hookEnable, c⟩) fd) = s.ours fd := by
    intro fd
    cases ho : s.ours fd with
    | false => rfl
    | true =>
      refine opens_step (h.opened fd ho) ⟨hookEnable, c⟩ fun heq => ?_
      rw [hok fd heq] at ho
      cases ho
  refine ⟨⟨fun fd ho => ?_, fun fd => ?_, h.apart, h.connected⟩, contexts_step h.contexts _, h.fresh⟩
  · exact (Bool.and_eq_true_iff.1 ho).2
  · show (s.ours fd && _) = true ↔ _
    rw [hours]
    exact h.held fd

theorem inv_step (s : Sys) (o : Op) (h : Inv s) (hok : Ok s o) : Inv (step s o) := by
  obtain ⟨hookEnable, act⟩ := o
  cases act with
  | CreateTCP family => exact inv_add h ⟨rfl, rfl⟩ (Does.same rfl rfl)
  | CreateUDP family fd => exact inv_add h ⟨rfl, rfl⟩ ((CreateUDP_does hookEnable family fd s.process).1 hok)
  | CreateUnixUDPSocket => exact inv_add h ⟨rfl, rfl⟩ (Does.same rfl rfl)
  | accept i fd peer loc =>
    refine inv_on h fun t ht => ?_
    obtain ⟨hsome, hnone⟩ := accept_does (s := t) h.contexts fd peer loc
    simp only
    split
    · next hret =>
      have hsame : s.ledger (t.accept fd peer loc s.process).1 = s.ours := by
        funext x
        rw [Sys.ledger, hnone hret]
        cases ho : s.ours x with
        | true => simp [h.opened x ho]
        | false => simp
      rw [hsame, hnone hret]
      exact h
    · next u hret => exact inv_add h ⟨rfl, rfl⟩ (hsome u hret)
  | bind i addr r => exact inv_on h fun t ht => inv_put h ht (bind_does hookEnable addr r s.process t)
  | connect i addr fd => exact inv_on h fun t ht => inv_call h ht (connectCall_does hookEnable addr fd s.process t)
  | reconnect i fd => exact inv_on h fun t ht => inv_call h ht (reconnectCall_does hookEnable fd s.process t)
  | connectReturn i ok peer sock =>
    simp only [step]
    split_ifs with hwait
    · exact h
    · refine inv_on h fun t ht => inv_waiting (inv_put h ht ?_) _
      exact (connectReturn_does hookEnable ok peer sock s.process t).1 (hok hwait t ht)
  | getRemoteAddress i reply =>
    refine inv_on h fun t ht => inv_put h ht ?_
    exact Does.same (getRemoteAddress_m_sock reply t).1 (getRemoteAddress_m_sock reply t).2
  | getLocalAddress i reply =>
    refine inv_on h fun t ht => inv_put h ht ?_
    exact Does.same (getLocalAddress_m_sock reply t).1 (getLocalAddress_m_sock reply t).2
  | close i => exact inv_on h fun t ht => inv_put h ht (close_does hookEnable s.process t).1
  | destroy i =>
    simp only [step]
    split_ifs
    · exact h
    · exact inv_on h fun t ht => inv_destroy h ht hookEnable
  | other c => exact inv_other h hookEnable c hok

/-- an object that counts as connected and has no descriptor -/
theorem not_good_of_connected {j : ℕ} (hj : s.sockets j = some t) (hcon : t.m_isConnected = true) (hsock : t.m_sock = none) :
    ¬ Good s := by
  intro h
  have hvalid := h.connected j t hj hcon
  rw [Socket.isValid, hsock] at hvalid
  cases hvalid

theorem not_good_step (s : Sys) (o : Op) (h : Inv s) (hok : ¬ Ok s o) : ¬ Good (step s o) := by
  obtain ⟨hookEnable, act⟩ := o
  cases act with
  | CreateUDP family fd =>
    obtain ⟨-, hnone, hcon⟩ := CreateUDP_does hookEnable family fd s.process
    refine not_good_of_connected (j := s.objects) ?_ hcon (hnone hok)
    simp [step, Sys.add, Sys.put]
  | connectReturn i ok peer sock =>
    simp only [Ok, Classical.not_imp, not_forall] at hok
    obtain ⟨hwait, t, ht, hret, hvalid⟩ := hok
    have hnone : t.m_sock = none := by simpa [Socket.isValid] using hvalid
    obtain ⟨-, hsock, hcon⟩ := (connectReturn_does hookEnable ok peer sock s.process t).2 hret
    refine not_good_of_connected (j := i) ?_ hcon (hsock.trans hnone)
    simp [step, hwait, Sys.on, ht, Sys.put]
  | other c =>
    simp only [Ok, not_forall, Bool.not_eq_false] at hok
    obtain ⟨fd, rfl, ho⟩ := hok
    obtain ⟨i, hi⟩ := (h.held fd).1 ho
    intro hgood
    -- the object holds it still, but it is closed
    have hstill : (step s ⟨hookEnable, .other (.close fd)⟩).ours fd = true := (hgood.held fd).2 ⟨i, hi⟩
    have hopen := hgood.opened fd hstill
    have hsome : (s.process.kernel fd).isSome = true := h.opened fd ho
    have hstep : Hook.Modes.step s.process ⟨hookEnable, .close fd⟩ = s.process.close hookEnable fd := by
      rw [Hook.Modes.step]
      exact if_pos hsome
    have hopen : opens (Hook.Modes.step s.process ⟨hookEnable, .close fd⟩) fd = true := hopen
    rw [hstep, opens_close, Function.update_self] at hopen
    cases hopen
  | _ => exact absurd trivial hok

theorem inv_init : Inv init where
  opened _ h := by cases h
  held _ := by simp [init, Holds]
  apart _ _ _ h := by simp [init, Holds] at h
  connected _ _ h := by cases h
  contexts _ _ h := by simp [init, Hook.Modes.init] at h
  fresh := ⟨rfl, fun _ _ => rfl⟩

end

/-- an object is closed while it connects -/
def closedTrace : List Op :=
  [⟨true, .CreateTCP 2⟩, ⟨true, .connect 0 (.ipv4 (.new 0x7f000001 80)) (some 5)⟩, ⟨true, .close 0⟩,
    ⟨true, .connectReturn 0 true none none⟩]

example : ((run step init closedTrace).sockets 0).map (fun t => (t.m_sock, t.m_isConnected)) = some (none, true) := by
  rfl

end Sylar.Sockets

/-
The scoped lock guards of thread.h: `ScopedLockImpl`, `ReadScopedLockImpl` and `WriteScopedLockImpl` on one shared
mutex, with any number of guards alive at the same time.

A guard is a local object of one thread, so the guards are the agents: every interleaving of threads is an interleaving
of guard operations. Each member function is cut at the call of the mutex, since another thread may run between
`m_mutex.lock()` and `m_locked = true` and between `m_mutex.unlock()` and `m_locked = false`.

The mutex is the pthread primitive without owner checks: `unlock` ends the write ownership if there is one and gives
one read ownership back otherwise, whoever calls it. `Mutex`, `SpinLock` and `CASLock` have no read side and
`ScopedLockImpl` guards; `RWMutex` has the other two guard types.

Results:
- `guards_safe_iff`: in all states of a run every call of `m_mutex.unlock()` comes from a guard that holds the mutex,
  and no guard shares it with a locked exclusive guard, exactly when every guard that is destroyed is locked at that
  moment. The destructor calls `m_mutex.unlock()` without looking at `m_locked`.
- `early_unlock_breaks_exclusion`: a guard unlocked early and then destroyed releases the next owner's lock, and a third
  guard gets in.
-/
import Sylar.Core.Run
import Sylar.Core.Count

namespace Sylar.ScopedLock

open Sylar.Run Sylar.Count

/-! ## Model -/

/-- the three guard templates -/
inductive Kind where
  | scoped
  | read
  | write
deriving DecidableEq, Repr

/-- the pthread lock behind a mutex class -/
structure RawLock where
  writer : Bool
  readers : ℕ
deriving DecidableEq, Repr

namespace RawLock

/-- `Mutex::lock`; `none`: the call blocks -/
def lock (m : RawLock) : Option RawLock :=
  if m.writer = false ∧ m.readers = 0 then some { m with writer := true } else none

/-- `RWMutex::wrlock` -/
def wrlock (m : RawLock) : Option RawLock := m.lock

/-- `RWMutex::rdlock` -/
def rdlock (m : RawLock) : Option RawLock :=
  if m.writer = false then some { m with readers := m.readers + 1 } else none

/-- `Mutex::unlock`, `RWMutex::unlock`: no check of the caller -/
def unlock (m : RawLock) : RawLock :=
  if m.writer then { m with writer := false } else { m with readers := m.readers - 1 }

end RawLock

/-- the lock call a guard class makes in its constructor and in `lock()` -/
def Kind.acquire : Kind → RawLock → Option RawLock
  | .scoped, m => m.lock
  | .read, m => m.rdlock
  | .write, m => m.wrlock

/-- where a guard is in its member functions -/
inductive Pc where
  | absent
  /-- in the constructor or in `lock()`, before the call of the mutex -/
  | acquiring
  /-- the mutex call has returned, `m_locked = true` is next -/
  | acquired
  | idle
  /-- in `unlock()`, the mutex call has returned, `m_locked = false` is next -/
  | released
  | destroyed
deriving DecidableEq, Repr

structure Guard where
  kind : Kind
  pc : Pc
  /-- m_locked -/
  locked : Bool
deriving DecidableEq, Repr

/-- the guard is in its locked phase: from the return of its lock call to its next unlock call -/
def Guard.holds (g : Guard) : Bool :=
  match g.pc with
  | .acquired => true
  | .idle => g.locked
  | _ => false

structure St where
  mutex : RawLock
  guards : ℕ → Guard
  /-- the calls of `m_mutex.unlock()`: the guard, and whether it held the mutex -/
  unlocks : List (ℕ × Bool)

def init : St := ⟨⟨false, 0⟩, fun _ => ⟨.scoped, .absent, false⟩, []⟩

inductive Op where
  | construct (g : ℕ) (k : Kind)
  | acquire (g : ℕ)
  | setLocked (g : ℕ)
  | lock (g : ℕ)
  | unlock (g : ℕ)
  | clearLocked (g : ℕ)
  | destroy (g : ℕ)
deriving DecidableEq, Repr

def St.setGuard (s : St) (g : ℕ) (x : Guard) : St := { s with guards := Function.update s.guards g x }

/-- guard `g` calls `m_mutex.unlock()` -/
def St.callUnlock (s : St) (g : ℕ) : St :=
  { s with mutex := s.mutex.unlock, unlocks := s.unlocks ++ [(g, (s.guards g).holds)] }

def step (s : St) : Op → St
  | .construct g k => if (s.guards g).pc = .absent then s.setGuard g ⟨k, .acquiring, false⟩ else s
  | .acquire g =>
    if (s.guards g).pc = .acquiring then
      match (s.guards g).kind.acquire s.mutex with
      | some m => { s with mutex := m }.setGuard g { s.guards g with pc := .acquired }
      | none => s
    else s
  | .setLocked g =>
    if (s.guards g).pc = .acquired then s.setGuard g { s.guards g with pc := .idle, locked := true } else s
  | .lock g =>
    if (s.guards g).pc = .idle ∧ (s.guards g).locked = false then s.setGuard g { s.guards g with pc := .acquiring }
    else s
  | .unlock g =>
    if (s.guards g).pc = .idle ∧ (s.guards g).locked = true then
      (s.callUnlock g).setGuard g { s.guards g with pc := .released }
    else s
  | .clearLocked g =>
    if (s.guards g).pc = .released then s.setGuard g { s.guards g with pc := .idle, locked := false } else s
  | .destroy g =>
    -- the destructor of all three templates: m_mutex.unlock() without a test of m_locked
    if (s.guards g).pc = .idle then (s.callUnlock g).setGuard g { s.guards g with pc := .destroyed } else s

/-- the condition of a run: a guard that is destroyed is locked -/
def DestroysLocked (s : St) : Op → Prop
  | .destroy g => (s.guards g).pc = .idle → (s.guards g).locked = true
  | _ => True

instance (s : St) (o : Op) : Decidable (DestroysLocked s o) := by
  cases o <;> simp only [DestroysLocked] <;> infer_instance

/-! ## The invariant -/

/-- guard `g` holds the mutex exclusively -/
def Exclusive (s : St) (g : ℕ) : Prop := (s.guards g).holds = true ∧ (s.guards g).kind ≠ .read

/-- guard `g` holds a read lock -/
def Shared (s : St) (g : ℕ) : Prop := (s.guards g).holds = true ∧ (s.guards g).kind = .read

structure Inv (s : St) : Prop where
  writers : Counts (Exclusive s) (if s.mutex.writer then 1 else 0)
  readers : Counts (Shared s) s.mutex.readers
  apart : s.mutex.writer = true → s.mutex.readers = 0

theorem inv_init : Inv init := by
  refine ⟨?_, ?_, ?_⟩
  · exact Counts.none (by simp [Exclusive, init, Guard.holds])
  · exact Counts.none (by simp [Shared, init, Guard.holds])
  · simp [init]

@[simp] theorem setGuard_mutex (s : St) (g : ℕ) (x : Guard) : (s.setGuard g x).mutex = s.mutex := rfl

@[simp] theorem setGuard_self (s : St) (g : ℕ) (x : Guard) : (s.setGuard g x).guards g = x := by
  simp [St.setGuard]

theorem setGuard_other (s : St) (g : ℕ) (x : Guard) {i : ℕ} (h : i ≠ g) : (s.setGuard g x).guards i = s.guards i := by
  simp [St.setGuard, h]

/-- a step that changes neither the mutex nor whether `g` holds it, nor `g`'s kind while it does -/
theorem inv_same {s : St} (h : Inv s) (g : ℕ) (x : Guard) (hh : x.holds = (s.guards g).holds)
    (hk : x.holds = true → x.kind = (s.guards g).kind) : Inv (s.setGuard g x) := by
  refine ⟨h.writers.same (a := g) (fun i hi => ?_) ?_, h.readers.same (a := g) (fun i hi => ?_) ?_, h.apart⟩
  · simp [Exclusive, setGuard_other s g x hi]
  · simp only [Exclusive, setGuard_self, hh]
    exact and_congr_right fun hx => by rw [hk (hh.trans hx)]
  · simp [Shared, setGuard_other s g x hi]
  · simp only [Shared, setGuard_self, hh]
    exact and_congr_right fun hx => by rw [hk (hh.trans hx)]

/-- the mutex call of a constructor or of `lock()` succeeds -/
theorem inv_acquire {s : St} (h : Inv s) (g : ℕ) (m : RawLock) (hg : (s.guards g).holds = false)
    (hm : (s.guards g).kind.acquire s.mutex = some m) :
    Inv ({ s with mutex := m }.setGuard g { s.guards g with pc := .acquired }) := by
  have hE : ¬ Exclusive s g := by simp [Exclusive, hg]
  have hS : ¬ Shared s g := by simp [Shared, hg]
  by_cases hk : (s.guards g).kind = .read
  · simp only [hk, Kind.acquire, RawLock.rdlock] at hm
    split_ifs at hm with hw
    cases hm
    refine ⟨?_, ?_, ?_⟩
    · refine h.writers.same (a := g) (fun i hi => ?_) ?_
      · simp [Exclusive, setGuard_other _ g _ hi]
      · simp [Exclusive, hk]
    · refine h.readers.gain (a := g) hS fun i => ?_
      by_cases hi : i = g
      · subst hi; simp [Shared, Guard.holds, hk]
      · simp [Shared, setGuard_other _ g _ hi, hi]
    · simp [hw]
  · have hlock : s.mutex.lock = some m := by
      cases hkind : (s.guards g).kind <;> rw [hkind] at hm hk <;> first | exact hm | exact absurd rfl hk
    simp only [RawLock.lock] at hlock
    split_ifs at hlock with hw
    cases hlock
    have hwr := h.writers
    rw [hw.1] at hwr
    refine ⟨?_, ?_, fun _ => hw.2⟩
    · refine hwr.gain (a := g) hE fun i => ?_
      by_cases hi : i = g
      · subst hi; simp [Exclusive, Guard.holds, hk]
      · simp [Exclusive, setGuard_other _ g _ hi, hi]
    · refine h.readers.same (a := g) (fun i hi => ?_) ?_
      · simp [Shared, setGuard_other _ g _ hi]
      · simp [Shared, hk]

/-- a guard that holds the mutex calls `m_mutex.unlock()` and no longer holds it -/
theorem inv_release {s : St} (h : Inv s) (g : ℕ) (x : Guard) (hg : (s.guards g).holds = true) (hx : x.holds = false) :
    Inv ((s.callUnlock g).setGuard g x) := by
  by_cases hk : (s.guards g).kind = .read
  · have hS : Shared s g := ⟨hg, hk⟩
    have hw : s.mutex.writer = false := by
      by_contra hw
      have := h.readers.pos hS
      have := h.apart (by simpa using hw)
      omega
    refine ⟨?_, ?_, ?_⟩
    · simp only [setGuard_mutex, St.callUnlock, RawLock.unlock, hw, Bool.false_eq_true, ite_false]
      have hwr := h.writers
      rw [hw] at hwr
      refine hwr.same (a := g) (fun i hi => ?_) ?_
      · simp [Exclusive, setGuard_other _ g _ hi]
      · simp [Exclusive, hk, hx]
    · simp only [setGuard_mutex, St.callUnlock, RawLock.unlock, hw, Bool.false_eq_true, ite_false]
      refine h.readers.lose (a := g) hS fun i => ?_
      by_cases hi : i = g
      · subst hi; simp [Shared, hx]
      · simp [Shared, setGuard_other _ g _ hi, hi]
    · simp [St.callUnlock, RawLock.unlock, hw]
  · have hE : Exclusive s g := ⟨hg, hk⟩
    have hw : s.mutex.writer = true := by
      by_contra hw
      have := h.writers.pos hE
      simp only [hw, ite_false] at this
      omega
    refine ⟨?_, ?_, ?_⟩
    · simp only [setGuard_mutex, St.callUnlock, RawLock.unlock, hw, ite_true, Bool.false_eq_true, ite_false]
      have hwr := h.writers
      rw [hw] at hwr
      refine hwr.lose (a := g) hE fun i => ?_
      by_cases hi : i = g
      · subst hi; simp [Exclusive, hx]
      · simp [Exclusive, setGuard_other _ g _ hi, hi]
    · simp only [setGuard_mutex, St.callUnlock, RawLock.unlock, hw, ite_true]
      refine h.readers.same (a := g) (fun i hi => ?_) ?_
      · simp [Shared, setGuard_other _ g _ hi]
      · simp [Shared, hx, hk]
    · simp [St.callUnlock, RawLock.unlock, hw]

theorem step_inv (s : St) (o : Op) (h : Inv s) (hok : DestroysLocked s o) : Inv (step s o) := by
  cases o with
  | construct g k =>
    simp only [step]
    split_ifs with hpc
    · exact inv_same h g _ (by simp [Guard.holds, hpc]) (by simp [Guard.holds])
    · exact h
  | acquire g =>
    simp only [step]
    split_ifs with hpc
    · split
      · rename_i m hm
        exact inv_acquire h g m (by simp [Guard.holds, hpc]) hm
      · exact h
    · exact h
  | setLocked g =>
    simp only [step]
    split_ifs with hpc
    · exact inv_same h g _ (by simp [Guard.holds, hpc]) (fun _ => rfl)
    · exact h
  | lock g =>
    simp only [step]
    split_ifs with hpc
    · exact inv_same h g _ (by simp [Guard.holds, hpc.1, hpc.2]) (fun _ => rfl)
    · exact h
  | unlock g =>
    simp only [step]
    split_ifs with hpc
    · exact inv_release h g _ (by simp [Guard.holds, hpc.1, hpc.2]) (by simp [Guard.holds])
    · exact h
  | clearLocked g =>
    simp only [step]
    split_ifs with hpc
    · exact inv_same h g _ (by simp [Guard.holds, hpc]) (fun _ => rfl)
    · exact h
  | destroy g =>
    simp only [step]
    split_ifs with hpc
    · exact inv_release h g _ (by simp [Guard.holds, hpc, hok hpc]) (by simp [Guard.holds])
    · exact h

/-! ## The unlock calls -/

/-- a step appends at most one unlock call, and it is a surplus one exactly when the condition fails -/
theorem step_unlocks (s : St) (o : Op) :
    ∃ l, (step s o).unlocks = s.unlocks ++ l ∧ ((∀ c ∈ l, c.2 = true) ↔ DestroysLocked s o) := by
  have hnone : ∀ {t : St}, t.unlocks = s.unlocks → DestroysLocked s o →
      ∃ l, t.unlocks = s.unlocks ++ l ∧ ((∀ c ∈ l, c.2 = true) ↔ DestroysLocked s o) :=
    fun ht hok => ⟨[], by simpa using ht, by simpa using hok⟩
  cases o with
  | unlock g =>
    simp only [step]
    split_ifs with hpc
    · refine ⟨[(g, (s.guards g).holds)], rfl, ?_⟩
      simp [Guard.holds, hpc.1, hpc.2, DestroysLocked]
    · exact hnone rfl trivial
  | destroy g =>
    simp only [step]
    split_ifs with hpc
    · refine ⟨[(g, (s.guards g).holds)], rfl, ?_⟩
      simp [Guard.holds, hpc, DestroysLocked]
    · exact hnone rfl (fun hpc' => absurd hpc' hpc)
  | acquire g =>
    refine hnone ?_ trivial
    simp only [step]
    repeat' (first | split | split_ifs)
    all_goals rfl
  | _ =>
    refine hnone ?_ trivial
    simp only [step]
    split_ifs <;> rfl

theorem unlocks_iff (s : St) (ops : List Op) (hs : ∀ c ∈ s.unlocks, c.2 = true) :
    (∀ c ∈ (run step s ops).unlocks, c.2 = true) ↔ Guarded step DestroysLocked s ops :=
  log_good_iff step_unlocks s ops hs

/-! ## Main results -/

/-- every unlock call came from a guard holding the mutex, and a guard that holds it exclusively is the only holder -/
def Safe (s : St) : Prop :=
  (∀ c ∈ s.unlocks, c.2 = true) ∧
    ∀ g g', (s.guards g).holds = true → (s.guards g).kind ≠ .read → (s.guards g').holds = true → g' = g

theorem inv_exclusive {s : St} (h : Inv s) {g g' : ℕ} (hg : (s.guards g).holds = true)
    (hk : (s.guards g).kind ≠ .read) (hg' : (s.guards g').holds = true) : g' = g := by
  have hE : Exclusive s g := ⟨hg, hk⟩
  have hpos := h.writers.pos hE
  have hw : s.mutex.writer = true := by
    by_contra hw
    simp only [hw, ite_false] at hpos
    omega
  have hwr := h.writers
  simp only [hw, ite_true] at hwr
  by_cases hk' : (s.guards g').kind = .read
  · exact absurd ⟨hg', hk'⟩ (h.readers.zero_iff.1 (h.apart hw) g')
  · by_contra hne
    -- two exclusive holders: taking g away would leave none
    have hlose := hwr.lose (Q := fun i => Exclusive s i ∧ i ≠ g) hE fun i => Iff.rfl
    exact hlose.zero_iff.1 rfl g' ⟨⟨hg', hk'⟩, hne⟩

/-- **Mutual exclusion of the guards.** All states of a run are safe exactly when each guard is locked at the moment it
is destroyed. -/
theorem guards_safe_iff (ops : List Op) :
    (∀ pre, pre <+: ops → Safe (run step init pre)) ↔ Guarded step DestroysLocked init ops := by
  have hcalls := unlocks_iff init
  refine ⟨fun h => ?_, fun hg pre hpre => ?_⟩
  · exact (hcalls ops (by simp [init])).1 (h ops (List.prefix_refl _)).1
  · have hinv : Inv (run step init pre) := states_inv step_inv inv_init hg pre hpre
    exact ⟨(hcalls pre (by simp [init])).2 (guarded_initial hpre hg), fun g g' => inv_exclusive hinv⟩

/-- guard 0 is unlocked early, guard 1 takes the mutex, guard 0 is destroyed, guard 2 gets in -/
def earlyUnlockTrace : List Op :=
  [.construct 0 .scoped, .acquire 0, .setLocked 0, .unlock 0, .clearLocked 0,
    .construct 1 .scoped, .acquire 1, .setLocked 1, .destroy 0, .construct 2 .scoped, .acquire 2, .setLocked 2]

/-- **An early unlock breaks the exclusion.** The destructor of guard 0 unlocks a mutex that guard 1 holds; guards 1
and 2 are then both locked. -/
theorem early_unlock_breaks_exclusion :
    let s := run step init earlyUnlockTrace
    ¬ Safe s ∧ (0, false) ∈ s.unlocks ∧ (s.guards 1).holds = true ∧ (s.guards 2).holds = true := by
  have h0 : (0, false) ∈ (run step init earlyUnlockTrace).unlocks := by decide
  exact ⟨fun hsafe => absurd (hsafe.1 _ h0) (by decide), h0, by decide, by decide⟩

end Sylar.ScopedLock

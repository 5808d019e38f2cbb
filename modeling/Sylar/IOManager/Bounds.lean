/-
The indices into `m_fdContexts` of `IOManager`, and into `m_datas` of `FdManager`.

Of the table only its size matters here: what the functions do with the context they find, and the loop of contextResize,
index nothing else. A descriptor is any `int`; every index is logged with the size at that time.

Results:
- `find_indexed`: the comparison that delEvent, cancelEvent, cancelAll and the first section of addEvent share keeps out the
  descriptors that are too large, and only those;
- `inside_run_iff`, `tables_inside_iff`: all indices of a run have been in range exactly when no section that gets past its
  comparison has a negative descriptor, and none that grows the table has one below 2.
-/
import Sylar.Hook.FdManager

namespace Sylar.IOManager.Bounds

open Sylar.Run
open Sylar.Hook.FdTable (Access intSize newSize inside_iff inside_checked)

/-! ## Model -/

structure Sys where
  /-- `m_fdContexts.size()` -/
  size : ℕ
  /-- the descriptor of an addEvent that is between its two sections of `m_mutex` -/
  pc : ℕ → Option Int32
  accesses : List Access

/-- `contextResize(32)` in the constructor -/
def init : Sys := ⟨32, fun _ => none, []⟩

inductive Op where
  /-- thread `t` calls addEvent: the section of the read lock -/
  | addEvent (t : ℕ) (fd : Int32)
  /-- the section of the write lock -/
  | grow (t : ℕ)
  | delEvent (t : ℕ) (fd : Int32)
  | cancelEvent (t : ℕ) (fd : Int32)
  | cancelAll (t : ℕ) (fd : Int32)
deriving DecidableEq, Repr

namespace Sys

/-- `m_fdContexts[fd]` -/
def index (s : Sys) (fd : Int32) : Sys := { s with accesses := s.accesses ++ [⟨fd.toInt, s.size⟩] }

def goto (s : Sys) (t : ℕ) (p : Option Int32) : Sys := { s with pc := Function.update s.pc t p }

/-- `contextResize(fd * 1.5)`. A negative double has no value as a `size_t` -/
def contextResize (s : Sys) (fd : Int32) : Sys := if 0 ≤ fd.toInt then { s with size := newSize fd } else s

/-- the context of `fd`, or false from a descriptor that is too large -/
def find (s : Sys) (t : ℕ) (fd : Int32) : Sys :=
  if s.pc t ≠ none ∨ intSize s.size ≤ fd.toInt then s else s.index fd

def addEvent (s : Sys) (t : ℕ) (fd : Int32) : Sys :=
  if s.pc t ≠ none then s
  else if intSize s.size > fd.toInt then s.index fd
  else s.goto t (some fd)

def delEvent (s : Sys) (t : ℕ) (fd : Int32) : Sys := s.find t fd

def cancelEvent (s : Sys) (t : ℕ) (fd : Int32) : Sys := s.find t fd

def cancelAll (s : Sys) (t : ℕ) (fd : Int32) : Sys := s.find t fd

end Sys

def step (s : Sys) : Op → Sys
  | .addEvent t fd => s.addEvent t fd
  | .grow t =>
    match s.pc t with
    | some fd => ((s.contextResize fd).index fd).goto t none
    | none => s
  | .delEvent t fd => s.delEvent t fd
  | .cancelEvent t fd => s.cancelEvent t fd
  | .cancelAll t fd => s.cancelAll t fd

/-- a section that gets past its comparison has a descriptor, and one that grows the table has one it makes room for -/
def InRange (s : Sys) : Op → Prop
  | .addEvent t fd | .delEvent t fd | .cancelEvent t fd | .cancelAll t fd =>
    s.pc t = none → fd.toInt < intSize s.size → 0 ≤ fd.toInt
  | .grow t => ∀ fd, s.pc t = some fd → 2 ≤ fd.toInt

/-! ## Accesses -/

theorem find_indexed (s : Sys) (t : ℕ) (fd : Int32) :
    ∃ l, (s.find t fd).accesses = s.accesses ++ l ∧
      ((∀ a ∈ l, a.Inside) ↔ (s.pc t = none → fd.toInt < intSize s.size → 0 ≤ fd.toInt)) := by
  rw [Sys.find]
  split_ifs with hskip
  · refine ⟨[], (List.append_nil _).symm, iff_of_true (by simp) fun hpc hlt => ?_⟩
    exact hskip.elim (absurd hpc) (absurd hlt ∘ not_lt.2)
  · rw [not_or, not_not, not_le] at hskip
    refine ⟨_, rfl, (inside_checked hskip.2).trans ?_⟩
    exact ⟨fun h _ _ => h, fun h => h hskip.1 hskip.2⟩

/-- addEvent compares the other way round -/
theorem addEvent_accesses (s : Sys) (t : ℕ) (fd : Int32) : (s.addEvent t fd).accesses = (s.find t fd).accesses := by
  rw [Sys.addEvent, Sys.find]
  by_cases hpc : s.pc t ≠ none
  · rw [if_pos hpc, if_pos (.inl hpc)]
  · rw [if_neg hpc]
    by_cases hlt : intSize s.size > fd.toInt
    · rw [if_pos hlt, if_neg (not_or_intro hpc (not_le.2 hlt))]
    · rw [if_neg hlt, if_pos (.inr (not_lt.1 hlt))]
      rfl

theorem grow_indexed (s : Sys) (fd : Int32) :
    (∀ a ∈ [Access.mk fd.toInt (s.contextResize fd).size], a.Inside) ↔ 2 ≤ fd.toInt := by
  rw [inside_iff, Sys.contextResize]
  split_ifs with h
  · have hsize : newSize fd = fd.toInt.toNat * 3 / 2 := rfl
    dsimp only
    omega
  · omega

theorem accesses_step (s : Sys) (o : Op) :
    ∃ l, (step s o).accesses = s.accesses ++ l ∧ ((∀ a ∈ l, a.Inside) ↔ InRange s o) := by
  cases o with
  | addEvent t fd =>
    have h := find_indexed s t fd
    rw [← addEvent_accesses] at h
    exact h
  | grow t =>
    rw [step]
    cases hpc : s.pc t with
    | none => exact ⟨[], (List.append_nil _).symm, by simp [InRange, hpc]⟩
    | some fd =>
      have hlog : (s.contextResize fd).accesses = s.accesses := by
        rw [Sys.contextResize]
        split_ifs <;> rfl
      refine ⟨[⟨fd.toInt, (s.contextResize fd).size⟩], congrArg (· ++ _) hlog, (grow_indexed s fd).trans ?_⟩
      simp [InRange, hpc]
  | delEvent t fd => exact find_indexed s t fd
  | cancelEvent t fd => exact find_indexed s t fd
  | cancelAll t fd => exact find_indexed s t fd

/-- all indices of a run have been in range exactly when each of its sections keeps to the condition -/
theorem inside_run_iff (ops : List Op) :
    (∀ a ∈ (run step init ops).accesses, a.Inside) ↔ Guarded step InRange init ops :=
  log_good_iff accesses_step init ops (by simp [init])

/-- **Bounds.** The tables of both managers are indexed in range exactly under their conditions. -/
theorem tables_inside_iff (ops : List Hook.FdTable.Op) (ops' : List Op) :
    ((∀ a ∈ (run Hook.FdTable.step Hook.FdTable.init ops).accesses, a.Inside) ↔
        Guarded Hook.FdTable.step Hook.FdTable.InRange Hook.FdTable.init ops) ∧
      ((∀ a ∈ (run step init ops').accesses, a.Inside) ↔ Guarded step InRange init ops') :=
  ⟨Hook.FdTable.inside_run_iff ops, inside_run_iff ops'⟩

/-- a socket is closed and all its events are cancelled; a descriptor is deleted that was never open; and a table of more
than 2 ^ 31 slots is cut down to one -/
theorem tables_left :
    (run step init [.cancelAll 0 (-1)]).accesses = [⟨-1, 32⟩] ∧
      (run Hook.FdTable.step Hook.FdTable.init [.lookup 0 (-5) false, .del 0 (-1)]).accesses = [⟨-5, 64⟩, ⟨-1, 64⟩] ∧
      (run step init [.addEvent 0 1431655766, .grow 0, .addEvent 0 1, .grow 0]).accesses =
        [⟨1431655766, 2147483649⟩, ⟨1, 1⟩] ∧
      ¬ ∀ a ∈ (run step init [.cancelAll 0 (-1)]).accesses, a.Inside := by
  refine ⟨by decide, by decide, by decide, by decide⟩

end Sylar.IOManager.Bounds

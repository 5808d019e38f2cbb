/-
The context of a file descriptor, and the manager that keeps the contexts.

`FdCtx` says whether a descriptor is a socket, which mode the hooks have given it in the kernel, and which mode the user
asked for. `FdManager` is a vector of them that grows with the descriptors.

Results:
- `get_create`, `get_del`, `get_setUserNonblock`: the vector is a table indexed by the descriptor;
- `nonblock_setfl`, `nonblock_fionbio`: what F_SETFL and FIONBIO make of O_NONBLOCK.
-/
import Mathlib.Tactic

namespace Sylar.Hook

/-! ## Flags -/

def O_RDWR : BitVec 32 := 0x2#32

def O_NONBLOCK : BitVec 32 := 0x800#32

/-- the flags that F_SETFL can change: O_APPEND, O_NONBLOCK, O_ASYNC, O_DIRECT and O_NOATIME -/
def setflMask : BitVec 32 := 0x46C00#32

/-- `flags & O_NONBLOCK` as a truth value -/
def nonblock (flags : BitVec 32) : Bool := flags &&& O_NONBLOCK != 0#32

theorem nonblock_eq (flags : BitVec 32) : nonblock flags = flags.getLsbD 11 := by
  have hbit : O_NONBLOCK = BitVec.twoPow 32 11 := by decide
  rw [nonblock, hbit, BitVec.and_twoPow]
  cases flags.getLsbD 11 <;> decide

@[simp] theorem nonblock_or (flags : BitVec 32) : nonblock (flags ||| O_NONBLOCK) = true := by
  have hbit : O_NONBLOCK.getLsbD 11 = true := by decide
  simp [nonblock_eq, hbit]

@[simp] theorem nonblock_and_not (flags : BitVec 32) : nonblock (flags &&& ~~~O_NONBLOCK) = false := by
  have hbit : (~~~O_NONBLOCK).getLsbD 11 = false := by decide
  simp only [nonblock_eq, BitVec.getLsbD_and, hbit, Bool.and_false]

/-! ## The kernel -/

/-- an open file -/
structure File where
  isSocket : Bool
  flags : BitVec 32
deriving DecidableEq, Repr

/-- `fcntl_f(fd, F_SETFL, arg)` -/
def File.setfl (f : File) (arg : BitVec 32) : File :=
  { f with flags := f.flags &&& ~~~setflMask ||| arg &&& setflMask }

/-- `ioctl_f(fd, FIONBIO, &value)` -/
def File.fionbio (f : File) (value : BitVec 32) : File :=
  { f with flags := if value ≠ 0#32 then f.flags ||| O_NONBLOCK else f.flags &&& ~~~O_NONBLOCK }

@[simp] theorem nonblock_setfl (f : File) (arg : BitVec 32) : nonblock (f.setfl arg).flags = nonblock arg := by
  have hmask : setflMask.getLsbD 11 = true := by decide
  have hrest : (~~~setflMask).getLsbD 11 = false := by decide
  simp only [File.setfl, nonblock_eq, BitVec.getLsbD_or, BitVec.getLsbD_and, hmask, hrest, Bool.and_false, Bool.and_true,
    Bool.false_or]

@[simp] theorem nonblock_fionbio (f : File) (value : BitVec 32) :
    nonblock (f.fionbio value).flags = decide (value ≠ 0#32) := by
  unfold File.fionbio
  split_ifs with h
  · rw [nonblock_or, decide_eq_true h]
  · rw [nonblock_and_not, decide_eq_false h]

/-! ## FdCtx and FdManager -/

structure FdCtx where
  isInit : Bool
  isSocket : Bool
  sysNonblock : Bool
  userNonblock : Bool
  isClosed : Bool
  recvTimeout : UInt64
  sendTimeout : UInt64
deriving DecidableEq, Repr

def SO_RCVTIMEO : ℕ := 20

/-- the timeout in milliseconds for SO_RCVTIMEO, or else SO_SNDTIMEO -/
def FdCtx.getTimeout (ctx : FdCtx) (type : ℕ) : UInt64 :=
  if type = SO_RCVTIMEO then ctx.recvTimeout else ctx.sendTimeout

/-- the constructor with its `init`: fstat, and for a socket F_GETFL and F_SETFL. The second part is the file behind it -/
def FdCtx.make (file : Option File) : FdCtx × Option File :=
  match file with
  | none => (⟨false, false, false, false, false, -1, -1⟩, none)
  | some f =>
    if f.isSocket then
      (⟨true, true, true, false, false, -1, -1⟩,
        some (if nonblock f.flags then f else f.setfl (f.flags ||| O_NONBLOCK)))
    else (⟨true, false, false, false, false, -1, -1⟩, some f)

/-- `m_datas` of the manager. It starts with 64 entries, and never shrinks -/
structure FdManager where
  datas : List (Option FdCtx)
  size_ge : 64 ≤ datas.length

namespace FdManager

def empty : FdManager := ⟨List.replicate 64 none, by decide⟩

/-- `get(fd)`: nothing beyond the end -/
def get (m : FdManager) (fd : ℕ) : Option FdCtx := m.datas.getD fd none

/-- the write-locked section of `get(fd, true)`; `resize(fd * 1.5)` if the vector is too short -/
def create (m : FdManager) (fd : ℕ) (ctx : FdCtx) : FdManager :=
  ⟨(m.datas ++ List.replicate (if m.datas.length ≤ fd then fd * 3 / 2 - m.datas.length else 0) none).set fd (some ctx), by
    rw [List.length_set, List.length_append]
    exact m.size_ge.trans (Nat.le_add_right _ _)⟩

def del (m : FdManager) (fd : ℕ) : FdManager := ⟨m.datas.set fd none, by rw [List.length_set]; exact m.size_ge⟩

/-- `ctx->setUserNonblock(v)` on the context of fd -/
def setUserNonblock (m : FdManager) (fd : ℕ) (v : Bool) : FdManager :=
  ⟨m.datas.modify fd (Option.map fun ctx => { ctx with userNonblock := v }), by
    rw [List.length_modify]; exact m.size_ge⟩

@[simp] theorem get_empty (fd : ℕ) : empty.get fd = none := by
  simp only [get, empty, List.getD_eq_getElem?_getD, List.getElem?_replicate]
  split_ifs <;> rfl

theorem get_create (m : FdManager) (fd : ℕ) (ctx : FdCtx) (fd' : ℕ) :
    (m.create fd ctx).get fd' = if fd' = fd then some ctx else m.get fd' := by
  have hsize := m.size_ge
  simp only [get, create, List.getD_eq_getElem?_getD, List.getElem?_set]
  by_cases h : fd' = fd
  · subst h
    have hlt : fd' < (m.datas ++ List.replicate (if m.datas.length ≤ fd' then fd' * 3 / 2 - m.datas.length else 0)
        none).length := by
      rw [List.length_append, List.length_replicate]
      split_ifs <;> omega
    rw [if_pos rfl, if_pos hlt, if_pos rfl, Option.getD_some]
  · rw [if_neg (Ne.symm h), if_neg h]
    by_cases hlt : fd' < m.datas.length
    · rw [List.getElem?_append_left hlt]
    · rw [List.getElem?_append_right (not_lt.1 hlt), List.getElem?_replicate, List.getElem?_eq_none (not_lt.1 hlt)]
      split_ifs <;> rfl

theorem get_del (m : FdManager) (fd fd' : ℕ) : (m.del fd).get fd' = if fd' = fd then none else m.get fd' := by
  simp only [get, del, List.getD_eq_getElem?_getD, List.getElem?_set]
  by_cases h : fd' = fd
  · subst h
    rw [if_pos rfl, if_pos rfl]
    split_ifs <;> rfl
  · rw [if_neg (Ne.symm h), if_neg h]

theorem get_setUserNonblock (m : FdManager) (fd : ℕ) (v : Bool) (fd' : ℕ) :
    (m.setUserNonblock fd v).get fd' =
      if fd' = fd then (m.get fd').map fun ctx => { ctx with userNonblock := v } else m.get fd' := by
  simp only [get, setUserNonblock, List.getD_eq_getElem?_getD, List.getElem?_modify]
  by_cases h : fd' = fd
  · subst h
    cases m.datas[fd']? <;> simp
  · have hne : fd ≠ fd' := Ne.symm h
    cases m.datas[fd']? <;> simp [h, hne]

end FdManager

end Sylar.Hook

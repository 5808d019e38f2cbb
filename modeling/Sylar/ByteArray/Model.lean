/-
`ByteArray` (bytearray.h, bytearray.cc): a growable byte buffer kept in a linked list of blocks of one size, with a
cursor.

The linked list is the list of its blocks, so a `Node*` is an index into it and null is `none`. `new char[s]` does not
initialise its bytes: the blocks are filled from `mem`, an arbitrary stream that each allocation consumes. A member
function runs in `M`: it may throw, and the object keeps what was assigned before the throw.

`size_t` values are natural numbers; a subtraction that could wrap is `sizeSub`. The block count of `addCapacity` goes
through double precision as in the source.
-/
import Mathlib.Tactic
import Sylar.Core.DoubleCeil
import Sylar.Core.Overwrite

namespace Sylar.Buffer

open Sylar.Overwrite

/-! ## Data -/

/-- SYLAR_LITTLE_ENDIAN, SYLAR_BIG_ENDIAN -/
inductive Endian where
  | little
  | big
deriving DecidableEq, Repr

/-- what ends a call early -/
inductive Fault where
  /-- a null `Node*` is dereferenced -/
  | nullDeref
  /-- std::out_of_range -/
  | outOfRange
deriving DecidableEq, Repr

/-- ByteArray::Node; its `size` member is the length of its block -/
structure Node where
  ptr : List UInt8
deriving DecidableEq, Repr

def Node.size (n : Node) : ℕ := n.ptr.length

/-- `Node::Node(size_t s)` on memory that holds `mem` -/
def Node.new (s : ℕ) (mem : ℕ → UInt8) : Node := ⟨(List.range s).map mem⟩

/-- `memcpy(ptr + off, src, |src|)` -/
def Node.store (n : Node) (off : ℕ) (src : List UInt8) : Node := ⟨overwrite n.ptr off src⟩

/-- `memcpy(dst, ptr + off, len)` -/
def Node.load (n : Node) (off len : ℕ) : List UInt8 := (n.ptr.drop off).take len

structure ByteArray where
  baseSize : ℕ
  position : ℕ
  capacity : ℕ
  size : ℕ
  endian : Endian
  /-- the blocks, from m_root along `next` -/
  nodes : List Node
  /-- m_cur -/
  cur : Option ℕ
  /-- what memory not yet allocated holds -/
  mem : ℕ → UInt8

/-- `a - b` in 64-bit unsigned arithmetic, for `b ≤ 2 ^ 64` -/
def sizeSub (a b : ℕ) : ℕ := if b ≤ a then a - b else 2 ^ 64 + a - b

theorem sizeSub_of_le {a b : ℕ} (h : b ≤ a) : sizeSub a b = a - b := if_pos h

/-- `ByteArray::ByteArray(size_t base_size)` -/
def ByteArray.new (baseSize : ℕ) (mem : ℕ → UInt8) : ByteArray where
  baseSize := baseSize
  position := 0
  capacity := baseSize
  size := 0
  endian := .big
  nodes := [Node.new baseSize mem]
  cur := some 0
  mem := fun i => mem (baseSize + i)

namespace ByteArray

def getSize (ba : ByteArray) : ℕ := ba.size

def getPosition (ba : ByteArray) : ℕ := ba.position

def getReadSize (ba : ByteArray) : ℕ := sizeSub ba.size ba.position

def getCapacity (ba : ByteArray) : ℕ := sizeSub ba.capacity ba.position

/-- the pointer `k` steps of `next` after block `i` -/
def follow (ba : ByteArray) (i k : ℕ) : Option ℕ := if i + k < ba.nodes.length then some (i + k) else none

def isLittleEndian (ba : ByteArray) : Bool := ba.endian = .little

end ByteArray

/-! ## Member functions -/

/-- a member function: it returns or throws, and leaves the object in some state either way -/
abbrev M (α : Type) := ExceptT Fault (StateM ByteArray) α

/-- the outcome of a call on `ba`, and the object afterwards -/
def exec {α : Type} (x : M α) (ba : ByteArray) : Except Fault α × ByteArray := (StateT.run (ExceptT.run x) ba).run

def setIsLittleEndian (val : Bool) : M Unit :=
  modify fun ba => { ba with endian := if val then .little else .big }

/-- `count` new blocks, and the memory that is left -/
def newNodes : ℕ → ℕ → (ℕ → UInt8) → List Node × (ℕ → UInt8)
  | 0, _, mem => ([], mem)
  | count + 1, s, mem =>
    let (nodes, mem') := newNodes count s (fun i => mem (s + i))
    (Node.new s mem :: nodes, mem')

def addCapacity (size : ℕ) : M Unit := do
  if size = 0 then return
  let ba ← get
  let oldCap := ba.getCapacity
  if oldCap ≥ size then return
  let count := Double.ceilDiv (size - oldCap) ba.baseSize
  let (nodes, mem) := newNodes count ba.baseSize ba.mem
  let first := if count = 0 then none else some ba.nodes.length
  set { ba with
    nodes := ba.nodes ++ nodes
    mem := mem
    capacity := ba.capacity + count * ba.baseSize
    cur := if oldCap = 0 then first else ba.cur }

/-- the loop of `write` from block to block: the blocks afterwards and how far m_cur has moved; `none`: the loop
dereferences the null pointer after the last block -/
def writeLoop : List Node → ℕ → List UInt8 → Option (List Node × ℕ)
  | [], _, _ => none
  | n :: rest, npos, buf =>
    let ncap := n.size - npos
    if ncap ≥ buf.length then
      some (n.store npos buf :: rest, if n.size = npos + buf.length then 1 else 0)
    else
      match writeLoop rest 0 (buf.drop ncap) with
      | none => none
      | some (blocks, k) => some (n.store npos (buf.take ncap) :: blocks, k + 1)

def write (buf : List UInt8) : M Unit := do
  if buf.length = 0 then return
  addCapacity buf.length
  let ba ← get
  match ba.cur with
  | none => throw .nullDeref
  | some i =>
    match writeLoop (ba.nodes.drop i) (ba.position % ba.baseSize) buf with
    | none => throw .nullDeref
    | some (blocks, k) =>
      let position := ba.position + buf.length
      set { ba with
        nodes := ba.nodes.take i ++ blocks
        cur := ba.follow i k
        position := position
        size := if position > ba.size then position else ba.size }

/-- the loop of `read` from block to block: the bytes and how far the block pointer has moved -/
def readLoop : List Node → ℕ → ℕ → Option (List UInt8 × ℕ)
  | _, _, 0 => some ([], 0)
  | [], _, _ => none
  | n :: rest, npos, size =>
    let ncap := n.size - npos
    if ncap ≥ size then
      some (n.load npos size, if n.size = npos + size then 1 else 0)
    else
      match readLoop rest 0 (size - ncap) with
      | none => none
      | some (bytes, k) => some (n.load npos ncap ++ bytes, k + 1)

/-- `read(void* buf, size_t size)`; m_cur is dereferenced before the loop, also for size 0 -/
def read (size : ℕ) : M (List UInt8) := do
  let ba ← get
  if size > ba.getReadSize then throw .outOfRange
  match ba.cur with
  | none => throw .nullDeref
  | some i =>
    match readLoop (ba.nodes.drop i) (ba.position % ba.baseSize) size with
    | none => throw .nullDeref
    | some (bytes, k) =>
      set { ba with cur := ba.follow i k, position := ba.position + size }
      return bytes

/-- `read(void* buf, size_t size, size_t position) const`: it starts at m_cur, whatever `position` is -/
def readAt (size position : ℕ) : M (List UInt8) := do
  let ba ← get
  if size > sizeSub ba.size position then throw .outOfRange
  match ba.cur with
  | none => throw .nullDeref
  | some i =>
    match readLoop (ba.nodes.drop i) (position % ba.baseSize) size with
    | none => throw .nullDeref
    | some (bytes, _) => return bytes

/-- the loop of `setPosition` from m_root: how many blocks it passes -/
def seekLoop : List Node → ℕ → Option ℕ
  | [], _ => none
  | n :: rest, v =>
    if v > n.size then (seekLoop rest (v - n.size)).map (· + 1)
    else some (if v = n.size then 1 else 0)

def setPosition (v : ℕ) : M Unit := do
  let ba ← get
  if v > ba.capacity then throw .outOfRange
  set { ba with position := v, size := if v > ba.size then v else ba.size }
  match seekLoop ba.nodes v with
  | none => throw .nullDeref
  | some k => modify fun ba => { ba with cur := ba.follow 0 k }

def toString : M (List UInt8) := do
  let ba ← get
  if ba.getReadSize = 0 then return []
  readAt ba.getReadSize ba.position

/-- `clear` deletes every block but m_root -/
def clear : M Unit :=
  modify fun ba => { ba with position := 0, size := 0, capacity := ba.baseSize, cur := some 0, nodes := ba.nodes.take 1 }

/-! ## Running calls -/

@[simp] theorem exec_pure {α : Type} (a : α) (ba : ByteArray) : exec (pure a) ba = (.ok a, ba) := rfl

@[simp] theorem exec_get (ba : ByteArray) : exec (get : M ByteArray) ba = (.ok ba, ba) := rfl

@[simp] theorem exec_set (ba ba' : ByteArray) : exec (set ba' : M Unit) ba = (.ok (), ba') := rfl

@[simp] theorem exec_modify (f : ByteArray → ByteArray) (ba : ByteArray) :
    exec (modify f : M Unit) ba = (.ok (), f ba) := rfl

theorem exec_bind {α β : Type} (x : M α) (f : α → M β) (ba : ByteArray) :
    exec (x >>= f) ba = match exec x ba with
      | (.ok a, ba') => exec (f a) ba'
      | (.error e, ba') => (.error e, ba') := by
  change exec (ExceptT.bind x f) ba = _
  rcases h : exec x ba with ⟨r, ba'⟩
  simp only [exec, ExceptT.run, ExceptT.bind, ExceptT.mk, StateT.run, Id.run] at h ⊢
  change (match x ba with | (a, s) => ExceptT.bindCont f a s) = _
  rw [h]
  cases r <;> rfl

theorem exec_bind_ok {α β : Type} {x : M α} {a : α} {ba ba' : ByteArray} (h : exec x ba = (.ok a, ba')) (f : α → M β) :
    exec (x >>= f) ba = exec (f a) ba' := by
  rw [exec_bind, h]

end Sylar.Buffer

/-
`ByteArray` refines one flat byte sequence with a cursor, whatever the block size.

The abstract buffer `Flat` is the data and the cursor: `write` overwrites at the cursor and extends the end, `read`
returns the bytes at the cursor. `Rel` relates it to the blocks: the data is what the blocks hold up to m_size, and the
cursor is m_position. `Wf` is the representation invariant that every operation needs and keeps: in particular m_cur is
the block of m_position and null exactly at the end of the last block.

Results:
- `write_spec`, `read_spec`, `setPosition_spec`, `toString_spec`, `clear_spec`: each member function simulates the flat
  operation, for every block size, length and cursor;
- `bytearray_refines_flat`: every sequence of calls returns what the flat buffer returns, and ends in a state of `Wf`.
-/
import Sylar.Core.Run
import Sylar.ByteArray.Model

namespace Sylar.Buffer

open Sylar.Overwrite Sylar.Run

/-! ## The blocks as one sequence -/

/-- the bytes of the blocks, in order -/
def content (nodes : List Node) : List UInt8 := nodes.flatMap Node.ptr

/-- every block has `b` bytes -/
def Sized (b : ℕ) (nodes : List Node) : Prop := ∀ n ∈ nodes, n.size = b

@[simp] theorem content_nil : content [] = [] := rfl

@[simp] theorem content_cons (n : Node) (nodes : List Node) : content (n :: nodes) = n.ptr ++ content nodes := rfl

@[simp] theorem content_append (a b : List Node) : content (a ++ b) = content a ++ content b := List.flatMap_append

theorem sized_cons {b : ℕ} {n : Node} {nodes : List Node} : Sized b (n :: nodes) ↔ n.ptr.length = b ∧ Sized b nodes := by
  simp [Sized, Node.size]

theorem sized_append {b : ℕ} {l r : List Node} : Sized b (l ++ r) ↔ Sized b l ∧ Sized b r := by
  simp [Sized, or_imp, forall_and]

theorem Sized.take {b : ℕ} {nodes : List Node} (h : Sized b nodes) (i : ℕ) : Sized b (nodes.take i) :=
  fun n hn => h n (List.mem_of_mem_take hn)

theorem Sized.drop {b : ℕ} {nodes : List Node} (h : Sized b nodes) (i : ℕ) : Sized b (nodes.drop i) :=
  fun n hn => h n (List.mem_of_mem_drop hn)

theorem length_content {b : ℕ} {nodes : List Node} (h : Sized b nodes) : (content nodes).length = b * nodes.length := by
  induction nodes with
  | nil => simp
  | cons n nodes ih =>
    obtain ⟨hn, hrest⟩ := sized_cons.1 h
    simp only [content_cons, List.length_append, List.length_cons, hn, ih hrest]
    ring

/-! ## The loops -/

theorem readLoop_spec {b : ℕ} {blocks : List Node} {npos size : ℕ} (hsz : Sized b blocks) (hnpos : npos < b)
    (hpos : 0 < size) (hfit : npos + size ≤ b * blocks.length) :
    readLoop blocks npos size = some (((content blocks).drop npos).take size, (npos + size) / b) := by
  induction blocks generalizing npos size with
  | nil =>
    rw [List.length_nil, Nat.mul_zero] at hfit
    omega
  | cons n rest ih =>
    obtain ⟨hn, hrest⟩ := sized_cons.1 hsz
    obtain ⟨m, rfl⟩ : ∃ m, size = m + 1 := ⟨size - 1, by omega⟩
    simp only [readLoop, Node.size, hn, Node.load]
    split_ifs with hcap hend
    · -- the read ends with this block
      have hdiv : (npos + (m + 1)) / b = 1 := by rw [← hend]; exact Nat.div_self (by omega)
      rw [hdiv, content_cons, List.drop_append_of_le_length (by omega), List.take_append_of_le_length (by simp; omega)]
    · have hdiv : (npos + (m + 1)) / b = 0 := Nat.div_eq_of_lt (by omega)
      rw [hdiv, content_cons, List.drop_append_of_le_length (by omega), List.take_append_of_le_length (by simp; omega)]
    · -- the read goes on with the next block
      have hlen : b * (n :: rest).length = b * rest.length + b := by simp [Nat.mul_add]
      have hdiv : (npos + (m + 1)) / b = (0 + (m + 1 - (b - npos))) / b + 1 := by
        rw [← Nat.add_div_right _ (by omega)]
        congr 1
        omega
      rw [ih hrest (by omega) (by omega) (by omega), hdiv, content_cons,
        List.drop_append_of_le_length (by omega)]
      have htake : (List.drop npos n.ptr).take (b - npos) = List.drop npos n.ptr :=
        List.take_of_length_le (by simp; omega)
      simp only [htake, List.drop_zero]
      rw [List.take_append, List.take_of_length_le (i := m + 1) (by simp; omega)]
      simp [hn]

theorem writeLoop_spec {b : ℕ} {blocks : List Node} {npos : ℕ} {buf : List UInt8} (hsz : Sized b blocks)
    (hnpos : npos < b) (hpos : 0 < buf.length) (hfit : npos + buf.length ≤ b * blocks.length) :
    ∃ blocks', writeLoop blocks npos buf = some (blocks', (npos + buf.length) / b) ∧ Sized b blocks' ∧
      blocks'.length = blocks.length ∧ content blocks' = overwrite (content blocks) npos buf := by
  induction blocks generalizing npos buf with
  | nil =>
    rw [List.length_nil, Nat.mul_zero] at hfit
    omega
  | cons n rest ih =>
    obtain ⟨hn, hrest⟩ := sized_cons.1 hsz
    simp only [writeLoop, Node.size, hn]
    by_cases hcap : b - npos ≥ buf.length
    · have hin : npos + buf.length ≤ n.ptr.length := by omega
      have hk : (if b = npos + buf.length then 1 else 0) = (npos + buf.length) / b := by
        split_ifs with hend
        · rw [← hend]; exact (Nat.div_self (by omega)).symm
        · exact (Nat.div_eq_of_lt (by omega)).symm
      rw [if_pos hcap, hk]
      refine ⟨_, rfl, ?_, by simp, ?_⟩
      · exact sized_cons.2 ⟨by simp [Node.store, length_overwrite hin, hn], hrest⟩
      · simp [Node.store, overwrite_append_left hin]
    · have hlen : b * (n :: rest).length = b * rest.length + b := by simp [Nat.mul_add]
      have hdrop : (buf.drop (b - npos)).length = buf.length - (b - npos) := by simp
      obtain ⟨blocks', hloop, hsz', hlen', hcont⟩ :=
        @ih 0 (buf.drop (b - npos)) hrest (by omega) (by omega) (by omega)
      have hdiv : (npos + buf.length) / b = (0 + (buf.drop (b - npos)).length) / b + 1 := by
        rw [← Nat.add_div_right _ (by omega)]
        congr 1
        omega
      have hfill : npos + (buf.take (b - npos)).length = n.ptr.length := by simp; omega
      rw [if_neg hcap, hloop, hdiv]
      refine ⟨_, rfl, ?_, by simp [hlen'], ?_⟩
      · exact sized_cons.2 ⟨by simp [Node.store, length_overwrite (le_of_eq hfill), hn], hsz'⟩
      · conv_rhs => rw [← List.take_append_drop (b - npos) buf]
        rw [content_cons, content_cons, overwrite_cross hfill, hcont, Node.store]

/-- the loop of `write` needs room for all bytes -/
theorem writeLoop_none {b : ℕ} {blocks : List Node} {npos : ℕ} {buf : List UInt8} (hsz : Sized b blocks)
    (hnpos : npos < b) (hlong : b * blocks.length < npos + buf.length) : writeLoop blocks npos buf = none := by
  induction blocks generalizing npos buf with
  | nil => rfl
  | cons n rest ih =>
    obtain ⟨hn, hrest⟩ := sized_cons.1 hsz
    have hlen : b * (n :: rest).length = b * rest.length + b := by simp [Nat.mul_add]
    have hdrop : (buf.drop (b - npos)).length = buf.length - (b - npos) := by simp
    have hrec := @ih 0 (buf.drop (b - npos)) hrest (by omega) (by omega)
    simp only [writeLoop, Node.size, hn]
    rw [if_neg (by omega), hrec]

theorem seekLoop_spec {b : ℕ} (hb : 0 < b) {nodes : List Node} {v : ℕ} (hsz : Sized b nodes) (hne : nodes ≠ [])
    (hv : v ≤ b * nodes.length) : seekLoop nodes v = some (v / b) := by
  induction nodes generalizing v with
  | nil => exact absurd rfl hne
  | cons n rest ih =>
    obtain ⟨hn, hrest⟩ := sized_cons.1 hsz
    simp only [seekLoop, Node.size, hn]
    split_ifs with hgt heq
    · have hlen : b * (n :: rest).length = b * rest.length + b := by simp [Nat.mul_add]
      have hne : rest ≠ [] := by
        rintro rfl
        rw [List.length_singleton, Nat.mul_one] at hv
        omega
      rw [ih hrest hne (by omega), Option.map_some, ← Nat.add_div_right _ hb, Nat.sub_add_cancel (by omega)]
    · rw [heq, Nat.div_self hb]
    · rw [Nat.div_eq_of_lt (by omega)]

theorem newNodes_spec (s count : ℕ) (mem : ℕ → UInt8) :
    (newNodes count s mem).1.length = count ∧ Sized s (newNodes count s mem).1 := by
  induction count generalizing mem with
  | zero => exact ⟨rfl, by simp [newNodes, Sized]⟩
  | succ count ih =>
    obtain ⟨hlen, hsz⟩ := ih fun i => mem (s + i)
    simp only [newNodes]
    exact ⟨by simp [hlen], sized_cons.2 ⟨by simp [Node.new], hsz⟩⟩

/-! ## The representation invariant -/

structure Wf (ba : ByteArray) : Prop where
  base_pos : 0 < ba.baseSize
  blocks : Sized ba.baseSize ba.nodes
  root : ba.nodes ≠ []
  capacity : ba.capacity = ba.baseSize * ba.nodes.length
  position_le : ba.position ≤ ba.size
  size_le : ba.size ≤ ba.capacity
  cur : ba.cur = if ba.position = ba.capacity then none else some (ba.position / ba.baseSize)

/-- the flat buffer: the data and the cursor -/
structure Flat where
  data : List UInt8
  pos : ℕ
deriving DecidableEq, Repr

namespace Flat

def empty : Flat := ⟨[], 0⟩

def write (f : Flat) (buf : List UInt8) : Flat := ⟨overwrite f.data f.pos buf, f.pos + buf.length⟩

def read (f : Flat) (n : ℕ) : List UInt8 := (f.data.drop f.pos).take n

def skip (f : Flat) (n : ℕ) : Flat := { f with pos := f.pos + n }

def readSize (f : Flat) : ℕ := f.data.length - f.pos

end Flat

/-- the blocks represent the flat buffer -/
structure Rel (base : ℕ) (e : Endian) (ba : ByteArray) (f : Flat) : Prop where
  wf : Wf ba
  base : ba.baseSize = base
  endian : ba.endian = e
  size : ba.size = f.data.length
  pos : ba.position = f.pos
  data : (content ba.nodes).take ba.size = f.data

theorem Wf.length_content {ba : ByteArray} (h : Wf ba) : (content ba.nodes).length = ba.capacity := by
  rw [Sylar.Buffer.length_content h.blocks, h.capacity]

theorem Rel.readSize {base : ℕ} {e : Endian} {ba : ByteArray} {f : Flat} (h : Rel base e ba f) :
    ba.getReadSize = f.readSize := by
  rw [ByteArray.getReadSize, sizeSub_of_le h.wf.position_le, h.size, h.pos, Flat.readSize]

/-- below the capacity m_cur is the block of the cursor, and the cursor is a place in that block -/
theorem Wf.cur_of_lt {ba : ByteArray} (h : Wf ba) (hlt : ba.position < ba.capacity) :
    ba.cur = some (ba.position / ba.baseSize) ∧ ba.position / ba.baseSize < ba.nodes.length := by
  refine ⟨by rw [h.cur, if_neg (by omega)], ?_⟩
  rw [Nat.div_lt_iff_lt_mul h.base_pos, Nat.mul_comm, ← h.capacity]
  exact hlt

/-- following the pointers from the block of `p` lands on the block of `p + n`, and on null at the capacity -/
theorem follow_div {ba : ByteArray} (h : Wf ba) (p n : ℕ) (hle : p + n ≤ ba.capacity) :
    ba.follow (p / ba.baseSize) ((p % ba.baseSize + n) / ba.baseSize) =
      if p + n = ba.capacity then none else some ((p + n) / ba.baseSize) := by
  have hsum : p / ba.baseSize + (p % ba.baseSize + n) / ba.baseSize = (p + n) / ba.baseSize := by
    rw [← Nat.mul_add_div h.base_pos, ← Nat.add_assoc, Nat.div_add_mod]
  have hlt : (p + n) / ba.baseSize < ba.nodes.length ↔ p + n < ba.capacity := by
    rw [Nat.div_lt_iff_lt_mul h.base_pos, h.capacity, Nat.mul_comm]
  simp only [ByteArray.follow, hsum, hlt]
  split_ifs <;> first | rfl | omega

/-- the bytes of the blocks from the block of the cursor on -/
theorem content_drop_block {ba : ByteArray} (h : Wf ba) (p : ℕ) :
    (content (ba.nodes.drop (p / ba.baseSize))).drop (p % ba.baseSize) = (content ba.nodes).drop p := by
  by_cases hlt : p / ba.baseSize < ba.nodes.length
  · have hlen : (content (ba.nodes.take (p / ba.baseSize))).length = ba.baseSize * (p / ba.baseSize) := by
      rw [Sylar.Buffer.length_content (h.blocks.take _), List.length_take, min_eq_left hlt.le]
    have hp : p = (content (ba.nodes.take (p / ba.baseSize))).length + p % ba.baseSize := by
      rw [hlen, Nat.div_add_mod]
    have hsplit : content ba.nodes = content (ba.nodes.take (p / ba.baseSize)) ++
        content (ba.nodes.drop (p / ba.baseSize)) := by
      rw [← content_append, List.take_append_drop]
    calc (content (ba.nodes.drop (p / ba.baseSize))).drop (p % ba.baseSize)
        = (content (ba.nodes.take (p / ba.baseSize)) ++ content (ba.nodes.drop (p / ba.baseSize))).drop
            ((content (ba.nodes.take (p / ba.baseSize))).length + p % ba.baseSize) := by simp [List.drop_append]
      _ = (content ba.nodes).drop p := by rw [← hsplit, ← hp]
  · have hout : (content ba.nodes).length ≤ p := by
      rw [h.length_content, h.capacity, Nat.mul_comm]
      exact (Nat.le_div_iff_mul_le h.base_pos).1 (not_lt.1 hlt)
    rw [List.drop_of_length_le hout, List.drop_of_length_le (i := p / ba.baseSize) (not_lt.1 hlt)]
    simp

/-- the room from the cursor to the end, counted in the blocks that are left -/
theorem room_eq {ba : ByteArray} (h : Wf ba) (hlt : ba.position < ba.capacity) (n : ℕ) :
    ba.position % ba.baseSize + n ≤ ba.baseSize * (ba.nodes.drop (ba.position / ba.baseSize)).length ↔
      ba.position + n ≤ ba.capacity := by
  have hblock := (h.cur_of_lt hlt).2
  have hdm := Nat.div_add_mod ba.position ba.baseSize
  rw [List.length_drop, Nat.mul_sub, ← h.capacity]
  have hle : ba.baseSize * (ba.position / ba.baseSize) ≤ ba.capacity := by omega
  omega

/-! ## The member functions -/

variable {base : ℕ} {e : Endian} {ba : ByteArray} {f : Flat}

theorem new_rel (hbase : 0 < base) (mem : ℕ → UInt8) : Rel base .big (ByteArray.new base mem) Flat.empty := by
  have hwf : Wf (ByteArray.new base mem) := by
    refine ⟨hbase, ?_, by simp [ByteArray.new], by simp [ByteArray.new], le_rfl, Nat.zero_le _, ?_⟩
    · simp [ByteArray.new, Sized, Node.new, Node.size]
    · simp [ByteArray.new, hbase.ne]
  exact ⟨hwf, rfl, rfl, rfl, rfl, by simp [ByteArray.new, Flat.empty]⟩

theorem setIsLittleEndian_spec (h : Rel base e ba f) (val : Bool) :
    ∃ ba', exec (setIsLittleEndian val) ba = (.ok (), ba') ∧ Rel base (if val then .little else .big) ba' f :=
  ⟨_, rfl, ⟨⟨h.wf.base_pos, h.wf.blocks, h.wf.root, h.wf.capacity, h.wf.position_le, h.wf.size_le, h.wf.cur⟩, h.base, rfl,
    h.size, h.pos, h.data⟩⟩

/-- m_capacity after `addCapacity(n)`, from m_capacity and m_position -/
def capacityAfter (base cap pos n : ℕ) : ℕ :=
  if n ≤ cap - pos then cap else cap + Double.ceilDiv (n - (cap - pos)) base * base

theorem capacityAfter_zero (base cap pos : ℕ) : capacityAfter base cap pos 0 = cap := by
  simp [capacityAfter]

/-- below 2^53 missing bytes the block count is the exact one -/
theorem room_capacityAfter {base cap pos n : ℕ} (hbase : 0 < base) (hpos : pos ≤ cap) (hn : n < 2 ^ 53) :
    pos + n ≤ capacityAfter base cap pos n := by
  unfold capacityAfter
  split_ifs with hroom
  · omega
  · have hceil := Double.ceilDiv_eq (a := n - (cap - pos)) (b := base) (by omega) hbase (by omega)
    have hdm := Nat.div_add_mod (n - (cap - pos) + base - 1) base
    have hmod := Nat.mod_lt (n - (cap - pos) + base - 1) hbase
    rw [← hceil, Nat.mul_comm] at hdm
    omega

/-- `addCapacity(n)` keeps the buffer, whatever the block count is -/
theorem addCapacity_outcome (h : Rel base e ba f) (n : ℕ) :
    ∃ ba', exec (addCapacity n) ba = (.ok (), ba') ∧ Rel base e ba' f ∧
      ba'.capacity = capacityAfter base ba.capacity f.pos n := by
  have hwf := h.wf
  have hpc : ba.position ≤ ba.capacity := hwf.position_le.trans hwf.size_le
  have hcap : ba.getCapacity = ba.capacity - f.pos := by rw [← h.pos]; exact sizeSub_of_le hpc
  have hpos := h.pos
  by_cases hz : n = 0
  · exact ⟨ba, by simp [addCapacity, hz], h, by simp [capacityAfter, hz]⟩
  by_cases hroom : ba.getCapacity ≥ n
  · refine ⟨ba, ?_, h, by rw [capacityAfter, if_pos (by omega)]⟩
    simp only [addCapacity, hz, if_false]
    rw [exec_bind_ok (exec_get ba)]
    simp [hroom]
  set count := Double.ceilDiv (n - ba.getCapacity) ba.baseSize with hcount
  obtain ⟨hlen, hsz⟩ := newNodes_spec ba.baseSize count ba.mem
  refine ⟨{ ba with
    nodes := ba.nodes ++ (newNodes count ba.baseSize ba.mem).1
    mem := (newNodes count ba.baseSize ba.mem).2
    capacity := ba.capacity + count * ba.baseSize
    cur := if ba.getCapacity = 0 then (if count = 0 then none else some ba.nodes.length) else ba.cur }, ?_, ?_, ?_⟩
  · simp only [addCapacity, hz, if_false]
    rw [exec_bind_ok (exec_get ba)]
    simp [hroom, ← hcount]
  · refine ⟨⟨hwf.base_pos, sized_append.2 ⟨hwf.blocks, hsz⟩, by simp [hwf.root], ?_, hwf.position_le,
      hwf.size_le.trans (Nat.le_add_right _ _), ?_⟩, h.base, h.endian, h.size, hpos, ?_⟩
    · simp only [List.length_append, hlen, hwf.capacity]; ring
    · -- m_cur was null exactly when the old blocks were full
      have hpositive : count ≠ 0 → 0 < count * ba.baseSize :=
        fun hne => Nat.mul_pos (Nat.pos_of_ne_zero hne) hwf.base_pos
      by_cases hfull : ba.getCapacity = 0
      · have hfull' : ba.position = ba.capacity := by omega
        by_cases hnone : count = 0
        · simp [hfull, hnone, hfull']
        · have hne : ba.position ≠ ba.capacity + count * ba.baseSize := by have := hpositive hnone; omega
          simp only [hfull, hnone, hne, if_true, if_false]
          rw [hfull', hwf.capacity, Nat.mul_div_cancel_left _ hwf.base_pos]
      · have hne : ba.position ≠ ba.capacity + count * ba.baseSize := by omega
        simp only [hfull, hne, if_false]
        rw [hwf.cur, if_neg (by omega)]
    · rw [← h.data, content_append, List.take_append_of_le_length]
      rw [hwf.length_content]; exact hwf.size_le
  · rw [capacityAfter, ← hcap, ← h.base, if_neg hroom]

/-- after `addCapacity(n)` the buffer is the same and there is room for `n` bytes -/
theorem addCapacity_spec (h : Rel base e ba f) {n : ℕ} (hn : n < 2 ^ 53) :
    ∃ ba', exec (addCapacity n) ba = (.ok (), ba') ∧ Rel base e ba' f ∧ f.pos + n ≤ ba'.capacity := by
  obtain ⟨ba', hex, hrel, hcap⟩ := addCapacity_outcome h n
  refine ⟨ba', hex, hrel, ?_⟩
  have hpc : f.pos ≤ ba.capacity := by rw [← h.pos]; exact h.wf.position_le.trans h.wf.size_le
  rw [hcap]
  exact room_capacityAfter (by rw [← h.base]; exact h.wf.base_pos) hpc hn

/-- the loop of `write` behind an `addCapacity` that made room -/
theorem write_of_room {ba1 : ByteArray} {buf : List UInt8} (hz : buf.length ≠ 0)
    (hadd : exec (addCapacity buf.length) ba = (.ok (), ba1)) (h1 : Rel base e ba1 f)
    (hroom : f.pos + buf.length ≤ ba1.capacity) :
    ∃ ba', exec (write buf) ba = (.ok (), ba') ∧ Rel base e ba' (f.write buf) ∧ ba'.capacity = ba1.capacity := by
  have hwf := h1.wf
  have hpos := h1.pos
  have hlt : ba1.position < ba1.capacity := by omega
  obtain ⟨hcur, hblock⟩ := hwf.cur_of_lt hlt
  obtain ⟨blocks, hloop, hsz, hlen, hcont⟩ :=
    writeLoop_spec (hwf.blocks.drop (ba1.position / ba1.baseSize)) (Nat.mod_lt ba1.position hwf.base_pos)
      (Nat.pos_of_ne_zero hz) ((room_eq hwf hlt _).2 (by omega))
  set i := ba1.position / ba1.baseSize with hi
  have hnodes : (ba1.nodes.take i ++ blocks).length = ba1.nodes.length := by
    simp only [List.length_append, List.length_take, hlen, List.length_drop]
    omega
  have hwhole : content (ba1.nodes.take i ++ blocks) = overwrite (content ba1.nodes) ba1.position buf := by
    have htake : (content (ba1.nodes.take i)).length = ba1.baseSize * i := by
      rw [length_content (hwf.blocks.take _), List.length_take, min_eq_left hblock.le]
    conv_rhs => rw [← List.take_append_drop i ba1.nodes, content_append, ← Nat.div_add_mod ba1.position ba1.baseSize,
      ← hi, ← htake, overwrite_append_right]
    rw [content_append, hcont]
  have hmax : (if ba1.position + buf.length > ba1.size then ba1.position + buf.length else ba1.size) =
      max ba1.size (ba1.position + buf.length) := by
    split_ifs <;> omega
  have hfit : ba1.position + buf.length ≤ (content ba1.nodes).length := by rw [hwf.length_content]; omega
  have hle := hwf.position_le
  have hsc := hwf.size_le
  refine ⟨{ ba1 with
    nodes := ba1.nodes.take i ++ blocks
    cur := ba1.follow i ((ba1.position % ba1.baseSize + buf.length) / ba1.baseSize)
    position := ba1.position + buf.length
    size := max ba1.size (ba1.position + buf.length) }, ?_, ?_, rfl⟩
  · simp only [write, hz, if_false]
    rw [exec_bind_ok hadd, exec_bind_ok (exec_get ba1), hcur]
    simp [hloop, hmax]
  · have hdata : (overwrite (content ba1.nodes) ba1.position buf).take (max ba1.size (ba1.position + buf.length)) =
        overwrite f.data f.pos buf := by
      rw [take_overwrite hle (by rw [hwf.length_content]; exact hsc), h1.data, hpos]
    refine ⟨⟨hwf.base_pos, sized_append.2 ⟨hwf.blocks.take _, hsz⟩, ?_, ?_, ?_, ?_, ?_⟩, h1.base, h1.endian, ?_, ?_, ?_⟩
    · intro hnil
      dsimp only at hnil
      rw [hnil, List.length_nil] at hnodes
      exact absurd hblock (by simp [← hnodes])
    · rw [hnodes]; exact hwf.capacity
    · exact le_max_right _ _
    · exact max_le hsc (by dsimp only; omega)
    · rw [follow_div hwf _ _ (by omega)]
    · dsimp only
      rw [Flat.write, ← hdata, List.length_take, length_overwrite hfit, hwf.length_content]
      omega
    · simp [Flat.write, hpos]
    · dsimp only
      rw [hwhole, hdata, Flat.write]

/-- without room the loop of `write` runs off the last block -/
theorem write_of_no_room {ba1 : ByteArray} {buf : List UInt8} (hz : buf.length ≠ 0)
    (hadd : exec (addCapacity buf.length) ba = (.ok (), ba1)) (h1 : Rel base e ba1 f)
    (hroom : ba1.capacity < f.pos + buf.length) : exec (write buf) ba = (.error .nullDeref, ba1) := by
  have hwf := h1.wf
  have hpos := h1.pos
  simp only [write, hz, if_false]
  rw [exec_bind_ok hadd, exec_bind_ok (exec_get ba1)]
  by_cases hfull : ba1.position = ba1.capacity
  · rw [hwf.cur, if_pos hfull]
    rfl
  · have hlt : ba1.position < ba1.capacity := lt_of_le_of_ne (hwf.position_le.trans hwf.size_le) hfull
    have hnone : writeLoop (ba1.nodes.drop (ba1.position / ba1.baseSize)) (ba1.position % ba1.baseSize) buf = none :=
      writeLoop_none (hwf.blocks.drop (ba1.position / ba1.baseSize)) (Nat.mod_lt ba1.position hwf.base_pos)
        (lt_of_not_ge fun hle => absurd ((room_eq hwf hlt buf.length).1 hle) (by omega))
    simp only [(hwf.cur_of_lt hlt).1, hnone]
    rfl

/-- `write` overwrites at the cursor and extends the end -/
theorem write_spec (h : Rel base e ba f) {buf : List UInt8} (hn : buf.length < 2 ^ 53) :
    ∃ ba', exec (write buf) ba = (.ok (), ba') ∧ Rel base e ba' (f.write buf) := by
  by_cases hz : buf.length = 0
  · have hnil : buf = [] := List.length_eq_zero_iff.1 hz
    refine ⟨ba, by simp [write, hnil], ?_⟩
    subst hnil
    simpa [Flat.write] using h
  obtain ⟨ba1, hadd, h1, hroom⟩ := addCapacity_spec h hn
  obtain ⟨ba', hex, hrel, -⟩ := write_of_room hz hadd h1 hroom
  exact ⟨ba', hex, hrel⟩

theorem readLoop_at_cursor (h : Rel base e ba f) {n : ℕ} (hpos : 0 < n) (hn : n ≤ f.readSize) :
    ba.position < ba.capacity ∧ ba.position + n ≤ ba.size ∧
      readLoop (ba.nodes.drop (ba.position / ba.baseSize)) (ba.position % ba.baseSize) n =
        some (f.read n, (ba.position % ba.baseSize + n) / ba.baseSize) := by
  have hwf := h.wf
  have hsc := hwf.size_le
  have hrs : f.readSize = ba.size - ba.position := by rw [Flat.readSize, ← h.size, ← h.pos]
  have hlt : ba.position < ba.capacity := by omega
  refine ⟨hlt, by omega, ?_⟩
  rw [readLoop_spec (hwf.blocks.drop _) (Nat.mod_lt _ hwf.base_pos) hpos ((room_eq hwf hlt _).2 (by omega)),
    content_drop_block hwf]
  congr 2
  rw [Flat.read, ← h.data, ← h.pos, List.drop_take, List.take_take, min_eq_left (by omega)]

/-- `read` returns the bytes at the cursor and moves it past them -/
theorem read_spec (h : Rel base e ba f) {n : ℕ} (hpos : 0 < n) (hn : n ≤ f.readSize) :
    ∃ ba', exec (read n) ba = (.ok (f.read n), ba') ∧ Rel base e ba' (f.skip n) := by
  have hwf := h.wf
  have hsc := hwf.size_le
  obtain ⟨hlt, hend, hloop⟩ := readLoop_at_cursor h hpos hn
  obtain ⟨hcur, _⟩ := hwf.cur_of_lt hlt
  refine ⟨{ ba with
    cur := ba.follow (ba.position / ba.baseSize) ((ba.position % ba.baseSize + n) / ba.baseSize)
    position := ba.position + n }, ?_, ?_⟩
  · have hok : ¬ n > ba.getReadSize := by rw [h.readSize]; omega
    simp only [read]
    rw [exec_bind_ok (exec_get ba)]
    simp only [hok, if_false, hcur, hloop]
    rw [exec_bind_ok (exec_set ba _), exec_pure]
  · refine ⟨⟨hwf.base_pos, hwf.blocks, hwf.root, hwf.capacity, hend, hsc, ?_⟩, h.base, h.endian, h.size, ?_, h.data⟩
    · rw [follow_div hwf _ _ (by omega)]
    · simp [Flat.skip, h.pos]

/-- `setPosition` moves the cursor to any place in the blocks; bytes behind the old end become data -/
theorem setPosition_outcome (h : Rel base e ba f) {v : ℕ} (hv : v ≤ ba.capacity) :
    ∃ ba', exec (setPosition v) ba = (.ok (), ba') ∧
      Rel base e ba' ⟨(content ba.nodes).take (max ba.size v), v⟩ ∧ ba'.capacity = ba.capacity := by
  have hwf := h.wf
  have hsc := hwf.size_le
  have hseek : seekLoop ba.nodes v = some (v / ba.baseSize) :=
    seekLoop_spec hwf.base_pos hwf.blocks hwf.root (by rw [← hwf.capacity]; exact hv)
  have hmax : (if v > ba.size then v else ba.size) = max ba.size v := by split_ifs <;> omega
  refine ⟨{ ba with position := v, size := max ba.size v, cur := ba.follow 0 (v / ba.baseSize) }, ?_, ?_, rfl⟩
  · have hok : ¬ v > ba.capacity := by omega
    simp only [setPosition]
    rw [exec_bind_ok (exec_get ba)]
    simp only [hok, if_false, hseek, hmax]
    rw [exec_bind_ok (exec_set ba _), exec_modify]
    rfl
  · have hlen : max ba.size v = ((content ba.nodes).take (max ba.size v)).length := by
      rw [List.length_take, hwf.length_content]
      omega
    refine ⟨⟨hwf.base_pos, hwf.blocks, hwf.root, hwf.capacity, le_max_right _ _, max_le hsc hv, ?_⟩, h.base, h.endian,
      hlen, rfl, rfl⟩
    have hfollow := follow_div hwf 0 v (by omega)
    simpa using hfollow

/-- `setPosition` moves the cursor inside the data -/
theorem setPosition_spec (h : Rel base e ba f) {v : ℕ} (hv : v ≤ f.data.length) :
    ∃ ba', exec (setPosition v) ba = (.ok (), ba') ∧ Rel base e ba' { f with pos := v } := by
  have hsize := h.size
  have hsc := h.wf.size_le
  obtain ⟨ba', hex, hrel, -⟩ := setPosition_outcome h (v := v) (by omega)
  refine ⟨ba', hex, ?_⟩
  rwa [max_eq_left (by omega), h.data] at hrel

/-- `toString` returns the readable bytes and changes nothing -/
theorem toString_spec (h : Rel base e ba f) : exec toString ba = (.ok (f.data.drop f.pos), ba) := by
  have hwf := h.wf
  simp only [toString]
  rw [exec_bind_ok (exec_get ba)]
  by_cases hz : ba.getReadSize = 0
  · have hnil : f.data.drop f.pos = [] := by
      rw [List.drop_eq_nil_iff]
      have := h.readSize
      simp only [Flat.readSize] at this
      omega
    simp [hz, hnil]
  · have hall : f.read ba.getReadSize = f.data.drop f.pos := by
      rw [Flat.read, h.readSize, Flat.readSize, List.take_of_length_le (by simp)]
    obtain ⟨hlt, _, hloop⟩ := readLoop_at_cursor h (Nat.pos_of_ne_zero hz) (le_of_eq h.readSize)
    obtain ⟨hcur, _⟩ := hwf.cur_of_lt hlt
    have hok : ¬ ba.getReadSize > sizeSub ba.size ba.position := by simp [ByteArray.getReadSize]
    simp only [hz, if_false, readAt]
    rw [exec_bind_ok (exec_get ba)]
    simp only [hok, if_false, hcur, hloop, exec_pure, hall]

/-- `clear` empties the buffer -/
theorem clear_spec (h : Rel base e ba f) : ∃ ba', exec clear ba = (.ok (), ba') ∧ Rel base e ba' Flat.empty := by
  have hwf := h.wf
  obtain ⟨n, rest, hnodes⟩ := List.exists_cons_of_ne_nil hwf.root
  refine ⟨_, rfl, ?_⟩
  have htake : ba.nodes.take 1 = [n] := by simp [hnodes]
  have hn : Sized ba.baseSize [n] := by rw [← htake]; exact hwf.blocks.take 1
  refine ⟨⟨hwf.base_pos, by dsimp only; rw [htake]; exact hn, by simp [htake], by simp [htake], le_rfl, Nat.zero_le _, ?_⟩,
    h.base, h.endian, rfl, rfl, by simp [Flat.empty]⟩
  simp [hwf.base_pos.ne]

/-! ## Runs -/

inductive Op where
  | write (buf : List UInt8)
  | read (n : ℕ)
  | setPosition (v : ℕ)
  | toString
  | clear
deriving DecidableEq, Repr

/-- the call of the source, with the bytes it hands out -/
def perform : Op → M (List UInt8)
  | .write buf => do write buf; return []
  | .read n => read n
  | .setPosition v => do setPosition v; return []
  | .toString => toString
  | .clear => do clear; return []

/-- what a caller sees of a call: the bytes it got and the three getters afterwards -/
structure Obs where
  bytes : List UInt8
  position : ℕ
  size : ℕ
  readSize : ℕ
deriving DecidableEq, Repr

def calls (ops : List Op) : M (List Obs) :=
  ops.mapM fun o => do
    let bytes ← perform o
    let ba ← get
    return ⟨bytes, ba.getPosition, ba.getSize, ba.getReadSize⟩

namespace Flat

def step (f : Flat) : Op → Flat
  | .write buf => f.write buf
  | .read n => f.skip n
  | .setPosition v => { f with pos := v }
  | .toString => f
  | .clear => empty

def output (f : Flat) : Op → List UInt8
  | .read n => f.read n
  | .toString => f.data.drop f.pos
  | _ => []

def trace (f : Flat) : List Op → List Obs
  | [] => []
  | o :: ops =>
    let g := f.step o
    ⟨f.output o, g.pos, g.data.length, g.readSize⟩ :: g.trace ops

/-- the calls of the interface contract: reads of readable bytes, positions in the data, lengths a double can hold -/
def Allowed (f : Flat) : Op → Prop
  | .write buf => buf.length < 2 ^ 53
  | .read n => 0 < n ∧ n ≤ f.readSize
  | .setPosition v => v ≤ f.data.length
  | .toString => True
  | .clear => True

instance (f : Flat) (o : Op) : Decidable (f.Allowed o) := by
  cases o <;> simp only [Allowed] <;> infer_instance

end Flat

theorem call_spec (h : Rel base e ba f) {o : Op} (ho : f.Allowed o) :
    ∃ ba', exec (perform o) ba = (.ok (f.output o), ba') ∧ Rel base e ba' (f.step o) := by
  cases o with
  | write buf =>
    obtain ⟨ba', hex, hrel⟩ := write_spec h ho
    exact ⟨ba', by rw [perform, exec_bind_ok hex, exec_pure]; rfl, hrel⟩
  | read n => exact read_spec h ho.1 ho.2
  | setPosition v =>
    obtain ⟨ba', hex, hrel⟩ := setPosition_spec h ho
    exact ⟨ba', by rw [perform, exec_bind_ok hex, exec_pure]; rfl, hrel⟩
  | toString => exact ⟨ba, toString_spec h, h⟩
  | clear =>
    obtain ⟨ba', hex, hrel⟩ := clear_spec h
    exact ⟨ba', by rw [perform, exec_bind_ok hex, exec_pure]; rfl, hrel⟩

theorem calls_spec (ops : List Op) (h : Rel base e ba f) (hops : Guarded Flat.step Flat.Allowed f ops) :
    ∃ ba', exec (calls ops) ba = (.ok (f.trace ops), ba') ∧ Rel base e ba' (run Flat.step f ops) := by
  induction ops generalizing ba f with
  | nil => exact ⟨ba, rfl, h⟩
  | cons o ops ih =>
    obtain ⟨ba1, hex1, hrel1⟩ := call_spec h hops.1
    obtain ⟨ba2, hex2, hrel2⟩ := ih hrel1 hops.2
    refine ⟨ba2, ?_, hrel2⟩
    simp only [calls, List.mapM_cons, bind_assoc, pure_bind] at hex2 ⊢
    rw [exec_bind_ok hex1, exec_bind_ok (exec_get ba1), exec_bind_ok hex2, exec_pure]
    simp only [Flat.trace, ByteArray.getPosition, ByteArray.getSize, hrel1.readSize, hrel1.pos, hrel1.size]

/-- **Refinement.** From a new `ByteArray` of any block size, every sequence of calls within the contract returns the
bytes and the getter values of the flat buffer, and ends in a state of the representation invariant. -/
theorem bytearray_refines_flat (base : ℕ) (hpos : 1 ≤ base) (mem : ℕ → UInt8) (ops : List Op)
    (hops : Guarded Flat.step Flat.Allowed Flat.empty ops) :
    ∃ ba, exec (calls ops) (ByteArray.new base mem) = (.ok (Flat.empty.trace ops), ba) ∧ ba.baseSize = base ∧ Wf ba := by
  obtain ⟨ba, hex, hrel⟩ := calls_spec ops (new_rel hpos mem) hops
  exact ⟨ba, hex, hrel.base, hrel.wf⟩

/-- a write over two block boundaries, a move back, an overwrite and a read, with blocks of two bytes -/
theorem bytearray_refines_flat_example :
    ∃ ba, exec (calls [.write [1, 2, 3, 4, 5], .setPosition 1, .write [7, 8], .setPosition 0, .read 5])
        (ByteArray.new 2 fun _ => 0) =
      (.ok [⟨[], 5, 5, 0⟩, ⟨[], 1, 5, 4⟩, ⟨[], 3, 5, 2⟩, ⟨[], 0, 5, 5⟩, ⟨[1, 7, 8, 4, 5], 5, 5, 0⟩], ba) ∧
      ba.baseSize = 2 ∧ Wf ba :=
  bytearray_refines_flat 2 (by decide) (fun _ => 0)
    [.write [1, 2, 3, 4, 5], .setPosition 1, .write [7, 8], .setPosition 0, .read 5] (by decide)

end Sylar.Buffer

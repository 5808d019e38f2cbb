/-
The states of a `ByteArray` that any sequence of calls can reach.

A `Call` is a call of the interface with any arguments: a write of any length, a read or a position out of range (which
throws and leaves the object as it is), a move behind the end of the data, stretches taken and filled. The typed numbers
and the strings are made of `write` and `read`. A call that dereferences a null node ends the program, so nothing is
reached through it.

Results:
- `Reachable.kept`: every reachable state keeps the representation invariant, with no bound on any length;
- `read_safe_iff`: a read of a length it accepts finishes and moves on by that length, exactly when it asks for a byte or
  m_cur is not null;
- `iovec_agrees`: in every reachable state the stretches of getReadBuffers are what `read` copies, and filling those of
  getWriteBuffers is `write`.
-/
import Sylar.ByteArray.Iovec

namespace Sylar.Buffer

/-! ## Model -/

inductive Call where
  | write (buf : List UInt8)
  | read (size : ℕ)
  | readAt (size position : ℕ)
  | setPosition (v : ℕ)
  | toString
  | clear
  | setIsLittleEndian (val : Bool)
  | getReadBuffers (buffers : List Iovec) (len : ℕ)
  | getWriteBuffers (buffers : List Iovec) (len : ℕ)
  /-- whoever holds a stretch writes `d` through it; a stretch that lies in no block dangles -/
  | store (v : Iovec) (d : List UInt8)

def Call.perform : Call → M Unit
  | .write buf => Buffer.write buf
  | .read size => do let _ ← Buffer.read size
  | .readAt size position => do let _ ← Buffer.readAt size position
  | .setPosition v => Buffer.setPosition v
  | .toString => do let _ ← Buffer.toString
  | .clear => Buffer.clear
  | .setIsLittleEndian val => Buffer.setIsLittleEndian val
  | .getReadBuffers buffers len => do let _ ← Buffer.getReadBuffers buffers len
  | .getWriteBuffers buffers len => do let _ ← Buffer.getWriteBuffers buffers len
  | .store v d => modify fun ba =>
    match ba.nodes[v.node]? with
    | some n =>
      if v.off + d.length ≤ n.size then { ba with nodes := ba.nodes.set v.node (n.store v.off d) } else ba
    | none => ba

/-- the states after any calls on a new object that did not end the program -/
inductive Reachable (base : ℕ) : ByteArray → Prop
  | new (mem : ℕ → UInt8) : Reachable base (ByteArray.new base mem)
  | call {ba : ByteArray} (c : Call) : Reachable base ba → (exec c.perform ba).1 ≠ .error .nullDeref →
      Reachable base (exec c.perform ba).2

/-! ## What each call leaves -/

/-- the flat buffer that the blocks hold -/
def ByteArray.flat (ba : ByteArray) : Flat := ⟨(content ba.nodes).take ba.size, ba.position⟩

theorem Wf.rel {ba : ByteArray} (h : Wf ba) : Rel ba.baseSize ba.endian ba ba.flat := by
  refine ⟨h, rfl, rfl, ?_, rfl, rfl⟩
  rw [ByteArray.flat, List.length_take, h.length_content, min_eq_left h.size_le]

/-- the object after a call whose result is thrown away -/
theorem exec_discard {α : Type} (x : M α) (ba : ByteArray) :
    (exec (do let _ ← x) ba).2 = (exec x ba).2 := by
  rw [exec_bind]
  rcases exec x ba with ⟨r, ba'⟩
  cases r <;> rfl

/-- a read of nothing looks at m_cur and moves nothing -/
theorem read_zero (ba : ByteArray) :
    exec (read 0) ba = match ba.cur with
      | none => (.error .nullDeref, ba)
      | some i => (.ok [], { ba with cur := ba.follow i 0 }) := by
  simp only [read]
  rw [exec_bind_ok (exec_get ba), if_neg (by omega)]
  cases ba.cur with
  | none => rfl
  | some i =>
    have hloop : readLoop (ba.nodes.drop i) (ba.position % ba.baseSize) 0 = some ([], 0) := by simp [readLoop]
    simp only [hloop]
    rfl

theorem read_too_long {ba : ByteArray} {n : ℕ} (h : ba.getReadSize < n) : exec (read n) ba = (.error .outOfRange, ba) := by
  simp only [read]
  rw [exec_bind_ok (exec_get ba), if_pos h]
  rfl

theorem setPosition_too_far {ba : ByteArray} {v : ℕ} (h : ba.capacity < v) :
    exec (setPosition v) ba = (.error .outOfRange, ba) := by
  simp only [setPosition]
  rw [exec_bind_ok (exec_get ba), if_pos h]
  rfl

theorem readAt_keeps (size position : ℕ) (ba : ByteArray) : (exec (readAt size position) ba).2 = ba := by
  simp only [readAt]
  rw [exec_bind_ok (exec_get ba)]
  split
  · rfl
  · cases ba.cur with
    | none => rfl
    | some i =>
      dsimp only
      split <;> rfl

theorem getWriteBuffers_outcome {base : ℕ} {e : Endian} {ba : ByteArray} {f : Flat} (h : Rel base e ba f)
    (buffers : List Iovec) (len : ℕ) : Rel base e (exec (getWriteBuffers buffers len) ba).2 f := by
  by_cases hz : len = 0
  · simp only [getWriteBuffers, hz, if_true]
    exact h
  obtain ⟨ba1, hadd, h1, -⟩ := addCapacity_outcome h len
  rw [getWriteBuffers_eq hz hadd]
  cases ba1.cur with
  | none => exact h1
  | some i =>
    dsimp only
    split <;> exact h1

/-- the invariant and the block size -/
def Kept (base : ℕ) (ba : ByteArray) : Prop := Wf ba ∧ ba.baseSize = base

theorem Rel.kept {base : ℕ} {e : Endian} {ba : ByteArray} {f : Flat} (h : Rel base e ba f) : Kept base ba :=
  ⟨h.wf, h.base⟩

theorem write_kept {base : ℕ} {ba : ByteArray} (h : Kept base ba) (buf : List UInt8) :
    Kept base (exec (write buf) ba).2 := by
  obtain ⟨hwf, rfl⟩ := h
  by_cases hz : buf.length = 0
  · have hex : exec (write buf) ba = (.ok (), ba) := by simp [write, hz]
    rw [hex]
    exact hwf.rel.kept
  obtain ⟨ba1, hadd, h1, -⟩ := addCapacity_outcome hwf.rel buf.length
  by_cases hroom : ba.flat.pos + buf.length ≤ ba1.capacity
  · obtain ⟨ba', hex, hrel, -⟩ := write_of_room hz hadd h1 hroom
    rw [hex]
    exact hrel.kept
  · rw [write_of_no_room hz hadd h1 (by omega)]
    exact h1.kept

theorem read_kept {base : ℕ} {ba : ByteArray} (h : Kept base ba) (n : ℕ) : Kept base (exec (read n) ba).2 := by
  by_cases hlong : ba.getReadSize < n
  · rw [read_too_long hlong]
    exact h
  obtain ⟨hwf, rfl⟩ := h
  rcases Nat.eq_zero_or_pos n with rfl | hpos
  · rw [read_zero]
    by_cases hfull : ba.position = ba.capacity
    · rw [hwf.cur, if_pos hfull]
      exact ⟨hwf, rfl⟩
    · have hlt : ba.position < ba.capacity := lt_of_le_of_ne (hwf.position_le.trans hwf.size_le) hfull
      obtain ⟨hcur, hblock⟩ := hwf.cur_of_lt hlt
      have hfollow : ba.follow (ba.position / ba.baseSize) 0 = ba.cur := by simp [ByteArray.follow, hblock, hcur]
      rw [hcur]
      dsimp only
      rw [hfollow]
      exact ⟨hwf, rfl⟩
  · obtain ⟨ba', hex, hrel⟩ := read_spec hwf.rel hpos (by rw [← hwf.rel.readSize]; omega)
    rw [hex]
    exact hrel.kept

theorem setPosition_kept {base : ℕ} {ba : ByteArray} (h : Kept base ba) (v : ℕ) :
    Kept base (exec (setPosition v) ba).2 := by
  by_cases hfar : ba.capacity < v
  · rw [setPosition_too_far hfar]
    exact h
  · obtain ⟨hwf, rfl⟩ := h
    obtain ⟨ba', hex, hrel, -⟩ := setPosition_outcome hwf.rel (v := v) (by omega)
    rw [hex]
    exact hrel.kept

theorem store_kept {base : ℕ} {ba : ByteArray} (h : Kept base ba) (v : Iovec) (d : List UInt8) :
    Kept base (exec (Call.store v d).perform ba).2 := by
  obtain ⟨hwf, rfl⟩ := h
  simp only [Call.perform, exec_modify]
  split
  · rename_i n hn
    split_ifs with hfit
    · refine ⟨⟨hwf.base_pos, ?_, by simpa using hwf.root, by simpa using hwf.capacity, hwf.position_le, hwf.size_le,
        hwf.cur⟩, rfl⟩
      intro m hm
      rcases List.mem_or_eq_of_mem_set hm with hm | rfl
      · exact hwf.blocks m hm
      · have hsize := hwf.blocks n (List.mem_of_getElem? hn)
        rw [Node.size, Node.store, Overwrite.length_overwrite hfit]
        exact hsize
    · exact ⟨hwf, rfl⟩
  · exact ⟨hwf, rfl⟩

/-- every call keeps the invariant, also one that throws -/
theorem call_kept {base : ℕ} {ba : ByteArray} (h : Kept base ba) (c : Call) : Kept base (exec c.perform ba).2 := by
  cases c with
  | write buf => exact write_kept h buf
  | read size =>
    rw [Call.perform, exec_discard]
    exact read_kept h size
  | readAt size position =>
    rw [Call.perform, exec_discard, readAt_keeps]
    exact h
  | setPosition v => exact setPosition_kept h v
  | toString =>
    rw [Call.perform, exec_discard, toString_spec h.1.rel]
    exact h
  | clear =>
    obtain ⟨hwf, rfl⟩ := h
    obtain ⟨ba', hex, hrel⟩ := clear_spec hwf.rel
    rw [Call.perform, hex]
    exact hrel.kept
  | setIsLittleEndian val =>
    obtain ⟨hwf, rfl⟩ := h
    obtain ⟨ba', hex, hrel⟩ := setIsLittleEndian_spec hwf.rel val
    rw [Call.perform, hex]
    exact hrel.kept
  | getReadBuffers buffers len =>
    obtain ⟨iovs, hex, -⟩ := getReadBuffers_spec h.1.rel buffers len
    rw [Call.perform, exec_discard, hex]
    exact h
  | getWriteBuffers buffers len =>
    obtain ⟨hwf, rfl⟩ := h
    rw [Call.perform, exec_discard]
    exact (getWriteBuffers_outcome hwf.rel buffers len).kept
  | store v d => exact store_kept h v d

/-- **Representation invariant.** It holds in every reachable state. -/
theorem Reachable.kept {base : ℕ} (hbase : 1 ≤ base) {ba : ByteArray} (h : Reachable base ba) : Kept base ba := by
  induction h with
  | new mem => exact (new_rel hbase mem).kept
  | call c _ _ ih => exact call_kept ih c

/-! ## Main results -/

/-- **A read of a length it accepts.** It finishes and moves on by that length, exactly when it asks for a byte or m_cur is
not null. -/
theorem read_safe_iff (base : ℕ) (hbase : 1 ≤ base) (ba : ByteArray) (h : Reachable base ba) (n : ℕ)
    (hn : n ≤ ba.getReadSize) :
    (∃ bytes ba', exec (read n) ba = (.ok bytes, ba') ∧ ba'.position = ba.position + n) ↔
      0 < n ∨ ba.position < ba.capacity := by
  obtain ⟨hwf, -⟩ := h.kept hbase
  constructor
  · rintro ⟨bytes, ba', hex, -⟩
    by_contra hnot
    obtain ⟨hz, hfull⟩ := not_or.1 hnot
    have hfull' : ba.position = ba.capacity := le_antisymm (hwf.position_le.trans hwf.size_le) (not_lt.1 hfull)
    rw [Nat.eq_zero_of_not_pos hz, read_zero, hwf.cur, if_pos hfull'] at hex
    cases hex
  · intro hcond
    rcases Nat.eq_zero_or_pos n with rfl | hpos
    · have hlt := hcond.resolve_left (lt_irrefl 0)
      rw [read_zero, (hwf.cur_of_lt hlt).1]
      exact ⟨_, _, rfl, rfl⟩
    · obtain ⟨ba', hex, hrel⟩ := read_spec hwf.rel hpos (by rw [← hwf.rel.readSize]; exact hn)
      exact ⟨_, ba', hex, hrel.pos⟩

/-- one byte in a block of one byte: position, size and capacity are 1 -/
def fullBuffer : ByteArray := (exec (Call.write [7]).perform (ByteArray.new 1 fun _ => 0)).2

theorem fullBuffer_reachable : Reachable 1 fullBuffer := by
  apply Reachable.call (.write [7]) (.new fun _ => 0)
  intro hfault
  cases hfault

theorem read_safe_iff_example :
    (∃ bytes ba', exec (read 0) fullBuffer = (.ok bytes, ba') ∧ ba'.position = fullBuffer.position + 0) ↔
      0 < 0 ∨ fullBuffer.position < fullBuffer.capacity :=
  read_safe_iff 1 le_rfl fullBuffer fullBuffer_reachable 0 (Nat.zero_le _)

/-- **An empty read of a full buffer.** The length 0 is accepted, and m_cur is dereferenced. -/
theorem empty_read_faults :
    Reachable 1 fullBuffer ∧ 0 ≤ fullBuffer.getReadSize ∧ exec (read 0) fullBuffer = (.error .nullDeref, fullBuffer) :=
  ⟨fullBuffer_reachable, Nat.zero_le _, rfl⟩

/-- **Scatter and gather.** In every reachable state the stretches of getReadBuffers hold what `read` of that many bytes
copies and what toString begins with, and nothing changes; filling the stretches of getWriteBuffers and moving the cursor
leaves the object that `write` leaves. -/
theorem iovec_agrees (base : ℕ) (hbase : 1 ≤ base) (ba : ByteArray) (h : Reachable base ba) (buffers : List Iovec) :
    (∀ len, ∃ iovs str, let m := min len ba.getReadSize
      exec (getReadBuffers buffers len) ba = (.ok (buffers ++ iovs, m), ba) ∧
      exec toString ba = (.ok str, ba) ∧ gather ba.nodes iovs = str.take m ∧
      (∀ bytes ba', exec (read m) ba = (.ok bytes, ba') → gather ba.nodes iovs = bytes) ∧
      (0 < m → ∃ ba', exec (read m) ba = (.ok (gather ba.nodes iovs), ba'))) ∧
    ∀ d, d ≠ [] → exec (scatterWrite buffers d) ba = exec (write d) ba := by
  obtain ⟨hwf, -⟩ := h.kept hbase
  refine ⟨fun len => ?_, fun d hd => ?_⟩
  · obtain ⟨iovs, hget, hgather⟩ := getReadBuffers_spec hwf.rel buffers len
    rw [← hwf.rel.readSize] at hget hgather
    have hread : 0 < min len ba.getReadSize → ∃ ba', exec (read (min len ba.getReadSize)) ba =
        (.ok (gather ba.nodes iovs), ba') := by
      intro hpos
      obtain ⟨ba', hex, -⟩ := read_spec hwf.rel hpos (by rw [← hwf.rel.readSize]; exact min_le_right _ _)
      exact ⟨ba', by rw [hex, hgather]⟩
    refine ⟨iovs, _, hget, toString_spec hwf.rel, hgather, ?_, hread⟩
    intro bytes ba' hex
    rcases Nat.eq_zero_or_pos (min len ba.getReadSize) with hz | hpos
    · rw [hz, read_zero] at hex
      have hnil : gather ba.nodes iovs = [] := by rw [hgather, hz, Flat.read, List.take_zero]
      rw [hnil]
      cases hcur : ba.cur with
      | none => rw [hcur] at hex; cases hex
      | some i => rw [hcur] at hex; cases hex; rfl
    · obtain ⟨ba'', hex'⟩ := hread hpos
      rw [hex'] at hex
      cases hex
      rfl
  · exact scatterWrite_eq hwf.rel buffers (by simpa using hd)

theorem iovec_agrees_example :
    (∀ len, ∃ iovs str, let m := min len fullBuffer.getReadSize
      exec (getReadBuffers [] len) fullBuffer = (.ok ([] ++ iovs, m), fullBuffer) ∧
      exec toString fullBuffer = (.ok str, fullBuffer) ∧ gather fullBuffer.nodes iovs = str.take m ∧
      (∀ bytes ba', exec (read m) fullBuffer = (.ok bytes, ba') → gather fullBuffer.nodes iovs = bytes) ∧
      (0 < m → ∃ ba', exec (read m) fullBuffer = (.ok (gather fullBuffer.nodes iovs), ba'))) ∧
    ∀ d, d ≠ [] → exec (scatterWrite [] d) fullBuffer = exec (write d) fullBuffer :=
  iovec_agrees 1 le_rfl fullBuffer fullBuffer_reachable []

end Sylar.Buffer

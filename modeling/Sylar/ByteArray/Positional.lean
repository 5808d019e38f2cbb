/-
The two const calls of `ByteArray` that take a position: `read(buf, size, position)` and
`getReadBuffers(buffers, len, position)`.

Each of them mixes the argument with the cursor. `read` takes the offset in the block from the argument and the block
from m_cur, so it copies from `walkStart`. `getReadBuffers` starts in the right block, and takes the length from what is
readable at the cursor. `bytesAt` is what the blocks hold from a place on, when they reach so far.

Results:
- `readAt_outcome`: what the positional `read` does, for every size and position;
- `readsAt_iff`: it reads at its position exactly when the bytes from `walkStart` on are the same ones;
- `getReadBuffersAt_outcome`: the stretches tile the blocks from the position on, or the walk runs off the last block;
- `staysInside_iff`: they stay inside the data exactly when the position is not behind the cursor or the length fits.
-/
import Sylar.ByteArray.Reach

namespace Sylar.Buffer

/-! ## Model -/

/-- `getReadBuffers(std::vector<iovec>& buffers, uint64_t len, uint64_t position) const`; a block pointer that runs off
the list on the way to `position` is dereferenced like one that does so later -/
def getReadBuffersAt (buffers : List Iovec) (len position : ℕ) : M (List Iovec × ℕ) := do
  let ba ← get
  let len := if len > ba.getReadSize then ba.getReadSize else len
  if len = 0 then return (buffers, 0)
  let count := position / ba.baseSize
  match iovecLoop (ba.nodes.drop count) count (position % ba.baseSize) len with
  | none => throw .nullDeref
  | some iovs => return (buffers ++ iovs, len)

/-- the `size` bytes from place `p` of the blocks on, when there are so many -/
def ByteArray.bytesAt (ba : ByteArray) (p size : ℕ) : Option (List UInt8) :=
  if p + size ≤ ba.capacity then some (((content ba.nodes).drop p).take size) else none

/-- the place that the positional `read` starts from: the offset of `position`, in the block of the cursor -/
def ByteArray.walkStart (ba : ByteArray) (position : ℕ) : ℕ :=
  ba.baseSize * (ba.position / ba.baseSize) + position % ba.baseSize

/-! ## The positional read -/

theorem bytesAt_data {ba : ByteArray} (h : Wf ba) {p size : ℕ} (hle : p + size ≤ ba.size) :
    ba.bytesAt p size = some ((ba.flat.data.drop p).take size) := by
  have hsc := h.size_le
  rw [ByteArray.bytesAt, if_pos (by omega), ByteArray.flat, List.drop_take, List.take_take, min_eq_left (by omega)]

/-- the loop of `read` needs all bytes in the blocks -/
theorem readLoop_none {b : ℕ} {blocks : List Node} {npos size : ℕ} (hsz : Sized b blocks) (hnpos : npos < b)
    (hpos : 0 < size) (hlong : b * blocks.length < npos + size) : readLoop blocks npos size = none := by
  obtain ⟨m, rfl⟩ : ∃ m, size = m + 1 := ⟨size - 1, by omega⟩
  induction blocks generalizing npos m with
  | nil => rfl
  | cons n rest ih =>
    obtain ⟨hn, hrest⟩ := sized_cons.1 hsz
    have hlen : b * (n :: rest).length = b * rest.length + b := by simp [Nat.mul_add]
    obtain ⟨left, hleft⟩ : ∃ left, m + 1 - (b - npos) = left + 1 := ⟨m - (b - npos), by omega⟩
    have hrec : readLoop rest 0 (left + 1) = none := ih hrest (by omega) left (by omega) (by omega)
    simp only [readLoop, Node.size, hn]
    rw [if_neg (by omega), hleft, hrec]

/-- the walk of `read` from an offset in a block, as the bytes of the blocks from that place on -/
theorem readLoop_block {ba : ByteArray} (h : Wf ba) {p : ℕ} (hp : p ≤ ba.capacity) {i npos : ℕ}
    (hplace : ba.baseSize * i + npos = p) (hnpos : npos < ba.baseSize) (size : ℕ) :
    (readLoop (ba.nodes.drop i) npos size).map Prod.fst = ba.bytesAt p size := by
  have hroom : ba.baseSize * (ba.nodes.drop i).length = ba.capacity - ba.baseSize * i := by
    rw [List.length_drop, Nat.mul_sub, h.capacity]
  have hdiv : p / ba.baseSize = i := by
    rw [← hplace, Nat.mul_add_div h.base_pos, Nat.div_eq_of_lt hnpos, Nat.add_zero]
  have hmod : p % ba.baseSize = npos := by
    rw [← hplace, Nat.mul_add_mod, Nat.mod_eq_of_lt hnpos]
  have hcontent := content_drop_block h p
  rw [hdiv, hmod] at hcontent
  rw [ByteArray.bytesAt]
  rcases Nat.eq_zero_or_pos size with rfl | hpos
  · rw [if_pos (by omega)]
    simp [readLoop]
  split_ifs with hfit
  · rw [readLoop_spec (h.blocks.drop i) hnpos hpos (by omega), hcontent]
    rfl
  · rw [readLoop_none (h.blocks.drop i) hnpos hpos (by omega)]
    rfl

/-- the length check lets through what fits at the position, and what wraps around -/
theorem lt_sizeSub_iff {size position total : ℕ} (hposition : position < 2 ^ 64) :
    sizeSub total position < size ↔
      total < position + size ∧ (position ≤ total ∨ 2 ^ 64 + total < position + size) := by
  unfold sizeSub
  split_ifs <;> omega

/-- **The positional `read`.** It throws, or it copies from `walkStart`, unless m_cur is null or the blocks end first. -/
theorem readAt_outcome {ba : ByteArray} (h : Wf ba) {size position : ℕ} :
    exec (readAt size position) ba =
      if sizeSub ba.size position < size then (.error .outOfRange, ba)
      else if ba.position = ba.capacity then (.error .nullDeref, ba)
      else match ba.bytesAt (ba.walkStart position) size with
        | none => (.error .nullDeref, ba)
        | some bytes => (.ok bytes, ba) := by
  simp only [readAt]
  rw [exec_bind_ok (exec_get ba)]
  split_ifs with hlong hfull
  · rfl
  · rw [h.cur, if_pos hfull]
    rfl
  · have hlt : ba.position < ba.capacity := lt_of_le_of_ne (h.position_le.trans h.size_le) hfull
    obtain ⟨hcur, hblock⟩ := h.cur_of_lt hlt
    have hmod := Nat.mod_lt position h.base_pos
    have hstart : ba.walkStart position ≤ ba.capacity := by
      have hnext : ba.baseSize * (ba.position / ba.baseSize + 1) ≤ ba.baseSize * ba.nodes.length :=
        Nat.mul_le_mul_left _ hblock
      rw [Nat.mul_add, Nat.mul_one, ← h.capacity] at hnext
      rw [ByteArray.walkStart]
      omega
    rw [hcur, ← readLoop_block h hstart rfl hmod size]
    dsimp only
    cases readLoop (ba.nodes.drop (ba.position / ba.baseSize)) (position % ba.baseSize) size with
    | none => rfl
    | some r => rfl

/-- the contract: out_of_range exactly behind the end, else the bytes at the position; the object stays as it is -/
def ReadsAt (ba : ByteArray) (size position : ℕ) : Prop :=
  exec (readAt size position) ba =
    if ba.size < position + size then (.error .outOfRange, ba)
    else (.ok ((ba.flat.data.drop position).take size), ba)

/-- when it is met: a read behind the end is not let through by the wrap-around of the length check; for one inside the
data m_cur is not null, and from `walkStart` on the blocks hold the same bytes as from the position on -/
def ReadAtRight (ba : ByteArray) (size position : ℕ) : Prop :=
  if ba.size < position + size then position ≤ ba.size ∨ 2 ^ 64 + ba.size < position + size
  else ba.position < ba.capacity ∧ ba.bytesAt (ba.walkStart position) size = ba.bytesAt position size

instance (ba : ByteArray) (size position : ℕ) : Decidable (ReadAtRight ba size position) := by
  unfold ReadAtRight; infer_instance

/-- in the block of the cursor the walk starts at the position -/
theorem walkStart_same_block {ba : ByteArray} {position : ℕ}
    (hblock : position / ba.baseSize = ba.position / ba.baseSize) : ba.walkStart position = position := by
  rw [ByteArray.walkStart, ← hblock, Nat.div_add_mod]

theorem readAtRight_same_block {ba : ByteArray} {size position : ℕ} (hin : position + size ≤ ba.size)
    (hcur : ba.position < ba.capacity) (hblock : position / ba.baseSize = ba.position / ba.baseSize) :
    ReadAtRight ba size position := by
  rw [ReadAtRight, if_neg (by omega), walkStart_same_block hblock]
  exact ⟨hcur, rfl⟩

/-- **The positional `read` reads at its position** exactly when the walk from the cursor's block finds the same bytes. -/
theorem readsAt_iff (base : ℕ) (hbase : 1 ≤ base) (ba : ByteArray) (h : Reachable base ba) (size position : ℕ)
    (hposition : position < 2 ^ 64) : ReadsAt ba size position ↔ ReadAtRight ba size position := by
  obtain ⟨hwf, -⟩ := h.kept hbase
  have hpc := hwf.position_le.trans hwf.size_le
  have hcheck := @lt_sizeSub_iff size position ba.size hposition
  rw [ReadsAt, ReadAtRight, readAt_outcome hwf]
  by_cases hbehind : ba.size < position + size
  · rw [if_pos hbehind, if_pos hbehind]
    by_cases hlong : sizeSub ba.size position < size
    · rw [if_pos hlong]
      exact iff_of_true rfl (hcheck.1 hlong).2
    · -- the difference has wrapped around
      rw [if_neg hlong]
      refine iff_of_false (fun hex => ?_) fun hright => hlong (hcheck.2 ⟨hbehind, hright⟩)
      have hfault := congrArg Prod.fst hex
      split at hfault
      · cases hfault
      · split at hfault <;> cases hfault
  · have hlong : ¬ sizeSub ba.size position < size := fun hlong => hbehind (hcheck.1 hlong).1
    rw [if_neg hbehind, if_neg hbehind, if_neg hlong, bytesAt_data hwf (not_lt.1 hbehind)]
    by_cases hfull : ba.position = ba.capacity
    · rw [if_pos hfull]
      refine iff_of_false (fun hex => ?_) fun hright => absurd hright.1 (by omega)
      cases congrArg Prod.fst hex
    · rw [if_neg hfull]
      have hlt : ba.position < ba.capacity := lt_of_le_of_ne hpc hfull
      constructor
      · intro hex
        refine ⟨hlt, ?_⟩
        have hbytes := congrArg Prod.fst hex
        cases hat : ba.bytesAt (ba.walkStart position) size with
        | none =>
          rw [hat] at hbytes
          cases hbytes
        | some bytes =>
          rw [hat] at hbytes
          injection hbytes with hbytes
          rw [hbytes]
      · rintro ⟨-, hbytes⟩
        rw [hbytes]

/-- the bytes 1, 2 in blocks of one byte, with the cursor at the front -/
def twoBlocks : ByteArray :=
  (exec (Call.setPosition 0).perform (exec (Call.write [1, 2]).perform (ByteArray.new 1 fun _ => 0)).2).2

theorem twoBlocks_reachable : Reachable 1 twoBlocks := by
  apply Reachable.call (.setPosition 0)
  · exact Reachable.call (.write [1, 2]) (.new fun _ => 0) (by decide +kernel)
  · decide +kernel

theorem readsAt_example : ReadsAt twoBlocks 2 0 ↔ ReadAtRight twoBlocks 2 0 :=
  readsAt_iff 1 le_rfl twoBlocks twoBlocks_reachable 2 0 (by norm_num)

/-- **A read in another block.** With the cursor at the front, the byte at position 1 is read as the one at position 0. -/
theorem readAt_wrong_block :
    Reachable 1 twoBlocks ∧ (exec (readAt 1 1) twoBlocks).1 = .ok [1] ∧ ¬ ReadsAt twoBlocks 1 1 := by
  have hread : (exec (readAt 1 1) twoBlocks).1 = .ok [1] := by decide +kernel
  refine ⟨twoBlocks_reachable, hread, fun hright => ?_⟩
  have hother : (exec (readAt 1 1) twoBlocks).1 = .ok [2] := by
    rw [hright]
    decide +kernel
  rw [hother] at hread
  exact absurd hread (by decide)

/-! ## The positional getReadBuffers -/

/-- `iovs` are stretches inside existing blocks that follow on one another, from place `p` to place `q` -/
def Tiles (ba : ByteArray) : ℕ → List Iovec → ℕ → Prop
  | p, [], q => p = q
  | p, v :: iovs, q =>
    (∃ n, ba.nodes[v.node]? = some n ∧ v.off + v.iov_len ≤ n.size) ∧ ba.baseSize * v.node + v.off = p ∧
      Tiles ba (p + v.iov_len) iovs q

/-- the bytes that the stretches cover -/
def totalLen (iovs : List Iovec) : ℕ := (iovs.map Iovec.iov_len).sum

theorem Tiles.total {ba : ByteArray} {p q : ℕ} {iovs : List Iovec} (h : Tiles ba p iovs q) : p + totalLen iovs = q := by
  induction iovs generalizing p with
  | nil => exact h
  | cons v iovs ih =>
    have hrest := ih h.2.2
    simp only [totalLen, List.map_cons, List.sum_cons] at hrest ⊢
    omega

/-- `len` bytes of a block, as a part of all bytes -/
theorem load_eq {ba : ByteArray} (h : Wf ba) {i off len : ℕ} {n : Node} (hn : ba.nodes[i]? = some n)
    (hin : off + len ≤ n.size) : n.load off len = ((content ba.nodes).drop (ba.baseSize * i + off)).take len := by
  obtain ⟨hi, rfl⟩ := List.getElem?_eq_some_iff.1 hn
  have hsize : ba.nodes[i].size = ba.baseSize := h.blocks _ (List.getElem_mem hi)
  have hfront : (content (ba.nodes.take i)).length = ba.baseSize * i := by
    rw [length_content (h.blocks.take i), List.length_take, min_eq_left hi.le]
  have hsplit : content ba.nodes =
      content (ba.nodes.take i) ++ (ba.nodes[i].ptr ++ content (ba.nodes.drop (i + 1))) := by
    rw [← content_cons, ← List.drop_eq_getElem_cons hi, ← content_append, List.take_append_drop]
  have hdrop : (content ba.nodes).drop (ba.baseSize * i + off) =
      ba.nodes[i].ptr.drop off ++ content (ba.nodes.drop (i + 1)) := by
    rw [Node.size] at hin
    rw [hsplit, ← hfront, List.drop_append, List.drop_eq_nil_of_le (Nat.le_add_right _ off), List.nil_append,
      Nat.add_sub_cancel_left, List.drop_append_of_le_length (by omega)]
  have hlen : len ≤ (ba.nodes[i].ptr.drop off).length := by
    rw [Node.size] at hin
    rw [List.length_drop]
    omega
  calc ba.nodes[i].load off len = (ba.nodes[i].ptr.drop off).take len := rfl
    _ = (ba.nodes[i].ptr.drop off ++ content (ba.nodes.drop (i + 1))).take len := by
        rw [List.take_append_of_le_length hlen]
    _ = ((content ba.nodes).drop (ba.baseSize * i + off)).take len := by rw [hdrop]

/-- stretches that tile hold the bytes between their ends -/
theorem Tiles.gather_eq {ba : ByteArray} (h : Wf ba) {p q : ℕ} {iovs : List Iovec} (ht : Tiles ba p iovs q) :
    gather ba.nodes iovs = ((content ba.nodes).drop p).take (q - p) := by
  induction iovs generalizing p with
  | nil => simp [gather, show p = q from ht]
  | cons v iovs ih =>
    obtain ⟨⟨n, hn, hin⟩, hplace, hrest⟩ := ht
    have htotal := hrest.total
    calc gather ba.nodes (v :: iovs) = n.load v.off v.iov_len ++ gather ba.nodes iovs := by simp [gather, hn]
      _ = ((content ba.nodes).drop p).take v.iov_len ++
          ((content ba.nodes).drop (p + v.iov_len)).take (q - (p + v.iov_len)) := by
        rw [load_eq h hn hin, hplace, ih hrest]
      _ = ((content ba.nodes).drop p).take (v.iov_len + (q - (p + v.iov_len))) := by
        rw [List.take_add, List.drop_drop]
      _ = ((content ba.nodes).drop p).take (q - p) := by
        congr 1
        omega

/-- the walk from block `front.length` on covers the blocks without a gap -/
theorem iovecLoop_tiles {ba : ByteArray} (h : Wf ba) (blocks front : List Node) {npos len : ℕ}
    (hnodes : front ++ blocks = ba.nodes) (hnpos : npos < ba.baseSize)
    {iovs : List Iovec} (hloop : iovecLoop blocks front.length npos len = some iovs) :
    Tiles ba (ba.baseSize * front.length + npos) iovs (ba.baseSize * front.length + npos + len) := by
  obtain - | len := len
  · simp only [iovecLoop, Option.some.injEq] at hloop
    subst hloop
    rfl
  induction blocks generalizing front npos len iovs with
  | nil => cases hloop
  | cons n rest ih =>
    have hblock : ba.nodes[front.length]? = some n := by rw [← hnodes]; simp
    have hsize : n.size = ba.baseSize := h.blocks n (List.mem_of_getElem? hblock)
    simp only [iovecLoop] at hloop
    split_ifs at hloop with hcap
    · cases hloop
      exact ⟨⟨n, hblock, by dsimp only; omega⟩, rfl, rfl⟩
    · obtain ⟨left, hleft⟩ : ∃ left, len + 1 - (n.size - npos) = left + 1 := ⟨len - (n.size - npos), by omega⟩
      rw [hleft] at hloop
      obtain ⟨rest', hrest, rfl⟩ := Option.map_eq_some_iff.1 hloop
      have hfront : (front ++ [n]).length = front.length + 1 := by simp
      have htiles := ih (front ++ [n]) (by simpa using hnodes) h.base_pos left (by rw [hfront]; exact hrest)
      have hnext : ba.baseSize * (front ++ [n]).length + 0 =
          ba.baseSize * front.length + npos + (n.size - npos) := by
        rw [hfront, Nat.mul_add, Nat.mul_one]
        omega
      have hend : ba.baseSize * (front ++ [n]).length + 0 + (left + 1) =
          ba.baseSize * front.length + npos + (len + 1) := by
        rw [hnext]
        omega
      rw [hend, hnext] at htiles
      exact ⟨⟨n, hblock, by dsimp only; omega⟩, rfl, htiles⟩

/-- **The positional getReadBuffers.** The new stretches tile the blocks from the position on, as far as the readable
bytes of the cursor go, or the walk runs off the last block. -/
theorem getReadBuffersAt_outcome {ba : ByteArray} (h : Wf ba) (buffers : List Iovec) (len : ℕ) {position : ℕ}
    (hposition : position ≤ ba.size) :
    if position + min len ba.getReadSize ≤ ba.capacity then
      ∃ iovs, exec (getReadBuffersAt buffers len position) ba = (.ok (buffers ++ iovs, min len ba.getReadSize), ba) ∧
        Tiles ba position iovs (position + min len ba.getReadSize)
    else exec (getReadBuffersAt buffers len position) ba = (.error .nullDeref, ba) := by
  have hsc := h.size_le
  have hmin : (if len > ba.getReadSize then ba.getReadSize else len) = min len ba.getReadSize := by split_ifs <;> omega
  have hdm := Nat.div_add_mod position ba.baseSize
  have hmod := Nat.mod_lt position h.base_pos
  simp only [getReadBuffersAt]
  rw [exec_bind_ok (exec_get ba), hmin]
  rcases Nat.eq_zero_or_pos (min len ba.getReadSize) with hz | hpos
  · rw [hz, if_pos (by omega)]
    exact ⟨[], by simp, rfl⟩
  simp only [hpos.ne', if_false]
  have hblock : position / ba.baseSize ≤ ba.nodes.length := by
    apply Nat.div_le_of_le_mul
    rw [← h.capacity]
    omega
  have hfront : (ba.nodes.take (position / ba.baseSize)).length = position / ba.baseSize := by
    rw [List.length_take, min_eq_left hblock]
  have happend : ba.nodes.take (position / ba.baseSize) ++ ba.nodes.drop (position / ba.baseSize) = ba.nodes :=
    List.take_append_drop _ _
  -- the walk ends like the one of `read` from the same place
  have hread := readLoop_block h (hposition.trans hsc) hdm hmod (min len ba.getReadSize)
  have hwalk := gather_readLoop (ba.nodes.drop (position / ba.baseSize)) (ba.nodes.take (position / ba.baseSize))
    (position % ba.baseSize) (min len ba.getReadSize)
  rw [hfront] at hwalk
  rw [ByteArray.bytesAt] at hread
  split_ifs at hread ⊢ with hfit
  · rcases hwalk with ⟨hnone, -⟩ | ⟨bytes, k, iovs, -, hiov, -⟩
    · rw [hnone] at hread
      cases hread
    · have htiles := @iovecLoop_tiles ba h (ba.nodes.drop (position / ba.baseSize))
        (ba.nodes.take (position / ba.baseSize)) (position % ba.baseSize) (min len ba.getReadSize) happend hmod iovs
      rw [hfront, hdm] at htiles
      exact ⟨iovs, by simp only [hiov, exec_pure], htiles hiov⟩
  · rcases hwalk with ⟨-, hiov⟩ | ⟨bytes, k, iovs, hsome, -, -⟩
    · rw [hiov]
      rfl
    · rw [hsome] at hread
      cases hread

/-- the contract: the call finishes, and the new stretches follow on one another from the position on, inside the data;
they cover as many bytes as the call returns, at most `len` -/
def StaysInside (ba : ByteArray) (buffers : List Iovec) (len position : ℕ) : Prop :=
  ∃ iovs q n, exec (getReadBuffersAt buffers len position) ba = (.ok (buffers ++ iovs, n), ba) ∧
    Tiles ba position iovs q ∧ q ≤ ba.size ∧ totalLen iovs = n ∧ n ≤ len

/-- **The positional getReadBuffers stays inside the data** exactly when the position is not behind the cursor or `len`
bytes are there from the position on. -/
theorem staysInside_iff (base : ℕ) (hbase : 1 ≤ base) (ba : ByteArray) (h : Reachable base ba) (buffers : List Iovec)
    (len position : ℕ) (hposition : position ≤ ba.size) :
    StaysInside ba buffers len position ↔ position ≤ ba.position ∨ position + len ≤ ba.size := by
  obtain ⟨hwf, -⟩ := h.kept hbase
  have hle := hwf.position_le
  have hsc := hwf.size_le
  have hrs : ba.getReadSize = ba.size - ba.position := sizeSub_of_le hle
  have hout := getReadBuffersAt_outcome hwf buffers len hposition
  constructor
  · rintro ⟨iovs, q, n, hex, htiles, hq, htotal, -⟩
    have hreach := htiles.total
    split_ifs at hout with hfit
    · obtain ⟨iovs', hex', -⟩ := hout
      rw [hex] at hex'
      injection hex' with hret
      injection hret with hret
      injection hret with hbuf hn
      omega
    · rw [hex] at hout
      cases congrArg Prod.fst hout
  · intro hcond
    rw [if_pos (by omega)] at hout
    obtain ⟨iovs, hex, htiles⟩ := hout
    have hreach := htiles.total
    exact ⟨iovs, _, _, hex, htiles, by omega, by omega, min_le_left _ _⟩

theorem staysInside_example : StaysInside twoBlocks [] 1 1 ↔ 1 ≤ twoBlocks.position ∨ 1 + 1 ≤ twoBlocks.size :=
  staysInside_iff 1 le_rfl twoBlocks twoBlocks_reachable [] 1 1 (by decide +kernel)

/-- **Two bytes from position 1 of two.** With the cursor at the front the length is not shortened, and the walk runs off
the last block. -/
theorem getReadBuffersAt_runs_off :
    Reachable 1 twoBlocks ∧ 1 ≤ twoBlocks.size ∧ (exec (getReadBuffersAt [] 2 1) twoBlocks).1 = .error .nullDeref ∧
      ¬ StaysInside twoBlocks [] 2 1 := by
  have hfault : (exec (getReadBuffersAt [] 2 1) twoBlocks).1 = .error .nullDeref := by decide +kernel
  refine ⟨twoBlocks_reachable, by decide +kernel, hfault, ?_⟩
  rintro ⟨iovs, q, n, hex, -⟩
  rw [hex] at hfault
  cases hfault

end Sylar.Buffer

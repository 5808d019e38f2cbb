/-
Saving a `ByteArray` to a file and loading it: writeToFile and readFromFile.

writeToFile walks over the blocks from m_cur and passes a stretch of each to `ofs.write`. It computes in int64_t, and the
offset in the block is an `int`. The length of a stretch is the smaller of what is left and a block, less the offset, so
a rest shorter than one block comes out too short by the offset. A `WriteRequest` is what `ofs.write` is called with, and
`stretches` are the stretches of the requests that a stream can carry out. readFromFile reads chunks of one block and
appends them, until one is short.

Results:
- `whole_blocks`: from the front of a block the walk saves everything that is left;
- `stuck_in_block`: from inside a block, with no more left than the offset, it makes a request of negative length, or
  none, until it runs off the last block;
- `readFromFile_spec`: a file of any length is loaded into blocks of any size;
- `savesAndLoads_iff`: saving and loading preserves the readable bytes, exactly when nothing is left to read, or the walk
  starts at the front of a block, or a block or more is left.
-/
import Sylar.Core.MachineInt
import Sylar.ByteArray.Positional
import Sylar.ByteArray.Strings

namespace Sylar.Buffer

open Sylar.MachineInt

/-! ## Model -/

/-- the arguments of `ofs.write(cur->ptr + diff, len)` -/
structure WriteRequest where
  node : ℕ
  off : ℤ
  len : ℤ
deriving DecidableEq, Repr

/-- the loop of writeToFile from block `i` on; `none`: it dereferences the null pointer after the last block. A signed sum
that overflows wraps -/
def writeToFileLoop (baseSize : ℕ) : List Node → ℕ → ℤ → ℤ → Option (List WriteRequest)
  | [], _, _, read_size => if read_size > 0 then none else some []
  | _ :: rest, i, pos, read_size =>
    if read_size > 0 then
      let diff := toSigned 32 (toUnsigned 64 pos % baseSize)
      let len := toSigned 64 ((if read_size > toSigned 64 baseSize then (baseSize : ℤ) else read_size) - diff)
      (writeToFileLoop baseSize rest (i + 1) (toSigned 64 (pos + len)) (toSigned 64 (read_size - len))).map
        (⟨i, diff, len⟩ :: ·)
    else some []

/-- writeToFile, with what opening the file says: the result and the requests -/
def writeToFile (opened : Bool) : M (Bool × List WriteRequest) := do
  if !opened then return (false, [])
  let ba ← get
  let i := ba.cur.getD ba.nodes.length
  match writeToFileLoop ba.baseSize (ba.nodes.drop i) i (toSigned 64 ba.position) (toSigned 64 ba.getReadSize) with
  | none => throw .nullDeref
  | some requests => return (true, requests)

/-- the loop of readFromFile on what is left of the stream: a short read meets the end; `none`: it goes on after `fuel`
reads -/
def readFromFileLoop : ℕ → List UInt8 → M (Option Unit)
  | 0, _ => return none
  | fuel + 1, left => do
    let n := (← get).baseSize
    write (left.take n)
    if left.length < n then return some () else readFromFileLoop fuel (left.drop n)

/-- readFromFile on the bytes of the file, or on one that does not open -/
def readFromFile (fuel : ℕ) : Option (List UInt8) → M (Option Bool)
  | none => return some false
  | some file => do return (← readFromFileLoop fuel file).map fun _ => true

/-- the stretches of the requests, when none of them begins in front of its block or has a negative length -/
def stretches : List WriteRequest → Option (List Iovec)
  | [] => some []
  | r :: rs => if 0 ≤ r.off ∧ 0 ≤ r.len then (stretches rs).map (⟨r.node, r.off.toNat, r.len.toNat⟩ :: ·) else none

/-! ## The loop of writeToFile -/

theorem writeToFileLoop_done (baseSize : ℕ) (blocks : List Node) (i : ℕ) (pos : ℤ) {read_size : ℤ}
    (h : read_size ≤ 0) : writeToFileLoop baseSize blocks i pos read_size = some [] := by
  cases blocks <;> simp only [writeToFileLoop, if_neg (not_lt.2 h)]

theorem stretches_eq_some {requests : List WriteRequest} {v : Iovec} {iovs : List Iovec}
    (h : stretches requests = some (v :: iovs)) :
    ∃ rs, requests = ⟨v.node, v.off, v.iov_len⟩ :: rs ∧ stretches rs = some iovs := by
  cases requests with
  | nil => cases h
  | cons r rs =>
    simp only [stretches] at h
    split_ifs at h with hr
    obtain ⟨iovs', hrs, heq⟩ := Option.map_eq_some_iff.1 h
    cases heq
    exact ⟨rs, by rw [Int.toNat_of_nonneg hr.1, Int.toNat_of_nonneg hr.2], hrs⟩

/-- one round, from place `p` with `r` bytes left -/
theorem writeToFileLoop_round {b p r : ℕ} (hp : p < 2 ^ 64) (hr : 0 < r) (n : Node) (rest : List Node) (i : ℕ) {diff len : ℤ}
    (hdiff : toSigned 32 (p % b : ℕ) = diff)
    (hlen : toSigned 64 ((if (r : ℤ) > toSigned 64 b then (b : ℤ) else r) - diff) = len) :
    writeToFileLoop b (n :: rest) i (toSigned 64 p) r =
      (writeToFileLoop b rest (i + 1) (toSigned 64 (toSigned 64 p + len)) (toSigned 64 (r - len))).map
        (⟨i, diff, len⟩ :: ·) := by
  have hoff : toSigned 32 (toUnsigned 64 (toSigned 64 p) % b) = diff := by
    rw [toUnsigned_toSigned, toUnsigned_of_fits (by omega) (by omega), ← Int.natCast_emod, hdiff]
  simp only [writeToFileLoop, hoff, hlen]
  rw [if_pos (by omega)]

/-- a round from an offset that an `int` holds, in blocks that an int64_t can measure -/
theorem writeToFileLoop_cons {b p r : ℕ} (hb : 0 < b) (hb' : b < 2 ^ 63) (hp : p < 2 ^ 64) (hr : 0 < r) (hr' : r < 2 ^ 63)
    (hd : p % b < 2 ^ 31) (n : Node) (rest : List Node) (i : ℕ) :
    writeToFileLoop b (n :: rest) i (toSigned 64 p) r =
      (writeToFileLoop b rest (i + 1) (toSigned 64 (toSigned 64 p + ((min r b : ℕ) - (p % b : ℕ) : ℤ)))
        (toSigned 64 (r - ((min r b : ℕ) - (p % b : ℕ) : ℤ)))).map (⟨i, (p % b : ℕ), (min r b : ℕ) - (p % b : ℕ)⟩ :: ·) := by
  have hbase : toSigned 64 b = b := toSigned_of_fits (by omega) (by omega)
  have hmin : (if (r : ℤ) > b then (b : ℤ) else r) = (min r b : ℕ) := by split_ifs <;> omega
  apply writeToFileLoop_round hp hr
  · exact toSigned_of_fits (by omega) (by omega)
  · rw [hbase, hmin]
    exact toSigned_of_fits (by omega) (by omega)

/-- a round in a block that an int64_t cannot measure -/
theorem writeToFileLoop_huge {b p r : ℕ} (hb : 2 ^ 63 ≤ b) (hb' : b < 2 ^ 64) (hp : p < 2 ^ 64) (hr : 0 < r)
    (hd : p % b < 2 ^ 31) (n : Node) (rest : List Node) (i : ℕ) {len : ℤ} (hlen : toSigned 64 (b - (p % b : ℕ)) = len) :
    writeToFileLoop b (n :: rest) i (toSigned 64 p) r =
      (writeToFileLoop b rest (i + 1) (toSigned 64 (toSigned 64 p + len)) (toSigned 64 (r - len))).map
        (⟨i, (p % b : ℕ), len⟩ :: ·) := by
  have hneg : toSigned 64 b = b - 2 ^ 64 := toSigned_of_large (by omega) (by omega)
  apply writeToFileLoop_round hp hr
  · exact toSigned_of_fits (by omega) (by omega)
  · rw [hneg, if_pos (by omega), hlen]

/-- from the front of a block, everything that is left is saved block by block -/
theorem whole_blocks {ba : ByteArray} (h : Wf ba) (hbase : ba.baseSize < 2 ^ 63) (blocks front : List Node) {p r : ℕ}
    (hnodes : front ++ blocks = ba.nodes) (hp : ba.baseSize * front.length = p) (hpr : p + r < 2 ^ 64) (hr : r < 2 ^ 63)
    (hfit : p + r ≤ ba.capacity) :
    ∃ requests iovs, writeToFileLoop ba.baseSize blocks front.length (toSigned 64 p) r = some requests ∧
      stretches requests = some iovs ∧ Tiles ba p iovs (p + r) := by
  induction blocks generalizing front p r with
  | nil =>
    have hlen : ba.capacity = p := by
      rw [h.capacity, ← hnodes, List.append_nil, hp]
    exact ⟨[], [], writeToFileLoop_done _ _ _ _ (by omega), rfl, by rw [show r = 0 by omega]; rfl⟩
  | cons n rest ih =>
    rcases Nat.eq_zero_or_pos r with rfl | hpos
    · exact ⟨[], [], writeToFileLoop_done _ _ _ _ (by omega), rfl, rfl⟩
    have hn : ba.nodes[front.length]? = some n := by rw [← hnodes]; simp
    have hsize : n.size = ba.baseSize := h.blocks n (List.mem_of_getElem? hn)
    have hmod : p % ba.baseSize = 0 := by rw [← hp]; exact Nat.mul_mod_right _ _
    have hstep := writeToFileLoop_cons h.base_pos hbase (by omega) hpos hr (by omega) n rest front.length (p := p)
    rw [hmod] at hstep
    simp only [Nat.cast_zero, sub_zero] at hstep
    have hfront : (front ++ [n]).length = front.length + 1 := by simp
    have hrest : ∃ requests iovs, writeToFileLoop ba.baseSize rest (front.length + 1)
        (toSigned 64 (toSigned 64 p + (min r ba.baseSize : ℕ))) (toSigned 64 (r - (min r ba.baseSize : ℕ))) =
          some requests ∧ stretches requests = some iovs ∧ Tiles ba (p + min r ba.baseSize) iovs (p + r) := by
      rcases Nat.lt_or_ge r ba.baseSize with hlast | hmore
      · -- the last stretch
        refine ⟨[], [], writeToFileLoop_done _ _ _ _ ?_, rfl, by rw [min_eq_left hlast.le]; rfl⟩
        rw [min_eq_left hlast.le, sub_self]
        decide
      · have hleft : toSigned 64 (r - (min r ba.baseSize : ℕ)) = (r - ba.baseSize : ℕ) := by
          rw [min_eq_right hmore, toSigned_of_fits (by omega) (by omega)]
          omega
        have hpos' : toSigned 64 (toSigned 64 p + (min r ba.baseSize : ℕ)) = toSigned 64 (p + ba.baseSize : ℕ) := by
          calc toSigned 64 (toSigned 64 p + (min r ba.baseSize : ℕ)) = toSigned 64 (toSigned 64 p + ba.baseSize) := by
                rw [min_eq_right hmore]
            _ = toSigned 64 (p + ba.baseSize : ℕ) := toSigned_add p ba.baseSize
        have hnext : ba.baseSize * (front ++ [n]).length = p + ba.baseSize := by
          rw [hfront, Nat.mul_add, hp, Nat.mul_one]
        obtain ⟨requests, iovs, hloop, hst, ht⟩ :=
          ih (front ++ [n]) (r := r - ba.baseSize) (by simpa using hnodes) hnext (by omega) (by omega) (by omega)
        rw [hfront] at hloop
        refine ⟨requests, iovs, by rw [hleft, hpos', hloop], hst, ?_⟩
        rw [min_eq_right hmore]
        rwa [show p + ba.baseSize + (r - ba.baseSize) = p + r by omega] at ht
    obtain ⟨requests, iovs, hloop, hst, ht⟩ := hrest
    refine ⟨_, ⟨front.length, 0, min r ba.baseSize⟩ :: iovs, by rw [hstep, hloop]; rfl, ?_, ?_⟩
    · rw [stretches, if_pos ⟨le_rfl, Int.natCast_nonneg _⟩, hst]
      rfl
    · exact ⟨⟨n, hn, by dsimp only; omega⟩, by rw [← hp]; rfl, ht⟩

/-- inside a block, with no more left than the offset: a request of negative length, or one of none and the same again -/
theorem stuck_in_block {b p r : ℕ} (hb : b ≤ 2 ^ 31) (hp : p < 2 ^ 64) (hr : 0 < r) (hstuck : r ≤ p % b) (hb0 : 0 < b)
    (blocks : List Node) (i : ℕ) {requests : List WriteRequest}
    (hloop : writeToFileLoop b blocks i (toSigned 64 p) r = some requests) : stretches requests = none := by
  have hmod := Nat.mod_lt p hb0
  induction blocks generalizing i requests with
  | nil =>
    simp only [writeToFileLoop, Nat.cast_pos, gt_iff_lt, if_pos hr] at hloop
    cases hloop
  | cons n rest ih =>
    rw [writeToFileLoop_cons hb0 (by omega) hp hr (by omega) (by omega)] at hloop
    obtain ⟨requests', hrest, rfl⟩ := Option.map_eq_some_iff.1 hloop
    rcases Nat.lt_or_ge r (p % b) with hneg | hsame
    · rw [stretches, if_neg]
      dsimp only
      omega
    · have heq : r = p % b := by omega
      have hzero : ((min r b : ℕ) - (p % b : ℕ) : ℤ) = 0 := by omega
      have hpos : toSigned 64 (toSigned 64 (p : ℤ)) = toSigned 64 p := Int.bmod_bmod
      have hleft : toSigned 64 (r : ℤ) = r := toSigned_of_fits (by omega) (by omega)
      rw [hzero, add_zero, sub_zero, hpos, hleft] at hrest
      have hnone := ih (i + 1) hrest
      rw [stretches, hnone]
      split_ifs <;> rfl

/-- m_cur as the number of blocks in front of it, null behind all of them -/
theorem cur_getD {ba : ByteArray} (h : Wf ba) : ba.cur.getD ba.nodes.length = ba.position / ba.baseSize := by
  rw [h.cur]
  split_ifs with hfull
  · rw [hfull, h.capacity, Nat.mul_div_cancel_left _ h.base_pos]
    rfl
  · rfl

theorem exec_writeToFile {ba : ByteArray} (h : Wf ba) (requests : List WriteRequest) :
    exec (writeToFile true) ba = (.ok (true, requests), ba) ↔
      writeToFileLoop ba.baseSize (ba.nodes.drop (ba.position / ba.baseSize)) (ba.position / ba.baseSize)
        (toSigned 64 ba.position) (toSigned 64 ba.getReadSize) = some requests := by
  simp only [writeToFile, Bool.not_true, Bool.false_eq_true, if_false]
  rw [exec_bind_ok (exec_get ba), cur_getD h]
  cases writeToFileLoop ba.baseSize (ba.nodes.drop (ba.position / ba.baseSize)) (ba.position / ba.baseSize)
      (toSigned 64 ba.position) (toSigned 64 ba.getReadSize) with
  | none =>
    refine iff_of_false (fun hex => ?_) fun hnone => by cases hnone
    cases congrArg Prod.fst hex
  | some requests' =>
    refine ⟨fun hex => ?_, fun hreq => ?_⟩
    · have hret := congrArg Prod.fst hex
      injection hret with hret
      injection hret with _ hreq
      rw [hreq]
    · cases hreq
      rfl

/-! ## Loading -/

/-- a chunk of one block always finds room: addCapacity adds a block at least when it adds any -/
theorem room_of_block {base cap pos n : ℕ} (hbase : 0 < base) (hpos : pos ≤ cap) (hn : n ≤ base) :
    pos + n ≤ capacityAfter base cap pos n := by
  unfold capacityAfter
  split_ifs with hroom
  · omega
  · have hceil : 1 ≤ Double.ceilDiv (n - (cap - pos)) base := Double.ceilDiv_pos (by omega) hbase
    have hblock : 1 * base ≤ Double.ceilDiv (n - (cap - pos)) base * base := Nat.mul_le_mul_right _ hceil
    omega

/-- with fuel for every chunk, the loop appends the whole stream -/
theorem readFromFileLoop_spec {base : ℕ} {e : Endian} (fuel : ℕ) {ba : ByteArray} {data left : List UInt8}
    (h : Rel base e ba ⟨data, data.length⟩) (hfuel : left.length < fuel) :
    ∃ ba', exec (readFromFileLoop fuel left) ba = (.ok (some ()), ba') ∧
      Rel base e ba' ⟨data ++ left, (data ++ left).length⟩ := by
  induction fuel generalizing ba data left with
  | zero => omega
  | succ fuel ih =>
    have hbase : 0 < base := by rw [← h.base]; exact h.wf.base_pos
    have hpc : data.length ≤ ba.capacity := by
      rw [← h.size]
      exact h.wf.size_le
    have hchunk : (left.take base).length ≤ base := by rw [List.length_take]; exact min_le_left _ _
    simp only [readFromFileLoop]
    rw [exec_bind_ok (exec_get ba), h.base]
    rcases write_end_outcome h (left.take base) with ⟨-, ba1, hwrite, h1, -⟩ | ⟨hnone, -⟩
    · rw [exec_bind_ok hwrite]
      split_ifs with hshort
      · rw [List.take_of_length_le hshort.le] at h1
        exact ⟨ba1, rfl, h1⟩
      · have hfuel : (left.drop base).length < fuel := by
          rw [List.length_drop]
          omega
        obtain ⟨ba2, hex, h2⟩ := ih h1 hfuel
        rw [List.append_assoc, List.take_append_drop] at h2
        exact ⟨ba2, hex, h2⟩
    · have hroom := room_of_block hbase hpc hchunk
      omega

/-- loading the file into a new object of any block size and going back to its front gives `str` from toString -/
def LoadsAs (file str : List UInt8) : Prop :=
  ∀ base', 1 ≤ base' → ∀ mem fuel, file.length < fuel → ∃ ba1 ba2,
    exec (readFromFile fuel (some file)) (ByteArray.new base' mem) = (.ok (some true), ba1) ∧
      exec (do setPosition 0; toString) ba1 = (.ok str, ba2)

theorem readFromFile_spec (file : List UInt8) : LoadsAs file file := by
  intro base' hbase' mem fuel hfuel
  have hnew : Rel base' .big (ByteArray.new base' mem) ⟨[], ([] : List UInt8).length⟩ := new_rel hbase' mem
  obtain ⟨ba1, hex1, h1⟩ := readFromFileLoop_spec fuel hnew hfuel
  rw [List.nil_append] at h1
  obtain ⟨ba2, hex2, h2⟩ := setPosition_spec h1 (v := 0) (Nat.zero_le _)
  refine ⟨ba1, ba2, ?_, ?_⟩
  · simp only [readFromFile]
    rw [exec_bind_ok hex1, exec_pure]
    rfl
  · rw [exec_bind_ok hex2, toString_spec h2]
    rfl

/-! ## Main result -/

/-- the contract: writeToFile finishes, its requests are the stretches `iovs` of existing blocks, the file then holds the
readable bytes, and loading it gives back the same toString -/
structure SavesAndLoads (ba : ByteArray) (iovs : List Iovec) : Prop where
  saves : ∃ requests, exec (writeToFile true) ba = (.ok (true, requests), ba) ∧ stretches requests = some iovs
  inside : ∀ v ∈ iovs, ∃ n, ba.nodes[v.node]? = some n ∧ v.off + v.iov_len ≤ n.size
  file : gather ba.nodes iovs = ba.flat.data.drop ba.position
  loads : ∃ str, exec toString ba = (.ok str, ba) ∧ LoadsAs (gather ba.nodes iovs) str

/-- when it is met: nothing is left to read, or the `int` holds the offset, and the walk starts at the front of a block,
or a block or more is left (a block that an int64_t cannot hold is an exception both ways) -/
def SaveRight (ba : ByteArray) : Prop :=
  let left := ba.size - ba.position
  let off := ba.position % ba.baseSize
  left = 0 ∨ (left < 2 ^ 63 ∧ off < 2 ^ 31 ∧
    ((ba.baseSize < 2 ^ 63 ∧ off = 0) ∨ ba.baseSize ≤ left ∨ (2 ^ 63 ≤ ba.baseSize ∧ left + off = ba.baseSize)))

instance (ba : ByteArray) : Decidable (SaveRight ba) := by
  unfold SaveRight; infer_instance

theorem Tiles.inside {ba : ByteArray} {p q : ℕ} {iovs : List Iovec} (h : Tiles ba p iovs q) :
    ∀ v ∈ iovs, ∃ n, ba.nodes[v.node]? = some n ∧ v.off + v.iov_len ≤ n.size := by
  induction iovs generalizing p with
  | nil => simp
  | cons v iovs ih =>
    intro u hu
    rcases List.mem_cons.1 hu with rfl | hu
    · exact h.1
    · exact ih h.2.2 u hu

/-- requests that tile the readable bytes save them, and they are loaded back -/
theorem savesAndLoads_of_tiles {ba : ByteArray} (h : Wf ba) {requests : List WriteRequest} {iovs : List Iovec}
    (hex : exec (writeToFile true) ba = (.ok (true, requests), ba)) (hst : stretches requests = some iovs)
    (ht : Tiles ba ba.position iovs ba.size) : SavesAndLoads ba iovs := by
  have hgather : gather ba.nodes iovs = ba.flat.data.drop ba.position := by
    rw [ht.gather_eq h, ByteArray.flat, List.drop_take]
  refine ⟨⟨requests, hex, hst⟩, ht.inside, hgather, _, toString_spec h.rel, ?_⟩
  rw [hgather]
  exact readFromFile_spec _

/-- the walk of writeToFile, from the block of the cursor -/
def savedRequests (ba : ByteArray) : Option (List WriteRequest) :=
  writeToFileLoop ba.baseSize (ba.nodes.drop (ba.position / ba.baseSize)) (ba.position / ba.baseSize)
    (toSigned 64 ba.position) (toSigned 64 ba.getReadSize)

/-- below the capacity there is a block at the cursor -/
theorem drop_cursor {ba : ByteArray} (h : Wf ba) (hlt : ba.position < ba.capacity) :
    ∃ n rest, ba.nodes.drop (ba.position / ba.baseSize) = n :: rest ∧ ba.nodes[ba.position / ba.baseSize]? = some n ∧
      n.size = ba.baseSize ∧ (ba.nodes.take (ba.position / ba.baseSize) ++ [n]) ++ rest = ba.nodes ∧
      (ba.nodes.take (ba.position / ba.baseSize) ++ [n]).length = ba.position / ba.baseSize + 1 := by
  have hi := (h.cur_of_lt hlt).2
  refine ⟨ba.nodes[ba.position / ba.baseSize], ba.nodes.drop (ba.position / ba.baseSize + 1),
    List.drop_eq_getElem_cons hi, List.getElem?_eq_getElem hi, h.blocks _ (List.getElem_mem hi), ?_, ?_⟩
  · rw [List.append_assoc, List.singleton_append, ← List.drop_eq_getElem_cons hi, List.take_append_drop]
  · rw [List.length_append, List.length_take, min_eq_left hi.le, List.length_singleton]

/-- from inside a block with a block or more left: the rest of this block, then from the front of the next one -/
theorem from_inside_block {ba : ByteArray} (h : Wf ba) (hcap : ba.capacity < 2 ^ 64) {r : ℕ} (hr : r < 2 ^ 63)
    (hoff : ba.position % ba.baseSize < 2 ^ 31) (hmore : ba.baseSize ≤ r) (hfit : ba.position + r ≤ ba.capacity) :
    ∃ requests iovs, writeToFileLoop ba.baseSize (ba.nodes.drop (ba.position / ba.baseSize))
        (ba.position / ba.baseSize) (toSigned 64 ba.position) r = some requests ∧
      stretches requests = some iovs ∧ Tiles ba ba.position iovs (ba.position + r) := by
  have hpos := h.base_pos
  have hdm := Nat.div_add_mod ba.position ba.baseSize
  have hmod := Nat.mod_lt ba.position hpos
  obtain ⟨len, hlen⟩ : ∃ len, ba.baseSize - ba.position % ba.baseSize = len := ⟨_, rfl⟩
  obtain ⟨n, rest, hdrop, hn, hnsize, happend, hlength⟩ := drop_cursor h (by omega)
  have hnext : ba.baseSize * (ba.nodes.take (ba.position / ba.baseSize) ++ [n]).length = ba.position + len := by
    rw [hlength, Nat.mul_add]
    omega
  obtain ⟨requests, iovs, hloop, hst, ht⟩ := whole_blocks h (by omega) rest
    (ba.nodes.take (ba.position / ba.baseSize) ++ [n]) (r := r - len) happend hnext (by omega) (by omega) (by omega)
  have hstep := writeToFileLoop_cons hpos (by omega) (by omega) (by omega) hr hoff n rest
    (ba.position / ba.baseSize) (p := ba.position)
  have hmin : ((min r ba.baseSize : ℕ) - (ba.position % ba.baseSize : ℕ) : ℤ) = len := by omega
  have hplace : toSigned 64 (toSigned 64 ba.position + len) = toSigned 64 (ba.position + len : ℕ) := by
    rw [toSigned, toSigned, toSigned, Int.bmod_add_bmod, Nat.cast_add]
  have hrest : toSigned 64 (r - len : ℤ) = (r - len : ℕ) := by
    rw [toSigned_of_fits (by omega) (by omega)]
    omega
  rw [hmin, hplace, hrest, ← hlength, hloop] at hstep
  refine ⟨_, ⟨ba.position / ba.baseSize, ba.position % ba.baseSize, len⟩ :: iovs, by rw [hdrop, hstep]; rfl, ?_,
    ⟨n, hn, by dsimp only; omega⟩, hdm, ?_⟩
  · rw [stretches, if_pos ⟨Int.natCast_nonneg _, Int.natCast_nonneg _⟩, hst]
    rfl
  · rwa [show ba.position + len + (r - len) = ba.position + r by omega] at ht

/-- under the condition the requests tile the readable bytes -/
theorem tiles_of_saveRight {ba : ByteArray} (h : Wf ba) (hcap : ba.capacity < 2 ^ 64) (hright : SaveRight ba) :
    ∃ requests iovs, savedRequests ba = some requests ∧ stretches requests = some iovs ∧
      Tiles ba ba.position iovs ba.size := by
  have hle := h.position_le
  have hsc := h.size_le
  have hdm := Nat.div_add_mod ba.position ba.baseSize
  obtain ⟨r, hr⟩ : ∃ r, ba.size - ba.position = r := ⟨_, rfl⟩
  have hrs : ba.getReadSize = r := by rw [← hr]; exact sizeSub_of_le hle
  have hsize : ba.size = ba.position + r := by omega
  rw [SaveRight, hr] at hright
  rw [savedRequests, hrs, hsize]
  rcases Nat.eq_zero_or_pos r with rfl | hpos
  · exact ⟨[], [], writeToFileLoop_done _ _ _ _ (by decide), rfl, rfl⟩
  obtain ⟨hleft, hoff, hcase⟩ := hright.resolve_left hpos.ne'
  have hsigned : toSigned 64 (r : ℕ) = (r : ℤ) := toSigned_of_fits (by omega) (by omega)
  obtain ⟨n, rest, hdrop, hn, hnsize, happend, hlength⟩ := drop_cursor h (by omega)
  rw [hsigned]
  rcases hcase with ⟨hbase, hfront⟩ | hmore | ⟨hbase, hexact⟩
  · have htake : (ba.nodes.take (ba.position / ba.baseSize)).length = ba.position / ba.baseSize := by
      simpa using hlength
    have hwhole := whole_blocks h hbase (ba.nodes.drop (ba.position / ba.baseSize))
      (ba.nodes.take (ba.position / ba.baseSize)) (p := ba.position) (r := r) (List.take_append_drop _ _)
      (by rw [htake]; omega) (by omega) hleft (by omega)
    rwa [htake] at hwhole
  · exact from_inside_block h hcap hleft hoff hmore (by omega)
  · -- one round takes the rest of the block, which is all
    have hb : ba.baseSize ≤ ba.capacity := by
      rw [h.capacity]
      exact Nat.le_mul_of_pos_right _ (List.length_pos_of_ne_nil h.root)
    have hlen : toSigned 64 (ba.baseSize - (ba.position % ba.baseSize : ℕ)) = r := by
      rw [toSigned_of_fits (by omega) (by omega)]
      omega
    have hstep := writeToFileLoop_huge hbase (by omega) (by omega) hpos hoff n rest (ba.position / ba.baseSize) hlen
      (p := ba.position)
    have hend : toSigned 64 (r - r : ℤ) ≤ 0 := by
      rw [sub_self]
      decide
    rw [writeToFileLoop_done _ _ _ _ hend] at hstep
    refine ⟨_, [⟨ba.position / ba.baseSize, ba.position % ba.baseSize, r⟩], by rw [hdrop, hstep]; rfl, ?_,
      ⟨n, hn, by dsimp only; omega⟩, hdm, rfl⟩
    rw [stretches, if_pos ⟨Int.natCast_nonneg _, Int.natCast_nonneg _⟩]
    rfl

theorem first_node {b i : ℕ} {blocks : List Node} {pos read_size : ℤ} {r : WriteRequest} {rs : List WriteRequest}
    (h : writeToFileLoop b blocks i pos read_size = some (r :: rs)) : r.node = i := by
  cases blocks with
  | nil =>
    simp only [writeToFileLoop] at h
    split_ifs at h
    cases h
  | cons n rest =>
    by_cases hpos : read_size > 0
    · simp only [writeToFileLoop, if_pos hpos] at h
      obtain ⟨rs', -, heq⟩ := Option.map_eq_some_iff.1 h
      cases heq
      rfl
    · rw [writeToFileLoop_done _ _ _ _ (not_lt.1 hpos)] at h
      cases h

theorem no_block {b i : ℕ} {pos read_size : ℤ} {requests : List WriteRequest}
    (h : writeToFileLoop b [] i pos read_size = some requests) : requests = [] := by
  simp only [writeToFileLoop] at h
  split_ifs at h
  cases h
  rfl

/-- with more left than an int64_t holds, no round is made -/
theorem left_lt_of_request {b i r : ℕ} {blocks : List Node} {pos : ℤ} {q : WriteRequest} {rs : List WriteRequest}
    (hr : r < 2 ^ 64) (h : writeToFileLoop b blocks i pos (toSigned 64 r) = some (q :: rs)) : r < 2 ^ 63 := by
  by_contra hlarge
  have hneg : toSigned 64 r = r - 2 ^ 64 := toSigned_of_large (by omega) (by omega)
  rw [writeToFileLoop_done _ _ _ _ (by omega)] at h
  cases h

/-- requests that tile the readable bytes are made under the condition only -/
theorem saveRight_of_tiles {ba : ByteArray} (h : Wf ba) (hcap : ba.capacity < 2 ^ 64) {requests : List WriteRequest}
    {iovs : List Iovec} (hsaved : savedRequests ba = some requests) (hst : stretches requests = some iovs)
    (ht : Tiles ba ba.position iovs ba.size) : SaveRight ba := by
  have hle := h.position_le
  have hsc := h.size_le
  have hdm := Nat.div_add_mod ba.position ba.baseSize
  have hmod := Nat.mod_lt ba.position h.base_pos
  obtain ⟨r, hr⟩ : ∃ r, ba.size - ba.position = r := ⟨_, rfl⟩
  have hrs : ba.getReadSize = r := by rw [← hr]; exact sizeSub_of_le hle
  have hsize : ba.size = ba.position + r := by omega
  rw [SaveRight, hr]
  rw [savedRequests, hrs] at hsaved
  rcases Nat.eq_zero_or_pos r with hz | hpos
  · exact .inl hz
  have hlt : ba.position < ba.capacity := by omega
  rw [hsize] at ht
  obtain - | ⟨v, iovs⟩ := iovs
  · exact absurd (show ba.position = ba.position + r from ht) (by omega)
  obtain ⟨rs, rfl, hst'⟩ := stretches_eq_some hst
  have hleft : r < 2 ^ 63 := left_lt_of_request (by omega) hsaved
  have hsigned : toSigned 64 (r : ℕ) = (r : ℤ) := toSigned_of_fits (by omega) (by omega)
  obtain ⟨n, rest, hdrop, hn, hnsize, happend, hlength⟩ := drop_cursor h hlt
  rw [hdrop, hsigned, writeToFileLoop_round (by omega) hpos n rest _ rfl rfl] at hsaved
  obtain ⟨rs', hrest, heq⟩ := Option.map_eq_some_iff.1 hsaved
  injection heq with hfirst hrs'
  injection hfirst with hnode hoff hlen
  obtain ⟨-, hplace, htail⟩ := ht
  -- the first request begins at the cursor, so the `int` holds the offset
  have hvoff : v.off = ba.position % ba.baseSize := by
    rw [← hnode] at hplace
    omega
  have hoff' : ba.position % ba.baseSize < 2 ^ 31 := by
    have hbounds := toSigned_bounds (w := 32) (by norm_num) (ba.position % ba.baseSize : ℕ)
    rw [hoff, hvoff] at hbounds
    omega
  rw [hoff, hvoff] at hlen
  rw [hoff, hvoff, hlen] at hrest
  subst hrs'
  refine .inr ⟨hleft, hoff', ?_⟩
  by_cases hbase : ba.baseSize < 2 ^ 63
  · by_contra hnot
    have hinside : ba.position % ba.baseSize ≠ 0 := fun hz => hnot (.inl ⟨hbase, hz⟩)
    have hless : r < ba.baseSize := lt_of_not_ge fun hge => hnot (.inr (.inl hge))
    clear hnot
    rw [toSigned_of_fits (x := (ba.baseSize : ℤ)) (by omega) (by omega), if_neg (by omega),
      toSigned_of_fits (by omega) (by omega)] at hlen
    obtain - | ⟨u, us⟩ := iovs
    · have hend : ba.position + v.iov_len = ba.position + r := htail
      omega
    · obtain ⟨rs'', rfl, -⟩ := stretches_eq_some hst'
      have hnext := first_node hrest
      have hplace' : ba.baseSize * u.node + u.off = ba.position + v.iov_len := htail.2.1
      dsimp only at hnext
      rw [hnext, Nat.mul_add, Nat.mul_one] at hplace'
      omega
  · -- there is one block, and the request takes the rest of it
    have hone : ba.nodes.length = 1 := by
      have hroot := List.length_pos_of_ne_nil h.root
      by_contra hne
      have htwo : ba.baseSize * 2 ≤ ba.baseSize * ba.nodes.length := Nat.mul_le_mul_left _ (by omega)
      rw [← h.capacity] at htwo
      omega
    have hb : ba.baseSize = ba.capacity := by rw [h.capacity, hone, Nat.mul_one]
    obtain rfl : rest = [] := by
      have hall := congrArg List.length happend
      rw [List.length_append, hlength, hone] at hall
      exact List.length_eq_zero_iff.1 (by omega)
    obtain rfl := no_block hrest
    obtain rfl : iovs = [] := by
      cases hst'
      rfl
    have hend : ba.position + v.iov_len = ba.position + r := htail
    rw [toSigned_of_large (x := (ba.baseSize : ℤ)) (by omega) (by omega), if_pos (by omega)] at hlen
    have hshort : ba.baseSize - ba.position % ba.baseSize < 2 ^ 63 := by
      by_contra hlong
      rw [toSigned_of_large (by omega) (by omega)] at hlen
      omega
    rw [toSigned_of_fits (by omega) (by omega)] at hlen
    exact .inr (.inr ⟨by omega, by omega⟩)

/-- in blocks up to 2 GiB, the file holds the readable bytes under the condition only -/
theorem saveRight_of_bytes {ba : ByteArray} (h : Wf ba) (hcap : ba.capacity < 2 ^ 64) (hbase : ba.baseSize ≤ 2 ^ 31)
    {requests : List WriteRequest} {iovs : List Iovec} (hsaved : savedRequests ba = some requests)
    (hst : stretches requests = some iovs) (hfile : gather ba.nodes iovs = ba.flat.data.drop ba.position) :
    SaveRight ba := by
  have hle := h.position_le
  have hsc := h.size_le
  have hdm := Nat.div_add_mod ba.position ba.baseSize
  have hmod := Nat.mod_lt ba.position h.base_pos
  obtain ⟨r, hr⟩ : ∃ r, ba.size - ba.position = r := ⟨_, rfl⟩
  have hrs : ba.getReadSize = r := by rw [← hr]; exact sizeSub_of_le hle
  have hlength : (ba.flat.data.drop ba.position).length = r := by
    rw [List.length_drop, ← h.rel.size, hr]
  rw [SaveRight, hr]
  rw [savedRequests, hrs] at hsaved
  rcases Nat.eq_zero_or_pos r with hz | hpos
  · exact .inl hz
  have hlt : ba.position < ba.capacity := by omega
  obtain - | ⟨v, iovs⟩ := iovs
  · rw [← hfile] at hlength
    exact absurd (show 0 = r from hlength) hpos.ne
  obtain ⟨rs, rfl, hst'⟩ := stretches_eq_some hst
  have hleft : r < 2 ^ 63 := left_lt_of_request (by omega) hsaved
  rw [toSigned_of_fits (x := (r : ℤ)) (by omega) (by omega)] at hsaved
  refine .inr ⟨hleft, by omega, ?_⟩
  by_contra hnot
  have hinside : ba.position % ba.baseSize ≠ 0 := fun hz => hnot (.inl ⟨by omega, hz⟩)
  have hless : r < ba.baseSize := lt_of_not_ge fun hge => hnot (.inr (.inl hge))
  rcases Nat.lt_or_ge (ba.position % ba.baseSize) r with hmore | hstuck
  · -- the second round starts at an offset of `r`, with less left
    obtain ⟨n, rest, hdrop, -, -, -, -⟩ := drop_cursor h hlt
    rw [hdrop, writeToFileLoop_cons h.base_pos (by omega) (by omega) hpos hleft (by omega)] at hsaved
    obtain ⟨rs', hrest, heq⟩ := Option.map_eq_some_iff.1 hsaved
    injection heq with _ hrs'
    subst hrs'
    obtain ⟨d, hd⟩ : ∃ d, ba.position % ba.baseSize = d := ⟨_, rfl⟩
    have hlen : ((min r ba.baseSize : ℕ) - (ba.position % ba.baseSize : ℕ) : ℤ) = (r - d : ℕ) := by omega
    have hnext : toSigned 64 (toSigned 64 ba.position + (r - d : ℕ)) = toSigned 64 (ba.position + (r - d) : ℕ) :=
      toSigned_add _ _
    have hleft' : toSigned 64 (r - (r - d : ℕ) : ℤ) = (d : ℕ) := by
      rw [toSigned_of_fits (by omega) (by omega)]
      omega
    have hoff : (ba.position + (r - d)) % ba.baseSize = r := by
      rw [show ba.position + (r - d) = ba.baseSize * (ba.position / ba.baseSize) + r by omega, Nat.mul_add_mod,
        Nat.mod_eq_of_lt hless]
    rw [hlen, hnext, hleft'] at hrest
    have hnone := stuck_in_block hbase (by omega) (by omega) (by omega) h.base_pos rest _ hrest
    rw [hnone] at hst'
    cases hst'
  · have hnone := stuck_in_block hbase (by omega) hpos hstuck h.base_pos _ _ hsaved
    rw [hnone] at hst
    cases hst

/-- **Saving and loading** preserves the readable bytes exactly under the condition: the stretches of the requests follow
on one another from the cursor to the end. In blocks up to 2 GiB nothing else makes the file hold these bytes (in larger
ones a wrong place may happen to hold the same bytes). m_capacity is a size_t. -/
theorem savesAndLoads_iff (base : ℕ) (hbase : 1 ≤ base) (ba : ByteArray) (h : Reachable base ba)
    (hcap : ba.capacity < 2 ^ 64) :
    ((∃ iovs, SavesAndLoads ba iovs ∧ Tiles ba ba.position iovs ba.size) ↔ SaveRight ba) ∧
      (base ≤ 2 ^ 31 → ((∃ iovs, SavesAndLoads ba iovs) ↔ SaveRight ba)) := by
  obtain ⟨hwf, hb⟩ := h.kept hbase
  have hright : SaveRight ba → ∃ iovs, SavesAndLoads ba iovs ∧ Tiles ba ba.position iovs ba.size := by
    intro hright
    obtain ⟨requests, iovs, hsaved, hst, ht⟩ := tiles_of_saveRight hwf hcap hright
    exact ⟨iovs, savesAndLoads_of_tiles hwf ((exec_writeToFile hwf requests).2 hsaved) hst ht, ht⟩
  refine ⟨⟨?_, hright⟩, fun hsmall => ⟨?_, fun hok => ?_⟩⟩
  · rintro ⟨iovs, ⟨⟨requests, hex, hst⟩, -, -, -⟩, ht⟩
    exact saveRight_of_tiles hwf hcap ((exec_writeToFile hwf requests).1 hex) hst ht
  · rintro ⟨iovs, ⟨⟨requests, hex, hst⟩, -, hfile, -⟩⟩
    exact saveRight_of_bytes hwf hcap (by omega) ((exec_writeToFile hwf requests).1 hex) hst hfile
  · obtain ⟨iovs, hsaves, -⟩ := hright hok
    exact ⟨iovs, hsaves⟩

theorem savesAndLoads_example :
    ((∃ iovs, SavesAndLoads twoBlocks iovs ∧ Tiles twoBlocks twoBlocks.position iovs twoBlocks.size) ↔
      SaveRight twoBlocks) ∧ (1 ≤ 2 ^ 31 → ((∃ iovs, SavesAndLoads twoBlocks iovs) ↔ SaveRight twoBlocks)) :=
  savesAndLoads_iff 1 le_rfl twoBlocks twoBlocks_reachable (by decide +kernel)

/-- two bytes in a block of four, with the cursor behind the first -/
def secondByte : ByteArray :=
  (exec (Call.setPosition 1).perform (exec (Call.write [1, 2]).perform (ByteArray.new 4 fun _ => 0)).2).2

/-- **A rest shorter than a block.** One byte is left behind an offset of one: the length is nothing, and the walk runs off
the only block. -/
theorem writeToFile_runs_off :
    Reachable 4 secondByte ∧ secondByte.capacity < 2 ^ 64 ∧ (exec (writeToFile true) secondByte).1 = .error .nullDeref ∧
      ¬ ∃ iovs, SavesAndLoads secondByte iovs := by
  have hfault : (exec (writeToFile true) secondByte).1 = .error .nullDeref := by decide +kernel
  refine ⟨?_, by decide +kernel, hfault, ?_⟩
  · apply Reachable.call (.setPosition 1)
    · exact Reachable.call (.write [1, 2]) (.new fun _ => 0) (by decide +kernel)
    · decide +kernel
  · rintro ⟨iovs, ⟨⟨requests, hex, -⟩, -, -, -⟩⟩
    rw [hex] at hfault
    cases hfault

end Sylar.Buffer

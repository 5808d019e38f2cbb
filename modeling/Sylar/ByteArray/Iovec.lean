/-
The scatter and gather side of `ByteArray`: the stretches of blocks that getReadBuffers and getWriteBuffers hand out.

An `iovec` points into a block (`iov_base = node->ptr + off`), so it is the index of the block, the offset and the
length. The bytes behind it are read from the blocks when somebody looks, and a caller that writes through it changes the
blocks behind the back of the `ByteArray`.

Results:
- `gather_readLoop`, `scatter_writeLoop`: the walk that collects the stretches and the walks of `read` and `write` end in
  the same way, and what is gathered or scattered is what they copy;
- `getReadBuffers_spec`: the stretches hold the bytes at the cursor;
- `scatterWrite_eq`: filling the stretches of getWriteBuffers and moving the cursor is `write`, state for state.
-/
import Sylar.ByteArray.Refine

namespace Sylar.Buffer

open Sylar.Overwrite

/-! ## Model -/

structure Iovec where
  /-- the block that iov_base points into -/
  node : ℕ
  off : ℕ
  iov_len : ℕ
deriving DecidableEq, Repr

/-- the loop of getReadBuffers and of getWriteBuffers, from block `i` on -/
def iovecLoop : List Node → ℕ → ℕ → ℕ → Option (List Iovec)
  | _, _, _, 0 => some []
  | [], _, _, _ => none
  | n :: rest, i, npos, len =>
    let ncap := n.size - npos
    if ncap ≥ len then some [⟨i, npos, len⟩]
    else (iovecLoop rest (i + 1) 0 (len - ncap)).map (⟨i, npos, ncap⟩ :: ·)

/-- the two-argument `getReadBuffers`: the vector afterwards and the length -/
def getReadBuffers (buffers : List Iovec) (len : ℕ) : M (List Iovec × ℕ) := do
  let ba ← get
  let len := if len > ba.getReadSize then ba.getReadSize else len
  if len = 0 then return (buffers, 0)
  match ba.cur with
  | none => throw .nullDeref
  | some i =>
    match iovecLoop (ba.nodes.drop i) i (ba.position % ba.baseSize) len with
    | none => throw .nullDeref
    | some iovs => return (buffers ++ iovs, len)

def getWriteBuffers (buffers : List Iovec) (len : ℕ) : M (List Iovec × ℕ) := do
  if len = 0 then return (buffers, 0)
  addCapacity len
  let ba ← get
  match ba.cur with
  | none => throw .nullDeref
  | some i =>
    match iovecLoop (ba.nodes.drop i) i (ba.position % ba.baseSize) len with
    | none => throw .nullDeref
    | some iovs => return (buffers ++ iovs, len)

/-- the bytes that the stretches point at -/
def gather (nodes : List Node) (iovs : List Iovec) : List UInt8 :=
  iovs.flatMap fun v =>
    match nodes[v.node]? with
    | some n => n.load v.off v.iov_len
    | none => []

/-- a caller copies `d` into the stretches, in order -/
def scatter : List Iovec → List UInt8 → List Node → List Node
  | [], _, nodes => nodes
  | v :: iovs, d, nodes =>
    scatter iovs (d.drop v.iov_len) (nodes.modify v.node (·.store v.off (d.take v.iov_len)))

def fill (iovs : List Iovec) (d : List UInt8) : M Unit := modify fun ba => { ba with nodes := scatter iovs d ba.nodes }

/-- the zero-copy way to write `d`: take stretches, fill the new ones, move the cursor past them -/
def scatterWrite (buffers : List Iovec) (d : List UInt8) : M Unit := do
  let position := (← get).getPosition
  let (all, _) ← getWriteBuffers buffers d.length
  fill (all.drop buffers.length) d
  setPosition (position + d.length)

/-! ## The walks -/

theorem modify_behind (front : List Node) (n : Node) (rest : List Node) (f : Node → Node) :
    (front ++ n :: rest).modify front.length f = front ++ f n :: rest := by
  rw [List.modify_eq_take_drop]
  simp

/-- the walk of `read` and the one that collects stretches -/
theorem gather_readLoop (blocks front : List Node) (npos len : ℕ) :
    (readLoop blocks npos len = none ∧ iovecLoop blocks front.length npos len = none) ∨
      ∃ bytes k iovs, readLoop blocks npos len = some (bytes, k) ∧
        iovecLoop blocks front.length npos len = some iovs ∧ gather (front ++ blocks) iovs = bytes := by
  rcases len with - | len
  · exact .inr ⟨[], 0, [], by simp [readLoop], by simp [iovecLoop], rfl⟩
  induction blocks generalizing front npos len with
  | nil => exact .inl ⟨rfl, rfl⟩
  | cons n rest ih =>
    simp only [readLoop, iovecLoop]
    split_ifs with hcap hend
    · exact .inr ⟨_, _, _, rfl, rfl, by simp [gather]⟩
    · exact .inr ⟨_, _, _, rfl, rfl, by simp [gather]⟩
    · obtain ⟨left, hleft⟩ : ∃ left, len + 1 - (n.size - npos) = left + 1 := ⟨len - (n.size - npos), by omega⟩
      have hrec := ih (front ++ [n]) 0 left
      rw [hleft]
      rw [List.length_append, List.length_singleton, List.append_assoc, List.singleton_append] at hrec
      rcases hrec with ⟨hread, hiov⟩ | ⟨bytes, k, iovs, hread, hiov, hgather⟩
      · exact .inl ⟨by rw [hread], by rw [hiov]; rfl⟩
      · refine .inr ⟨n.load npos (n.size - npos) ++ bytes, k + 1, ⟨front.length, npos, n.size - npos⟩ :: iovs, ?_, ?_, ?_⟩
        · rw [hread]
        · rw [hiov]; rfl
        · rw [← hgather]
          simp [gather]

/-- the walk of `write` and the one that collects stretches -/
theorem scatter_writeLoop (blocks front : List Node) (npos : ℕ) (d : List UInt8) (hd : d.length ≠ 0) :
    (writeLoop blocks npos d = none ∧ iovecLoop blocks front.length npos d.length = none) ∨
      ∃ blocks' k iovs, writeLoop blocks npos d = some (blocks', k) ∧
        iovecLoop blocks front.length npos d.length = some iovs ∧
        scatter iovs d (front ++ blocks) = front ++ blocks' := by
  induction blocks generalizing front npos d with
  | nil =>
    obtain ⟨m, hm⟩ := Nat.exists_eq_succ_of_ne_zero hd
    exact .inl ⟨rfl, by rw [hm]; rfl⟩
  | cons n rest ih =>
    obtain ⟨m, hm⟩ := Nat.exists_eq_succ_of_ne_zero hd
    have hloop : iovecLoop (n :: rest) front.length npos d.length =
        if n.size - npos ≥ d.length then some [⟨front.length, npos, d.length⟩]
        else (iovecLoop rest (front.length + 1) 0 (d.length - (n.size - npos))).map
          (⟨front.length, npos, n.size - npos⟩ :: ·) := by
      rw [hm]; rfl
    rw [hloop]
    simp only [writeLoop]
    split_ifs with hcap hend
    · exact .inr ⟨_, _, _, rfl, rfl, by rw [scatter, scatter, modify_behind, List.take_length]⟩
    · exact .inr ⟨_, _, _, rfl, rfl, by rw [scatter, scatter, modify_behind, List.take_length]⟩
    · have hdrop : (d.drop (n.size - npos)).length = d.length - (n.size - npos) := by simp
      -- the first block is filled to its end; it now stands in front of the rest of the walk
      have hrec := ih (front ++ [n.store npos (d.take (n.size - npos))]) 0 (d.drop (n.size - npos)) (by omega)
      rw [List.length_append, List.length_singleton, hdrop, List.append_assoc, List.singleton_append] at hrec
      rcases hrec with ⟨hwrite, hiov⟩ | ⟨blocks', k, iovs, hwrite, hiov, hscatter⟩
      · exact .inl ⟨by rw [hwrite], by rw [hiov]; rfl⟩
      · refine .inr ⟨n.store npos (d.take (n.size - npos)) :: blocks', k + 1,
          ⟨front.length, npos, n.size - npos⟩ :: iovs, by rw [hwrite], by rw [hiov]; rfl, ?_⟩
        rw [scatter, modify_behind, hscatter, List.append_assoc, List.singleton_append]

/-! ## The calls -/

variable {base : ℕ} {e : Endian} {ba : ByteArray} {f : Flat}

/-- the walk from the block of the cursor, with the blocks in front of it put back -/
theorem front_append (h : Wf ba) (hlt : ba.position < ba.capacity) :
    (ba.nodes.take (ba.position / ba.baseSize)).length = ba.position / ba.baseSize ∧
      ba.nodes.take (ba.position / ba.baseSize) ++ ba.nodes.drop (ba.position / ba.baseSize) = ba.nodes := by
  have hblock := (h.cur_of_lt hlt).2
  exact ⟨by rw [List.length_take, min_eq_left hblock.le], List.take_append_drop _ _⟩

/-- the stretches hold the bytes at the cursor, and nothing changes -/
theorem getReadBuffers_spec (h : Rel base e ba f) (buffers : List Iovec) (len : ℕ) :
    ∃ iovs, exec (getReadBuffers buffers len) ba = (.ok (buffers ++ iovs, min len f.readSize), ba) ∧
      gather ba.nodes iovs = f.read (min len f.readSize) := by
  have hmin : (if len > ba.getReadSize then ba.getReadSize else len) = min len f.readSize := by
    rw [h.readSize]
    split_ifs <;> omega
  simp only [getReadBuffers]
  rw [exec_bind_ok (exec_get ba), hmin]
  by_cases hz : min len f.readSize = 0
  · exact ⟨[], by simp [hz], by simp [hz, gather, Flat.read]⟩
  obtain ⟨hlt, -, hloop⟩ := readLoop_at_cursor h (Nat.pos_of_ne_zero hz) (min_le_right _ _)
  obtain ⟨hfront, happend⟩ := front_append h.wf hlt
  have hwalk := gather_readLoop (ba.nodes.drop (ba.position / ba.baseSize)) (ba.nodes.take (ba.position / ba.baseSize))
    (ba.position % ba.baseSize) (min len f.readSize)
  rw [hfront, happend, hloop] at hwalk
  rcases hwalk with ⟨hnone, -⟩ | ⟨bytes, k, iovs, hread, hiov, hgather⟩
  · cases hnone
  · cases hread
    refine ⟨iovs, ?_, hgather⟩
    simp only [hz, if_false, (h.wf.cur_of_lt hlt).1, hiov, exec_pure]

/-- getWriteBuffers makes room first and then walks over the blocks -/
theorem getWriteBuffers_eq {n : ℕ} {ba1 : ByteArray} (hn : n ≠ 0) (hadd : exec (addCapacity n) ba = (.ok (), ba1))
    (buffers : List Iovec) : exec (getWriteBuffers buffers n) ba =
      match ba1.cur with
      | none => (.error .nullDeref, ba1)
      | some i =>
        match iovecLoop (ba1.nodes.drop i) i (ba1.position % ba1.baseSize) n with
        | none => (.error .nullDeref, ba1)
        | some iovs => (.ok (buffers ++ iovs, n), ba1) := by
  simp only [getWriteBuffers, hn, if_false]
  rw [exec_bind_ok hadd, exec_bind_ok (exec_get ba1)]
  cases ba1.cur with
  | none => rfl
  | some i =>
    dsimp only
    cases iovecLoop (ba1.nodes.drop i) i (ba1.position % ba1.baseSize) n <;> rfl

/-- with room for the bytes, both ways fill the same blocks and move m_cur to the block of the new position -/
theorem scatterWrite_of_room (buffers : List Iovec) {d : List UInt8} (hd : d.length ≠ 0) {ba1 : ByteArray}
    (hadd : exec (addCapacity d.length) ba = (.ok (), ba1)) (hwf : Wf ba1) (hsame : ba.position = ba1.position)
    (hroom : ba1.position + d.length ≤ ba1.capacity) :
    exec (scatterWrite buffers d) ba = exec (write d) ba := by
  have hlt : ba1.position < ba1.capacity := by omega
  obtain ⟨hfront, happend⟩ := front_append hwf hlt
  obtain ⟨hcur, hblock⟩ := hwf.cur_of_lt hlt
  obtain ⟨blocks, hloop, hsz, hlen, -⟩ :=
    writeLoop_spec (hwf.blocks.drop (ba1.position / ba1.baseSize)) (Nat.mod_lt ba1.position hwf.base_pos)
      (Nat.pos_of_ne_zero hd) ((room_eq hwf hlt _).2 hroom)
  have hwalk := scatter_writeLoop (ba1.nodes.drop (ba1.position / ba1.baseSize))
    (ba1.nodes.take (ba1.position / ba1.baseSize)) (ba1.position % ba1.baseSize) d hd
  rw [hfront, happend, hloop] at hwalk
  rcases hwalk with ⟨hnone, -⟩ | ⟨blocks', k, iovs, hwrite, hiov, hscatter⟩
  · cases hnone
  cases hwrite
  have hnodes : (ba1.nodes.take (ba1.position / ba1.baseSize) ++ blocks).length = ba1.nodes.length := by
    simp only [List.length_append, List.length_take, hlen, List.length_drop]
    omega
  have hfollow := follow_div hwf ba1.position d.length (by omega)
  have hfollow0 := follow_div hwf 0 (ba1.position + d.length) (by omega)
  rw [Nat.zero_div, Nat.zero_mod, Nat.zero_add, ← hfollow] at hfollow0
  have hseek : seekLoop (ba1.nodes.take (ba1.position / ba1.baseSize) ++ blocks) (ba1.position + d.length) =
      some ((ba1.position + d.length) / ba1.baseSize) := by
    apply seekLoop_spec hwf.base_pos (sized_append.2 ⟨hwf.blocks.take _, hsz⟩)
    · intro hnil
      rw [hnil, List.length_nil] at hnodes
      omega
    · rw [hnodes, ← hwf.capacity]
      omega
  have hok : ¬ ba1.position + d.length > ba1.capacity := by omega
  have hall : (buffers ++ iovs).drop buffers.length = iovs := by simp
  have hleft : exec (getWriteBuffers buffers d.length) ba = (.ok (buffers ++ iovs, d.length), ba1) := by
    rw [getWriteBuffers_eq hd hadd, hcur]
    simp only [hiov]
  simp only [scatterWrite]
  rw [exec_bind_ok (exec_get ba), ByteArray.getPosition, hsame]
  rw [exec_bind_ok hleft, hall, fill, exec_bind_ok (exec_modify _ ba1), hscatter, setPosition, exec_bind_ok (exec_get _)]
  simp only [hok, if_false, hseek]
  rw [exec_bind_ok (exec_set _ _), exec_modify]
  simp only [write, hd, if_false]
  rw [exec_bind_ok hadd, exec_bind_ok (exec_get ba1), hcur]
  simp only [hloop, exec_set]
  simp only [ByteArray.follow, hnodes] at hfollow0 ⊢
  rw [hfollow0]

/-- without room, both ways walk off the last block -/
theorem getWriteBuffers_of_no_room (buffers : List Iovec) {d : List UInt8} (hd : d.length ≠ 0) {ba1 : ByteArray}
    (hadd : exec (addCapacity d.length) ba = (.ok (), ba1)) (hwf : Wf ba1)
    (hroom : ba1.capacity < ba1.position + d.length) :
    exec (getWriteBuffers buffers d.length) ba = (.error .nullDeref, ba1) := by
  rw [getWriteBuffers_eq hd hadd]
  by_cases hfull : ba1.position = ba1.capacity
  · rw [hwf.cur, if_pos hfull]
  · have hlt : ba1.position < ba1.capacity := lt_of_le_of_ne (hwf.position_le.trans hwf.size_le) hfull
    obtain ⟨hfront, -⟩ := front_append hwf hlt
    have hnone : writeLoop (ba1.nodes.drop (ba1.position / ba1.baseSize)) (ba1.position % ba1.baseSize) d = none :=
      writeLoop_none (hwf.blocks.drop (ba1.position / ba1.baseSize)) (Nat.mod_lt ba1.position hwf.base_pos)
        (lt_of_not_ge fun hle => absurd ((room_eq hwf hlt d.length).1 hle) (by omega))
    have hwalk := scatter_writeLoop (ba1.nodes.drop (ba1.position / ba1.baseSize))
      (ba1.nodes.take (ba1.position / ba1.baseSize)) (ba1.position % ba1.baseSize) d hd
    rw [hfront, hnone] at hwalk
    rcases hwalk with ⟨-, hiov⟩ | ⟨blocks', k, iovs, hwrite, -⟩
    · simp only [(hwf.cur_of_lt hlt).1, hiov]
    · cases hwrite

/-- filling the new stretches of getWriteBuffers and moving the cursor is `write`: the same outcome and the same object -/
theorem scatterWrite_eq (h : Rel base e ba f) (buffers : List Iovec) {d : List UInt8} (hd : d.length ≠ 0) :
    exec (scatterWrite buffers d) ba = exec (write d) ba := by
  obtain ⟨ba1, hadd, h1, -⟩ := addCapacity_outcome h d.length
  have hsame : ba.position = ba1.position := h.pos.trans h1.pos.symm
  by_cases hroom : ba1.position + d.length ≤ ba1.capacity
  · exact scatterWrite_of_room buffers hd hadd h1.wf hsame hroom
  · have hout := getWriteBuffers_of_no_room buffers hd hadd h1.wf (not_le.1 hroom)
    rw [write_of_no_room hd hadd h1 (by rw [← h1.pos]; exact not_le.1 hroom)]
    simp only [scatterWrite]
    rw [exec_bind_ok (exec_get ba), exec_bind, hout]

end Sylar.Buffer

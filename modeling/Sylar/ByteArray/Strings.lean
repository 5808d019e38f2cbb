/-
The length-prefixed strings of `ByteArray`: writeStringF16, F32, F64 and Vint with their read functions.

A string is a length in one of four formats and the bytes. `value.size()` is cut down to the width of the length field,
and the read functions read as many bytes as the field says, also when it says none.

Results:
- `codes_len`: each length field is coded, with the length modulo its width;
- `string_round_trip_iff`: a string written at the end of a reachable buffer is read back, exactly when its length fits
  the field, an empty string does not follow a field that ends with the last block, and there is room behind addCapacity;
- `StringFits.of_short`: the room is there for every string below 2^53 bytes.
-/
import Sylar.ByteArray.Codec
import Sylar.ByteArray.Reach

namespace Sylar.Buffer

/-! ## Model -/

def writeStringF16 (value : List UInt8) : M Unit := do
  writeFuint16 (UInt16.ofNat value.length)
  write value

def writeStringF32 (value : List UInt8) : M Unit := do
  writeFuint32 (UInt32.ofNat value.length)
  write value

def writeStringF64 (value : List UInt8) : M Unit := do
  writeFuint64 (UInt64.ofNat value.length)
  write value

def writeStringVint (value : List UInt8) : M Unit := do
  writeUint64 (UInt64.ofNat value.length)
  write value

def readStringF16 : M (List UInt8) := do
  let len ← readFuint16
  read len.toNat

def readStringF32 : M (List UInt8) := do
  let len ← readFuint32
  read len.toNat

def readStringF64 : M (List UInt8) := do
  let len ← readFuint64
  read len.toNat

def readStringVint : M (List UInt8) := do
  let len ← readUint64
  read len.toNat

/-- the four pairs of functions, by the suffix of their names -/
inductive StringFormat where
  | f16
  | f32
  | f64
  | vint
deriving DecidableEq, Repr

def writeString : StringFormat → List UInt8 → M Unit
  | .f16 => writeStringF16
  | .f32 => writeStringF32
  | .f64 => writeStringF64
  | .vint => writeStringVint

def readString : StringFormat → M (List UInt8)
  | .f16 => readStringF16
  | .f32 => readStringF32
  | .f64 => readStringF64
  | .vint => readStringVint

/-! ## The length field -/

namespace StringFormat

/-- the width of the type that `value.size()` is converted to -/
def bits : StringFormat → ℕ
  | .f16 => 16
  | .f32 => 32
  | .f64 | .vint => 64

def writeLen : StringFormat → ℕ → M Unit
  | .f16, n => writeFuint16 (UInt16.ofNat n)
  | .f32, n => writeFuint32 (UInt32.ofNat n)
  | .f64, n => writeFuint64 (UInt64.ofNat n)
  | .vint, n => writeUint64 (UInt64.ofNat n)

def readLen : StringFormat → M ℕ
  | .f16 => do return (← readFuint16).toNat
  | .f32 => do return (← readFuint32).toNat
  | .f64 => do return (← readFuint64).toNat
  | .vint => do return (← readUint64).toNat

/-- the bytes of the field in byte order `e` -/
def lenBytes (e : Endian) : StringFormat → ℕ → List UInt8
  | .f16, n => fixedBytes e 2 (UInt16.ofNat n).toNat
  | .f32, n => fixedBytes e 4 (UInt32.ofNat n).toNat
  | .f64, n => fixedBytes e 8 (UInt64.ofNat n).toNat
  | .vint, n => varint (UInt64.ofNat n).toNat

end StringFormat

theorem writeString_eq (fmt : StringFormat) (s : List UInt8) :
    writeString fmt s = (fmt.writeLen s.length >>= fun _ => write s) := by
  cases fmt <;> rfl

theorem readString_eq (fmt : StringFormat) : readString fmt = (fmt.readLen >>= read) := by
  cases fmt <;> simp [readString, StringFormat.readLen, readStringF16, readStringF32, readStringF64, readStringVint]

/-- the field holds the length modulo its width -/
theorem codes_len (e : Endian) (fmt : StringFormat) (n : ℕ) :
    Codes e (fmt.lenBytes e n) (fmt.writeLen n) fmt.readLen (n % 2 ^ fmt.bits) := by
  cases fmt with
  | f16 => exact (codes_fuint16 e (UInt16.ofNat n)).map _ (by simp [StringFormat.bits])
  | f32 => exact (codes_fuint32 e (UInt32.ofNat n)).map _ (by simp [StringFormat.bits])
  | f64 => exact (codes_fuint64 e (UInt64.ofNat n)).map _ (by simp [StringFormat.bits])
  | vint => exact (codes_uint64 e (UInt64.ofNat n)).map _ (by simp [StringFormat.bits])

/-! ## Frames -/

/-- the call moves the cursor at most: the blocks and their number stay -/
def KeepsCapacity {α : Type} (x : M α) : Prop := ∀ ba : ByteArray, (exec x ba).2.capacity = ba.capacity

theorem KeepsCapacity.bind {α β : Type} {x : M α} {g : α → M β} (hx : KeepsCapacity x) (hg : ∀ a, KeepsCapacity (g a)) :
    KeepsCapacity (x >>= g) := by
  intro ba
  have hstep := hx ba
  rw [exec_bind]
  rcases hex : exec x ba with ⟨r, ba'⟩
  rw [hex] at hstep
  cases r with
  | ok a => exact (hg a ba').trans hstep
  | error fault => exact hstep

theorem KeepsCapacity.pure {α : Type} (a : α) : KeepsCapacity (pure a : M α) := fun _ => rfl

theorem KeepsCapacity.get : KeepsCapacity (get : M ByteArray) := fun _ => rfl

theorem read_keepsCapacity (n : ℕ) : KeepsCapacity (read n) := by
  intro ba
  simp only [read]
  rw [exec_bind_ok (exec_get ba)]
  split
  · rfl
  · cases ba.cur with
    | none => rfl
    | some i =>
      dsimp only
      split <;> rfl

theorem readVarintLoop_keepsCapacity (bits : ℕ) (is : List ℕ) (result : ℕ) :
    KeepsCapacity (readVarintLoop bits is result) := by
  induction is generalizing result with
  | nil => exact KeepsCapacity.pure _
  | cons i is ih =>
    refine KeepsCapacity.bind ((read_keepsCapacity 1).bind fun _ => .pure _) fun b => ?_
    split_ifs
    · exact KeepsCapacity.pure _
    · exact ih _

theorem readFixed_keepsCapacity (w : ℕ) : KeepsCapacity (readFixed w) :=
  (read_keepsCapacity w).bind fun _ => KeepsCapacity.get.bind fun _ => .pure _

theorem readLen_keepsCapacity (fmt : StringFormat) : KeepsCapacity fmt.readLen := by
  cases fmt with
  | f16 => exact ((readFixed_keepsCapacity 2).bind fun _ => .pure _).bind fun _ => .pure _
  | f32 => exact ((readFixed_keepsCapacity 4).bind fun _ => .pure _).bind fun _ => .pure _
  | f64 => exact ((readFixed_keepsCapacity 8).bind fun _ => .pure _).bind fun _ => .pure _
  | vint => exact ((readVarintLoop_keepsCapacity 64 _ 0).bind fun _ => .pure _).bind fun _ => .pure _

/-! ## Main result -/

/-- the string `s` can be written at the end of `ba` and read back: `k` bytes of length field, then the bytes -/
structure StringFits (fmt : StringFormat) (ba : ByteArray) (s : List UInt8) : Prop where
  /-- the length fits the field -/
  len : s.length < 2 ^ fmt.bits
  /-- the field of an empty string does not end with the last block -/
  block : s = [] → let k := (fmt.lenBytes ba.endian s.length).length
    ba.position + k ≠ capacityAfter ba.baseSize ba.capacity ba.position k
  /-- addCapacity makes room for the bytes -/
  room : let k := (fmt.lenBytes ba.endian s.length).length
    ba.position + k + s.length ≤ capacityAfter ba.baseSize
      (capacityAfter ba.baseSize ba.capacity ba.position k) (ba.position + k) s.length

theorem length_lenBytes_lt (e : Endian) (fmt : StringFormat) (n : ℕ) : (fmt.lenBytes e n).length < 2 ^ 53 :=
  (codes_len e fmt n).short

/-- the bytes of `read` are as many as it was asked for -/
theorem length_read {base : ℕ} {e : Endian} {ba ba' : ByteArray} {f : Flat} {n : ℕ} {bytes : List UInt8}
    (h : Rel base e ba f) (hex : exec (read n) ba = (.ok bytes, ba')) : bytes.length = n := by
  by_cases hlong : ba.getReadSize < n
  · rw [read_too_long hlong] at hex
    cases hex
  rcases Nat.eq_zero_or_pos n with rfl | hpos
  · rw [read_zero] at hex
    cases hcur : ba.cur with
    | none => rw [hcur] at hex; cases hex
    | some i => rw [hcur] at hex; cases hex; rfl
  · have hle : n ≤ f.readSize := by rw [← h.readSize]; omega
    obtain ⟨ba'', hex', -⟩ := read_spec h hpos hle
    rw [hex'] at hex
    cases hex
    rw [Flat.readSize] at hle
    rw [Flat.read, List.length_take, List.length_drop]
    omega

/-- a write at the end appends -/
theorem Flat.write_end (data bytes : List UInt8) :
    Flat.write ⟨data, data.length⟩ bytes = ⟨data ++ bytes, (data ++ bytes).length⟩ := by
  simp [Flat.write, Overwrite.overwrite]

/-- a write at the end appends when addCapacity makes room, and dereferences a null node when it does not -/
theorem write_end_outcome {base : ℕ} {e : Endian} {ba : ByteArray} {data : List UInt8}
    (h : Rel base e ba ⟨data, data.length⟩) (bytes : List UInt8) :
    (data.length + bytes.length ≤ capacityAfter base ba.capacity data.length bytes.length ∧
      ∃ ba', exec (write bytes) ba = (.ok (), ba') ∧ Rel base e ba' ⟨data ++ bytes, (data ++ bytes).length⟩ ∧
        ba'.capacity = capacityAfter base ba.capacity data.length bytes.length) ∨
      (capacityAfter base ba.capacity data.length bytes.length < data.length + bytes.length ∧
        (exec (write bytes) ba).1 = .error .nullDeref) := by
  have hpc : data.length ≤ ba.capacity := by
    rw [← h.size]
    exact h.wf.size_le
  by_cases hz : bytes.length = 0
  · obtain rfl : bytes = [] := List.length_eq_zero_iff.1 hz
    rw [List.length_nil, capacityAfter_zero]
    exact .inl ⟨hpc, ba, by simp [write], by simpa using h, rfl⟩
  obtain ⟨ba0, hadd, h0, hcap⟩ := addCapacity_outcome h bytes.length
  by_cases hroom : data.length + bytes.length ≤ ba0.capacity
  · obtain ⟨ba', hex, hrel, hcap'⟩ := write_of_room hz hadd h0 hroom
    rw [Flat.write_end] at hrel
    exact .inl ⟨by rw [← hcap]; exact hroom, ba', hex, hrel, hcap'.trans hcap⟩
  · refine .inr ⟨by rw [← hcap]; exact not_le.1 hroom, ?_⟩
    rw [write_of_no_room hz hadd h0 (not_le.1 hroom)]

/-- the length field is written, and the capacity is the one behind its addCapacity -/
theorem writeLen_outcome {base : ℕ} {e : Endian} {ba : ByteArray} {data : List UInt8}
    (h : Rel base e ba ⟨data, data.length⟩) (fmt : StringFormat) (n : ℕ) :
    ∃ ba1, exec (fmt.writeLen n) ba = (.ok (), ba1) ∧
      Rel base e ba1 ⟨data ++ fmt.lenBytes e n, (data ++ fmt.lenBytes e n).length⟩ ∧
      ba1.capacity = capacityAfter base ba.capacity data.length (fmt.lenBytes e n).length := by
  have hcode := codes_len e fmt n
  have hpc : data.length ≤ ba.capacity := by
    rw [← h.size]
    exact h.wf.size_le
  have hbase : 0 < base := by rw [← h.base]; exact h.wf.base_pos
  have hroom := room_capacityAfter hbase hpc hcode.short
  rcases write_end_outcome h (fmt.lenBytes e n) with ⟨-, ba1, hex, hrel, hcap⟩ | ⟨hnone, -⟩
  · exact ⟨ba1, by rw [hcode.writes ba h.endian, hex], hrel, hcap⟩
  · omega

/-- behind a string written at `ba`, the length field is read back, and the bytes are next -/
theorem readLen_outcome {base : ℕ} {e : Endian} {ba2 : ByteArray} {data rest : List UInt8} {fmt : StringFormat} {n : ℕ}
    (h : Rel base e ba2 ⟨data ++ fmt.lenBytes e n ++ rest, data.length⟩) :
    ∃ ba3, exec fmt.readLen ba2 = (.ok (n % 2 ^ fmt.bits), ba3) ∧
      Rel base e ba3 ⟨data ++ fmt.lenBytes e n ++ rest, data.length + (fmt.lenBytes e n).length⟩ ∧
      ba3.capacity = ba2.capacity := by
  obtain ⟨ba3, hex, hrel⟩ := (codes_len e fmt n).reads base ba2 _ rest h (by simp)
  have hcap := readLen_keepsCapacity fmt ba2
  rw [hex] at hcap
  exact ⟨ba3, hex, hrel, hcap⟩

/-- behind a written string, setPosition to its front and the read function come to the `read` of its bytes -/
theorem readString_outcome {base : ℕ} {e : Endian} {ba2 : ByteArray} {data s : List UInt8} {fmt : StringFormat} {p : ℕ}
    (h : Rel base e ba2 ⟨data ++ fmt.lenBytes e s.length ++ s, (data ++ fmt.lenBytes e s.length ++ s).length⟩)
    (hp : data.length = p) :
    ∃ ba4, Rel base e ba4 ⟨data ++ fmt.lenBytes e s.length ++ s, (data ++ fmt.lenBytes e s.length).length⟩ ∧
      ba4.capacity = ba2.capacity ∧
      exec (do setPosition p; readString fmt) ba2 = exec (read (s.length % 2 ^ fmt.bits)) ba4 := by
  have hle : p ≤ ba2.capacity := by
    have hsize := h.size
    have hsc := h.wf.size_le
    simp only [List.length_append] at hsize
    omega
  obtain ⟨ba3, hset, h3⟩ := setPosition_spec h (v := p) (by simp only [List.length_append]; omega)
  obtain ⟨ba3', hset', -, hcap3⟩ := setPosition_outcome h hle
  rw [hset] at hset'
  cases hset'
  rw [← hp] at h3
  obtain ⟨ba4, hread, h4, hcap4⟩ := readLen_outcome h3
  rw [← List.length_append] at h4
  refine ⟨ba4, h4, hcap4.trans hcap3, ?_⟩
  rw [exec_bind_ok hset, readString_eq, exec_bind_ok hread]

/-- the rest of the buffer is read, unless it is empty and the cursor is behind the last block -/
theorem read_rest {base : ℕ} {e : Endian} {ba : ByteArray} {front s : List UInt8}
    (h : Rel base e ba ⟨front ++ s, front.length⟩) (hlast : s = [] → front.length ≠ ba.capacity) :
    ∃ ba', exec (read s.length) ba = (.ok s, ba') ∧ ba'.position = (front ++ s).length := by
  rcases Nat.eq_zero_or_pos s.length with hz | hpos
  · obtain rfl : s = [] := List.length_eq_zero_iff.1 hz
    have hlt : ba.position < ba.capacity := by
      have hle := h.wf.position_le.trans h.wf.size_le
      rw [h.pos] at hle ⊢
      exact lt_of_le_of_ne hle (hlast rfl)
    rw [List.length_nil, read_zero, (h.wf.cur_of_lt hlt).1, List.append_nil]
    exact ⟨_, rfl, h.pos⟩
  · have hle : s.length ≤ Flat.readSize ⟨front ++ s, front.length⟩ := by
      rw [Flat.readSize, List.length_append, Nat.add_sub_cancel_left]
    obtain ⟨ba', hread, h'⟩ := read_spec h hpos hle
    refine ⟨ba', ?_, ?_⟩
    · rw [hread, Flat.read]
      simp
    · rw [h'.pos, List.length_append]
      rfl

/-- a read of no bytes behind the last block dereferences a null node -/
theorem ne_capacity_of_read {base : ℕ} {e : Endian} {ba ba' : ByteArray} {front s : List UInt8}
    (h : Rel base e ba ⟨front ++ s, front.length⟩) (hex : exec (read s.length) ba = (.ok s, ba')) (hs : s = []) :
    front.length ≠ ba.capacity := by
  intro hlast
  have hnull : ba.cur = none := by
    rw [h.wf.cur, if_pos]
    rw [h.pos, hlast]
  rw [hs, List.length_nil, read_zero, hnull] at hex
  cases hex

/-- **Round trip of length-prefixed strings.** At the end of a reachable buffer a string is read back, and the cursor is
where the write left it, exactly when the string fits. -/
theorem string_round_trip_iff (base : ℕ) (hbase : 1 ≤ base) (ba : ByteArray) (h : Reachable base ba)
    (hend : ba.position = ba.size) (fmt : StringFormat) (s : List UInt8) :
    (∃ ba1 ba2, exec (writeString fmt s) ba = (.ok (), ba1) ∧
      exec (do setPosition ba.position; readString fmt) ba1 = (.ok s, ba2) ∧ ba2.position = ba1.position) ↔
      StringFits fmt ba s := by
  obtain ⟨hwf, -⟩ := h.kept hbase
  have hrel : Rel ba.baseSize ba.endian ba ⟨ba.flat.data, ba.flat.data.length⟩ := by
    have hflat : ba.flat = ⟨ba.flat.data, ba.flat.data.length⟩ := by
      rw [← hwf.rel.size, ← hend]
      rfl
    rw [← hflat]
    exact hwf.rel
  have hpos : ba.flat.data.length = ba.position := hrel.pos.symm
  set data := ba.flat.data with hdata
  set field := fmt.lenBytes ba.endian s.length with hfield
  obtain ⟨ba1, hlen, h1, hcap1⟩ := writeLen_outcome hrel fmt s.length
  rw [← hfield] at h1 hcap1
  have hlength : (data ++ field).length = ba.position + field.length := by rw [List.length_append, hpos]
  rw [hpos] at hcap1
  rw [writeString_eq]
  rcases write_end_outcome h1 s with ⟨hroom, ba2, hex, h2, hcap2⟩ | ⟨hnone, hfault⟩
  · rw [hlength, hcap1] at hroom hcap2
    obtain ⟨ba4, h4, hcap4, hback⟩ := readString_outcome h2 hpos
    -- no byte is written behind the field of an empty string
    have hlast : s = [] → ((data ++ field).length ≠ ba4.capacity ↔
        ba.position + field.length ≠ capacityAfter ba.baseSize ba.capacity ba.position field.length) := by
      intro hs
      rw [hlength, hcap4, hcap2, hs, List.length_nil, capacityAfter_zero]
    constructor
    · rintro ⟨ba2', ba5, hwrite, hread, -⟩
      rw [exec_bind_ok hlen, hex] at hwrite
      cases hwrite
      rw [hback] at hread
      have hfull : s.length = s.length % 2 ^ fmt.bits := length_read h4 hread
      rw [← hfull] at hread
      have hfits : s.length < 2 ^ fmt.bits := hfull ▸ Nat.mod_lt _ (by positivity)
      exact ⟨hfits, fun hs => (hlast hs).1 (ne_capacity_of_read h4 hread hs), hroom⟩
    · rintro ⟨hfits, hblock, -⟩
      rw [Nat.mod_eq_of_lt hfits] at hback
      obtain ⟨ba5, hread, hpos5⟩ := read_rest h4 fun hs => (hlast hs).2 (hblock hs)
      exact ⟨ba2, ba5, by rw [exec_bind_ok hlen, hex], by rw [hback, hread], hpos5.trans h2.pos.symm⟩
  · constructor
    · rintro ⟨ba2, ba5, hwrite, -, -⟩
      rw [exec_bind_ok hlen] at hwrite
      rw [hwrite] at hfault
      cases hfault
    · rintro ⟨-, -, hroom⟩
      rw [hlength, hcap1] at hnone
      exact absurd hroom (not_le.2 hnone)

/-- below 2^53 bytes there is room -/
theorem StringFits.of_short {base : ℕ} (hbase : 1 ≤ base) {ba : ByteArray} (h : Reachable base ba) {fmt : StringFormat}
    {s : List UInt8} (hlen : s.length < 2 ^ fmt.bits) (hshort : s.length < 2 ^ 53)
    (hblock : s = [] → let k := (fmt.lenBytes ba.endian s.length).length
      ba.position + k ≠ capacityAfter ba.baseSize ba.capacity ba.position k) : StringFits fmt ba s := by
  obtain ⟨hwf, -⟩ := h.kept hbase
  have hfield := room_capacityAfter hwf.base_pos (hwf.position_le.trans hwf.size_le)
    (length_lenBytes_lt ba.endian fmt s.length)
  exact ⟨hlen, hblock, room_capacityAfter hwf.base_pos hfield hshort⟩

theorem string_round_trip_example :
    (∃ ba1 ba2, exec (writeString .vint [1, 2, 3]) (ByteArray.new 2 fun _ => 0) = (.ok (), ba1) ∧
      exec (do setPosition 0; readString .vint) ba1 = (.ok [1, 2, 3], ba2) ∧ ba2.position = ba1.position) ↔
      StringFits .vint (ByteArray.new 2 fun _ => 0) [1, 2, 3] :=
  string_round_trip_iff 2 (by decide) _ (.new _) rfl .vint [1, 2, 3]

/-- **An empty string at the end of a block.** The field of writeStringF16 fills a block of two bytes, and the read
function asks for no bytes behind it. -/
theorem empty_string_faults :
    ∃ ba1, exec (writeString .f16 []) (ByteArray.new 2 fun _ => 0) = (.ok (), ba1) ∧
      (exec (do setPosition 0; readString .f16) ba1).1 = .error .nullDeref :=
  ⟨_, rfl, rfl⟩

end Sylar.Buffer

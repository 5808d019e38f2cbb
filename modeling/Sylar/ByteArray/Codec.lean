/-
The typed numbers of `ByteArray`: fixed-width integers in either byte order, varints, zigzag integers, and floating-point
values as bit patterns.

The host is little-endian (SYLAR_BYTE_ORDER), so the bytes of a value in memory are its digits to base 256, lowest
first; `float` and `double` are the words `memcpy` copies them to. A varint is read by the source's `for` loop over the
shift counts 0, 7, 14, ... below the width.

`Codes e bytes w r v` says that in byte order `e` the writer `w` appends `bytes`, and that the reader `r` returns `v` and
moves past `bytes` whatever follows them. Each pair of a write and a read function is one instance.

Results:
- `codes_fixed`, `codes_varint`, `codes_val`: every typed value is coded;
- `typed_round_trip`: any sequence of typed values written from position 0 is read back by the matching functions, for
  every block size and byte order, and nothing is left to read.
-/
import Sylar.Core.LittleEndian
import Sylar.Core.Zigzag
import Sylar.ByteArray.Refine

namespace Sylar.Buffer

open Sylar.LittleEndian

/-! ## Model -/

def SYLAR_BYTE_ORDER : Endian := .little

/-- `byteswap` of endian.h on a value of `w` bytes: bswap_16, bswap_32, bswap_64 -/
def byteswap (w v : ℕ) : ℕ := swap w v

/-- `writeFint16` .. `writeFuint64`: `v` is the value as an unsigned number of `w` bytes -/
def writeFixed (w v : ℕ) : M Unit := do
  let ba ← get
  write (memBytes w (if ba.endian ≠ SYLAR_BYTE_ORDER then byteswap w v else v))

/-- the XX macro of `readFint16` .. `readFuint64` -/
def readFixed (w : ℕ) : M ℕ := do
  let bytes ← read w
  let ba ← get
  return if ba.endian = SYLAR_BYTE_ORDER then ofMem bytes else byteswap w (ofMem bytes)

def writeFint8 (value : Int8) : M Unit := write (memBytes 1 value.toUInt8.toNat)
def writeFuint8 (value : UInt8) : M Unit := write (memBytes 1 value.toNat)
def writeFint16 (value : Int16) : M Unit := writeFixed 2 value.toUInt16.toNat
def writeFuint16 (value : UInt16) : M Unit := writeFixed 2 value.toNat
def writeFint32 (value : Int32) : M Unit := writeFixed 4 value.toUInt32.toNat
def writeFuint32 (value : UInt32) : M Unit := writeFixed 4 value.toNat
def writeFint64 (value : Int64) : M Unit := writeFixed 8 value.toUInt64.toNat
def writeFuint64 (value : UInt64) : M Unit := writeFixed 8 value.toNat

def readFint8 : M Int8 := do return (UInt8.ofNat (ofMem (← read 1))).toInt8
def readFuint8 : M UInt8 := do return UInt8.ofNat (ofMem (← read 1))
def readFint16 : M Int16 := do return (UInt16.ofNat (← readFixed 2)).toInt16
def readFuint16 : M UInt16 := do return UInt16.ofNat (← readFixed 2)
def readFint32 : M Int32 := do return (UInt32.ofNat (← readFixed 4)).toInt32
def readFuint32 : M UInt32 := do return UInt32.ofNat (← readFixed 4)
def readFint64 : M Int64 := do return (UInt64.ofNat (← readFixed 8)).toInt64
def readFuint64 : M UInt64 := do return UInt64.ofNat (← readFixed 8)

/-- `EncodeZigzag32`, the signed operations in two's complement -/
def encodeZigzag32 (v : Int32) : UInt32 := if v < 0 then (-v).toUInt32 * 2 - 1 else (v * 2).toUInt32

def encodeZigzag64 (v : Int64) : UInt64 := if v < 0 then (-v).toUInt64 * 2 - 1 else (v * 2).toUInt64

def decodeZigzag32 (v : UInt32) : Int32 := ((v >>> 1) ^^^ -(v &&& 1)).toInt32

def decodeZigzag64 (v : UInt64) : Int64 := ((v >>> 1) ^^^ -(v &&& 1)).toInt64

/-- the bytes `writeUint32` and `writeUint64` collect in `tmp` -/
def varint (value : ℕ) : List UInt8 :=
  if value ≥ 0x80 then UInt8.ofNat ((value &&& 0x7F) ||| 0x80) :: varint (value >>> 7) else [UInt8.ofNat value]
termination_by value
decreasing_by rw [Nat.shiftRight_eq_div_pow]; omega

/-- the values of `i` in `for(int i = 0; i < bits; i += 7)` -/
def shifts (bits : ℕ) : List ℕ := (List.range ((bits + 6) / 7)).map (7 * ·)

/-- the loop of `readUint32` and `readUint64` on a result of `bits` bits -/
def readVarintLoop (bits : ℕ) : List ℕ → ℕ → M ℕ
  | [], result => return result
  | i :: is, result => do
    let b ← readFuint8
    if b < 0x80 then return result ||| (b.toNat <<< i) % 2 ^ bits
    else readVarintLoop bits is (result ||| ((b &&& 0x7f).toNat <<< i) % 2 ^ bits)

def writeUint32 (value : UInt32) : M Unit := write (varint value.toNat)
def writeUint64 (value : UInt64) : M Unit := write (varint value.toNat)
def writeInt32 (value : Int32) : M Unit := writeUint32 (encodeZigzag32 value)
def writeInt64 (value : Int64) : M Unit := writeUint64 (encodeZigzag64 value)

def readUint32 : M UInt32 := do return UInt32.ofNat (← readVarintLoop 32 (shifts 32) 0)
def readUint64 : M UInt64 := do return UInt64.ofNat (← readVarintLoop 64 (shifts 64) 0)
def readInt32 : M Int32 := do return decodeZigzag32 (← readUint32)
def readInt64 : M Int64 := do return decodeZigzag64 (← readUint64)

/-- the argument is the bit pattern of the float -/
def writeFloat (value : UInt32) : M Unit := writeFuint32 value

/-- the argument is the bit pattern of the double -/
def writeDouble (value : UInt64) : M Unit := writeFuint64 value

def readFloat : M UInt32 := readFuint32
def readDouble : M UInt64 := readFuint64

/-! ## Coded values -/

/-- in byte order `e`, `w` appends `bytes`, and `r` returns `v` from them and moves past them -/
structure Codes {α : Type} (e : Endian) (bytes : List UInt8) (w : M Unit) (r : M α) (v : α) : Prop where
  short : bytes.length < 2 ^ 53
  writes : ∀ ba : ByteArray, ba.endian = e → exec w ba = exec (write bytes) ba
  reads : ∀ base ba f rest, Rel base e ba f → f.data.drop f.pos = bytes ++ rest →
    ∃ ba', exec r ba = (.ok v, ba') ∧ Rel base e ba' (f.skip bytes.length)

/-- a reader that converts what another one returns -/
theorem Codes.map {α β : Type} {e : Endian} {bytes : List UInt8} {w : M Unit} {r : M α} {v : α}
    (h : Codes e bytes w r v) (g : α → β) {u : β} (hu : g v = u) : Codes e bytes w (do return g (← r)) u := by
  refine ⟨h.short, h.writes, fun base ba f rest hrel hdata => ?_⟩
  obtain ⟨ba', hex, hrel'⟩ := h.reads base ba f rest hrel hdata
  exact ⟨ba', by rw [exec_bind_ok hex, exec_pure, hu], hrel'⟩

/-- the readable bytes of a flat buffer that holds `bytes` at the cursor -/
theorem Flat.read_of_drop {f : Flat} {bytes rest : List UInt8} (h : f.data.drop f.pos = bytes ++ rest) :
    bytes.length ≤ f.readSize ∧ f.read bytes.length = bytes := by
  have hlen := congrArg List.length h
  simp only [List.length_drop, List.length_append] at hlen
  exact ⟨by rw [Flat.readSize]; omega, by rw [Flat.read, h, List.take_left]⟩

theorem read_coded {base : ℕ} {e : Endian} {ba : ByteArray} {f : Flat} {bytes rest : List UInt8}
    (hrel : Rel base e ba f) (hpos : 0 < bytes.length) (hdata : f.data.drop f.pos = bytes ++ rest) :
    ∃ ba', exec (read bytes.length) ba = (.ok bytes, ba') ∧ Rel base e ba' (f.skip bytes.length) := by
  obtain ⟨hle, hread⟩ := Flat.read_of_drop hdata
  obtain ⟨ba', hex, hrel'⟩ := read_spec hrel hpos hle
  exact ⟨ba', by rw [hex, hread], hrel'⟩

/-- the bytes of a fixed-width value in byte order `e` -/
def fixedBytes (e : Endian) (w v : ℕ) : List UInt8 := memBytes w (if e ≠ SYLAR_BYTE_ORDER then byteswap w v else v)

theorem codes_fixed (e : Endian) {w v : ℕ} (hw : 0 < w) (hw' : w < 2 ^ 53) (hv : v < 256 ^ w) :
    Codes e (fixedBytes e w v) (writeFixed w v) (readFixed w) v := by
  refine ⟨by simpa [fixedBytes] using hw', fun ba he => ?_, fun base ba f rest hrel hdata => ?_⟩
  · rw [writeFixed, exec_bind_ok (exec_get ba), he, fixedBytes]
  · have hlen : (fixedBytes e w v).length = w := by simp [fixedBytes]
    obtain ⟨ba', hex, hrel'⟩ := read_coded hrel (by omega) hdata
    rw [hlen] at hex
    refine ⟨ba', ?_, hrel'⟩
    rw [readFixed, exec_bind_ok hex, exec_bind_ok (exec_get ba'), exec_pure, hrel'.endian]
    by_cases he : e = SYLAR_BYTE_ORDER
    · rw [if_pos he, fixedBytes, if_neg (by simp [he]), ofMem_memBytes, Nat.mod_eq_of_lt hv]
    · -- the value was swapped on the way out and is swapped again
      have hback : byteswap w (ofMem (fixedBytes e w v)) = v := by
        rw [fixedBytes, if_pos he, ofMem_memBytes, byteswap, byteswap, swap, memBytes_mod, ← swap, swap_swap,
          Nat.mod_eq_of_lt hv]
      rw [if_neg he, hback]

/-- `readFuint8` returns the byte at the cursor -/
theorem readFuint8_spec {base : ℕ} {e : Endian} {ba : ByteArray} {f : Flat} {b : UInt8} {rest : List UInt8}
    (hrel : Rel base e ba f) (hdata : f.data.drop f.pos = b :: rest) :
    ∃ ba', exec readFuint8 ba = (.ok b, ba') ∧ Rel base e ba' (f.skip 1) := by
  obtain ⟨ba', hex, hrel'⟩ : ∃ ba', exec (read 1) ba = (.ok [b], ba') ∧ Rel base e ba' (f.skip 1) :=
    @read_coded base e ba f [b] rest hrel (by simp) hdata
  refine ⟨ba', ?_, hrel'⟩
  have hb : UInt8.ofNat (ofMem [b]) = b := by simp [ofMem]
  rw [readFuint8, exec_bind_ok hex, exec_pure, hb]

theorem codes_byte (e : Endian) (v : UInt8) : Codes e (memBytes 1 v.toNat) (writeFuint8 v) readFuint8 v := by
  refine ⟨by simp, fun ba _ => rfl, fun base ba f rest hrel hdata => ?_⟩
  exact readFuint8_spec hrel (by simpa [memBytes] using hdata)

/-! ## Varints -/

theorem varint_small {v : ℕ} (h : v < 0x80) : varint v = [UInt8.ofNat v] := by
  rw [varint, if_neg (by omega)]

theorem varint_big {v : ℕ} (h : 0x80 ≤ v) : varint v = UInt8.ofNat (v % 128 + 128) :: varint (v / 128) := by
  have hor : (v &&& 0x7F) ||| 0x80 = v % 128 + 128 := by
    have hand : v &&& 0x7F = v % 128 := Nat.and_two_pow_sub_one_eq_mod v 7
    have hlt := Nat.mod_lt v (show 0 < 128 by norm_num)
    have hadd := Nat.two_pow_add_eq_or_of_lt (show v % 128 < 2 ^ 7 by omega) 1
    rw [hand, Nat.or_comm]
    norm_num at hadd ⊢
    omega
  rw [varint, if_pos h, hor, Nat.shiftRight_eq_div_pow]

theorem length_varint {v n : ℕ} (hv : v < 2 ^ (7 * n)) (hn : 0 < n) : (varint v).length ≤ n := by
  induction v using Nat.strongRecOn generalizing n with
  | ind v ih =>
    by_cases h : v < 0x80
    · rw [varint_small h]; exact hn
    · have hbig : 2 ^ 7 ≤ v := by omega
      obtain ⟨m, rfl⟩ : ∃ m, n = m + 2 := by
        refine ⟨n - 2, ?_⟩
        by_contra hne
        have hone : n = 1 := by omega
        subst hone
        omega
      have hsplit : 2 ^ (7 * (m + 2)) = 2 ^ (7 * (m + 1)) * 128 := by
        rw [show 7 * (m + 2) = 7 * (m + 1) + 7 by ring, pow_add]; norm_num
      have hrec := @ih (v / 128) (by omega) (m + 1) (Nat.div_lt_of_lt_mul (by omega)) (by omega)
      rw [varint_big (by omega)]
      simp only [List.length_cons]
      omega

/-- or-ing a seven-bit group above the bits collected so far -/
theorem or_group {acc x k bits : ℕ} (hacc : acc < 2 ^ (7 * k)) (hx : x * 2 ^ (7 * k) < 2 ^ bits) :
    acc ||| (x <<< (7 * k)) % 2 ^ bits = acc + x * 2 ^ (7 * k) := by
  rw [Nat.shiftLeft_eq, Nat.mod_eq_of_lt hx, Nat.or_comm, mul_comm, ← Nat.two_pow_add_eq_or_of_lt hacc]
  omega

/-- the loop from group `k` on: `v` is what is left of the value, `acc` the groups read so far -/
theorem readVarintLoop_spec {base : ℕ} {e : Endian} (bits m k v acc : ℕ) {ba : ByteArray} {f : Flat}
    {rest : List UInt8} (hkm : k + m = (bits + 6) / 7) (hm : 0 < m) (hv : v * 2 ^ (7 * k) < 2 ^ bits)
    (hacc : acc < 2 ^ (7 * k)) (hrel : Rel base e ba f) (hdata : f.data.drop f.pos = varint v ++ rest) :
    ∃ ba', exec (readVarintLoop bits ((List.range' k m).map (7 * ·)) acc) ba = (.ok (acc + v * 2 ^ (7 * k)), ba') ∧
      Rel base e ba' (f.skip (varint v).length) := by
  induction m generalizing k v acc ba f with
  | zero => exact absurd hm (by omega)
  | succ m ih =>
    rw [List.range'_succ, List.map_cons, readVarintLoop]
    by_cases hsmall : v < 0x80
    · rw [varint_small hsmall] at hdata ⊢
      obtain ⟨ba', hex, hrel'⟩ := readFuint8_spec hrel hdata
      have htoNat : (UInt8.ofNat v).toNat = v := by simp; omega
      have hlt : UInt8.ofNat v < 0x80 := by rw [UInt8.lt_iff_toNat_lt, htoNat]; exact hsmall
      refine ⟨ba', ?_, hrel'⟩
      rw [exec_bind_ok hex, if_pos hlt, exec_pure, htoNat, or_group hacc hv]
    · have hbig : 0x80 ≤ v := by omega
      rw [varint_big hbig] at hdata ⊢
      obtain ⟨ba1, hex1, hrel1⟩ := readFuint8_spec hrel hdata
      have hmod := Nat.mod_lt v (show 0 < 128 by norm_num)
      have htoNat : (UInt8.ofNat (v % 128 + 128)).toNat = v % 128 + 128 := by simp; omega
      have hge : ¬ UInt8.ofNat (v % 128 + 128) < 0x80 := by
        rw [UInt8.lt_iff_toNat_lt, htoNat]
        exact not_lt.2 (Nat.le_add_left _ _)
      have hgroup : (UInt8.ofNat (v % 128 + 128) &&& 0x7f).toNat = v % 128 := by
        rw [UInt8.toNat_and, htoNat]
        change (v % 128 + 128) &&& (2 ^ 7 - 1) = v % 128
        rw [Nat.and_two_pow_sub_one_eq_mod]
        omega
      have hdm := Nat.div_add_mod v 128
      have hpow : 2 ^ (7 * (k + 1)) = 2 ^ (7 * k) * 128 := by
        rw [show 7 * (k + 1) = 7 * k + 7 by ring, pow_add]; norm_num
      have hsplit : v * 2 ^ (7 * k) = v % 128 * 2 ^ (7 * k) + v / 128 * 2 ^ (7 * (k + 1)) := by
        rw [hpow]
        calc v * 2 ^ (7 * k) = (128 * (v / 128) + v % 128) * 2 ^ (7 * k) := by rw [hdm]
          _ = _ := by ring
      have hlow : v % 128 * 2 ^ (7 * k) < 2 ^ bits := by omega
      have hacc' : acc + v % 128 * 2 ^ (7 * k) < 2 ^ (7 * (k + 1)) := by
        rw [hpow]
        have : (v % 128 + 1) * 2 ^ (7 * k) ≤ 128 * 2 ^ (7 * k) := Nat.mul_le_mul_right _ (by omega)
        rw [Nat.add_mul] at this
        omega
      -- a non-zero rest of the value leaves room for another group
      have hm : 0 < m := by
        by_contra hm0
        have hbits : bits ≤ 7 * (k + 1) := by omega
        have h1 : 2 ^ bits ≤ 2 ^ (7 * (k + 1)) := Nat.pow_le_pow_right (by norm_num) hbits
        have h2 : 1 * 2 ^ (7 * (k + 1)) ≤ v / 128 * 2 ^ (7 * (k + 1)) := Nat.mul_le_mul_right _ (by omega)
        omega
      have hdata1 : (f.skip 1).data.drop (f.skip 1).pos = varint (v / 128) ++ rest := by
        simp only [Flat.skip]
        rw [← List.drop_drop, hdata]
        rfl
      obtain ⟨ba2, hex2, hrel2⟩ := ih (k + 1) (v / 128) _ (by omega) hm (by omega) hacc' hrel1 hdata1
      refine ⟨ba2, ?_, ?_⟩
      · rw [exec_bind_ok hex1, if_neg hge, hgroup, or_group hacc hlow, hex2, hsplit, Nat.add_assoc]
      · simpa [Flat.skip, Nat.add_assoc, Nat.add_comm 1] using hrel2

theorem codes_varint (e : Endian) {bits v : ℕ} (hbits : 0 < bits) (hv : v < 2 ^ bits) (hlen : (varint v).length < 2 ^ 53) :
    Codes e (varint v) (write (varint v)) (readVarintLoop bits (shifts bits) 0) v := by
  refine ⟨hlen, fun ba _ => rfl, fun base ba f rest hrel hdata => ?_⟩
  obtain ⟨ba', hex, hrel'⟩ := readVarintLoop_spec bits ((bits + 6) / 7) 0 v 0 (by omega) (by omega) (by simpa using hv)
    (by simp) hrel hdata
  refine ⟨ba', ?_, hrel'⟩
  rw [shifts, List.range_eq_range', hex]
  simp

/-! ## The typed values -/

theorem encodeZigzag32_eq (v : Int32) : (encodeZigzag32 v).toBitVec = Zigzag.encode v.toBitVec := by
  unfold encodeZigzag32 Zigzag.encode
  simp only [Int32.lt_iff_toBitVec_slt]
  split <;> simp_all

theorem encodeZigzag64_eq (v : Int64) : (encodeZigzag64 v).toBitVec = Zigzag.encode v.toBitVec := by
  unfold encodeZigzag64 Zigzag.encode
  simp only [Int64.lt_iff_toBitVec_slt]
  split <;> simp_all

theorem decodeZigzag32_encodeZigzag32 (v : Int32) : decodeZigzag32 (encodeZigzag32 v) = v := by
  have hdec : ∀ u : UInt32, (decodeZigzag32 u).toBitVec = Zigzag.decode u.toBitVec := by
    intro u; simp [decodeZigzag32, Zigzag.decode]
  apply Int32.toBitVec_inj.1
  rw [hdec, encodeZigzag32_eq, Zigzag.decode_encode (by norm_num)]

theorem decodeZigzag64_encodeZigzag64 (v : Int64) : decodeZigzag64 (encodeZigzag64 v) = v := by
  have hdec : ∀ u : UInt64, (decodeZigzag64 u).toBitVec = Zigzag.decode u.toBitVec := by
    intro u; simp [decodeZigzag64, Zigzag.decode]
  apply Int64.toBitVec_inj.1
  rw [hdec, encodeZigzag64_eq, Zigzag.decode_encode (by norm_num)]

/-- the write and read functions of the interface, by the suffix of their names -/
inductive Kind where
  | fint8
  | fuint8
  | fint16
  | fuint16
  | fint32
  | fuint32
  | fint64
  | fuint64
  | int32
  | uint32
  | int64
  | uint64
  | float
  | double
deriving DecidableEq, Repr

/-- the values a pair of functions takes -/
def Val : Kind → Type
  | .fint8 => Int8
  | .fuint8 => UInt8
  | .fint16 => Int16
  | .fuint16 => UInt16
  | .fint32 | .int32 => Int32
  | .fuint32 | .uint32 | .float => UInt32
  | .fint64 | .int64 => Int64
  | .fuint64 | .uint64 | .double => UInt64

def writeVal : (k : Kind) → Val k → M Unit
  | .fint8, v => writeFint8 v
  | .fuint8, v => writeFuint8 v
  | .fint16, v => writeFint16 v
  | .fuint16, v => writeFuint16 v
  | .fint32, v => writeFint32 v
  | .fuint32, v => writeFuint32 v
  | .fint64, v => writeFint64 v
  | .fuint64, v => writeFuint64 v
  | .int32, v => writeInt32 v
  | .uint32, v => writeUint32 v
  | .int64, v => writeInt64 v
  | .uint64, v => writeUint64 v
  | .float, v => writeFloat v
  | .double, v => writeDouble v

def readVal : (k : Kind) → M (Val k)
  | .fint8 => readFint8
  | .fuint8 => readFuint8
  | .fint16 => readFint16
  | .fuint16 => readFuint16
  | .fint32 => readFint32
  | .fuint32 => readFuint32
  | .fint64 => readFint64
  | .fuint64 => readFuint64
  | .int32 => readInt32
  | .uint32 => readUint32
  | .int64 => readInt64
  | .uint64 => readUint64
  | .float => readFloat
  | .double => readDouble

/-- the bytes of a typed value -/
def encode (e : Endian) : (k : Kind) → Val k → List UInt8
  | .fint8, (v : Int8) => memBytes 1 v.toUInt8.toNat
  | .fuint8, (v : UInt8) => memBytes 1 v.toNat
  | .fint16, (v : Int16) => fixedBytes e 2 v.toUInt16.toNat
  | .fuint16, (v : UInt16) => fixedBytes e 2 v.toNat
  | .fint32, (v : Int32) => fixedBytes e 4 v.toUInt32.toNat
  | .fuint32, (v : UInt32) | .float, (v : UInt32) => fixedBytes e 4 v.toNat
  | .fint64, (v : Int64) => fixedBytes e 8 v.toUInt64.toNat
  | .fuint64, (v : UInt64) | .double, (v : UInt64) => fixedBytes e 8 v.toNat
  | .int32, (v : Int32) => varint (encodeZigzag32 v).toNat
  | .uint32, (v : UInt32) => varint v.toNat
  | .int64, (v : Int64) => varint (encodeZigzag64 v).toNat
  | .uint64, (v : UInt64) => varint v.toNat

theorem codes_fixed16 (e : Endian) (v : UInt16) : Codes e (fixedBytes e 2 v.toNat) (writeFixed 2 v.toNat) (readFixed 2) v.toNat :=
  codes_fixed e (by norm_num) (by norm_num) (by have := v.toNat_lt; norm_num at this ⊢; exact this)

theorem codes_fixed32 (e : Endian) (v : UInt32) : Codes e (fixedBytes e 4 v.toNat) (writeFixed 4 v.toNat) (readFixed 4) v.toNat :=
  codes_fixed e (by norm_num) (by norm_num) (by have := v.toNat_lt; norm_num at this ⊢; exact this)

theorem codes_fixed64 (e : Endian) (v : UInt64) : Codes e (fixedBytes e 8 v.toNat) (writeFixed 8 v.toNat) (readFixed 8) v.toNat :=
  codes_fixed e (by norm_num) (by norm_num) (by have := v.toNat_lt; norm_num at this ⊢; exact this)

theorem codes_uint32 (e : Endian) (v : UInt32) : Codes e (varint v.toNat) (writeUint32 v) readUint32 v := by
  have hlen : (varint v.toNat).length ≤ 5 := length_varint (v.toNat_lt.trans (by norm_num)) (by norm_num)
  exact (codes_varint e (by norm_num) v.toNat_lt (by omega)).map _ (by simp)

theorem codes_uint64 (e : Endian) (v : UInt64) : Codes e (varint v.toNat) (writeUint64 v) readUint64 v := by
  have hlen : (varint v.toNat).length ≤ 10 := length_varint (v.toNat_lt.trans (by norm_num)) (by norm_num)
  exact (codes_varint e (by norm_num) v.toNat_lt (by omega)).map _ (by simp)

theorem codes_fint8 (e : Endian) (v : Int8) : Codes e (memBytes 1 v.toUInt8.toNat) (writeFint8 v) readFint8 v := by
  have h := codes_byte e v.toUInt8
  refine ⟨h.short, fun ba _ => rfl, fun base ba f rest hrel hdata => ?_⟩
  obtain ⟨ba', hex, hrel'⟩ := h.reads base ba f rest hrel hdata
  have hcast : exec readFint8 ba = exec (do return (← readFuint8).toInt8) ba := by
    simp only [readFint8, readFuint8, bind_assoc, pure_bind]
  refine ⟨ba', ?_, hrel'⟩
  rw [hcast, exec_bind_ok hex, exec_pure, Int8.toInt8_toUInt8]

theorem codes_fuint16 (e : Endian) (v : UInt16) : Codes e (fixedBytes e 2 v.toNat) (writeFuint16 v) readFuint16 v :=
  (codes_fixed16 e v).map _ UInt16.ofNat_toNat

theorem codes_fint16 (e : Endian) (v : Int16) :
    Codes e (fixedBytes e 2 v.toUInt16.toNat) (writeFint16 v) readFint16 v :=
  (codes_fixed16 e v.toUInt16).map _ (by simp)

theorem codes_fuint32 (e : Endian) (v : UInt32) : Codes e (fixedBytes e 4 v.toNat) (writeFuint32 v) readFuint32 v :=
  (codes_fixed32 e v).map _ UInt32.ofNat_toNat

theorem codes_fint32 (e : Endian) (v : Int32) :
    Codes e (fixedBytes e 4 v.toUInt32.toNat) (writeFint32 v) readFint32 v :=
  (codes_fixed32 e v.toUInt32).map _ (by simp)

theorem codes_fuint64 (e : Endian) (v : UInt64) : Codes e (fixedBytes e 8 v.toNat) (writeFuint64 v) readFuint64 v :=
  (codes_fixed64 e v).map _ UInt64.ofNat_toNat

theorem codes_fint64 (e : Endian) (v : Int64) :
    Codes e (fixedBytes e 8 v.toUInt64.toNat) (writeFint64 v) readFint64 v :=
  (codes_fixed64 e v.toUInt64).map _ (by simp)

/-- every typed value is coded by its bytes -/
theorem codes_val (e : Endian) : ∀ (k : Kind) (v : Val k), Codes e (encode e k v) (writeVal k v) (readVal k) v
  | .fint8, v => codes_fint8 e v
  | .fuint8, v => codes_byte e v
  | .fint16, v => codes_fint16 e v
  | .fuint16, v => codes_fuint16 e v
  | .fint32, v => codes_fint32 e v
  | .fuint32, v => codes_fuint32 e v
  | .fint64, v => codes_fint64 e v
  | .fuint64, v => codes_fuint64 e v
  | .int32, v => (codes_uint32 e (encodeZigzag32 v)).map _ (decodeZigzag32_encodeZigzag32 v)
  | .uint32, v => codes_uint32 e v
  | .int64, v => (codes_uint64 e (encodeZigzag64 v)).map _ (decodeZigzag64_encodeZigzag64 v)
  | .uint64, v => codes_uint64 e v
  | .float, v => codes_fuint32 e v
  | .double, v => codes_fuint64 e v

/-! ## Sequences of values -/

/-- a value with the function it is written by -/
abbrev Item : Type := (k : Kind) × Val k

def writeAll (items : List Item) : M Unit := items.forM fun x => writeVal x.1 x.2

/-- read one value with each function, in order -/
def readAll (kinds : List Kind) : M (List Item) :=
  kinds.mapM fun k => do return ⟨k, ← readVal k⟩

/-- the bytes of a sequence of values -/
def encodeAll (e : Endian) (items : List Item) : List UInt8 := items.flatMap fun x => encode e x.1 x.2

theorem writeAll_spec {base : ℕ} {e : Endian} (items : List Item) {ba : ByteArray} {data : List UInt8}
    (hrel : Rel base e ba ⟨data, data.length⟩) :
    ∃ ba', exec (writeAll items) ba = (.ok (), ba') ∧
      Rel base e ba' ⟨data ++ encodeAll e items, (data ++ encodeAll e items).length⟩ := by
  induction items generalizing ba data with
  | nil => exact ⟨ba, rfl, by simpa [encodeAll] using hrel⟩
  | cons x items ih =>
    have hcode := codes_val e x.1 x.2
    obtain ⟨ba1, hex1, hrel1⟩ := write_spec hrel hcode.short
    have hend : Flat.write ⟨data, data.length⟩ (encode e x.1 x.2) =
        ⟨data ++ encode e x.1 x.2, (data ++ encode e x.1 x.2).length⟩ := by
      simp [Flat.write, Overwrite.overwrite]
    rw [hend] at hrel1
    obtain ⟨ba2, hex2, hrel2⟩ := ih hrel1
    refine ⟨ba2, ?_, ?_⟩
    · rw [← hcode.writes ba hrel.endian] at hex1
      change exec (writeVal x.1 x.2 >>= fun _ => writeAll items) ba = _
      rw [exec_bind_ok hex1, hex2]
    · simpa [encodeAll] using hrel2

theorem readAll_spec {base : ℕ} {e : Endian} (items : List Item) {ba : ByteArray} {f : Flat} (hrel : Rel base e ba f)
    (hdata : f.data.drop f.pos = encodeAll e items) :
    ∃ ba', exec (readAll (items.map Sigma.fst)) ba = (.ok items, ba') ∧
      Rel base e ba' (f.skip (encodeAll e items).length) := by
  induction items generalizing ba f with
  | nil => exact ⟨ba, rfl, by simpa [encodeAll, Flat.skip] using hrel⟩
  | cons x items ih =>
    have hsplit : encodeAll e (x :: items) = encode e x.1 x.2 ++ encodeAll e items := rfl
    rw [hsplit] at hdata ⊢
    obtain ⟨ba1, hex1, hrel1⟩ := (codes_val e x.1 x.2).reads base ba f _ hrel hdata
    have hrest : (f.skip (encode e x.1 x.2).length).data.drop (f.skip (encode e x.1 x.2).length).pos =
        encodeAll e items := by
      simp only [Flat.skip]
      rw [← List.drop_drop, hdata, List.drop_left]
    obtain ⟨ba2, hex2, hrel2⟩ := ih hrel1 hrest
    refine ⟨ba2, ?_, ?_⟩
    · simp only [readAll, List.map_cons, List.mapM_cons, bind_assoc, pure_bind] at hex2 ⊢
      rw [exec_bind_ok hex1, exec_bind_ok hex2, exec_pure]
    · simpa [Flat.skip, Nat.add_assoc] using hrel2

/-- write the values from position 0, go back, and read with the matching functions -/
def roundTrip (little : Bool) (items : List Item) : M (List Item) := do
  setIsLittleEndian little
  writeAll items
  setPosition 0
  readAll (items.map Sigma.fst)

/-- **Round trip of typed numbers.** For every block size and byte order, any mix of typed values is read back by the
matching functions in the same order, and nothing is left to read. -/
theorem typed_round_trip (base : ℕ) (hpos : 1 ≤ base) (mem : ℕ → UInt8) (little : Bool) (items : List Item) :
    ∃ ba, exec (roundTrip little items) (ByteArray.new base mem) = (.ok items, ba) ∧ ba.getReadSize = 0 := by
  obtain ⟨ba1, hex1, hrel1⟩ := setIsLittleEndian_spec (new_rel hpos mem) little
  obtain ⟨ba2, hex2, hrel2⟩ := writeAll_spec items hrel1
  obtain ⟨ba3, hex3, hrel3⟩ := setPosition_spec hrel2 (Nat.zero_le _)
  obtain ⟨ba4, hex4, hrel4⟩ := readAll_spec items hrel3 (by simp)
  refine ⟨ba4, ?_, ?_⟩
  · rw [roundTrip, exec_bind_ok hex1, exec_bind_ok hex2, exec_bind_ok hex3, hex4]
  · rw [hrel4.readSize]
    simp [Flat.readSize, Flat.skip]

/-- the smallest values, in blocks of one byte and in the host's byte order -/
theorem typed_round_trip_example :
    ∃ ba, exec (roundTrip true [⟨.int32, Int32.minValue⟩, ⟨.fint16, Int16.minValue⟩, ⟨.uint64, (300 : UInt64)⟩])
        (ByteArray.new 1 fun _ => 0) =
      (.ok [⟨.int32, Int32.minValue⟩, ⟨.fint16, Int16.minValue⟩, ⟨.uint64, (300 : UInt64)⟩], ba) ∧ ba.getReadSize = 0 :=
  typed_round_trip 1 (by decide) (fun _ => 0) true _

end Sylar.Buffer

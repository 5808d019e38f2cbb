/-
The typed reads of `ByteArray` on too few bytes: which of them throw, and what is left to read afterwards.

A typed read is one of the number functions or of the string functions. A number is laid out in a `Shape`: a fixed number
of bytes, or a varint of seven bits a byte. `Shape.split` is the number at the front of some bytes with what is behind
it, without a cursor. `Decodes s x g` says that the reader `x` does the same at the cursor, and how far it has come when
the bytes end too early: not at all for fixed bytes, up to the end for a varint.

`buff.resize(len)` of the string functions is not modelled: with no memory for a length that is too large, it throws
another exception in place of the out_of_range of the `read` behind it.

Results:
- `decodes_fixed`, `decodes_varint`: the two kinds of readers;
- `kind_decodes`, `readLen_decodes`: the functions of the interface;
- `failsCleanly_iff`: a typed read throws exactly on too few bytes, and it leaves the cursor where it was exactly when not
  even the first part of the item is there: a fixed number whole, a varint's first byte.
-/
import Sylar.ByteArray.Strings

namespace Sylar.Buffer

open Sylar.LittleEndian

/-! ## What a typed read needs -/

/-- the layout of a number -/
inductive Shape where
  | fixed (w : ℕ)
  | varint (bits : ℕ)
deriving DecidableEq, Repr

/-- the number in fixed bytes, in byte order `e` -/
def fixedValue (e : Endian) (bytes : List UInt8) : ℕ := ofMem (if e = SYLAR_BYTE_ORDER then bytes else bytes.reverse)

/-- the number in a varint of at most `n` bytes, and the bytes behind it -/
def varintSplit : ℕ → List UInt8 → Option (ℕ × List UInt8)
  | 0, bytes => some (0, bytes)
  | _ + 1, [] => none
  | n + 1, b :: bs =>
    if b < 0x80 then some (b.toNat, bs)
    else (varintSplit n bs).map fun (v, rest) => (b.toNat % 128 + 128 * v, rest)

namespace Shape

/-- the most bytes of a varint -/
def groups (bits : ℕ) : ℕ := (bits + 6) / 7

/-- the number at the front and the bytes behind it -/
def split (e : Endian) : Shape → List UInt8 → Option (ℕ × List UInt8)
  | fixed w, bytes => if bytes.length < w then none else some (fixedValue e (bytes.take w), bytes.drop w)
  | varint bits, bytes => (varintSplit (groups bits) bytes).map fun (v, rest) => (v % 2 ^ bits, rest)

/-- too few bytes; a varint is not terminated -/
def Short : Shape → List UInt8 → Prop
  | fixed w, bytes => bytes.length < w
  | varint bits, bytes => bytes.length < groups bits ∧ ∀ b ∈ bytes, 0x80 ≤ b

/-- the bytes of the first primitive read -/
def first : Shape → ℕ
  | fixed w => w
  | varint _ => 1

/-- how far a read of too few bytes moves the cursor -/
def lost : Shape → List UInt8 → ℕ
  | fixed _, _ => 0
  | varint _, bytes => bytes.length

end Shape

def Kind.shape : Kind → Shape
  | .fint8 | .fuint8 => .fixed 1
  | .fint16 | .fuint16 => .fixed 2
  | .fint32 | .fuint32 | .float => .fixed 4
  | .fint64 | .fuint64 | .double => .fixed 8
  | .int32 | .uint32 => .varint 32
  | .int64 | .uint64 => .varint 64

/-- the layout of the length prefix -/
def StringFormat.shape : StringFormat → Shape
  | .f16 => .fixed 2
  | .f32 => .fixed 4
  | .f64 => .fixed 8
  | .vint => .varint 64

/-- the read functions of the interface -/
inductive TypedRead where
  | val (k : Kind)
  | string (fmt : StringFormat)
deriving DecidableEq, Repr

namespace TypedRead

def perform : TypedRead → M Unit
  | val k => do let _ ← readVal k
  | string fmt => do let _ ← readString fmt

/-- the item does not lie in the bytes: the number is too short, or the length prefix is, or it says more than what is
behind it -/
def TooShort (e : Endian) : TypedRead → List UInt8 → Prop
  | val k, bytes => k.shape.Short bytes
  | string fmt, bytes => fmt.shape.Short bytes ∨ ∃ len rest, fmt.shape.split e bytes = some (len, rest) ∧ rest.length < len

/-- the layout of what is read first -/
def head : TypedRead → Shape
  | val k => k.shape
  | string fmt => fmt.shape

end TypedRead

/-! ## The layouts -/

theorem varintSplit_eq_none {n : ℕ} {bytes : List UInt8} :
    varintSplit n bytes = none ↔ bytes.length < n ∧ ∀ b ∈ bytes, 0x80 ≤ b := by
  induction n generalizing bytes with
  | zero => simp [varintSplit]
  | succ n ih =>
    cases bytes with
    | nil => simp [varintSplit]
    | cons b bs =>
      by_cases hb : b < 0x80
      · simp only [varintSplit, if_pos hb]
        refine iff_of_false (by simp) fun hlong => ?_
        exact absurd (hlong.2 b List.mem_cons_self) (UInt8.not_le.2 hb)
      · simp only [varintSplit, if_neg hb, Option.map_eq_none_iff, ih, List.length_cons, List.forall_mem_cons]
        have hge := UInt8.not_lt.1 hb
        constructor
        · rintro ⟨hlen, hall⟩
          exact ⟨by omega, hge, hall⟩
        · rintro ⟨hlen, -, hall⟩
          exact ⟨by omega, hall⟩

theorem split_eq_none {e : Endian} {s : Shape} {bytes : List UInt8} : s.split e bytes = none ↔ s.Short bytes := by
  cases s with
  | fixed w => simp [Shape.split, Shape.Short]
  | varint bits => simp [Shape.split, Shape.Short, varintSplit_eq_none]

theorem ofMem_lt (bytes : List UInt8) : ofMem bytes < 256 ^ bytes.length := by
  induction bytes with
  | nil => simp [ofMem]
  | cons b bs ih =>
    have hb := b.toNat_lt
    rw [ofMem, List.length_cons, pow_succ]
    omega

theorem fixedValue_lt (e : Endian) (bytes : List UInt8) : fixedValue e bytes < 256 ^ bytes.length := by
  rw [fixedValue]
  split_ifs
  · exact ofMem_lt bytes
  · simpa using ofMem_lt bytes.reverse

/-! ## The readers -/

/-- `x` reads a number of layout `s` at the cursor and returns `g` of it; on too few bytes it throws out_of_range -/
structure Decodes {α : Type} (s : Shape) (x : M α) (g : ℕ → α) : Prop where
  reads : ∀ base e ba f n rest, Rel base e ba f → s.split e (f.data.drop f.pos) = some (n, rest) →
    ∃ ba' used, f.data.drop f.pos = used ++ rest ∧ s.first ≤ used.length ∧ exec x ba = (.ok (g n), ba') ∧
      Rel base e ba' (f.skip used.length)
  throws : ∀ base e ba f, Rel base e ba f → s.Short (f.data.drop f.pos) →
    ∃ ba', exec x ba = (.error .outOfRange, ba') ∧ Rel base e ba' (f.skip (s.lost (f.data.drop f.pos)))

/-- a reader that converts what another one returns -/
theorem Decodes.map {α β : Type} {s : Shape} {x : M α} {g : ℕ → α} (h : Decodes s x g) (conv : α → β) :
    Decodes s (do return conv (← x)) (fun n => conv (g n)) := by
  refine ⟨fun base e ba f n rest hrel hsplit => ?_, fun base e ba f hrel hshort => ?_⟩
  · obtain ⟨ba', used, hbytes, hfirst, hex, hrel'⟩ := h.reads base e ba f n rest hrel hsplit
    exact ⟨ba', used, hbytes, hfirst, by rw [exec_bind_ok hex, exec_pure], hrel'⟩
  · obtain ⟨ba', hex, hrel'⟩ := h.throws base e ba f hrel hshort
    exact ⟨ba', by rw [exec_bind, hex], hrel'⟩

/-- a reader that makes one primitive read and a number of its bytes -/
theorem decodes_read {w : ℕ} (hw : 0 < w) {x : M ℕ}
    (hok : ∀ ba bytes ba', bytes.length = w → exec (read w) ba = (.ok bytes, ba') →
      exec x ba = (.ok (fixedValue ba'.endian bytes), ba'))
    (herror : ∀ ba fault ba', exec (read w) ba = (.error fault, ba') → exec x ba = (.error fault, ba')) :
    Decodes (.fixed w) x id := by
  refine ⟨fun base e ba f n rest hrel hsplit => ?_, fun base e ba f hrel hshort => ?_⟩
  · simp only [Shape.split] at hsplit
    split_ifs at hsplit with hlen
    cases hsplit
    have hle : w ≤ f.readSize := by
      rw [List.length_drop] at hlen
      rw [Flat.readSize]
      omega
    have hused : ((f.data.drop f.pos).take w).length = w := by rw [List.length_take]; omega
    obtain ⟨ba', hex, hrel'⟩ := read_spec hrel hw hle
    refine ⟨ba', (f.data.drop f.pos).take w, (List.take_append_drop _ _).symm, hused.ge, ?_, by rwa [hused]⟩
    rw [hok ba _ ba' hused hex, hrel'.endian]
    rfl
  · have hlong : ba.getReadSize < w := by
      rw [hrel.readSize, Flat.readSize, ← List.length_drop]
      exact hshort
    exact ⟨ba, herror _ _ _ (read_too_long hlong), hrel⟩

theorem decodes_fixed {w : ℕ} (hw : 0 < w) : Decodes (.fixed w) (readFixed w) id := by
  apply decodes_read hw
  · intro ba bytes ba' hlen hex
    have hswap : byteswap w (ofMem bytes) = ofMem bytes.reverse := by
      rw [byteswap, swap, ← hlen, memBytes_ofMem]
    rw [readFixed, exec_bind_ok hex, exec_bind_ok (exec_get ba'), exec_pure, fixedValue, hswap]
    split_ifs <;> rfl
  · intro ba fault ba' hex
    rw [readFixed, exec_bind, hex]

/-- one byte reads the same in both orders -/
theorem decodes_byte : Decodes (.fixed 1) (do return ofMem (← read 1)) id := by
  apply decodes_read one_pos
  · intro ba bytes ba' hlen hex
    obtain ⟨b, rfl⟩ := List.length_eq_one_iff.1 hlen
    rw [exec_bind_ok hex, exec_pure, fixedValue, List.reverse_singleton, ite_self]
  · intro ba fault ba' hex
    rw [exec_bind, hex]

theorem readFint8_decodes : Decodes (.fixed 1) readFint8 (fun n => (UInt8.ofNat n).toInt8) := by
  have h := decodes_byte.map fun n => (UInt8.ofNat n).toInt8
  simp only [bind_assoc, pure_bind] at h
  exact h

theorem readFuint8_decodes : Decodes (.fixed 1) readFuint8 UInt8.ofNat := by
  have h := decodes_byte.map UInt8.ofNat
  simp only [bind_assoc, pure_bind] at h
  exact h

theorem readFuint8_empty {base : ℕ} {e : Endian} {ba : ByteArray} {f : Flat} (h : Rel base e ba f)
    (hnil : f.data.drop f.pos = []) : exec readFuint8 ba = (.error .outOfRange, ba) := by
  have hlong : ba.getReadSize < 1 := by
    rw [h.readSize, Flat.readSize, ← List.length_drop, hnil]
    exact Nat.one_pos
  rw [readFuint8, exec_bind, read_too_long hlong]

/-- or-ing the next group of seven bits, in `bits` bits -/
theorem or_group_mod {acc b k bits : ℕ} (hacc : acc < 2 ^ (7 * k)) (hbits : 7 * k < bits) :
    acc ||| (b <<< (7 * k)) % 2 ^ bits = (acc + b * 2 ^ (7 * k)) % 2 ^ bits := by
  have hpow : 2 ^ bits = 2 ^ (7 * k) * 2 ^ (bits - 7 * k) := by rw [← pow_add]; congr 1; omega
  have hhigh : b * 2 ^ (7 * k) % 2 ^ bits = (b % 2 ^ (bits - 7 * k)) * 2 ^ (7 * k) := by
    rw [hpow, mul_comm b, Nat.mul_mod_mul_left, mul_comm]
  have hlt : (b % 2 ^ (bits - 7 * k)) * 2 ^ (7 * k) + 2 ^ (7 * k) ≤ 2 ^ bits := by
    have hmod := Nat.mod_lt b (show 0 < 2 ^ (bits - 7 * k) by positivity)
    calc (b % 2 ^ (bits - 7 * k)) * 2 ^ (7 * k) + 2 ^ (7 * k)
        = (b % 2 ^ (bits - 7 * k) + 1) * 2 ^ (7 * k) := by ring
      _ ≤ 2 ^ (bits - 7 * k) * 2 ^ (7 * k) := Nat.mul_le_mul_right _ hmod
      _ = 2 ^ bits := by rw [hpow, mul_comm]
  have hacc' : acc < 2 ^ bits := by omega
  have hsum : acc + (b % 2 ^ (bits - 7 * k)) * 2 ^ (7 * k) < 2 ^ bits := by omega
  calc acc ||| (b <<< (7 * k)) % 2 ^ bits
      = acc ||| (b % 2 ^ (bits - 7 * k)) * 2 ^ (7 * k) := by rw [Nat.shiftLeft_eq, hhigh]
    _ = 2 ^ (7 * k) * (b % 2 ^ (bits - 7 * k)) ||| acc := by rw [Nat.or_comm, mul_comm]
    _ = acc + (b % 2 ^ (bits - 7 * k)) * 2 ^ (7 * k) := by
        rw [← Nat.two_pow_add_eq_or_of_lt hacc, Nat.add_comm, mul_comm]
    _ = (acc + b * 2 ^ (7 * k)) % 2 ^ bits := by
        rw [Nat.add_mod, hhigh, Nat.mod_eq_of_lt hacc', Nat.mod_eq_of_lt hsum]

/-- the loop of readUint32 and readUint64 from group `k` on, with the groups before it in `acc` -/
theorem readVarintLoop_split {base : ℕ} {e : Endian} {bits : ℕ} (m k acc : ℕ) {ba : ByteArray} {f : Flat}
    (hkm : k + m = Shape.groups bits) (hacc : acc < 2 ^ (7 * k)) (hacc' : acc < 2 ^ bits) (hrel : Rel base e ba f) :
    (∀ v rest, varintSplit m (f.data.drop f.pos) = some (v, rest) →
      ∃ ba' used, f.data.drop f.pos = used ++ rest ∧ (0 < m → 0 < used.length) ∧
        exec (readVarintLoop bits ((List.range' k m).map (7 * ·)) acc) ba =
          (.ok ((acc + v * 2 ^ (7 * k)) % 2 ^ bits), ba') ∧ Rel base e ba' (f.skip used.length)) ∧
    (varintSplit m (f.data.drop f.pos) = none →
      ∃ ba', exec (readVarintLoop bits ((List.range' k m).map (7 * ·)) acc) ba = (.error .outOfRange, ba') ∧
        Rel base e ba' (f.skip (f.data.drop f.pos).length)) := by
  induction m generalizing k acc ba f with
  | zero =>
    refine ⟨fun v rest hsplit => ?_, fun hsplit => by cases hsplit⟩
    cases hsplit
    exact ⟨ba, [], rfl, by simp, by rw [Nat.zero_mul, Nat.add_zero, Nat.mod_eq_of_lt hacc']; rfl, hrel⟩
  | succ m ih =>
    have hk : 7 * k < bits := by rw [Shape.groups] at hkm; omega
    rw [List.range'_succ, List.map_cons, readVarintLoop]
    cases hbytes : f.data.drop f.pos with
    | nil =>
      refine ⟨fun v rest hsplit => (by cases hsplit), fun _ => ⟨ba, ?_, hrel⟩⟩
      rw [exec_bind, readFuint8_empty hrel hbytes]
    | cons b bs =>
      obtain ⟨ba1, hex1, hrel1⟩ := readFuint8_spec hrel hbytes
      have hbytes1 : (f.skip 1).data.drop (f.skip 1).pos = bs := by
        simp only [Flat.skip]
        rw [← List.drop_drop, hbytes, List.drop_one, List.tail_cons]
      rw [exec_bind_ok hex1]
      by_cases hb : b < 0x80
      · rw [if_pos hb, or_group_mod hacc hk]
        simp only [varintSplit, if_pos hb]
        refine ⟨fun v rest hsplit => ?_, fun hsplit => (by cases hsplit)⟩
        cases hsplit
        exact ⟨ba1, [b], rfl, by simp, rfl, hrel1⟩
      · have hgroup : (b &&& 0x7f).toNat = b.toNat % 128 := by
          rw [UInt8.toNat_and]
          exact Nat.and_two_pow_sub_one_eq_mod b.toNat 7
        have hmod := Nat.mod_lt b.toNat (show 0 < 128 by norm_num)
        have hpow : 2 ^ (7 * (k + 1)) = 128 * 2 ^ (7 * k) := by
          rw [show 7 * (k + 1) = 7 + 7 * k by ring, pow_add]
          norm_num
        have hgrow : acc + b.toNat % 128 * 2 ^ (7 * k) < 2 ^ (7 * (k + 1)) := by
          have hle : (b.toNat % 128 + 1) * 2 ^ (7 * k) ≤ 128 * 2 ^ (7 * k) := Nat.mul_le_mul_right _ hmod
          rw [Nat.add_mul, Nat.one_mul] at hle
          omega
        rw [if_neg hb, hgroup, or_group_mod hacc hk]
        simp only [varintSplit, if_neg hb]
        obtain ⟨hreads, hthrows⟩ := ih (k + 1) ((acc + b.toNat % 128 * 2 ^ (7 * k)) % 2 ^ bits) (by omega)
          (lt_of_le_of_lt (Nat.mod_le _ _) hgrow) (Nat.mod_lt _ (by positivity)) hrel1
        rw [hbytes1] at hreads hthrows
        refine ⟨fun v rest hsplit => ?_, fun hsplit => ?_⟩
        · obtain ⟨⟨v', rest'⟩, hsplit', heq⟩ := Option.map_eq_some_iff.1 hsplit
          cases heq
          obtain ⟨ba2, used, hused, -, hex2, hrel2⟩ := hreads v' rest' hsplit'
          refine ⟨ba2, b :: used, congrArg (b :: ·) hused, by simp, ?_, ?_⟩
          · rw [hex2, Nat.mod_add_mod]
            congr 3
            rw [hpow]
            ring
          · simpa [Flat.skip, Nat.add_assoc, Nat.add_comm 1] using hrel2
        · obtain ⟨ba2, hex2, hrel2⟩ := hthrows (Option.map_eq_none_iff.1 hsplit)
          exact ⟨ba2, hex2, by simpa [Flat.skip, Nat.add_assoc, Nat.add_comm 1] using hrel2⟩

theorem decodes_varint {bits : ℕ} (hbits : 0 < bits) :
    Decodes (.varint bits) (readVarintLoop bits (shifts bits) 0) id := by
  have hgroups : 0 < Shape.groups bits := by rw [Shape.groups]; omega
  have hloop := fun base e ba f (hrel : Rel base e ba f) =>
    @readVarintLoop_split base e bits (Shape.groups bits) 0 0 ba f (Nat.zero_add _) (by simp) (by positivity) hrel
  rw [shifts, List.range_eq_range', ← Shape.groups]
  refine ⟨fun base e ba f n rest hrel hsplit => ?_, fun base e ba f hrel hshort => ?_⟩
  · obtain ⟨⟨v, rest'⟩, hsplit', heq⟩ := Option.map_eq_some_iff.1 hsplit
    cases heq
    obtain ⟨ba', used, hbytes, hused, hex, hrel'⟩ := (hloop base e ba f hrel).1 v rest hsplit'
    refine ⟨ba', used, hbytes, hused hgroups, ?_, hrel'⟩
    simpa using hex
  · obtain ⟨ba', hex, hrel'⟩ := (hloop base e ba f hrel).2 (varintSplit_eq_none.2 hshort)
    exact ⟨ba', hex, hrel'⟩

/-- every number function decodes its layout -/
theorem kind_decodes (k : Kind) : ∃ g, Decodes k.shape (readVal k) g := by
  cases k with
  | fint8 => exact ⟨_, readFint8_decodes⟩
  | fuint8 => exact ⟨_, readFuint8_decodes⟩
  | fint16 => exact ⟨_, (decodes_fixed (by norm_num)).map fun n => (UInt16.ofNat n).toInt16⟩
  | fuint16 => exact ⟨_, (decodes_fixed (by norm_num)).map UInt16.ofNat⟩
  | fint32 => exact ⟨_, (decodes_fixed (by norm_num)).map fun n => (UInt32.ofNat n).toInt32⟩
  | fuint32 => exact ⟨_, (decodes_fixed (by norm_num)).map UInt32.ofNat⟩
  | fint64 => exact ⟨_, (decodes_fixed (by norm_num)).map fun n => (UInt64.ofNat n).toInt64⟩
  | fuint64 => exact ⟨_, (decodes_fixed (by norm_num)).map UInt64.ofNat⟩
  | int32 => exact ⟨_, ((decodes_varint (by norm_num)).map UInt32.ofNat).map decodeZigzag32⟩
  | uint32 => exact ⟨_, (decodes_varint (by norm_num)).map UInt32.ofNat⟩
  | int64 => exact ⟨_, ((decodes_varint (by norm_num)).map UInt64.ofNat).map decodeZigzag64⟩
  | uint64 => exact ⟨_, (decodes_varint (by norm_num)).map UInt64.ofNat⟩
  | float => exact ⟨_, (decodes_fixed (by norm_num)).map UInt32.ofNat⟩
  | double => exact ⟨_, (decodes_fixed (by norm_num)).map UInt64.ofNat⟩

/-- the number of a layout fits the type that it is read into -/
theorem split_lt {e : Endian} {fmt : StringFormat} {bytes rest : List UInt8} {n : ℕ}
    (h : fmt.shape.split e bytes = some (n, rest)) : n < 2 ^ fmt.bits := by
  have hfixed : ∀ w, (Shape.fixed w).split e bytes = some (n, rest) → n < 256 ^ w := by
    intro w hw
    simp only [Shape.split] at hw
    split_ifs at hw with hlen
    cases hw
    have hlt := fixedValue_lt e (bytes.take w)
    rwa [List.length_take, min_eq_left (by omega)] at hlt
  cases fmt with
  | f16 => exact hfixed 2 h
  | f32 => exact hfixed 4 h
  | f64 => exact hfixed 8 h
  | vint =>
    obtain ⟨⟨v, rest'⟩, -, heq⟩ := Option.map_eq_some_iff.1 h
    cases heq
    exact Nat.mod_lt _ (by positivity)

/-- the length prefix, as a number -/
theorem readLen_decodes (fmt : StringFormat) : ∃ g, Decodes fmt.shape fmt.readLen g ∧ ∀ n, n < 2 ^ fmt.bits → g n = n := by
  cases fmt with
  | f16 =>
    refine ⟨_, ((decodes_fixed (by norm_num)).map UInt16.ofNat).map UInt16.toNat, fun n hn => ?_⟩
    simpa [StringFormat.bits] using hn
  | f32 =>
    refine ⟨_, ((decodes_fixed (by norm_num)).map UInt32.ofNat).map UInt32.toNat, fun n hn => ?_⟩
    simpa [StringFormat.bits] using hn
  | f64 =>
    refine ⟨_, ((decodes_fixed (by norm_num)).map UInt64.ofNat).map UInt64.toNat, fun n hn => ?_⟩
    simpa [StringFormat.bits] using hn
  | vint =>
    refine ⟨_, ((decodes_varint (by norm_num)).map UInt64.ofNat).map UInt64.toNat, fun n hn => ?_⟩
    simpa [StringFormat.bits] using hn

/-! ## Main result -/

/-- the bytes from the cursor to the end -/
def ByteArray.readable (ba : ByteArray) : List UInt8 := ba.flat.data.drop ba.position

/-- the contract: out_of_range exactly when the item does not lie in the readable bytes, and then the cursor and the
readable bytes are those from before -/
def FailsCleanly (ba : ByteArray) (r : TypedRead) : Prop :=
  ((exec r.perform ba).1 = .error .outOfRange ↔ r.TooShort ba.endian ba.readable) ∧
    ((exec r.perform ba).1 = .error .outOfRange →
      (exec r.perform ba).2.position = ba.position ∧ (exec r.perform ba).2.readable = ba.readable)

theorem Rel.flat_eq {base : ℕ} {e : Endian} {ba : ByteArray} {f : Flat} (h : Rel base e ba f) : ba.flat = f := by
  rw [ByteArray.flat, h.data, h.pos]

/-- a read that throws is clean when the cursor has not moved -/
theorem failsCleanly_of_throw {ba ba' : ByteArray} {r : TypedRead} {moved : ℕ}
    (hex : exec r.perform ba = (.error .outOfRange, ba')) (h' : Rel ba.baseSize ba.endian ba' (ba.flat.skip moved))
    (hshort : r.TooShort ba.endian ba.readable) : FailsCleanly ba r ↔ moved = 0 := by
  rw [FailsCleanly, hex]
  constructor
  · rintro ⟨-, hclean⟩
    have hpos : ba'.position = ba.position := (hclean rfl).1
    have hmoved : ba'.position = ba.position + moved := h'.pos
    omega
  · rintro rfl
    have hsame : ba'.flat = ba.flat := h'.flat_eq
    have hpos : ba'.position = ba.position := h'.pos
    exact ⟨iff_of_true rfl hshort, fun _ => ⟨hpos, by rw [ByteArray.readable, ByteArray.readable, hsame, hpos]⟩⟩

/-- a read that does not throw is as it should be when the item is there -/
theorem failsCleanly_of_no_throw {ba : ByteArray} {r : TypedRead} (hex : (exec r.perform ba).1 ≠ .error .outOfRange)
    (hlong : ¬ r.TooShort ba.endian ba.readable) : FailsCleanly ba r :=
  ⟨iff_of_false hex hlong, fun hthrow => absurd hthrow hex⟩

theorem lost_eq_zero {s : Shape} {bytes : List UInt8} (h : s.Short bytes) :
    s.lost bytes = 0 ↔ bytes.length < s.first := by
  cases s with
  | fixed w => exact iff_of_true rfl h
  | varint bits => exact Nat.lt_one_iff.symm

theorem val_failsCleanly {ba : ByteArray} (hwf : Wf ba) (k : Kind) : FailsCleanly ba (.val k) ↔
    (k.shape.Short ba.readable → ba.readable.length < k.shape.first) := by
  obtain ⟨g, hdec⟩ := kind_decodes k
  cases hsplit : k.shape.split ba.endian ba.readable with
  | none =>
    have hshort := split_eq_none.1 hsplit
    obtain ⟨ba', hex, hrel⟩ := hdec.throws _ _ ba ba.flat hwf.rel hshort
    have hex' : exec (TypedRead.val k).perform ba = (.error .outOfRange, ba') := by
      rw [TypedRead.perform, exec_bind, hex]
    rw [failsCleanly_of_throw hex' hrel hshort]
    exact (lost_eq_zero hshort).trans (by simp [hshort])
  | some item =>
    obtain ⟨n, rest⟩ := item
    have hlong : ¬ k.shape.Short ba.readable := fun hshort => by
      rw [split_eq_none.2 hshort] at hsplit
      cases hsplit
    obtain ⟨ba', used, -, -, hex, -⟩ := hdec.reads _ _ ba ba.flat n rest hwf.rel hsplit
    refine iff_of_true (failsCleanly_of_no_throw ?_ hlong) fun hshort => absurd hshort hlong
    rw [TypedRead.perform, exec_bind, hex]
    intro hthrow
    cases hthrow

theorem exec_readString_perform {ba : ByteArray} (fmt : StringFormat) :
    exec (TypedRead.string fmt).perform ba = match exec (readString fmt) ba with
      | (.ok _, ba') => (.ok (), ba')
      | (.error fault, ba') => (.error fault, ba') := by
  rw [TypedRead.perform, exec_bind]
  rcases exec (readString fmt) ba with ⟨r, ba'⟩
  cases r <;> rfl

theorem string_failsCleanly {ba : ByteArray} (hwf : Wf ba) (fmt : StringFormat) : FailsCleanly ba (.string fmt) ↔
    ((TypedRead.string fmt).TooShort ba.endian ba.readable → ba.readable.length < fmt.shape.first) := by
  obtain ⟨g, hdec, hg⟩ := readLen_decodes fmt
  cases hsplit : fmt.shape.split ba.endian ba.readable with
  | none =>
    have hshort := split_eq_none.1 hsplit
    have htoo : (TypedRead.string fmt).TooShort ba.endian ba.readable := .inl hshort
    obtain ⟨ba', hex, hrel⟩ := hdec.throws _ _ ba ba.flat hwf.rel hshort
    have hex' : exec (TypedRead.string fmt).perform ba = (.error .outOfRange, ba') := by
      rw [exec_readString_perform, readString_eq, exec_bind, hex]
    rw [failsCleanly_of_throw hex' hrel htoo]
    exact (lost_eq_zero hshort).trans (by simp [htoo])
  | some item =>
    obtain ⟨len, rest⟩ := item
    obtain ⟨ba1, used, hbytes, hused, hex, hrel⟩ := hdec.reads _ _ ba ba.flat len rest hwf.rel hsplit
    rw [hg len (split_lt hsplit)] at hex
    have hprefix : ¬ fmt.shape.Short ba.readable := fun hshort => by
      rw [split_eq_none.2 hshort] at hsplit
      cases hsplit
    have hlength : ba.readable.length = used.length + rest.length := by
      rw [ByteArray.readable, ← List.length_append]
      exact congrArg List.length hbytes
    have hrest : ba1.getReadSize = rest.length := by
      rw [hrel.readSize, Flat.readSize]
      simp only [Flat.skip]
      have hdrop : ba.readable.length = ba.flat.data.length - ba.flat.pos := List.length_drop
      omega
    by_cases hbody : rest.length < len
    · -- the prefix is consumed when `read` throws
      have htoo : (TypedRead.string fmt).TooShort ba.endian ba.readable := .inr ⟨len, rest, hsplit, hbody⟩
      have hex' : exec (TypedRead.string fmt).perform ba = (.error .outOfRange, ba1) := by
        rw [exec_readString_perform, readString_eq, exec_bind_ok hex, read_too_long (by omega)]
      rw [failsCleanly_of_throw hex' hrel htoo]
      have hfirst : 0 < fmt.shape.first := by cases fmt <;> decide
      refine iff_of_false (by omega) fun hcond => ?_
      have hshort := hcond htoo
      omega
    · have hlong : ¬ (TypedRead.string fmt).TooShort ba.endian ba.readable := by
        rintro (hshort | ⟨len', rest', hsplit', hless⟩)
        · exact hprefix hshort
        · rw [hsplit] at hsplit'
          cases hsplit'
          exact hbody hless
      refine iff_of_true (failsCleanly_of_no_throw ?_ hlong) fun htoo => absurd htoo hlong
      rw [exec_readString_perform, readString_eq, exec_bind_ok hex]
      rcases Nat.eq_zero_or_pos len with rfl | hpos
      · rw [read_zero]
        intro hthrow
        cases hcur : ba1.cur with
        | none =>
          rw [hcur] at hthrow
          cases hthrow
        | some i =>
          rw [hcur] at hthrow
          cases hthrow
      · obtain ⟨ba2, hread, -⟩ := read_spec hrel hpos (by rw [← hrel.readSize]; omega)
        rw [hread]
        intro hthrow
        cases hthrow

/-- **Typed reads on too few bytes.** They throw and leave everything as it was, exactly when too few bytes means that the
first primitive read finds too few: the whole of a fixed number or length prefix, or the first byte of a varint. -/
theorem failsCleanly_iff (base : ℕ) (hbase : 1 ≤ base) (ba : ByteArray) (h : Reachable base ba) (r : TypedRead) :
    FailsCleanly ba r ↔ (r.TooShort ba.endian ba.readable → ba.readable.length < r.head.first) := by
  obtain ⟨hwf, -⟩ := h.kept hbase
  cases r with
  | val k => exact val_failsCleanly hwf k
  | string fmt => exact string_failsCleanly hwf fmt

/-- one byte of an unterminated varint, to be read -/
def openVarint : ByteArray :=
  (exec (Call.setPosition 0).perform (exec (Call.write [0x80]).perform (ByteArray.new 1 fun _ => 0)).2).2

theorem openVarint_reachable : Reachable 1 openVarint := by
  apply Reachable.call (.setPosition 0)
  · exact Reachable.call (.write [0x80]) (.new fun _ => 0) nofun
  · exact nofun

theorem failsCleanly_example :
    FailsCleanly openVarint (.val .fuint16) ↔ ((TypedRead.val .fuint16).TooShort openVarint.endian openVarint.readable →
      openVarint.readable.length < (TypedRead.val .fuint16).head.first) :=
  failsCleanly_iff 1 le_rfl openVarint openVarint_reachable (.val .fuint16)

/-- **An unterminated varint.** readUint32 takes the byte 0x80, throws for the next one, and the byte is gone. -/
theorem readUint32_loses_byte :
    Reachable 1 openVarint ∧ (exec (TypedRead.val .uint32).perform openVarint).1 = .error .outOfRange ∧
      openVarint.position = 0 ∧ (exec (TypedRead.val .uint32).perform openVarint).2.position = 1 ∧
      ¬ FailsCleanly openVarint (.val .uint32) := by
  have hthrow : (exec (TypedRead.val .uint32).perform openVarint).1 = .error .outOfRange := rfl
  have hmoved : (exec (TypedRead.val .uint32).perform openVarint).2.position = 1 := rfl
  refine ⟨openVarint_reachable, hthrow, rfl, hmoved, fun hclean => ?_⟩
  have hsame := (hclean.2 hthrow).1
  rw [hmoved] at hsame
  exact absurd hsame (by decide)

end Sylar.Buffer

/-
The network, the broadcast address and the subnet mask of an IPv4 and of an IPv6 address, of address.cc.

The host is little-endian, so `byteswapOnLittleEndian` swaps. An int is of 32 bits. A result is none where the program has
no defined behaviour: a shift count that is not below the width, a byte index that is not below 16; `some none` is
nullptr. The difference of ints in `CreateMask<uint32_t>(1)` is below the range of an int; `overflow` is what the machine
makes of it, if anything.

Results:
- `networdAddress_bits`: the network keeps the bits behind the prefix, and not those of it;
- `consistent_iff`: when the three addresses are what the prefix length says.
-/
import Sylar.Core.Prefix
import Mathlib.Data.BitVec

namespace Sylar.Address

open Sylar.Prefix

/-! ## Addresses -/

def bswap_32 (x : BitVec 32) : BitVec 32 :=
  ((x &&& 0xff000000) >>> 24) ||| ((x &&& 0x00ff0000) >>> 8) ||| ((x &&& 0x0000ff00) <<< 8) |||
    ((x &&& 0x000000ff) <<< 24)

def byteswapOnLittleEndian (t : BitVec 32) : BitVec 32 := bswap_32 t

structure sockaddr_in where
  sin_family : BitVec 16
  sin_port : BitVec 16
  sin_addr : BitVec 32
deriving DecidableEq, Repr

structure IPv4Address where
  m_addr : sockaddr_in
deriving DecidableEq, Repr

structure sockaddr_in6 where
  sin6_family : BitVec 16
  sin6_port : BitVec 16
  sin6_flowinfo : BitVec 32
  sin6_addr : Vector (BitVec 8) 16
  sin6_scope_id : BitVec 32
deriving DecidableEq, Repr

structure IPv6Address where
  m_addr : sockaddr_in6
deriving DecidableEq, Repr

def AF_INET : BitVec 16 := 2

def AF_INET6 : BitVec 16 := 10

/-- `(1 << (sizeof(T) * 8 - bits)) - 1` for a `T` of `w` bits -/
def CreateMask (overflow : Option (BitVec 32)) (w : ℕ) (bits : BitVec 32) : Option (BitVec w) :=
  let count := (BitVec.ofNat 64 w - bits.setWidth 64).toNat
  if count < 31 then some ((1#32 <<< count - 1#32).setWidth w)
  else if count = 31 then overflow.map (BitVec.setWidth w)
  else none

namespace IPv4Address

variable (overflow : Option (BitVec 32)) (a : IPv4Address) (prefix_len : BitVec 32)

def broadcastAddress : Option (Option IPv4Address) :=
  if prefix_len > 32 then some none
  else (CreateMask overflow 32 prefix_len).map fun mask =>
    some ⟨{ a.m_addr with sin_addr := a.m_addr.sin_addr ||| byteswapOnLittleEndian mask }⟩

def networdAddress : Option (Option IPv4Address) :=
  if prefix_len > 32 then some none
  else (CreateMask overflow 32 prefix_len).map fun mask =>
    some ⟨{ a.m_addr with sin_addr := a.m_addr.sin_addr &&& byteswapOnLittleEndian mask }⟩

def subnetMask (_a : IPv4Address) : Option (Option IPv4Address) :=
  (CreateMask overflow 32 prefix_len).map fun mask => some ⟨⟨AF_INET, 0, ~~~byteswapOnLittleEndian mask⟩⟩

end IPv4Address

/-- `s6_addr[i] = f(s6_addr[i])` -/
def store (i : ℕ) (f : BitVec 8 → BitVec 8) (s6_addr : Vector (BitVec 8) 16) : Option (Vector (BitVec 8) 16) :=
  if h : i < 16 then some (s6_addr.set i (f s6_addr[i])) else none

/-- the loop that assigns `x` to the `n` bytes from `i` on -/
def fill (x : BitVec 8) : ℕ → ℕ → Vector (BitVec 8) 16 → Option (Vector (BitVec 8) 16)
  | _, 0, s6_addr => some s6_addr
  | i, n + 1, s6_addr => (store i (fun _ => x) s6_addr).bind (fill x (i + 1) n)

namespace IPv6Address

variable (overflow : Option (BitVec 32)) (a : IPv6Address) (prefix_len : BitVec 32)

def broadcastAddress : Option (Option IPv6Address) := do
  let mask ← CreateMask overflow 8 (prefix_len % 8)
  let s6_addr ← store (prefix_len / 8).toNat (· ||| mask) a.m_addr.sin6_addr
  let start := (prefix_len / 8 + 1).toNat
  let s6_addr ← fill 0xff start (16 - start) s6_addr
  return some ⟨{ a.m_addr with sin6_addr := s6_addr }⟩

def networdAddress : Option (Option IPv6Address) := do
  let mask ← CreateMask overflow 8 (prefix_len % 8)
  let s6_addr ← store (prefix_len / 8).toNat (· &&& mask) a.m_addr.sin6_addr
  let start := (prefix_len / 8 + 1).toNat
  let s6_addr ← fill 0x00 start (16 - start) s6_addr
  return some ⟨{ a.m_addr with sin6_addr := s6_addr }⟩

def subnetMask (_a : IPv6Address) : Option (Option IPv6Address) := do
  let mask ← CreateMask overflow 8 (prefix_len % 8)
  let s6_addr ← store (prefix_len / 8).toNat (fun _ => ~~~mask) (Vector.replicate 16 0)
  let s6_addr ← fill 0xff 0 (prefix_len / 8).toNat s6_addr
  return some ⟨⟨AF_INET6, 0, 0, s6_addr, 0⟩⟩

end IPv6Address

/-! ## In network order -/

def IPv4Address.bits (a : IPv4Address) : BitVec 32 := byteswapOnLittleEndian a.m_addr.sin_addr

def IPv6Address.bits (a : IPv6Address) : BitVec 128 :=
  (BitVec.flattenList a.m_addr.sin6_addr.toList).cast (by rw [Vector.length_toList])

/-- the three addresses are what the prefix length `p` says of the address `a` -/
def Consistent {n : ℕ} (a : BitVec n) (p : ℕ) (network broadcast mask : Option (Option (BitVec n))) : Prop :=
  if n < p then network = some none ∧ broadcast = some none ∧ mask = some none
  else ∃ net br m, network = some (some net) ∧ broadcast = some (some br) ∧ mask = some (some m) ∧
    (∀ i < n, m.getMsbD i = decide (i < p)) ∧ net = a &&& m ∧ br = a ||| ~~~m ∧ net ≤ a ∧ a ≤ br

/-! ## Byte order and masks -/

theorem getLsbD_bswap_32 {x : BitVec 32} {i : ℕ} (hi : i < 32) :
    (bswap_32 x).getLsbD i = x.getLsbD (8 * (3 - i / 8) + i % 8) := by
  rw [bswap_32]
  interval_cases i <;> simp

theorem bswap_32_bswap_32 (x : BitVec 32) : bswap_32 (bswap_32 x) = x := by
  refine BitVec.eq_of_getLsbD_eq fun i hi => ?_
  rw [getLsbD_bswap_32 hi, getLsbD_bswap_32 (by omega)]
  congr 1
  omega

theorem bswap_32_and (x y : BitVec 32) : bswap_32 (x &&& y) = bswap_32 x &&& bswap_32 y := by
  refine BitVec.eq_of_getLsbD_eq fun i hi => ?_
  rw [BitVec.getLsbD_and, getLsbD_bswap_32 hi, getLsbD_bswap_32 hi, getLsbD_bswap_32 hi, BitVec.getLsbD_and]

theorem bswap_32_or (x y : BitVec 32) : bswap_32 (x ||| y) = bswap_32 x ||| bswap_32 y := by
  refine BitVec.eq_of_getLsbD_eq fun i hi => ?_
  rw [BitVec.getLsbD_or, getLsbD_bswap_32 hi, getLsbD_bswap_32 hi, getLsbD_bswap_32 hi, BitVec.getLsbD_or]

theorem bswap_32_not (x : BitVec 32) : bswap_32 (~~~x) = ~~~bswap_32 x := by
  refine BitVec.eq_of_getLsbD_eq fun i hi => ?_
  have hsource : 8 * (3 - i / 8) + i % 8 < 32 := by omega
  rw [BitVec.getLsbD_not, getLsbD_bswap_32 hi, getLsbD_bswap_32 hi, BitVec.getLsbD_not]
  simp [hi, hsource]

theorem toNat_setWidth_64 (p : BitVec 32) : (p.setWidth 64).toNat = p.toNat := by
  have hlt := p.isLt
  rw [BitVec.toNat_setWidth]
  exact Nat.mod_eq_of_lt (by omega)

/-- without a prefix the shift is out of range, and with one of a single bit the difference is -/
theorem CreateMask_32 (overflow : Option (BitVec 32)) {p : BitVec 32} (hp : p.toNat ≤ 32) :
    CreateMask overflow 32 p =
      if p.toNat = 0 then none else if p.toNat = 1 then overflow else some (~~~mask 32 p.toNat) := by
  have hcount : (BitVec.ofNat 64 32 - p.setWidth 64).toNat = 32 - p.toNat := by
    rw [BitVec.toNat_sub_of_le (by rw [BitVec.le_def, toNat_setWidth_64]; exact hp), toNat_setWidth_64]
    rfl
  have hones : ∀ q : Fin 33, 2 ≤ q.val → (1#32 <<< (32 - q.val) - 1#32).setWidth 32 = ~~~mask 32 q.val := by decide
  rw [CreateMask, hcount]
  by_cases h0 : p.toNat = 0
  · simp [h0]
  · by_cases h1 : p.toNat = 1
    · have hid : BitVec.setWidth 32 = (id : BitVec 32 → BitVec 32) := by
        funext x
        exact BitVec.setWidth_eq x
      simp only [h1, hid, Option.map_id]
      rfl
    · have hbelow : 32 - p.toNat < 31 := by omega
      simp only [hbelow, if_true, h0, h1, if_false]
      rw [hones ⟨p.toNat, by omega⟩ (by change 2 ≤ p.toNat; omega)]

theorem CreateMask_8 (overflow : Option (BitVec 32)) (p : BitVec 32) :
    CreateMask overflow 8 (p % 8) = some (~~~mask 8 (p.toNat % 8)) := by
  have hbyte : ∀ r : Fin 8, (BitVec.ofNat 64 8 - (BitVec.ofNat 32 r).setWidth 64).toNat < 31 ∧
      (1#32 <<< (BitVec.ofNat 64 8 - (BitVec.ofNat 32 r).setWidth 64).toNat - 1#32).setWidth 8 = ~~~mask 8 r.val := by
    decide
  have hmod : p % 8 = BitVec.ofNat 32 (p.toNat % 8) := by
    apply BitVec.eq_of_toNat_eq
    rw [BitVec.toNat_umod, BitVec.toNat_ofNat]
    change p.toNat % 8 = _
    omega
  obtain ⟨hcount, hmask⟩ := hbyte ⟨p.toNat % 8, Nat.mod_lt _ (by decide)⟩
  rw [hmod, CreateMask]
  simp only at hcount hmask
  simp only [hcount, if_true, hmask]

/-! ## IPv4 -/

/-- the results for a host mask `x` are consistent only when `x` is the right one and the address is zero -/
theorem consistent_iff_of_mask {n p : ℕ} (hp : p ≤ n) (a x : BitVec n) :
    Consistent a p (some (some (a &&& x))) (some (some (a ||| x))) (some (some (~~~x))) ↔
      x = ~~~mask n p ∧ a = 0#n := by
  rw [Consistent, if_neg (by omega)]
  constructor
  · rintro ⟨net, br, m, hnet, hbr, hm, hbits, hand, -, -, -⟩
    obtain rfl : a &&& x = net := Option.some.inj (Option.some.inj hnet)
    obtain rfl : ~~~x = m := Option.some.inj (Option.some.inj hm)
    have hmask : ~~~x = mask n p := eq_mask hbits
    have hx : x = ~~~mask n p := by rw [← hmask, BitVec.not_not]
    refine ⟨hx, ?_⟩
    rw [hmask, hx] at hand
    exact and_not_eq_and_iff.1 hand
  · rintro ⟨rfl, rfl⟩
    refine ⟨_, _, _, rfl, rfl, rfl, fun i hi => ?_, ?_, ?_, and_le _ _, le_or _ _⟩
    · rw [BitVec.not_not, getMsbD_mask hi]
    · rw [BitVec.zero_and, BitVec.zero_and]
    · rw [BitVec.not_not]

/-- when the mask and the broadcast address are right, the network decides -/
theorem consistent_iff_network {n p : ℕ} (hp : p ≤ n) {a : BitVec n} {network : Option (Option (BitVec n))} :
    Consistent a p network (some (some (a ||| ~~~mask n p))) (some (some (mask n p))) ↔
      network = some (some (a &&& mask n p)) := by
  rw [Consistent, if_neg (by omega)]
  constructor
  · rintro ⟨net, br, m, hnet, -, hm, -, hand, -⟩
    obtain rfl : mask n p = m := Option.some.inj (Option.some.inj hm)
    rw [hnet, hand]
  · rintro rfl
    exact ⟨_, _, _, rfl, rfl, rfl, fun i hi => getMsbD_mask hi, rfl, rfl, and_le _ _, le_or _ _⟩

theorem not_consistent_none {n p : ℕ} {a : BitVec n} {network broadcast : Option (Option (BitVec n))} :
    ¬ Consistent a p network broadcast none := by
  rw [Consistent]
  split_ifs with hp
  · rintro ⟨-, -, h⟩
    exact absurd h (by simp)
  · rintro ⟨net, br, m, -, -, h, -⟩
    exact absurd h (by simp)

namespace IPv4Address

variable {overflow : Option (BitVec 32)} {p : BitVec 32}

theorem not_gt_32 (hp : p.toNat ≤ 32) : ¬ p > 32 := by
  rw [gt_iff_lt, BitVec.lt_def]
  exact Nat.not_lt.2 hp

/-- **The network keeps the host part.** `x` has the bits behind the prefix. -/
theorem networdAddress_bits (a : IPv4Address) (hp : p.toNat ≤ 32) :
    (a.networdAddress overflow p).map (Option.map bits) =
      (CreateMask overflow 32 p).map fun x => some (a.bits &&& x) := by
  rw [networdAddress, if_neg (not_gt_32 hp), Option.map_map]
  congr 1
  funext x
  simp only [Function.comp_apply, Option.map_some, bits, byteswapOnLittleEndian, bswap_32_and, bswap_32_bswap_32]

theorem broadcastAddress_bits (a : IPv4Address) (hp : p.toNat ≤ 32) :
    (a.broadcastAddress overflow p).map (Option.map bits) =
      (CreateMask overflow 32 p).map fun x => some (a.bits ||| x) := by
  rw [broadcastAddress, if_neg (not_gt_32 hp), Option.map_map]
  congr 1
  funext x
  simp only [Function.comp_apply, Option.map_some, bits, byteswapOnLittleEndian, bswap_32_or, bswap_32_bswap_32]

theorem subnetMask_bits (a : IPv4Address) :
    (a.subnetMask overflow p).map (Option.map bits) = (CreateMask overflow 32 p).map fun x => some (~~~x) := by
  rw [subnetMask, Option.map_map]
  congr 1
  funext x
  simp only [Function.comp_apply, Option.map_some, bits, byteswapOnLittleEndian, bswap_32_not, bswap_32_bswap_32]

/-- there is no check for the mask -/
theorem CreateMask_of_long (hp : 32 < p.toNat) : CreateMask overflow 32 p = none := by
  have hlt := p.isLt
  have hcount : 31 < (BitVec.ofNat 64 32 - p.setWidth 64).toNat := by
    rw [BitVec.toNat_sub, toNat_setWidth_64, BitVec.toNat_ofNat]
    omega
  rw [CreateMask]
  simp only [show ¬ (BitVec.ofNat 64 32 - p.setWidth 64).toNat < 31 by omega,
    show ¬ (BitVec.ofNat 64 32 - p.setWidth 64).toNat = 31 by omega, if_false]

/-- what the three functions say of `a` -/
def Consistent (overflow : Option (BitVec 32)) (a : IPv4Address) (p : BitVec 32) : Prop :=
  Address.Consistent a.bits p.toNat ((a.networdAddress overflow p).map (Option.map bits))
    ((a.broadcastAddress overflow p).map (Option.map bits)) ((a.subnetMask overflow p).map (Option.map bits))

theorem consistent_iff_zero (a : IPv4Address) : Consistent overflow a p ↔
    1 ≤ p.toNat ∧ p.toNat ≤ 32 ∧ a.bits = 0#32 ∧ (p.toNat = 1 → overflow = some 0x7fffffff#32) := by
  rw [Consistent]
  by_cases hp : p.toNat ≤ 32
  · rw [networdAddress_bits a hp, broadcastAddress_bits a hp, subnetMask_bits, CreateMask_32 overflow hp]
    by_cases h0 : p.toNat = 0
    · rw [if_pos h0]
      exact iff_of_false not_consistent_none fun h => absurd h.1 (by omega)
    · rw [if_neg h0]
      by_cases h1 : p.toNat = 1
      · rw [if_pos h1]
        cases overflow with
        | none => exact iff_of_false not_consistent_none fun h => absurd (h.2.2.2 h1) (by simp)
        | some v =>
          have hmax : ~~~mask 32 1 = 0x7fffffff#32 := by decide
          simp only [Option.map_some]
          rw [consistent_iff_of_mask hp, h1, hmax]
          constructor
          · rintro ⟨hv, ha⟩
            exact ⟨le_refl 1, by omega, ha, fun _ => congrArg some hv⟩
          · rintro ⟨-, -, ha, hv⟩
            exact ⟨Option.some.inj (hv rfl), ha⟩
      · rw [if_neg h1]
        simp only [Option.map_some, consistent_iff_of_mask hp, true_and]
        constructor
        · intro ha
          exact ⟨by omega, hp, ha, fun h => absurd h h1⟩
        · rintro ⟨-, -, ha, -⟩
          exact ha
  · rw [subnetMask_bits, CreateMask_of_long (by omega)]
    exact iff_of_false not_consistent_none fun h => hp h.2.1

end IPv4Address

/-! ## IPv6 -/

theorem store_spec {q : ℕ} (hq : q < 16) (f : BitVec 8 → BitVec 8) (v : Vector (BitVec 8) 16) :
    ∃ w, store q f v = some w ∧ ∀ j (hj : j < 16), w[j] = if j = q then f v[j] else v[j] := by
  refine ⟨v.set q (f v[q]), by rw [store, dif_pos hq], fun j hj => ?_⟩
  rw [Vector.getElem_set]
  split_ifs with h1 h2 h2
  · subst h1
    rfl
  · exact absurd h1.symm h2
  · exact absurd h2.symm h1
  · rfl

theorem store_of_large {q : ℕ} (hq : 16 ≤ q) (f : BitVec 8 → BitVec 8) (v : Vector (BitVec 8) 16) :
    store q f v = none := by
  rw [store, dif_neg (by omega)]

/-- the loop: what it assigned stays -/
theorem fill_spec (x : BitVec 8) {i n : ℕ} (h : i + n ≤ 16) (v : Vector (BitVec 8) 16) :
    ∃ w, fill x i n v = some w ∧ ∀ j (hj : j < 16), w[j] = if i ≤ j ∧ j < i + n then x else v[j] := by
  induction n generalizing i v with
  | zero => exact ⟨v, rfl, fun j hj => by rw [if_neg (by omega)]⟩
  | succ n ih =>
    obtain ⟨w, hw, hwj⟩ := store_spec (show i < 16 by omega) (fun _ => x) v
    obtain ⟨u, hu, huj⟩ := ih (show i + 1 + n ≤ 16 by omega) w
    refine ⟨u, by rw [fill, hw, Option.bind_some, hu], fun j hj => ?_⟩
    rw [huj j hj, hwj j hj]
    split_ifs <;> first | rfl | omega

/-- the byte `q` by `f`, those in front of it as they were, and `x` behind it -/
theorem store_fill_spec {q : ℕ} (hq : q < 16) (f : BitVec 8 → BitVec 8) (x : BitVec 8) (v : Vector (BitVec 8) 16) :
    ∃ u w, store q f v = some u ∧ fill x (q + 1) (16 - (q + 1)) u = some w ∧
      ∀ j (hj : j < 16), w[j] = if j < q then v[j] else if j = q then f v[j] else x := by
  obtain ⟨u, hu, huj⟩ := store_spec hq f v
  obtain ⟨w, hw, hwj⟩ := fill_spec x (show q + 1 + (16 - (q + 1)) ≤ 16 by omega) u
  refine ⟨u, w, hu, hw, fun j hj => ?_⟩
  rw [hwj j hj, huj j hj]
  split_ifs <;> first | rfl | omega

namespace IPv6Address

variable {overflow : Option (BitVec 32)} {p : BitVec 32}

theorem getMsbD_bits (a : IPv6Address) {j k : ℕ} (hj : j < 16) (hk : k < 8) :
    a.bits.getMsbD (8 * j + k) = a.m_addr.sin6_addr[j].getMsbD k := by
  have hdiv : (8 * j + k) / 8 = j := by omega
  have hmod : (8 * j + k) % 8 = k := by omega
  rw [bits, BitVec.getMsbD_cast, BitVec.getMsbD_flattenList, hdiv, hmod,
    List.getElem?_eq_getElem (by rw [Vector.length_toList]; exact hj), Vector.getElem_toList]
  rfl

/-- addresses are compared byte by byte, and bit by bit in a byte -/
theorem eq_of_bytes {x y : BitVec 128}
    (h : ∀ j k, j < 16 → k < 8 → x.getMsbD (8 * j + k) = y.getMsbD (8 * j + k)) : x = y := by
  refine BitVec.eq_of_getMsbD_eq fun i hi => ?_
  have hsplit := h (i / 8) (i % 8) (by omega) (by omega)
  rwa [Nat.div_add_mod] at hsplit

theorem getMsbD_mask_byte {p j k : ℕ} (hj : j < 16) (hk : k < 8) :
    (mask 128 p).getMsbD (8 * j + k) = decide (j < p / 8 ∨ (j = p / 8 ∧ k < p % 8)) := by
  rw [getMsbD_mask (by omega), decide_eq_decide]
  omega

theorem toNat_div_eight (p : BitVec 32) : (p / 8).toNat = p.toNat / 8 := by
  rw [BitVec.toNat_udiv]
  rfl

theorem toNat_div_eight_succ (p : BitVec 32) : (p / 8 + 1).toNat = p.toNat / 8 + 1 := by
  have hlt := p.isLt
  rw [BitVec.toNat_add, toNat_div_eight]
  change (p.toNat / 8 + 1) % 2 ^ 32 = _
  omega

/-- **The network keeps the host part of one byte**: the byte that the prefix ends in loses what is in front, and
keeps what is behind. -/
theorem networdAddress_bits (a : IPv6Address) (hp : p.toNat < 128) :
    ∃ r, a.networdAddress overflow p = some (some r) ∧ ∀ j k, j < 16 → k < 8 →
      r.bits.getMsbD (8 * j + k) = (a.bits.getMsbD (8 * j + k) &&
        decide (j < p.toNat / 8 ∨ (j = p.toNat / 8 ∧ p.toNat % 8 ≤ k))) := by
  obtain ⟨v, w, hv, hw, hwj⟩ := store_fill_spec (show p.toNat / 8 < 16 by omega) (· &&& ~~~mask 8 (p.toNat % 8)) 0x00
    a.m_addr.sin6_addr
  refine ⟨⟨{ a.m_addr with sin6_addr := w }⟩, ?_, fun j k hj hk => ?_⟩
  · simp only [networdAddress, CreateMask_8, toNat_div_eight, toNat_div_eight_succ, Option.bind_eq_bind,
      Option.bind_some, hv, hw]
    rfl
  · rw [getMsbD_bits _ hj hk, getMsbD_bits a hj hk]
    simp only [hwj j hj]
    rcases Nat.lt_trichotomy j (p.toNat / 8) with h | h | h
    · rw [if_pos h]
      simp [h]
    · rw [if_neg (by omega), if_pos h]
      have hbit : (!decide (k < p.toNat % 8)) = decide (p.toNat % 8 ≤ k) := by
        rw [← decide_not, decide_eq_decide, Nat.not_lt]
      simp [h, hk, getMsbD_mask, hbit]
    · rw [if_neg (by omega), if_neg (by omega)]
      simp
      omega

theorem broadcastAddress_bits (a : IPv6Address) (hp : p.toNat < 128) :
    (a.broadcastAddress overflow p).map (Option.map bits) = some (some (a.bits ||| ~~~mask 128 p.toNat)) := by
  obtain ⟨v, w, hv, hw, hwj⟩ := store_fill_spec (show p.toNat / 8 < 16 by omega) (· ||| ~~~mask 8 (p.toNat % 8)) 0xff
    a.m_addr.sin6_addr
  have hrun : a.broadcastAddress overflow p = some (some ⟨{ a.m_addr with sin6_addr := w }⟩) := by
    simp only [broadcastAddress, CreateMask_8, toNat_div_eight, toNat_div_eight_succ, Option.bind_eq_bind,
      Option.bind_some, hv, hw]
    rfl
  rw [hrun, Option.map_some, Option.map_some, Option.some.injEq, Option.some.injEq]
  refine eq_of_bytes fun j k hj hk => ?_
  rw [BitVec.getMsbD_or, BitVec.getMsbD_not, getMsbD_mask_byte hj hk, getMsbD_bits _ hj hk, getMsbD_bits a hj hk]
  simp only [hwj j hj]
  have hin : 8 * j + k < 128 := by omega
  rcases Nat.lt_trichotomy j (p.toNat / 8) with h | h | h
  · rw [if_pos h]
    simp [h]
  · rw [if_neg (by omega), if_pos h]
    subst h
    simp [hk, hin, getMsbD_mask]
  · have hones : (0xff : BitVec 8) = BitVec.allOnes 8 := rfl
    have hout : ¬ (j < p.toNat / 8 ∨ (j = p.toNat / 8 ∧ k < p.toNat % 8)) := by omega
    rw [if_neg (by omega), if_neg (by omega), hones, BitVec.getMsbD_allOnes]
    simp [hk, hin, hout]

theorem subnetMask_bits (a : IPv6Address) (hp : p.toNat < 128) :
    (a.subnetMask overflow p).map (Option.map bits) = some (some (mask 128 p.toNat)) := by
  obtain ⟨v, hv, hvj⟩ := store_spec (show p.toNat / 8 < 16 by omega) (fun _ => ~~~(~~~mask 8 (p.toNat % 8)))
    (Vector.replicate 16 0)
  obtain ⟨w, hw, hwj⟩ := fill_spec 0xff (show 0 + p.toNat / 8 ≤ 16 by omega) v
  have hrun : a.subnetMask overflow p = some (some ⟨⟨AF_INET6, 0, 0, w, 0⟩⟩) := by
    simp only [subnetMask, CreateMask_8, toNat_div_eight, Option.bind_eq_bind, Option.bind_some, hv, hw]
    rfl
  rw [hrun, Option.map_some, Option.map_some, Option.some.injEq, Option.some.injEq]
  refine eq_of_bytes fun j k hj hk => ?_
  rw [getMsbD_mask_byte hj hk, getMsbD_bits _ hj hk]
  simp only [hwj j hj, hvj j hj, Vector.getElem_replicate]
  rcases Nat.lt_trichotomy j (p.toNat / 8) with h | h | h
  · have hones : (0xff : BitVec 8) = BitVec.allOnes 8 := rfl
    rw [if_pos (by omega), hones, BitVec.getMsbD_allOnes]
    simp [h, hk]
  · rw [if_neg (by omega), if_pos h]
    simp [h, hk, getMsbD_mask]
  · have hout : ¬ (j < p.toNat / 8 ∨ (j = p.toNat / 8 ∧ k < p.toNat % 8)) := by omega
    rw [if_neg (by omega), if_neg (by omega)]
    simp [hout]

/-- what the three functions say of `a` -/
def Consistent (overflow : Option (BitVec 32)) (a : IPv6Address) (p : BitVec 32) : Prop :=
  Address.Consistent a.bits p.toNat ((a.networdAddress overflow p).map (Option.map bits))
    ((a.broadcastAddress overflow p).map (Option.map bits)) ((a.subnetMask overflow p).map (Option.map bits))

/-- what is kept of one byte is right when there is nothing to keep -/
theorem network_iff_byte {a r : IPv6Address} {p : ℕ} (hq : p / 8 < 16)
    (hbits : ∀ j k, j < 16 → k < 8 → r.bits.getMsbD (8 * j + k) = (a.bits.getMsbD (8 * j + k) &&
      decide (j < p / 8 ∨ (j = p / 8 ∧ p % 8 ≤ k)))) :
    r.bits = a.bits &&& mask 128 p ↔ a.m_addr.sin6_addr[p / 8] = 0#8 := by
  refine ⟨fun h => ?_, fun h => ?_⟩
  · refine BitVec.eq_of_getMsbD_eq fun k hk => ?_
    have hbit := hbits (p / 8) k hq hk
    rw [h, BitVec.getMsbD_and, getMsbD_mask_byte hq hk, getMsbD_bits a hq hk] at hbit
    rw [BitVec.getMsbD_zero]
    cases ha : a.m_addr.sin6_addr[p / 8].getMsbD k with
    | false => rfl
    | true =>
      rw [ha] at hbit
      simp at hbit
      omega
  · refine eq_of_bytes fun j k hj hk => ?_
    rw [hbits j k hj hk, BitVec.getMsbD_and, getMsbD_mask_byte hj hk]
    rcases Nat.lt_trichotomy j (p / 8) with hlt | heq | hlt
    · simp [hlt]
    · subst heq
      rw [getMsbD_bits a hq hk, h, BitVec.getMsbD_zero, Bool.false_and, Bool.false_and]
    · have hout : ¬ (j < p / 8 ∨ (j = p / 8 ∧ p % 8 ≤ k)) := by omega
      have hout' : ¬ (j < p / 8 ∨ (j = p / 8 ∧ k < p % 8)) := by omega
      simp [hout, hout']

theorem subnetMask_of_large (a : IPv6Address) (hp : 128 ≤ p.toNat) : a.subnetMask overflow p = none := by
  simp only [subnetMask, CreateMask_8, toNat_div_eight, Option.bind_eq_bind, Option.bind_some,
    store_of_large (show 16 ≤ p.toNat / 8 by omega), Option.bind_none]

/-- the byte that the prefix ends in -/
def byteAt (a : IPv6Address) (p : BitVec 32) : Option (BitVec 8) := a.m_addr.sin6_addr[(p / 8).toNat]?

theorem consistent_iff_byte (a : IPv6Address) :
    Consistent overflow a p ↔ p.toNat < 128 ∧ a.byteAt p = some 0#8 := by
  rw [Consistent]
  by_cases hp : p.toNat < 128
  · obtain ⟨r, hr, hbits⟩ := @networdAddress_bits overflow p a hp
    have hq : p.toNat / 8 < 16 := by omega
    rw [hr, broadcastAddress_bits a hp, subnetMask_bits a hp, consistent_iff_network (by omega), Option.map_some,
      Option.map_some, Option.some.injEq, Option.some.injEq, network_iff_byte hq hbits, byteAt, toNat_div_eight,
      Vector.getElem?_eq_getElem hq, Option.some.injEq]
    exact ⟨fun h => ⟨hp, h⟩, fun h => h.2⟩
  · rw [subnetMask_of_large a (by omega)]
    exact iff_of_false not_consistent_none fun h => hp h.1

end IPv6Address

/-! ## Both families -/

/-- **Networks, broadcast addresses and masks are consistent** only where the bytes under the mask are zero, since the
network keeps the host part. Without a prefix, and behind the width of the address, something is undefined. -/
theorem consistent_iff (overflow : Option (BitVec 32)) (prefix_len : BitVec 32) :
    (∀ a : IPv4Address, a.Consistent overflow prefix_len ↔
      1 ≤ prefix_len.toNat ∧ prefix_len.toNat ≤ 32 ∧ a.bits = 0#32 ∧
        (prefix_len.toNat = 1 → overflow = some 0x7fffffff#32)) ∧
    ∀ a : IPv6Address, a.Consistent overflow prefix_len ↔ prefix_len.toNat < 128 ∧ a.byteAt prefix_len = some 0#8 :=
  ⟨fun a => IPv4Address.consistent_iff_zero a, fun a => IPv6Address.consistent_iff_byte a⟩

/-- 192.168.1.5, as it lies in memory -/
def host : IPv4Address := ⟨⟨AF_INET, 0, 0x0501a8c0⟩⟩

example : host.networdAddress none 24 = some (some ⟨⟨AF_INET, 0, 0x05000000⟩⟩) := by decide

/-- The network of 192.168.1.5/24 is 0.0.0.5. -/
theorem host_not_consistent : ¬ ∀ overflow prefix_len,
    (∀ a : IPv4Address, a.Consistent overflow prefix_len) ∧ ∀ a : IPv6Address, a.Consistent overflow prefix_len := by
  intro hall
  have hhost := (IPv4Address.consistent_iff_zero host).1 ((hall none 24).1 host)
  exact absurd hhost.2.2.1 (by decide)

end Sylar.Address

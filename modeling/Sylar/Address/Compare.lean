/-
`Address::operator<` and `operator==`, and the paths of `UnixAddress`, of address.cc.

Two addresses are compared by the bytes of their socket addresses, as they lie in the memory of a little-endian host. The
padding of a sockaddr_in is zero, as the constructors leave it, and a `UnixAddress` is not longer than its sockaddr_un.

Results:
- `lt_iff`, `eq_iff`: the operators are the lexicographic order and the equality of the bytes;
- `compare_total`: `operator<` is a strict total order up to `operator==`, as the keys of a map need;
- `ipv4_compare`: the order of IPv4 addresses, and that they are equal exactly when they print the same;
- `unix_path_iff`: which paths are given back, and which two are one address.
-/
import Sylar.Core.LittleEndian
import Sylar.Core.Text
import Sylar.Address.Network
import Sylar.Address.Print

namespace Sylar.Address

open Sylar.Text Sylar.LittleEndian

/-! ## Socket addresses -/

def IPv4Address.new (address : BitVec 32) (port : BitVec 16) : IPv4Address :=
  ⟨⟨AF_INET, byteswapOnLittleEndian16 port, byteswapOnLittleEndian address⟩⟩

/-- what is written to a new stream -/
def IPv4Address.insert (a : IPv4Address) : Bytes :=
  let addr := byteswapOnLittleEndian a.m_addr.sin_addr
  decimal ((addr >>> 24) &&& 0xff).toNat ++ bytes "." ++ decimal ((addr >>> 16) &&& 0xff).toNat ++ bytes "." ++
    decimal ((addr >>> 8) &&& 0xff).toNat ++ bytes "." ++ decimal (addr &&& 0xff).toNat ++ bytes ":" ++
    decimal (byteswapOnLittleEndian16 a.m_addr.sin_port).toNat

def AF_UNIX : BitVec 16 := 1

/-- `sizeof(m_addr.sun_path)` -/
def sunPathSize : ℕ := 108

/-- `offsetof(sockaddr_un, sun_path)` -/
def sunPathOffset : ℕ := 2

structure UnixAddress where
  sun_path : Bytes
  m_length : ℕ
  size : sun_path.length = sunPathSize
  fits : m_length ≤ sunPathOffset + sunPathSize

namespace UnixAddress

/-- the constructor from a path; none: it throws -/
def new (path : Bytes) : Option UnixAddress :=
  let m_length := if path ≠ [] ∧ path.head? = some 0 then path.length else path.length + 1
  if h : m_length > sunPathSize then none
  else some {
    sun_path := (path ++ [0]).take m_length ++ List.replicate (sunPathSize - m_length) 0
    m_length := m_length + sunPathOffset
    size := by
      have hle : m_length ≤ (path ++ [0]).length := by
        simp only [m_length, List.length_append, List.length_singleton]
        split_ifs <;> omega
      rw [List.length_append, List.length_take, List.length_replicate]
      omega
    fits := by omega }

/-- a C string -/
def cString (s : Bytes) : Bytes := s.takeWhile (· ≠ 0)

def getPath (u : UnixAddress) : Bytes :=
  if u.m_length > sunPathOffset ∧ u.sun_path.head? = some 0 then
    bytes "\\0" ++ (u.sun_path.drop 1).take (u.m_length - sunPathOffset - 1)
  else cString u.sun_path

end UnixAddress

/-- what an `Address::ptr` may point to -/
inductive AnyAddress where
  | ipv4 (a : IPv4Address)
  | ipv6 (a : IPv6Address)
  | unix (a : UnixAddress)
  /-- `UnknownAddress(family)` -/
  | unknown (family : BitVec 16)

namespace AnyAddress

/-- the `getAddrLen()` bytes at `getAddr()` -/
def raw : AnyAddress → Bytes
  | ipv4 a => memBytes 2 a.m_addr.sin_family.toNat ++ memBytes 2 a.m_addr.sin_port.toNat ++
      memBytes 4 a.m_addr.sin_addr.toNat ++ List.replicate 8 0
  | ipv6 a => memBytes 2 a.m_addr.sin6_family.toNat ++ memBytes 2 a.m_addr.sin6_port.toNat ++
      memBytes 4 a.m_addr.sin6_flowinfo.toNat ++ a.m_addr.sin6_addr.toList.map (fun b => UInt8.ofNat b.toNat) ++
      memBytes 4 a.m_addr.sin6_scope_id.toNat
  | unix u => (memBytes 2 AF_UNIX.toNat ++ u.sun_path).take u.m_length
  | unknown family => memBytes 2 family.toNat ++ List.replicate 14 0

def getAddrLen : AnyAddress → ℕ
  | ipv4 _ => 16
  | ipv6 _ => 28
  | unix u => u.m_length
  | unknown _ => 16

/-- `getAddr()->sa_family` -/
def getFamily : AnyAddress → ℕ
  | ipv4 a => a.m_addr.sin_family.toNat
  | ipv6 a => a.m_addr.sin6_family.toNat
  | unix _ => AF_UNIX.toNat
  | unknown family => family.toNat

/-- the sign of the result, over the first `n` bytes -/
def memcmp : ℕ → Bytes → Bytes → Ordering
  | 0, _, _ => .eq
  | n + 1, a :: as, b :: bs => if a < b then .lt else if b < a then .gt else memcmp n as bs
  | _ + 1, _, _ => .eq

/-- `operator<` -/
def lt (a b : AnyAddress) : Bool :=
  match memcmp (min a.getAddrLen b.getAddrLen) a.raw b.raw with
  | .lt => true
  | .gt => false
  | .eq => a.getAddrLen < b.getAddrLen

/-- `operator==` -/
def eq (a b : AnyAddress) : Bool := a.getAddrLen = b.getAddrLen ∧ memcmp a.getAddrLen a.raw b.raw = .eq

end AnyAddress

/-! ## The order -/

theorem length_raw (a : AnyAddress) : a.raw.length = a.getAddrLen := by
  cases a with
  | ipv4 a => simp [AnyAddress.raw, AnyAddress.getAddrLen]
  | ipv6 a => simp [AnyAddress.raw, AnyAddress.getAddrLen]
  | unix u =>
    have hfits := u.fits
    have hsize := u.size
    simp only [AnyAddress.raw, AnyAddress.getAddrLen, List.length_take, List.length_append, length_memBytes]
    rw [sunPathOffset] at hfits
    omega
  | unknown family => simp [AnyAddress.raw, AnyAddress.getAddrLen]

/-- the comparison of `operator<` on bytes -/
theorem memcmp_spec (x y : Bytes) :
    (match AnyAddress.memcmp (min x.length y.length) x y with
      | .lt => true
      | .gt => false
      | .eq => decide (x.length < y.length)) = true ↔ x < y := by
  induction x generalizing y with
  | nil => cases y <;> simp [AnyAddress.memcmp]
  | cons a x ih =>
    cases y with
    | nil => simp [AnyAddress.memcmp]
    | cons b y =>
      have hmin : min (a :: x).length (b :: y).length = min x.length y.length + 1 := by simp
      have hlen : ((a :: x).length < (b :: y).length) = (x.length < y.length) := by simp
      rw [hmin, AnyAddress.memcmp, List.cons_lt_cons_iff]
      split_ifs with hlt hgt
      · simp [hlt]
      · have hne : a ≠ b := fun h => Std.Irrefl.irrefl _ (h ▸ hgt)
        simp [hlt, hne]
      · obtain rfl : a = b := Std.Trichotomous.trichotomous _ _ hlt hgt
        simp only [hlen, ih, Std.Irrefl.irrefl, false_or, true_and]

theorem memcmp_eq_iff {x y : Bytes} (h : x.length = y.length) : AnyAddress.memcmp x.length x y = .eq ↔ x = y := by
  induction x generalizing y with
  | nil => simp [AnyAddress.memcmp, List.eq_nil_of_length_eq_zero h.symm]
  | cons a x ih =>
    cases y with
    | nil => simp at h
    | cons b y =>
      rw [List.length_cons, AnyAddress.memcmp, List.cons_eq_cons]
      split_ifs with hlt hgt
      · have hne : a ≠ b := fun h => Std.Irrefl.irrefl _ (h ▸ hlt)
        simp [hne]
      · have hne : a ≠ b := fun h => Std.Irrefl.irrefl _ (h ▸ hgt)
        simp [hne]
      · have heq : a = b := Std.Trichotomous.trichotomous _ _ hlt hgt
        rw [ih (by simpa using h)]
        simp [heq]

theorem lt_iff (a b : AnyAddress) : a.lt b = true ↔ a.raw < b.raw := by
  rw [AnyAddress.lt, ← length_raw a, ← length_raw b]
  exact memcmp_spec a.raw b.raw

theorem eq_iff (a b : AnyAddress) : a.eq b = true ↔ a.raw = b.raw := by
  rw [AnyAddress.eq, decide_eq_true_eq, ← length_raw a, ← length_raw b]
  constructor
  · rintro ⟨hlen, hcmp⟩
    exact (memcmp_eq_iff hlen).1 hcmp
  · intro h
    have hlen := congrArg List.length h
    exact ⟨hlen, (memcmp_eq_iff hlen).2 h⟩

theorem memBytes_inj {w v v' : ℕ} (hv : v < 256 ^ w) (hv' : v' < 256 ^ w) (h : memBytes w v = memBytes w v') : v = v' := by
  have hmem := congrArg ofMem h
  rwa [ofMem_memBytes, ofMem_memBytes, Nat.mod_eq_of_lt hv, Nat.mod_eq_of_lt hv'] at hmem

theorem byte_eq {w : ℕ} {x y : BitVec w} {i i' : ℕ} (h : ∀ j < 8, y.getLsbD (8 * i + j) = x.getLsbD (8 * i' + j)) :
    UInt8.ofNat (y.toNat / 256 ^ i) = UInt8.ofNat (x.toNat / 256 ^ i') := by
  apply UInt8.toNat_inj.1
  simp only [UInt8.toNat_ofNat']
  apply Nat.eq_of_testBit_eq
  intro j
  have hpow : ∀ k, 256 ^ k = 2 ^ (8 * k) := fun k => by rw [pow_mul]; norm_num
  rw [hpow, hpow, Nat.testBit_mod_two_pow, Nat.testBit_mod_two_pow, Nat.testBit_div_two_pow, Nat.testBit_div_two_pow]
  by_cases hj : j < 8
  · have hbit := h j hj
    rw [BitVec.getLsbD, BitVec.getLsbD] at hbit
    rw [Nat.add_comm j, Nat.add_comm j, hbit]
  · simp [hj]

theorem memBytes_bswap_16 (x : BitVec 16) : memBytes 2 (bswap_16 x).toNat = (memBytes 2 x.toNat).reverse := by
  have hbyte : ∀ i < 2, UInt8.ofNat ((bswap_16 x).toNat / 256 ^ i) = UInt8.ofNat (x.toNat / 256 ^ (1 - i)) := by
    intro i hi
    refine byte_eq fun j hj => ?_
    rw [getLsbD_bswap_16 (by omega)]
    congr 1
    omega
  have h0 := hbyte 0 (by omega)
  have h1 := hbyte 1 (by omega)
  simp only [pow_zero, Nat.div_one, pow_one, Nat.sub_zero, Nat.sub_self] at h0 h1
  simp [memBytes, h0, h1]

theorem memBytes_bswap_32 (x : BitVec 32) : memBytes 4 (bswap_32 x).toNat = (memBytes 4 x.toNat).reverse := by
  have hbyte : ∀ i < 4, UInt8.ofNat ((bswap_32 x).toNat / 256 ^ i) = UInt8.ofNat (x.toNat / 256 ^ (3 - i)) := by
    intro i hi
    refine byte_eq fun j hj => ?_
    rw [getLsbD_bswap_32 (by omega)]
    congr 1
    omega
  have h0 := hbyte 0 (by omega)
  have h1 := hbyte 1 (by omega)
  have h2 := hbyte 2 (by omega)
  have h3 := hbyte 3 (by omega)
  norm_num at h0 h1 h2 h3
  simp [memBytes, Nat.div_div_eq_div_mul, h0, h1, h2, h3]

theorem new_eq_iff (a b : BitVec 32) (p q : BitVec 16) :
    (AnyAddress.ipv4 (.new a p)).eq (.ipv4 (.new b q)) = true ↔ a = b ∧ p = q := by
  rw [eq_iff]
  refine ⟨fun h => ?_, fun h => by rw [h.1, h.2]⟩
  simp only [AnyAddress.raw, IPv4Address.new, List.append_assoc] at h
  obtain ⟨-, h⟩ := List.append_inj h rfl
  obtain ⟨hport, h⟩ := List.append_inj h (by simp)
  obtain ⟨haddr, -⟩ := List.append_inj h (by simp)
  have hp := BitVec.eq_of_toNat_eq (memBytes_inj (BitVec.isLt _) (BitVec.isLt _) hport)
  have ha := BitVec.eq_of_toNat_eq (memBytes_inj (BitVec.isLt _) (BitVec.isLt _) haddr)
  refine ⟨?_, ?_⟩
  · rw [← bswap_32_bswap_32 a, ← bswap_32_bswap_32 b]
    exact congrArg bswap_32 ha
  · rw [← bswap_16_bswap_16 p, ← bswap_16_bswap_16 q]
    exact congrArg bswap_16 hp

/-- an IPv4 address is kept in network order, the port in front -/
theorem new_lt_iff (a b : BitVec 32) (p q : BitVec 16) :
    (AnyAddress.ipv4 (.new a p)).lt (.ipv4 (.new b q)) = true ↔ p < q ∨ (p = q ∧ a < b) := by
  have hport : (memBytes 2 p.toNat).reverse = (memBytes 2 q.toNat).reverse ↔ p = q := by
    rw [List.reverse_inj]
    exact ⟨fun h => BitVec.eq_of_toNat_eq (memBytes_inj p.isLt q.isLt h), fun h => by rw [h]⟩
  have hp := reverse_memBytes_lt_iff (w := 2) p.isLt q.isLt
  have ha := reverse_memBytes_lt_iff (w := 4) a.isLt b.isLt
  rw [lt_iff]
  simp only [AnyAddress.raw, IPv4Address.new, byteswapOnLittleEndian, byteswapOnLittleEndian16, memBytes_bswap_16,
    memBytes_bswap_32, List.append_assoc]
  rw [append_lt_append_iff rfl, append_lt_append_iff (by simp), append_lt_append_iff (by simp), hport, hp, ha,
    BitVec.lt_def, BitVec.lt_def]
  simp
theorem dot_notMem (n : ℕ) : '.'.toUInt8 ∉ decimal n := notMem_decimal (by decide) n

theorem colon_notMem (n : ℕ) : ':'.toUInt8 ∉ decimal n := notMem_decimal (by decide) n

/-- what an IPv4 address prints is its address and port, and nothing else -/
theorem insert_eq_iff (a b : BitVec 32) (p q : BitVec 16) :
    (IPv4Address.new a p).insert = (IPv4Address.new b q).insert ↔
      (AnyAddress.ipv4 (.new a p)).eq (.ipv4 (.new b q)) = true := by
  rw [new_eq_iff]
  refine ⟨fun h => ?_, fun h => by rw [h.1, h.2]⟩
  have hdot : bytes "." = ['.'.toUInt8] := rfl
  have hcolon : bytes ":" = [':'.toUInt8] := rfl
  simp only [IPv4Address.insert, IPv4Address.new, byteswapOnLittleEndian, byteswapOnLittleEndian16, bswap_32_bswap_32,
    bswap_16_bswap_16, hdot, hcolon, List.append_assoc, List.singleton_append] at h
  obtain ⟨h3, h⟩ := cut_unique (dot_notMem _) (dot_notMem _) h
  obtain ⟨h2, h⟩ := cut_unique (dot_notMem _) (dot_notMem _) h
  obtain ⟨h1, h⟩ := cut_unique (dot_notMem _) (dot_notMem _) h
  obtain ⟨h0, hport⟩ := cut_unique (colon_notMem _) (colon_notMem _) h
  have hbyte : ∀ x : BitVec 32, (x &&& 0xff).toNat = x.toNat % 256 := fun x => Nat.and_two_pow_sub_one_eq_mod _ 8
  have h3 := decimal_injective h3
  have h2 := decimal_injective h2
  have h1 := decimal_injective h1
  have h0 := decimal_injective h0
  simp only [hbyte, BitVec.toNat_ushiftRight, Nat.shiftRight_eq_div_pow] at h3 h2 h1 h0
  refine ⟨BitVec.eq_of_toNat_eq ?_, BitVec.eq_of_toNat_eq (decimal_injective hport)⟩
  have ha := a.isLt
  have hb := b.isLt
  omega

section

variable {p q : Bytes} {u v : UnixAddress}

/-- an abstract name is stored as it is, a path with a NUL behind it -/
def stored (path : Bytes) : Bytes := if path.head? = some 0 then path else path ++ [0]

theorem stored_ne_nil (path : Bytes) : stored path ≠ [] := by
  rw [stored]
  split_ifs with h
  · rintro rfl
    cases h
  · simp

theorem new_eq_some (h : UnixAddress.new p = some u) : (stored p).length ≤ sunPathSize ∧
    u.sun_path = stored p ++ List.replicate (sunPathSize - (stored p).length) 0 ∧
    u.m_length = (stored p).length + sunPathOffset := by
  have hlen : (if p ≠ [] ∧ p.head? = some 0 then p.length else p.length + 1) = (stored p).length := by
    rw [stored]
    by_cases hzero : p.head? = some 0
    · have hne : p ≠ [] := by
        rintro rfl
        cases hzero
      rw [if_pos ⟨hne, hzero⟩, if_pos hzero]
    · rw [if_neg fun hboth => hzero hboth.2, if_neg hzero, List.length_append, List.length_singleton]
  have htake : (p ++ [0]).take (stored p).length = stored p := by
    rw [stored]
    split_ifs
    · exact List.take_left
    · exact List.take_length
  rw [UnixAddress.new] at h
  simp only [hlen, htake] at h
  by_cases hlong : (stored p).length > sunPathSize
  · rw [dif_pos hlong] at h
    cases h
  · rw [dif_neg hlong] at h
    obtain rfl := Option.some.inj h
    exact ⟨Nat.le_of_not_gt hlong, rfl, rfl⟩

theorem raw_unix (h : UnixAddress.new p = some u) : (AnyAddress.unix u).raw = memBytes 2 AF_UNIX.toNat ++ stored p := by
  obtain ⟨-, hpath, hlen⟩ := new_eq_some h
  have htake : (stored p).length + sunPathOffset = (memBytes 2 AF_UNIX.toNat ++ stored p).length := by
    rw [List.length_append, length_memBytes, sunPathOffset, Nat.add_comm]
  rw [AnyAddress.raw, hpath, hlen, ← List.append_assoc, htake, List.take_left]

theorem stored_eq_iff : stored p = stored q ↔ p = q ∨ (p = [] ∧ q = [0]) ∨ (p = [0] ∧ q = []) := by
  -- an abstract name that is stored like a path
  have hmixed : ∀ a b : Bytes, a.head? = some 0 → b.head? ≠ some 0 → (a = b ++ [0] ↔ a = [0] ∧ b = []) := by
    intro a b ha hb
    cases b with
    | nil => simp
    | cons c b =>
      refine iff_of_false (fun h => ?_) (by simp)
      rw [h] at ha
      exact hb ha
  rw [stored, stored]
  split_ifs with hp hq hq
  · have hpne : p ≠ [] := by
      rintro rfl
      cases hp
    have hqne : q ≠ [] := by
      rintro rfl
      cases hq
    simp [hpne, hqne]
  · have hne : p ≠ q := fun h => hq (h ▸ hp)
    have hpne : p ≠ [] := by
      rintro rfl
      cases hp
    simp [hmixed p q hp hq, hne, hpne]
  · have hne : p ≠ q := fun h => hp (h ▸ hq)
    have hqne : q ≠ [] := by
      rintro rfl
      cases hq
    rw [eq_comm, hmixed q p hq hp]
    simp [hne, hqne, and_comm]
  · have hp0 : p ≠ [0] := fun h => hp (h ▸ rfl)
    have hq0 : q ≠ [0] := fun h => hq (h ▸ rfl)
    simp [hp0, hq0]

theorem cString_append (s r : Bytes) : UnixAddress.cString (s ++ 0 :: r) = UnixAddress.cString s := by
  induction s with
  | nil => rfl
  | cons c s ih =>
    simp only [UnixAddress.cString] at ih
    simp only [UnixAddress.cString, List.cons_append, List.takeWhile_cons, ih]

theorem getPath_eq (h : UnixAddress.new p = some u) :
    u.getPath = if p = [] ∨ p.head? = some 0 then bytes "\\0" ++ p.drop 1 else UnixAddress.cString p := by
  obtain ⟨-, hpath, hlen⟩ := new_eq_some h
  have hlong : u.m_length > sunPathOffset := by
    have hpos := List.length_pos_iff.2 (stored_ne_nil p)
    omega
  have hhead : u.sun_path.head? = (stored p).head? := by
    rw [hpath, List.head?_append_of_ne_nil _ (stored_ne_nil p)]
  rw [UnixAddress.getPath, hhead]
  by_cases hzero : p.head? = some 0
  · obtain ⟨s, rfl⟩ : ∃ s, p = 0 :: s := by
      cases p with
      | nil => cases hzero
      | cons c s => exact ⟨s, by simpa using hzero⟩
    have hstored : stored (0 :: s) = 0 :: s := if_pos rfl
    rw [if_pos ⟨hlong, by rw [hstored]; rfl⟩, if_pos (.inr hzero), hpath, hlen, hstored]
    simp
  · have hstored : stored p = p ++ [0] := if_neg hzero
    cases p with
    | nil =>
      rw [if_pos ⟨hlong, by rw [hstored]; rfl⟩, if_pos (.inl rfl), hlen, hstored]
      simp
    | cons c s =>
      have hhead : (stored (c :: s)).head? ≠ some 0 := by rwa [hstored]
      rw [if_neg fun hboth => hhead hboth.2, if_neg (by simpa using hzero), hpath, hstored, List.append_assoc,
        List.singleton_append, cString_append]

end

end Sylar.Address

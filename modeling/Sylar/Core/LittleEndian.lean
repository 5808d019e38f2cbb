/-
Fixed-width unsigned integers as bytes in memory, lowest byte first.

Results: `memBytes w` and `ofMem` are inverse to each other on `w` bytes and on numbers below `256 ^ w`; reversing the
bytes twice is the identity; highest byte first, the bytes are ordered as the numbers are.
-/
import Mathlib.Tactic

namespace Sylar.LittleEndian

/-- the `w` bytes of `v`, lowest first -/
def memBytes : ℕ → ℕ → List UInt8
  | 0, _ => []
  | w + 1, v => UInt8.ofNat v :: memBytes w (v / 256)

/-- the number whose bytes are `bs`, lowest first -/
def ofMem : List UInt8 → ℕ
  | [] => 0
  | b :: bs => b.toNat + 256 * ofMem bs

@[simp] theorem length_memBytes (w v : ℕ) : (memBytes w v).length = w := by
  induction w generalizing v with
  | zero => rfl
  | succ w ih => simp [memBytes, ih]

theorem ofMem_memBytes (w v : ℕ) : ofMem (memBytes w v) = v % 256 ^ w := by
  induction w generalizing v with
  | zero => simp [memBytes, ofMem, Nat.mod_one]
  | succ w ih =>
    have hb : (UInt8.ofNat v).toNat = v % 256 := by simp
    rw [memBytes, ofMem, ih, hb, pow_succ', Nat.mod_mul]

theorem memBytes_ofMem (bs : List UInt8) : memBytes bs.length (ofMem bs) = bs := by
  induction bs with
  | nil => rfl
  | cons b bs ih =>
    have hb := b.toNat_lt
    have hdiv : ofMem (b :: bs) / 256 = ofMem bs := by simp only [ofMem]; omega
    have hhead : UInt8.ofNat (ofMem (b :: bs)) = b := by
      apply UInt8.toNat_inj.1
      simp only [UInt8.toNat_ofNat', ofMem]
      omega
    rw [List.length_cons, memBytes, hdiv, ih, hhead]

theorem memBytes_mod (w v : ℕ) : memBytes w (v % 256 ^ w) = memBytes w v := by
  have h := memBytes_ofMem (memBytes w v)
  rwa [length_memBytes, ofMem_memBytes] at h

/-- the `w`-byte number with the bytes of `v` in reverse order -/
def swap (w v : ℕ) : ℕ := ofMem (memBytes w v).reverse

theorem memBytes_swap (w v : ℕ) : memBytes w (swap w v) = (memBytes w v).reverse := by
  have h := memBytes_ofMem (memBytes w v).reverse
  rwa [List.length_reverse, length_memBytes] at h

theorem swap_swap (w v : ℕ) : swap w (swap w v) = v % 256 ^ w := by
  rw [swap, memBytes_swap, List.reverse_reverse, ofMem_memBytes]

/-- of lists that are equally long, what is behind counts last -/
theorem append_lt_append_iff {x y x' y' : List UInt8} (h : x.length = y.length) :
    x ++ x' < y ++ y' ↔ x < y ∨ (x = y ∧ x' < y') := by
  induction x generalizing y with
  | nil =>
    obtain rfl := List.eq_nil_of_length_eq_zero h.symm
    simp
  | cons a x ih =>
    cases y with
    | nil => cases h
    | cons b y =>
      rw [List.cons_append, List.cons_append, List.cons_lt_cons_iff, List.cons_lt_cons_iff, ih (Nat.succ.inj h),
        List.cons_eq_cons]
      tauto

/-- highest byte first, the order of the bytes is that of the numbers -/
theorem reverse_memBytes_lt_iff {w u v : ℕ} (hu : u < 256 ^ w) (hv : v < 256 ^ w) :
    (memBytes w u).reverse < (memBytes w v).reverse ↔ u < v := by
  induction w generalizing u v with
  | zero =>
    rw [pow_zero, Nat.lt_one_iff] at hu hv
    simp [hu, hv, memBytes]
  | succ w ih =>
    have hu' : u / 256 < 256 ^ w := Nat.div_lt_of_lt_mul (by rwa [← pow_succ'])
    have hv' : v / 256 < 256 ^ w := Nat.div_lt_of_lt_mul (by rwa [← pow_succ'])
    have hsame : (memBytes w (u / 256)).reverse = (memBytes w (v / 256)).reverse ↔ u / 256 = v / 256 := by
      rw [List.reverse_inj]
      refine ⟨fun h => ?_, fun h => by rw [h]⟩
      have hmem := congrArg ofMem h
      rwa [ofMem_memBytes, ofMem_memBytes, Nat.mod_eq_of_lt hu', Nat.mod_eq_of_lt hv'] at hmem
    have hlast : [UInt8.ofNat u] < [UInt8.ofNat v] ↔ u % 256 < v % 256 := by
      simp [List.cons_lt_cons_iff, UInt8.lt_iff_toNat_lt]
    rw [memBytes, memBytes, List.reverse_cons, List.reverse_cons, append_lt_append_iff (by simp), ih hu' hv', hsame, hlast]
    omega
end Sylar.LittleEndian

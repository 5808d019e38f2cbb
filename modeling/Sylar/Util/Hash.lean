/-
The hashes of hash_util.cc, each with an overload for C strings and one for a pointer and a size.

Memory is the bytes from a pointer on. `char` is signed and words are little-endian, as on the machine the project is
built for; the length is an `int` in both forms of `murmur3_hash`, whose bodies are the same text. The sized `quick_hash`
does not move its pointer: it adds the first byte `size` times.

Results:
- `murmur_append`: the body of `murmur3_hash` reads inside of the string only;
- `quickLoop_append`, `foldlM_sized`: both forms of `quick_hash` as one loop, over the string and over its first byte;
- `hash_overloads_agree_iff`: for which strings all overloads agree.
-/
import Sylar.Core.LittleEndian
import Sylar.Core.MachineInt
import Sylar.Core.Text

namespace Sylar.HashUtil

open Sylar.LittleEndian Sylar.MachineInt

/-! ## Model -/

/-- a pointer: null, or the memory from it on -/
abbrev Ptr := Option Bytes

/-- a byte at an offset; `none` is a read outside of the memory -/
def loadByte (m : Bytes) (i : ℤ) : Option UInt8 := if 0 ≤ i then m[i.toNat]? else none

/-- `ptr[i]` of a `uint32_t *` -/
def loadWord (m : Bytes) (i : ℤ) : Option UInt32 := do
  let a ← loadByte m (4 * i)
  let b ← loadByte m (4 * i + 1)
  let c ← loadByte m (4 * i + 2)
  let d ← loadByte m (4 * i + 3)
  return UInt32.ofNat (ofMem [a, b, c, d])

/-- `(int)strlen(str)`; `none` where no NUL is found -/
def strlen (m : Bytes) : Option ℤ := if 0 ∈ m then some (toSigned 32 (m.idxOf 0)) else none

def ROTL (x r : UInt32) : UInt32 := (x <<< r) ||| (x >>> (32 - r))

def fmix32 (h : UInt32) : UInt32 :=
  let h := h ^^^ (h >>> 16)
  let h := h * 0x85ebca6b
  let h := h ^^^ (h >>> 13)
  let h := h * 0xc2b2ae35
  h ^^^ (h >>> 16)

def seed1 : UInt32 := 0xcc9e2d51

def seed2 : UInt32 := 0x1b873593

def mixWord (s : UInt32) : UInt32 := ROTL (s * seed1) 15 * seed2

/-- one round of the loop over the blocks -/
def mixBlock (h s : UInt32) : UInt32 := ROTL (h ^^^ mixWord s) 13 * 5 + 0xe6546b64

/-- `for (int i = 0; i < blk; i++)` -/
def murmurBlocks (m : Bytes) (blk : ℤ) (h : UInt32) : Option UInt32 :=
  (List.range blk.toNat).foldlM (fun h (i : ℕ) => (loadWord m i).map (mixBlock h)) h

/-- the switch on `len & 3`, whose cases fall through -/
def murmurTail (m : Bytes) (tail : ℤ) (rest : ℕ) (h : UInt32) : Option UInt32 :=
  if rest = 0 then some h
  else do
    let s ← if 3 ≤ rest then (loadByte m (tail + 2)).map fun b : UInt8 => b.toUInt32 <<< 16 else some 0
    let s ← if 2 ≤ rest then (loadByte m (tail + 1)).map fun b : UInt8 => s ||| b.toUInt32 <<< 8 else some s
    let s ← (loadByte m tail).map fun b : UInt8 => s ||| b.toUInt32
    return h ^^^ mixWord s

/-- the body of `murmur3_hash` behind the computation of the length -/
def murmur (m : Bytes) (len : ℤ) (seed : UInt32) : Option UInt32 := do
  let blk := len.tdiv 4
  let h ← murmurBlocks m blk seed
  let h ← murmurTail m (blk * 4) (len % 4).toNat h
  return fmix32 (h ^^^ UInt32.ofInt len)

/-- `murmur3_hash(const char*, seed)` -/
def murmur3_hash (str : Ptr) (seed : UInt32) : Option UInt32 :=
  match str with
  | none => some 0
  | some m => do murmur m (← strlen m) seed

/-- `murmur3_hash(const void*, size, seed)` -/
def murmur3_hash_sized (data : Ptr) (size seed : UInt32) : Option UInt32 :=
  match data with
  | none => some 0
  | some m => murmur m (toSigned 32 size.toNat) seed

def murmur3_hash64 (str : Ptr) (seed seed2 : UInt32) : Option UInt64 := do
  return (← murmur3_hash str seed).toUInt64 <<< 32 ||| (← murmur3_hash str seed2).toUInt64

def murmur3_hash64_sized (str : Ptr) (size seed seed2 : UInt32) : Option UInt64 := do
  return (← murmur3_hash_sized str size seed).toUInt64 <<< 32 ||| (← murmur3_hash_sized str size seed2).toUInt64

/-- the value of a `char` -/
def charValue (c : UInt8) : ℤ := c.toInt8.toInt

/-- `h = 31 * h + *str` -/
def quickRound (h : UInt32) (c : UInt8) : UInt32 := 31 * h + UInt32.ofInt (charValue c)

/-- `for (; *str; str++)` -/
def quickLoop : Bytes → UInt32 → Option UInt32
  | [], _ => none
  | c :: m, h => if c = 0 then some h else quickLoop m (quickRound h c)

/-- `quick_hash(const char*)` -/
def quick_hash (str : Ptr) : Option UInt32 := do quickLoop (← str) 0

/-- `quick_hash(const void*, size)`: `*str` is the first byte in every round -/
def quick_hash_sized (tmp : Ptr) (size : UInt32) : Option UInt32 :=
  (List.range size.toNat).foldlM (fun h _ => do return quickRound h (← loadByte (← tmp) 0)) 0

example : murmur3_hash (some [97, 98, 0]) 0 = murmur3_hash_sized (some [97, 98, 99]) 2 0 := by decide

/-! ## murmur3_hash -/

theorem loadByte_append {s : Bytes} (x : Bytes) {i : ℤ} (hi : i < s.length) : loadByte (s ++ x) i = loadByte s i := by
  rw [loadByte, loadByte]
  split
  · rw [List.getElem?_append_left (by omega)]
  · rfl

theorem loadByte_isSome {s : Bytes} {i : ℤ} (hlo : 0 ≤ i) (hi : i < s.length) : (loadByte s i).isSome := by
  rw [loadByte, if_pos hlo, List.getElem?_eq_getElem (by omega)]
  rfl

theorem loadWord_append {s : Bytes} (x : Bytes) {i : ℤ} (hi : 4 * i + 3 < s.length) :
    loadWord (s ++ x) i = loadWord s i := by
  rw [loadWord, loadWord, loadByte_append x (by omega), loadByte_append x (by omega), loadByte_append x (by omega),
    loadByte_append x (by omega)]

theorem loadWord_isSome {s : Bytes} {i : ℤ} (hlo : 0 ≤ i) (hi : 4 * i + 3 < s.length) : (loadWord s i).isSome := by
  obtain ⟨a, ha⟩ := Option.isSome_iff_exists.1 (@loadByte_isSome s (4 * i) (by omega) (by omega))
  obtain ⟨b, hb⟩ := Option.isSome_iff_exists.1 (@loadByte_isSome s (4 * i + 1) (by omega) (by omega))
  obtain ⟨c, hc⟩ := Option.isSome_iff_exists.1 (@loadByte_isSome s (4 * i + 2) (by omega) (by omega))
  obtain ⟨d, hd⟩ := Option.isSome_iff_exists.1 (@loadByte_isSome s (4 * i + 3) (by omega) (by omega))
  rw [loadWord, ha, hb, hc, hd]
  rfl

/-- a loop over words that are all in `s` sees nothing of what follows, and comes to its end -/
theorem blocks_append {s : Bytes} (x : Bytes) (is : List ℕ) (his : ∀ i ∈ is, 4 * i + 3 < s.length) (h : UInt32) :
    is.foldlM (fun h (i : ℕ) => (loadWord (s ++ x) i).map (mixBlock h)) h =
        is.foldlM (fun h (i : ℕ) => (loadWord s i).map (mixBlock h)) h ∧
      (is.foldlM (fun h (i : ℕ) => (loadWord s i).map (mixBlock h)) h).isSome := by
  induction is generalizing h with
  | nil => exact ⟨rfl, rfl⟩
  | cons i is ih =>
    have hi := his i List.mem_cons_self
    obtain ⟨w, hw⟩ := Option.isSome_iff_exists.1 (@loadWord_isSome s i (by omega) (by omega))
    have hrest := ih (fun j hj => his j (List.mem_cons_of_mem _ hj)) (mixBlock h w)
    simp only [List.foldlM_cons, loadWord_append x (show 4 * (i : ℤ) + 3 < s.length by omega), hw, Option.map_some,
      Option.bind_eq_bind, Option.bind_some]
    exact hrest

theorem murmurTail_append {s : Bytes} (x : Bytes) {tail : ℤ} {rest : ℕ} (h : UInt32) (hlo : 0 ≤ tail) (hrest : rest ≤ 3)
    (hhi : tail + rest ≤ s.length) :
    murmurTail (s ++ x) tail rest h = murmurTail s tail rest h ∧ (murmurTail s tail rest h).isSome := by
  by_cases hz : rest = 0
  · rw [murmurTail, murmurTail, if_pos hz, if_pos hz]
    exact ⟨rfl, rfl⟩
  obtain ⟨a, ha⟩ := Option.isSome_iff_exists.1 (@loadByte_isSome s tail hlo (by omega))
  have ha' := loadByte_append x (show tail < s.length by omega)
  rw [murmurTail, murmurTail, if_neg hz, if_neg hz, ha', ha]
  by_cases h2 : 2 ≤ rest
  · obtain ⟨b, hb⟩ := Option.isSome_iff_exists.1 (@loadByte_isSome s (tail + 1) (by omega) (by omega))
    have hb' := loadByte_append x (show tail + 1 < s.length by omega)
    simp only [if_pos h2, hb', hb]
    by_cases h3 : 3 ≤ rest
    · obtain ⟨c, hc⟩ := Option.isSome_iff_exists.1 (@loadByte_isSome s (tail + 2) (by omega) (by omega))
      have hc' := loadByte_append x (show tail + 2 < s.length by omega)
      simp only [if_pos h3, hc', hc]
      exact ⟨trivial, rfl⟩
    · simp only [if_neg h3]
      exact ⟨trivial, rfl⟩
  · simp only [if_neg h2, if_neg (show ¬ 3 ≤ rest by omega)]
    exact ⟨trivial, rfl⟩

/-- **The hash of a string sees the string only**, and reads inside of it. -/
theorem murmur_append (s x : Bytes) (seed : UInt32) :
    murmur (s ++ x) s.length seed = murmur s s.length seed ∧ (murmur s s.length seed).isSome := by
  have hdiv : (s.length : ℤ).tdiv 4 = (s.length / 4 : ℕ) := by rw [Int.tdiv_eq_ediv_of_nonneg (by omega)]; omega
  have hblocks := @blocks_append s x (List.range (s.length / 4)) (fun i hi => by rw [List.mem_range] at hi; omega) seed
  obtain ⟨h, hh⟩ := Option.isSome_iff_exists.1 hblocks.2
  obtain ⟨htail, hsome⟩ := @murmurTail_append s x ((s.length / 4 : ℕ) * 4) ((s.length : ℤ) % 4).toNat h (by omega)
    (by omega) (by omega)
  obtain ⟨h', hh'⟩ := Option.isSome_iff_exists.1 hsome
  simp only [murmur, murmurBlocks, hdiv, Int.toNat_natCast, hblocks.1, hh, Option.bind_eq_bind, Option.bind_some, htail,
    hh']
  exact ⟨trivial, rfl⟩

theorem strlen_append {s : Bytes} (hs : 0 ∉ s) (hlen : s.length < 2 ^ 31) (a : Bytes) :
    strlen (s ++ 0 :: a) = some (s.length : ℤ) := by
  rw [strlen, if_pos (by simp), List.idxOf_append_of_notMem hs, List.idxOf_cons_self, Nat.add_zero,
    toSigned_of_fits (by omega) (by omega)]

theorem toSigned_size {s : Bytes} (hlen : s.length < 2 ^ 31) :
    toSigned 32 (UInt32.ofNat s.length).toNat = (s.length : ℤ) := by
  rw [UInt32.toNat_ofNat', Nat.mod_eq_of_lt (by omega), toSigned_of_fits (by omega) (by omega)]

theorem murmur3_hash_agree {s : Bytes} (hs : 0 ∉ s) (hlen : s.length < 2 ^ 31) (a b : Bytes) (seed : UInt32) :
    murmur3_hash (some (s ++ 0 :: a)) seed = murmur3_hash_sized (some (s ++ b)) (UInt32.ofNat s.length) seed ∧
      (murmur3_hash (some (s ++ 0 :: a)) seed).isSome := by
  have hptr : murmur3_hash (some (s ++ 0 :: a)) seed = murmur s s.length seed := by
    simp only [murmur3_hash, strlen_append hs hlen a, Option.bind_eq_bind, Option.bind_some]
    exact (murmur_append s (0 :: a) seed).1
  have hsized : murmur3_hash_sized (some (s ++ b)) (UInt32.ofNat s.length) seed = murmur s s.length seed := by
    simp only [murmur3_hash_sized, toSigned_size hlen]
    exact (murmur_append s b seed).1
  rw [hptr, hsized]
  exact ⟨rfl, (murmur_append s b seed).2⟩

theorem murmur3_hash64_agree {s : Bytes} (hs : 0 ∉ s) (hlen : s.length < 2 ^ 31) (a b : Bytes) (seed seed2 : UInt32) :
    murmur3_hash64 (some (s ++ 0 :: a)) seed seed2 =
        murmur3_hash64_sized (some (s ++ b)) (UInt32.ofNat s.length) seed seed2 ∧
      (murmur3_hash64 (some (s ++ 0 :: a)) seed seed2).isSome := by
  obtain ⟨h1, hsome1⟩ := murmur3_hash_agree hs hlen a b seed
  obtain ⟨h2, hsome2⟩ := murmur3_hash_agree hs hlen a b seed2
  obtain ⟨u, hu⟩ := Option.isSome_iff_exists.1 hsome1
  obtain ⟨w, hw⟩ := Option.isSome_iff_exists.1 hsome2
  rw [murmur3_hash64, murmur3_hash64_sized, ← h1, ← h2, hu, hw]
  exact ⟨rfl, rfl⟩

/-! ## quick_hash -/

/-- the sum that a loop of `quickRound` computes, before it is wrapped: 31 to the number of bytes that follow -/
def weighted : List ℤ → ℤ
  | [] => 0
  | c :: cs => 31 ^ cs.length * c + weighted cs

theorem foldl_quickRound (s : Bytes) (h : ℤ) :
    s.foldl quickRound (UInt32.ofInt h) = UInt32.ofInt (31 ^ s.length * h + weighted (s.map charValue)) := by
  induction s generalizing h with
  | nil => simp [weighted]
  | cons c s ih =>
    have hround : quickRound (UInt32.ofInt h) c = UInt32.ofInt (31 * h + charValue c) := by
      rw [quickRound, UInt32.ofInt_add, UInt32.ofInt_mul]
      rfl
    rw [List.foldl_cons, hround, ih, List.map_cons, weighted, List.length_cons, List.length_map]
    congr 1
    ring

theorem quickLoop_append {s : Bytes} (hs : 0 ∉ s) (a : Bytes) (h : UInt32) :
    quickLoop (s ++ 0 :: a) h = some (s.foldl quickRound h) := by
  induction s generalizing h with
  | nil => simp [quickLoop]
  | cons c s ih =>
    rw [List.mem_cons, not_or] at hs
    rw [List.cons_append, quickLoop, if_neg (Ne.symm hs.1), ih hs.2, List.foldl_cons]

theorem foldlM_sized (c : UInt8) (m : Bytes) (is : List ℕ) (h : UInt32) :
    is.foldlM (fun h _ => do return quickRound h (← loadByte (← (some (c :: m) : Ptr)) 0)) h =
      some ((List.replicate is.length c).foldl quickRound h) := by
  induction is generalizing h with
  | nil => rfl
  | cons i is ih => exact ih (quickRound h c)

theorem weighted_sub (l : List ℤ) (x : ℤ) :
    weighted (l.map (· - x)) = weighted l - weighted (List.replicate l.length x) := by
  induction l with
  | nil => rfl
  | cons y l ih =>
    rw [List.map_cons, List.length_cons, List.replicate_succ, weighted, weighted, weighted, ih, List.length_map,
      List.length_replicate]
    ring

theorem ofInt_eq_iff (x y : ℤ) : UInt32.ofInt x = UInt32.ofInt y ↔ 2 ^ 32 ∣ x - y := by
  rw [← UInt32.toNat_inj, UInt32.ofInt, UInt32.ofInt, UInt32.toNat_ofNat', UInt32.toNat_ofNat']
  omega

/-- how far the bytes are from a repetition of the first one, each weighted by 31 to the number of bytes that follow -/
def drift (s : Bytes) : ℤ := weighted (s.map fun c => charValue c - charValue (s.headD 0))

/-- a string of one byte repeated does not drift -/
theorem drift_replicate (n : ℕ) (c : UInt8) : drift (List.replicate n c) = 0 := by
  have hzero : ∀ k, weighted (List.replicate k 0) = 0 := by
    intro k
    induction k with
    | zero => rfl
    | succ k ih => rw [List.replicate_succ, weighted, ih, mul_zero, add_zero]
  cases n with
  | zero => rfl
  | succ n =>
    have hhead : (List.replicate (n + 1) c).headD 0 = c := rfl
    rw [drift, List.map_replicate, hhead, sub_self, hzero]

theorem quick_hash_agree_iff {s : Bytes} (hs : 0 ∉ s) (hlen : s.length < 2 ^ 31) (a b : Bytes) :
    quick_hash (some (s ++ 0 :: a)) = quick_hash_sized (some (s ++ b)) (UInt32.ofNat s.length) ↔ 2 ^ 32 ∣ drift s := by
  have hsize : (UInt32.ofNat s.length).toNat = s.length := by
    rw [UInt32.toNat_ofNat', Nat.mod_eq_of_lt (by omega)]
  have hptr : quick_hash (some (s ++ 0 :: a)) = some (s.foldl quickRound 0) := quickLoop_append hs a 0
  rw [hptr, quick_hash_sized, hsize]
  cases s with
  | nil => exact iff_of_true rfl (by simp [drift, weighted])
  | cons c s =>
    have hzero : (0 : UInt32) = UInt32.ofInt 0 := rfl
    have hsum := weighted_sub ((c :: s).map charValue) (charValue c)
    rw [List.cons_append, foldlM_sized, List.length_range, Option.some_inj, hzero, foldl_quickRound, foldl_quickRound,
      ofInt_eq_iff, drift, List.headD_cons]
    rw [List.map_map, List.length_map] at hsum
    rw [mul_zero, mul_zero, zero_add, zero_add, List.map_replicate, ← hsum]
    rfl

/-! ## All overloads -/

/-- every overload for a C string gives the number of the one for a pointer and a size, wherever the string is stored -/
def OverloadsAgree (s : Bytes) : Prop :=
  ∀ (a b : Bytes) (seed seed2 : UInt32),
    (∃ h, murmur3_hash (some (s ++ 0 :: a)) seed = some h ∧
      murmur3_hash_sized (some (s ++ b)) (UInt32.ofNat s.length) seed = some h) ∧
    (∃ h, murmur3_hash64 (some (s ++ 0 :: a)) seed seed2 = some h ∧
      murmur3_hash64_sized (some (s ++ b)) (UInt32.ofNat s.length) seed seed2 = some h) ∧
    ∃ h, quick_hash (some (s ++ 0 :: a)) = some h ∧
      quick_hash_sized (some (s ++ b)) (UInt32.ofNat s.length) = some h

/-- **The overloads agree exactly on the strings that do not drift.** The murmur hashes always do. -/
theorem hash_overloads_agree_iff {s : Bytes} (hs : 0 ∉ s) (hlen : s.length < 2 ^ 31) :
    OverloadsAgree s ↔ 2 ^ 32 ∣ drift s := by
  refine ⟨fun h => ?_, fun h a b seed seed2 => ?_⟩
  · obtain ⟨_, _, u, hptr, hsized⟩ := h [] [] 0 0
    rw [← quick_hash_agree_iff hs hlen [] [], hptr, hsized]
  · obtain ⟨h1, hsome1⟩ := murmur3_hash_agree hs hlen a b seed
    obtain ⟨h2, hsome2⟩ := murmur3_hash64_agree hs hlen a b seed seed2
    obtain ⟨u, hu⟩ := Option.isSome_iff_exists.1 hsome1
    obtain ⟨w, hw⟩ := Option.isSome_iff_exists.1 hsome2
    have hquick : quick_hash (some (s ++ 0 :: a)) = some (s.foldl quickRound 0) := quickLoop_append hs a 0
    refine ⟨⟨u, hu, h1 ▸ hu⟩, ⟨w, hw, h2 ▸ hw⟩, _, hquick, ?_⟩
    rw [← (quick_hash_agree_iff hs hlen a b).2 h, hquick]

theorem hash_overloads_agree_aaa : OverloadsAgree [97, 97, 97] :=
  (hash_overloads_agree_iff (by decide) (by decide)).2 (by decide)

/-- `quick_hash("ab")` is 3105 and `quick_hash("ab", 2)` is 3104 -/
theorem quick_hash_ab : (0 : UInt8) ∉ [97, 98] ∧ quick_hash (some [97, 98, 0]) = some 3105 ∧
    quick_hash_sized (some [97, 98, 0]) 2 = some 3104 ∧ ¬ OverloadsAgree [97, 98] := by
  refine ⟨by decide, by decide, by decide, fun h => ?_⟩
  obtain ⟨_, _, u, hptr, hsized⟩ := h [] [0] 0 0
  have hne : quick_hash (some ([97, 98] ++ 0 :: [])) ≠ quick_hash_sized (some ([97, 98] ++ [0])) 2 := by decide
  exact hne (hptr.trans hsized.symm)

end Sylar.HashUtil

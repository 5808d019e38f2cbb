/-
The two `split` of hash_util.cc.

They differ in how they look for a delimiter. `max` is counted down as a `size_t` and compared behind the decrement.

Results:
- `splitLoop_spec`: what the loop has cut, and how often: `cuts max` is the number of decrements before the loop breaks;
- `split_exact`: the pieces are as they should be exactly when `max` is not 1 or no delimiter occurs. With `max` 1 the
  counter passes 0 and the text is split at every delimiter.
-/
import Sylar.Core.Find
import Sylar.Core.Text

namespace Sylar.HashUtil

open Sylar.Text Sylar.Find

/-! ## Model -/

/-- the loop, and the last piece; `last` is behind the last delimiter found -/
def splitLoop (isDelim : UInt8 → Bool) (str : Bytes) (last : ℕ) (max : UInt64) : List Bytes :=
  match h : find isDelim str last with
  | none => [str.drop last]
  | some pos =>
    (str.drop last).take (pos - last) ::
      if max - 1 = 1 then [str.drop (pos + 1)] else splitLoop isDelim str (pos + 1) (max - 1)
termination_by str.length - last
decreasing_by
  have hpos := find_bounds h
  omega

def split (str : Bytes) (delim : UInt8) (max : UInt64) : List Bytes :=
  if str = [] then [] else splitLoop (· == delim) str 0 max

/-- `find_first_of(delims)` looks for any byte in front of the NUL -/
def isOneOf (delims : Bytes) (c : UInt8) : Bool := (cstr delims).contains c

/-- the overload with a `const char *delims` -/
def splitAny (str delims : Bytes) (max : UInt64) : List Bytes :=
  if str = [] then [] else splitLoop (isOneOf delims) str 0 max

/-! ## Pieces -/

/-- the pieces with the delimiters between them -/
def interleave : List Bytes → Bytes → Bytes
  | p :: ps, d :: ds => p ++ d :: interleave ps ds
  | ps, _ => ps.flatten

/-- the text cut at some of its delimiters, from the left -/
structure Pieces (isDelim : UInt8 → Bool) (str : Bytes) (pieces : List Bytes) : Prop where
  joined : ∃ ds : Bytes, ds.length + 1 = pieces.length ∧ (∀ d ∈ ds, isDelim d = true) ∧ interleave pieces ds = str
  free : ∀ p ∈ pieces.dropLast, ∀ c ∈ p, isDelim c = false

/-- the number of pieces with the limit `max`; 0 is no limit -/
def pieceCount (delims : ℕ) (max : UInt64) : ℕ := if 1 ≤ max then min (1 + delims) max.toNat else 1 + delims

/-- what `split` is to give -/
structure Splits (isDelim : UInt8 → Bool) (str : Bytes) (max : UInt64) (pieces : List Bytes) : Prop
    extends Pieces isDelim str pieces where
  count : pieces.length = pieceCount (str.countP isDelim) max

theorem pieces_whole (isDelim : UInt8 → Bool) (str : Bytes) : Pieces isDelim str [str] where
  joined := ⟨[], rfl, by simp, by simp [interleave]⟩
  free := by simp

theorem Pieces.cons {isDelim : UInt8 → Bool} {u v : Bytes} {c : UInt8} {ps : List Bytes}
    (hu : ∀ x ∈ u, isDelim x = false) (hc : isDelim c = true) (h : Pieces isDelim v ps) :
    Pieces isDelim (u ++ c :: v) (u :: ps) := by
  obtain ⟨ds, hlen, hds, hjoin⟩ := h.joined
  have hne : ps ≠ [] := List.ne_nil_of_length_pos (by omega)
  refine ⟨⟨c :: ds, by simp [hlen], by simpa [hc] using hds, by rw [interleave, hjoin]⟩, ?_⟩
  rw [List.dropLast_cons_of_ne_nil hne]
  intro p hp
  rcases List.mem_cons.1 hp with rfl | hp
  · exact hu
  · exact h.free p hp

/-! ## The loop -/

section

variable {isDelim : UInt8 → Bool}

theorem splitLoop_miss (a : Bytes) {b : Bytes} (hb : ∀ x ∈ b, isDelim x = false) (max : UInt64) :
    splitLoop isDelim (a ++ b) a.length max = [b] := by
  have hfind := find_miss a hb
  rw [splitLoop]
  split
  · rw [List.drop_left]
  · next pos h => exact absurd (hfind.symm.trans h) (Option.some_ne_none pos).symm

/-- what is left behind a delimiter is split with the counter one less, or not at all -/
theorem splitLoop_hit (a : Bytes) {u v : Bytes} {c : UInt8} (hu : ∀ x ∈ u, isDelim x = false)
    (hc : isDelim c = true) (max : UInt64) :
    splitLoop isDelim (a ++ (u ++ c :: v)) a.length max =
      u :: if max - 1 = 1 then [v]
        else splitLoop isDelim ((a ++ (u ++ [c])) ++ v) (a ++ (u ++ [c])).length (max - 1) := by
  have hfind := find_hit (v := v) a hu hc
  have hstr : a ++ (u ++ c :: v) = (a ++ (u ++ [c])) ++ v := by simp
  have hpos : a.length + u.length + 1 = (a ++ (u ++ [c])).length := by simp [Nat.add_assoc]
  rw [splitLoop]
  split
  · next h => exact absurd (hfind.symm.trans h) (Option.some_ne_none _)
  · next pos h =>
    obtain rfl : a.length + u.length = pos := Option.some.inj (hfind.symm.trans h)
    rw [List.drop_left, Nat.add_sub_cancel_left, List.take_left, hpos, hstr, List.drop_left]

/-- how often the loop cuts before it breaks -/
def cuts (max : UInt64) : ℕ := if max = 1 then 2 ^ 64 else (max - 1).toNat

theorem cuts_last {max : UInt64} (h : max - 1 = 1) : cuts max = 1 := by
  have hmax : max ≠ 1 := by
    rintro rfl
    exact absurd h (by decide)
  rw [cuts, if_neg hmax, h]
  rfl

theorem cuts_succ {max : UInt64} (h : max - 1 ≠ 1) : cuts max = cuts (max - 1) + 1 := by
  by_cases hmax : max = 1
  · subst hmax
    decide
  · have hpos : 0 < (max - 1).toNat := by
      rw [Nat.pos_iff_ne_zero]
      intro hzero
      have hsub : max - 1 = 0 := UInt64.toNat_inj.1 hzero
      exact hmax (by rw [← UInt64.sub_add_cancel max 1, hsub]; rfl)
    have hone : 1 ≤ max - 1 := UInt64.le_iff_toNat_le.2 (Nat.succ_le_of_lt hpos)
    have hpred : (max - 1 - 1).toNat = (max - 1).toNat - 1 := UInt64.toNat_sub_of_le _ _ hone
    rw [cuts, cuts, if_neg hmax, if_neg h, hpred]
    omega

/-- **Loop.** The text from `last` on is cut at its first delimiters, `cuts max` of them at most. -/
theorem splitLoop_spec (a b : Bytes) (max : UInt64) :
    Pieces isDelim b (splitLoop isDelim (a ++ b) a.length max) ∧
      (splitLoop isDelim (a ++ b) a.length max).length = 1 + min (b.countP isDelim) (cuts max) := by
  induction hn : b.length using Nat.strong_induction_on generalizing a b max with
  | _ n ih =>
    rcases exists_first isDelim b with hnone | ⟨u, c, v, rfl, hu, hc⟩
    · rw [splitLoop_miss a hnone]
      refine ⟨pieces_whole isDelim b, ?_⟩
      have hzero : b.countP isDelim = 0 := List.countP_eq_zero.2 fun x hx => by simp [hnone x hx]
      rw [hzero, Nat.zero_min]
      rfl
    · rw [splitLoop_hit a hu hc]
      have hcount : (u ++ c :: v).countP isDelim = v.countP isDelim + 1 := by
        have hzero : u.countP isDelim = 0 := List.countP_eq_zero.2 fun x hx => by simp [hu x hx]
        rw [List.countP_append, List.countP_cons_of_pos hc, hzero, Nat.zero_add]
      rw [hcount]
      split_ifs with hmax
      · refine ⟨(pieces_whole isDelim v).cons hu hc, ?_⟩
        rw [cuts_last hmax]
        simp
      · obtain ⟨hpieces, hlen⟩ := ih v.length (by simp at hn; omega) (a ++ (u ++ [c])) v (max - 1) rfl
        refine ⟨hpieces.cons hu hc, ?_⟩
        rw [List.length_cons, hlen, cuts_succ hmax]
        omega

end

/-! ## The limit -/

/-- the loop keeps to the limit exactly when it is not 1, or there is nothing to cut -/
theorem splitLoop_splits {isDelim : UInt8 → Bool} {str : Bytes} (hsize : str.length < 2 ^ 64) (max : UInt64) :
    Splits isDelim str max (splitLoop isDelim str 0 max) ↔ max ≠ 1 ∨ ∀ c ∈ str, isDelim c = false := by
  have hspec : Pieces isDelim str (splitLoop isDelim str 0 max) ∧
      (splitLoop isDelim str 0 max).length = 1 + min (str.countP isDelim) (cuts max) := splitLoop_spec [] str max
  have hle : str.countP isDelim < 2 ^ 64 := List.countP_le_length.trans_lt hsize
  have hcount : (splitLoop isDelim str 0 max).length = pieceCount (str.countP isDelim) max ↔
      max ≠ 1 ∨ str.countP isDelim = 0 := by
    rw [hspec.2]
    by_cases hmax : max = 1
    · subst hmax
      have hcuts : cuts 1 = 2 ^ 64 := rfl
      have hlimit : pieceCount (str.countP isDelim) 1 = 1 := by simp [pieceCount]
      simp only [hcuts, hlimit, ne_eq, not_true_eq_false, false_or]
      omega
    · refine iff_of_true ?_ (.inl hmax)
      rw [cuts, if_neg hmax, pieceCount]
      split_ifs with hlimit
      · have hpred : (max - 1).toNat = max.toNat - 1 := UInt64.toNat_sub_of_le _ _ hlimit
        have hpos : 1 ≤ max.toNat := UInt64.le_iff_toNat_le.1 hlimit
        omega
      · -- without a limit the counter has to pass all of `size_t` before it is 1
        obtain rfl : max = 0 := by
          rw [UInt64.not_le, UInt64.lt_iff_toNat_lt] at hlimit
          exact UInt64.toNat_inj.1 (Nat.lt_one_iff.1 hlimit)
        have hwrap : (0 - 1 : UInt64).toNat = 2 ^ 64 - 1 := rfl
        rw [hwrap]
        omega
  have hfree : str.countP isDelim = 0 ↔ ∀ c ∈ str, isDelim c = false := by
    simp [List.countP_eq_zero]
  rw [← hfree, ← hcount]
  exact ⟨fun h => h.count, fun h => ⟨hspec.1, h⟩⟩

/-- **Split.** Each overload splits a text as it should exactly when the limit is not 1 or no delimiter occurs. -/
theorem split_exact (str : Bytes) (hstr : str ≠ []) (hsize : str.length < 2 ^ 64) (delim : UInt8) (delims : Bytes)
    (max : UInt64) :
    (Splits (· == delim) str max (split str delim max) ↔ max ≠ 1 ∨ delim ∉ str) ∧
      (Splits (isOneOf delims) str max (splitAny str delims max) ↔ max ≠ 1 ∨ ∀ c ∈ str, c ∉ cstr delims) := by
  rw [split, splitAny, if_neg hstr, if_neg hstr, splitLoop_splits hsize, splitLoop_splits hsize]
  refine ⟨or_congr_right ⟨?_, ?_⟩, or_congr_right ?_⟩
  · intro h hmem
    exact absurd (h delim hmem) (by simp)
  · intro h c hc
    rw [beq_eq_false_iff_ne]
    rintro rfl
    exact h hc
  · simp [isOneOf]

/-- three pieces at the limit of two -/
theorem split_exact_limited :
    (Splits (· == ','.toUInt8) (bytes "a,b,c") 2 (split (bytes "a,b,c") ','.toUInt8 2) ↔
        (2 : UInt64) ≠ 1 ∨ ','.toUInt8 ∉ bytes "a,b,c") ∧
      (Splits (isOneOf (bytes ",;")) (bytes "a,b,c") 2 (splitAny (bytes "a,b,c") (bytes ",;") 2) ↔
        (2 : UInt64) ≠ 1 ∨ ∀ c ∈ bytes "a,b,c", c ∉ cstr (bytes ",;")) :=
  split_exact (bytes "a,b,c") (by decide) (by decide) ','.toUInt8 (bytes ",;") 2

/-- one piece was asked for -/
theorem split_limit_one :
    split (bytes "a,b") ','.toUInt8 1 = [bytes "a", bytes "b"] ∧
      ¬ Splits (· == ','.toUInt8) (bytes "a,b") 1 (split (bytes "a,b") ','.toUInt8 1) := by
  have hcut : split (bytes "a,b") ','.toUInt8 1 = [bytes "a", bytes "b"] := by
    have hhit := @splitLoop_hit (· == ','.toUInt8) [] (bytes "a") (bytes "b") ','.toUInt8
      (forall_mem_of_all (by decide)) (by decide) 1
    have hmiss := @splitLoop_miss (· == ','.toUInt8) (bytes "a,") (bytes "b") (forall_mem_of_all (by decide)) (1 - 1)
    rw [if_neg (by decide)] at hhit
    rw [split, if_neg (by decide)]
    exact hhit.trans (congrArg (bytes "a" :: ·) hmiss)
  refine ⟨hcut, fun h => ?_⟩
  have hcount := h.count
  rw [hcut] at hcount
  exact absurd hcount (by decide)

end Sylar.HashUtil

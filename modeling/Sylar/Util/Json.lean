/-
`JsonUtil::NeedEscape` and `Escape` of json_util.cc.

`Escape` counts the bytes of the result first. The result is then made of that size, and the escaped text is appended to
it: the text stands behind as many NULs as it has bytes.

Results:
- `Escape_eq`: what is returned in either case;
- `unescape_flatMap`: the escapes are replaced again;
- `escape_exact`: the escaped text is the one intended exactly when there is nothing to escape.
-/
import Sylar.Core.Text

namespace Sylar.JsonUtil

open Sylar.Text

/-! ## Model -/

/-- the cases of the first two switches: \f, \t, \r, \n, \b, the quote and the backslash -/
def isCase (c : UInt8) : Bool := c = 12 || c = 9 || c = 13 || c = 10 || c = 8 || c = '"'.toUInt8 || c = '\\'.toUInt8

def NeedEscape (v : Bytes) : Bool := v.any isCase

/-- `size` behind the first loop of `Escape` -/
def escapedSize (v : Bytes) : ℕ := v.foldl (fun size c => size + if isCase c then 2 else 1) 0

/-- what the third switch appends -/
def escapeByte (c : UInt8) : Bytes :=
  if c = 12 then bytes "\\f"
  else if c = 9 then bytes "\\t"
  else if c = 13 then bytes "\\r"
  else if c = 10 then bytes "\\n"
  else if c = 8 then bytes "\\b"
  else if c = '"'.toUInt8 then bytes "\\\""
  else if c = '\\'.toUInt8 then bytes "\\\\"
  else [c]

def Escape (v : Bytes) : Bytes :=
  let size := escapedSize v
  if size = v.length then v else v.foldl (fun rt c => rt ++ escapeByte c) (List.replicate size 0)

/-! ## Escapes -/

/-- the letter behind the backslash of an escape, and the byte it stands for -/
def letters : List (UInt8 × UInt8) :=
  [('f'.toUInt8, 12), ('t'.toUInt8, 9), ('r'.toUInt8, 13), ('n'.toUInt8, 10), ('b'.toUInt8, 8), ('"'.toUInt8, '"'.toUInt8),
    ('\\'.toUInt8, '\\'.toUInt8)]

/-- the two bytes of an escape, or the byte itself -/
def escapeOf (c : UInt8) : Bytes :=
  match letters.find? fun p => p.2 = c with
  | some (l, _) => ['\\'.toUInt8, l]
  | none => [c]

/-- every escape is the byte again -/
def unescape : Bytes → Bytes
  | c :: l :: s =>
    match (if c = '\\'.toUInt8 then letters.lookup l else none) with
    | some b => b :: unescape s
    | none => c :: unescape (l :: s)
  | s => s

/-- what `Escape` is to give -/
structure EscapesTo (v rt : Bytes) : Prop where
  concat : rt = v.flatMap escapeOf
  same : rt = v ↔ NeedEscape v = false
  size : rt.length = escapedSize v
  back : unescape rt = v

/-! ## The passes -/

/-- the switch goes by the table -/
theorem escapeByte_eq (c : UInt8) : escapeByte c = escapeOf c := by
  revert c
  apply forall_byte
  decide +kernel

theorem length_escapeOf (c : UInt8) : (escapeOf c).length = if isCase c then 2 else 1 := by
  revert c
  apply forall_byte
  decide +kernel

/-- an escape is read as the byte it stands for -/
theorem unescape_escapeOf (c : UInt8) (s : Bytes) : unescape (escapeOf c ++ s) = c :: unescape s := by
  have hread : ∀ c : UInt8, escapeOf c = ['\\'.toUInt8, (escapeOf c).getD 1 0] ∧
      letters.lookup ((escapeOf c).getD 1 0) = some c ∨ escapeOf c = [c] ∧ c ≠ '\\'.toUInt8 := by
    apply forall_byte
    decide +kernel
  rcases hread c with ⟨hesc, hletter⟩ | ⟨hself, hne⟩
  · rw [hesc, List.cons_append, List.cons_append, List.nil_append, unescape, if_pos rfl, hletter]
  · rw [hself]
    cases s with
    | nil => rfl
    | cons l s => simp [unescape, hne]

theorem unescape_flatMap (v : Bytes) : unescape (v.flatMap escapeOf) = v := by
  induction v with
  | nil => rfl
  | cons c v ih => rw [List.flatMap_cons, unescape_escapeOf, ih]

theorem escapedSize_eq (v : Bytes) : escapedSize v = (v.flatMap escapeOf).length := by
  have hloop : ∀ (v : Bytes) (size : ℕ),
      v.foldl (fun size c => size + if isCase c then 2 else 1) size = size + (v.flatMap escapeOf).length := by
    intro v
    induction v with
    | nil => exact fun _ => rfl
    | cons c v ih =>
      intro size
      rw [List.foldl_cons, ih, List.flatMap_cons, List.length_append, length_escapeOf, Nat.add_assoc]
  exact (hloop v 0).trans (Nat.zero_add _)

/-- the first pass gives the length of the text exactly when nothing is escaped -/
theorem escapedSize_eq_length {v : Bytes} : escapedSize v = v.length ↔ NeedEscape v = false := by
  have hge : ∀ v : Bytes, v.length ≤ (v.flatMap escapeOf).length := by
    intro v
    induction v with
    | nil => exact Nat.le_refl _
    | cons c v ih =>
      rw [List.flatMap_cons, List.length_append, length_escapeOf, List.length_cons]
      split_ifs <;> omega
  rw [escapedSize_eq, NeedEscape]
  induction v with
  | nil => simp
  | cons c v ih =>
    have hrest := hge v
    rw [List.flatMap_cons, List.length_append, length_escapeOf, List.length_cons, List.any_cons]
    cases isCase c with
    | false =>
      rw [Bool.false_or]
      refine Iff.trans ?_ ih
      simp only [Bool.false_eq_true, if_false]
      omega
    | true =>
      simp only [if_true, Bool.true_or, Bool.true_eq_false, iff_false]
      omega

theorem flatMap_plain {v : Bytes} (h : NeedEscape v = false) : v.flatMap escapeOf = v := by
  have hplain : ∀ c : UInt8, isCase c = false → escapeOf c = [c] := by
    apply forall_byte
    decide +kernel
  induction v with
  | nil => rfl
  | cons c v ih =>
    rw [NeedEscape, List.any_cons, Bool.or_eq_false_iff] at h
    rw [List.flatMap_cons, hplain c h.1, ih h.2]
    rfl

/-- the escaped text stands behind the NULs of the `resize` -/
theorem Escape_eq (v : Bytes) :
    Escape v = if NeedEscape v then List.replicate (escapedSize v) 0 ++ v.flatMap escapeOf else v := by
  have hloop : ∀ (v rt : Bytes), v.foldl (fun rt c => rt ++ escapeByte c) rt = rt ++ v.flatMap escapeOf := by
    intro v
    induction v with
    | nil => simp
    | cons c v ih =>
      intro rt
      rw [List.foldl_cons, ih, escapeByte_eq, List.flatMap_cons, List.append_assoc]
  by_cases h : NeedEscape v = true
  · have hsize : ¬ escapedSize v = v.length := by
      rw [escapedSize_eq_length, h]
      decide
    rw [if_pos h, Escape, hloop, if_neg hsize]
  · rw [if_neg h, Escape, if_pos]
    exact escapedSize_eq_length.2 (Bool.eq_false_of_not_eq_true h)

/-- **Escaping.** It is exact and reversible exactly where it does nothing. -/
theorem escape_exact (v : Bytes) : EscapesTo v (Escape v) ↔ NeedEscape v = false := by
  refine ⟨fun h => ?_, fun h => ?_⟩
  · by_contra hneed
    rw [Bool.not_eq_false] at hneed
    have hconcat := h.concat
    rw [Escape_eq, if_pos hneed, List.append_left_eq_self, List.replicate_eq_nil_iff, escapedSize_eq,
      List.length_eq_zero_iff] at hconcat
    -- only the empty text has a result of size 0
    have hv : v = [] := by
      calc
        v = unescape (v.flatMap escapeOf) := (unescape_flatMap v).symm
        _ = unescape [] := by rw [hconcat]
        _ = [] := rfl
    rw [hv] at hneed
    cases hneed
  · have hsame : Escape v = v := by rw [Escape_eq, h]; rfl
    rw [hsame]
    exact {
      concat := (flatMap_plain h).symm
      same := iff_of_true rfl h
      size := (escapedSize_eq_length.2 h).symm
      back := by rw [← flatMap_plain h, unescape_flatMap, flatMap_plain h] }

/-- a newline comes back as two NULs and its escape -/
theorem escape_newline :
    Escape (bytes "\n") = 0 :: 0 :: bytes "\\n" ∧ ¬ EscapesTo (bytes "\n") (Escape (bytes "\n")) := by
  refine ⟨by decide, fun h => ?_⟩
  have hsize := h.size
  exact absurd hsize (by decide)

end Sylar.JsonUtil

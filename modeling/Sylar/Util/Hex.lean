/-
`hexstring_from_data` and `data_from_hexstring` of hash_util.cc.

The decoder reads two characters in each round of its loop, with a switch for each; the second one may read the NUL behind
the text, but the length is checked to be even before.

Results:
- `hexLoop_hexstring`: the loop gives the bytes back;
- `hexLoop_cases`: what it makes of any text of even length;
- `hex_bijection`: decoding undoes encoding, fails exactly on an odd length or a character that is no digit, and otherwise
  is undone up to the case of the letters.
-/
import Sylar.Core.Text

namespace Sylar.HashUtil

open Sylar.Text

/-! ## Model -/

/-- the character of four bits -/
def hexChar (c : UInt8) : UInt8 := if c > 9 then c + 'a'.toUInt8 - 10 else c + '0'.toUInt8

def hexstring_from_data (data : Bytes) : Bytes :=
  if data.length = 0 then [] else data.flatMap fun b : UInt8 => [hexChar (b >>> 4 &&& 0xf), hexChar (b &&& 0xf)]

/-- `std::invalid_argument` with its `what()` -/
structure InvalidArgument where
  what : String
deriving DecidableEq, Repr

def oddLength : InvalidArgument := ⟨"data_from_hexstring length % 2 != 0"⟩

def invalidHexstring : InvalidArgument := ⟨"data_from_hexstring invalid hexstring"⟩

/-- the value the switches give to a character -/
def hexValue (c : UInt8) : Except InvalidArgument UInt8 :=
  if 'a'.toUInt8 ≤ c ∧ c ≤ 'f'.toUInt8 then .ok (c - 'a'.toUInt8 + 10)
  else if 'A'.toUInt8 ≤ c ∧ c ≤ 'F'.toUInt8 then .ok (c - 'A'.toUInt8 + 10)
  else if '0'.toUInt8 ≤ c ∧ c ≤ '9'.toUInt8 then .ok (c - '0'.toUInt8)
  else .error invalidHexstring

/-- the loop over `hexstring`; `buf` gets one byte in a round -/
def hexLoop : Bytes → Except InvalidArgument Bytes
  | [] => .ok []
  | [a] => do
    let _ ← hexValue a
    let _ ← hexValue 0
    return []
  | a :: b :: s => do
    let high ← hexValue a
    let low ← hexValue b
    let buf ← hexLoop s
    return (high <<< 4 ||| low) :: buf

/-- the overload with an output buffer checks the length once more -/
def data_from_hexstring (hexstring : Bytes) : Except InvalidArgument Bytes :=
  if hexstring.length % 2 ≠ 0 then .error oddLength
  else if hexstring.length = 0 then .ok []
  else if hexstring.length % 2 ≠ 0 then .error oddLength
  else hexLoop hexstring

/-- `isxdigit` in the C locale -/
def isHexDigit (c : UInt8) : Bool :=
  ('0'.toUInt8 ≤ c && c ≤ '9'.toUInt8) || ('A'.toUInt8 ≤ c && c ≤ 'F'.toUInt8) || ('a'.toUInt8 ≤ c && c ≤ 'f'.toUInt8)

/-! ## One byte -/

/-- the value of a digit, which is below 16 and printed in lower case, or no value -/
theorem hexValue_cases (c : UInt8) :
    (isHexDigit c = true ∧ ∃ x, hexValue c = .ok x ∧ x < 16 ∧ hexChar x = tolower c) ∨
      (isHexDigit c = false ∧ hexValue c = .error invalidHexstring) := by
  have hvalue : ∀ c : UInt8, (isHexDigit c = true ∧ hexValue c = .ok ((hexValue c).toOption.getD 0) ∧
      (hexValue c).toOption.getD 0 < 16 ∧ hexChar ((hexValue c).toOption.getD 0) = tolower c) ∨
      (isHexDigit c = false ∧ hexValue c = .error invalidHexstring) := by
    apply forall_byte
    decide +kernel
  exact (hvalue c).imp_left fun h => ⟨h.1, _, h.2⟩

/-- both characters of a byte have a value again, and the byte is put together from them -/
theorem hexValue_hexChar (b : UInt8) :
    ∃ high low, hexValue (hexChar (b >>> 4 &&& 0xf)) = .ok high ∧ hexValue (hexChar (b &&& 0xf)) = .ok low ∧
      high <<< 4 ||| low = b := by
  have hbyte : ∀ b : UInt8, hexValue (hexChar (b >>> 4 &&& 0xf)) = .ok (b >>> 4 &&& 0xf) ∧
      hexValue (hexChar (b &&& 0xf)) = .ok (b &&& 0xf) ∧ (b >>> 4 &&& 0xf) <<< 4 ||| (b &&& 0xf) = b := by
    apply forall_byte
    decide +kernel
  exact ⟨_, _, hbyte b⟩

/-- the two halves of a byte -/
theorem halves {x y : UInt8} (hx : x < 16) (hy : y < 16) :
    (x <<< 4 ||| y) >>> 4 &&& 0xf = x ∧ (x <<< 4 ||| y) &&& 0xf = y := by
  have hall : ∀ m < 16, ∀ n < 16, (UInt8.ofNat m <<< 4 ||| UInt8.ofNat n) >>> 4 &&& 0xf = UInt8.ofNat m ∧
      (UInt8.ofNat m <<< 4 ||| UInt8.ofNat n) &&& 0xf = UInt8.ofNat n := by
    decide +kernel
  have h := hall x.toNat (UInt8.lt_iff_toNat_lt.1 hx) y.toNat (UInt8.lt_iff_toNat_lt.1 hy)
  rwa [UInt8.ofNat_toNat, UInt8.ofNat_toNat] at h

/-! ## The texts -/

theorem hexstring_eq (data : Bytes) :
    hexstring_from_data data = data.flatMap fun b : UInt8 => [hexChar (b >>> 4 &&& 0xf), hexChar (b &&& 0xf)] := by
  rw [hexstring_from_data]
  split_ifs with h
  · rw [List.length_eq_zero_iff.1 h]
    rfl
  · rfl

theorem hexstring_cons (b : UInt8) (data : Bytes) :
    hexstring_from_data (b :: data) = hexChar (b >>> 4 &&& 0xf) :: hexChar (b &&& 0xf) :: hexstring_from_data data := by
  rw [hexstring_eq, hexstring_eq, List.flatMap_cons]
  rfl

theorem length_hexstring (data : Bytes) : (hexstring_from_data data).length = 2 * data.length := by
  induction data with
  | nil => rfl
  | cons b data ih =>
    rw [hexstring_cons, List.length_cons, List.length_cons, ih, List.length_cons]
    omega

/-- on an even length the loop decides -/
theorem data_from_hexstring_even {h : Bytes} (heven : h.length % 2 = 0) : data_from_hexstring h = hexLoop h := by
  have hne : ¬ h.length % 2 ≠ 0 := not_not.2 heven
  rw [data_from_hexstring, if_neg hne, if_neg hne]
  split_ifs with hnil
  · rw [List.length_eq_zero_iff.1 hnil]
    rfl
  · rfl

theorem hexLoop_hexstring (data : Bytes) : hexLoop (hexstring_from_data data) = .ok data := by
  induction data with
  | nil => rfl
  | cons b data ih =>
    obtain ⟨high, low, hhigh, hlow, hbyte⟩ := hexValue_hexChar b
    rw [hexstring_cons, hexLoop, hhigh, hlow, ih, ← hbyte]
    rfl

/-- what the loop makes of a text of even length -/
theorem hexLoop_cases (h : Bytes) (heven : h.length % 2 = 0) :
    ((∀ c ∈ h, isHexDigit c = true) ∧ ∃ data, hexLoop h = .ok data ∧ hexstring_from_data data = lower h) ∨
      ((∃ c ∈ h, isHexDigit c = false) ∧ hexLoop h = .error invalidHexstring) := by
  induction h using hexLoop.induct with
  | case1 => exact .inl ⟨by simp, [], rfl, rfl⟩
  | case2 a => exact absurd heven (by simp)
  | case3 a b s ih =>
    have hrest : s.length % 2 = 0 := by
      rw [List.length_cons, List.length_cons] at heven
      omega
    rcases hexValue_cases a with ⟨ha, x, hx, hx16, hxa⟩ | ⟨ha, hx⟩
    · rcases hexValue_cases b with ⟨hb, y, hy, hy16, hyb⟩ | ⟨hb, hy⟩
      · rcases ih hrest with ⟨hs, data, hdata, hlow⟩ | ⟨⟨c, hc, hbad⟩, herr⟩
        · refine .inl ⟨by simpa [ha, hb] using hs, (x <<< 4 ||| y) :: data, ?_, ?_⟩
          · rw [hexLoop, hx, hy, hdata]
            rfl
          · rw [hexstring_cons, (halves hx16 hy16).1, (halves hx16 hy16).2, hxa, hyb, hlow]
            rfl
        · refine .inr ⟨⟨c, by simp [hc], hbad⟩, ?_⟩
          rw [hexLoop, hx, hy, herr]
          rfl
      · refine .inr ⟨⟨b, by simp, hb⟩, ?_⟩
        rw [hexLoop, hx, hy]
        rfl
    · refine .inr ⟨⟨a, by simp, ha⟩, ?_⟩
      rw [hexLoop, hx]
      rfl

/-- **Hexadecimal.** Decoding undoes encoding, fails exactly on an odd length or a character that is no digit, and is
undone by encoding but for the case of the letters. -/
theorem hex_bijection :
    (∀ data, data_from_hexstring (hexstring_from_data data) = .ok data) ∧
      ∀ h, ((∃ e, data_from_hexstring h = .error e) ↔ h.length % 2 = 1 ∨ ∃ c ∈ h, isHexDigit c = false) ∧
        ∀ data, data_from_hexstring h = .ok data → hexstring_from_data data = lower h := by
  refine ⟨fun data => ?_, fun h => ?_⟩
  · rw [data_from_hexstring_even, hexLoop_hexstring]
    rw [length_hexstring]
    exact Nat.mul_mod_right 2 data.length
  · by_cases heven : h.length % 2 = 0
    · rw [data_from_hexstring_even heven, heven]
      rcases hexLoop_cases h heven with ⟨hall, data, hdata, hlow⟩ | ⟨hbad, herr⟩
      · rw [hdata]
        refine ⟨iff_of_false (by simp) ?_, ?_⟩
        · intro hbad
          rcases hbad with hodd | ⟨c, hc, hno⟩
          · cases hodd
          · rw [hall c hc] at hno
            cases hno
        · intro data' heq
          rw [← Except.ok.inj heq, hlow]
      · rw [herr]
        refine ⟨iff_of_true ⟨_, rfl⟩ (.inr hbad), ?_⟩
        intro data heq
        cases heq
    · have herr : data_from_hexstring h = .error oddLength := by rw [data_from_hexstring, if_pos heven]
      rw [herr]
      refine ⟨iff_of_true ⟨_, rfl⟩ (.inl (by omega)), ?_⟩
      intro data heq
      cases heq

end Sylar.HashUtil

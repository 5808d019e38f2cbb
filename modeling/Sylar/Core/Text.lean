/-
Byte strings, as `std::string` holds them: any bytes, NUL included.

`cut` is `find` of one byte and the two `substr` around it. The comparisons of the C library (strcasecmp, strcasestr) look
at the bytes in front of the first NUL and fold the case as the C locale does; `fold` is what they see.

Results:
- `cut_eq_some`, `cut_eq_none`, `cut_unique`: a text is cut at the first separator, and in one way only;
- `splitOn_eq_cut`, `mem_splitOn`: a text split at every separator;
- `decimal_injective`, `isDigit_of_mem_decimal`: the numbers that `operator<<` prints.
-/
import Mathlib.Tactic
import Mathlib.Data.List.TakeWhile

namespace Sylar

abbrev Bytes := List UInt8

namespace Text

/-! ## Literals and numbers -/

/-- the bytes of a literal of the source -/
def bytes (s : String) : Bytes := s.toUTF8.data.toList

/-- a number as `operator<<` prints it -/
def decimal (n : ℕ) : Bytes := (Nat.toDigits 10 n).map fun c => UInt8.ofNat c.toNat

theorem toNat_of_mem_toDigits {n : ℕ} {d : Char} (h : d ∈ Nat.toDigits 10 n) : 48 ≤ d.toNat ∧ d.toNat ≤ 57 := by
  have hdigit := Nat.isDigit_of_mem_toDigits (by omega) (by omega) h
  simp only [Char.isDigit, Bool.and_eq_true, decide_eq_true_eq, UInt32.le_iff_toNat_le] at hdigit
  exact hdigit

theorem isDigit_of_mem_decimal {n : ℕ} {c : UInt8} (h : c ∈ decimal n) : 48 ≤ c.toNat ∧ c.toNat ≤ 57 := by
  obtain ⟨d, hd, rfl⟩ := List.mem_map.1 h
  have hdigit := toNat_of_mem_toDigits hd
  rw [UInt8.toNat_ofNat']
  omega

theorem notMem_decimal {c : UInt8} (h : c.toNat < 48 ∨ 57 < c.toNat) (n : ℕ) : c ∉ decimal n := fun hc => by
  have hdigit := isDigit_of_mem_decimal hc
  omega

/-- the digits are read back from the bytes -/
theorem map_decimal (n : ℕ) : (decimal n).map (fun c => Char.ofNat c.toNat) = Nat.toDigits 10 n := by
  rw [decimal, List.map_map]
  refine (List.map_congr_left fun d hd => ?_).trans (List.map_id _)
  have hdigit := toNat_of_mem_toDigits hd
  have hbyte : d.toNat % 256 = d.toNat := Nat.mod_eq_of_lt (by omega)
  simp [hbyte]

theorem decimal_injective : Function.Injective decimal := by
  intro m n h
  have hdigits : Nat.toDigits 10 m = Nat.toDigits 10 n := by
    rw [← map_decimal m, h, map_decimal n]
  calc
    m = Nat.ofDigitChars 10 (Nat.toDigits 10 m) 0 := Nat.ofDigitChars_ten_toDigits.symm
    _ = n := by rw [hdigits, Nat.ofDigitChars_ten_toDigits]

/-- a fact about every byte can be evaluated -/
theorem forall_byte {P : UInt8 → Prop} (h : ∀ n < 256, P (UInt8.ofNat n)) (c : UInt8) : P c := by
  have hc := h c.toNat c.toNat_lt
  rwa [UInt8.ofNat_toNat] at hc

/-- a fact about the bytes of a literal is evaluated over the literal, not over all bytes -/
theorem forall_mem_of_all {P : UInt8 → Prop} [DecidablePred P] {s : Bytes} (h : (s.all fun c => P c) = true) :
    ∀ c ∈ s, P c := by
  intro c hc
  simpa using List.all_eq_true.1 h c hc

/-- texts as the keys of a map -/
theorem lawfulOrder_bytes : Std.LawfulOrderLT (List UInt8) := inferInstance

/-! ## Cutting at a byte -/

/-- what stands in front of the first `c` and what stands behind it; `none` where `find` gives npos -/
def cut (c : UInt8) : Bytes → Option (Bytes × Bytes)
  | [] => none
  | a :: s => if a = c then some ([], s) else (cut c s).map fun p => (a :: p.1, p.2)

theorem cut_eq_none {c : UInt8} {s : Bytes} : cut c s = none ↔ c ∉ s := by
  induction s with
  | nil => simp [cut]
  | cons a s ih =>
    rw [cut]
    split_ifs with h
    · simp [h]
    · simp [ih, Ne.symm h]

theorem cut_eq_some {c : UInt8} {s a r : Bytes} : cut c s = some (a, r) ↔ s = a ++ c :: r ∧ c ∉ a := by
  induction s generalizing a r with
  | nil => simp [cut]
  | cons b s ih =>
    rw [cut]
    split_ifs with h
    · subst h
      cases a with
      | nil => simp
      | cons x a => simp; tauto
    · cases a with
      | nil => simp [h]
      | cons x a =>
        simp only [Option.map_eq_some_iff, Prod.mk.injEq, Prod.exists, List.cons.injEq, List.cons_append, List.mem_cons,
          not_or]
        constructor
        · rintro ⟨a', r', hcut, ⟨rfl, rfl⟩, rfl⟩
          obtain ⟨rfl, hc⟩ := ih.1 hcut
          exact ⟨⟨rfl, rfl⟩, Ne.symm h, hc⟩
        · rintro ⟨⟨rfl, hs⟩, -, hc⟩
          exact ⟨a, r, ih.2 ⟨hs, hc⟩, ⟨rfl, rfl⟩, rfl⟩

theorem cut_append {c : UInt8} {a : Bytes} (h : c ∉ a) (r : Bytes) : cut c (a ++ c :: r) = some (a, r) :=
  cut_eq_some.2 ⟨rfl, h⟩

/-- a text has one first separator -/
theorem cut_unique {c : UInt8} {a a' r r' : Bytes} (ha : c ∉ a) (ha' : c ∉ a') (h : a ++ c :: r = a' ++ c :: r') :
    a = a' ∧ r = r' := by
  have hcut := cut_append ha r
  rw [h, cut_append ha' r'] at hcut
  simpa [eq_comm] using hcut

/-- splitting at every `c` is cutting again and again -/
theorem splitOn_eq_cut (c : UInt8) (s : Bytes) :
    s.splitOn c = match cut c s with
      | none => [s]
      | some (a, r) => a :: r.splitOn c := by
  cases h : cut c s with
  | none => exact List.splitOn_eq_singleton (cut_eq_none.1 h)
  | some p =>
    obtain ⟨rfl, hc⟩ := cut_eq_some.1 h
    exact List.splitOn_append_cons_self_of_not_mem hc p.2

theorem mem_splitOn {c : UInt8} {s segment : Bytes} (h : segment ∈ s.splitOn c) : c ∉ segment ∧ segment ⊆ s := by
  induction hn : s.length using Nat.strong_induction_on generalizing s with
  | _ n ih =>
    rw [splitOn_eq_cut] at h
    cases hcut : cut c s with
    | none =>
      rw [hcut, List.mem_singleton] at h
      subst h
      exact ⟨cut_eq_none.1 hcut, fun _ => id⟩
    | some p =>
      obtain ⟨hs, hc⟩ := cut_eq_some.1 hcut
      rw [hcut, List.mem_cons] at h
      rcases h with rfl | h
      · exact ⟨hc, by rw [hs]; simp⟩
      · obtain ⟨hnot, hsub⟩ := ih p.2.length (by rw [← hn, hs, List.length_append, List.length_cons]; omega) h rfl
        exact ⟨hnot, fun x hx => by rw [hs]; simp [hsub hx]⟩

/-! ## The C library -/

/-- what `c_str()` shows to a C function -/
def cstr (s : Bytes) : Bytes := s.takeWhile (· ≠ 0)

/-- `tolower` in the C locale -/
def tolower (c : UInt8) : UInt8 := if 65 ≤ c ∧ c ≤ 90 then c + 32 else c

/-- what `strcasecmp` compares: it is below zero where the left fold is less, and zero where they are equal -/
def fold (s : Bytes) : Bytes := (cstr s).map tolower

/-- without the case, and with everything behind a NUL -/
def lower (s : Bytes) : Bytes := s.map tolower

/-- `strcasestr(s, t) != nullptr` -/
def strcasestr (s t : Bytes) : Bool := (fold s).tails.any (fold t).isPrefixOf

theorem notMem_cstr (s : Bytes) : 0 ∉ cstr s := by
  intro h
  have hne := List.mem_takeWhile_imp h
  simp at hne

theorem cstr_of_no_nul {s : Bytes} (h : 0 ∉ s) : cstr s = s := by
  refine List.takeWhile_eq_self_iff.2 fun c hc => ?_
  have hne : c ≠ 0 := fun h0 => h (h0 ▸ hc)
  simpa using hne

/-- `strcasecmp` sees no more than the bytes without their case -/
theorem fold_eq_cstr_lower (s : Bytes) : fold s = cstr (lower s) := by
  have hzero : ∀ c : UInt8, decide (tolower c ≠ 0) = decide (c ≠ 0) := by
    apply forall_byte
    decide +kernel
  rw [fold, lower, cstr, cstr, List.takeWhile_map]
  congr 2
  funext c
  exact (hzero c).symm

theorem fold_of_lower {s t : Bytes} (h : lower s = lower t) : fold s = fold t := by
  rw [fold_eq_cstr_lower, fold_eq_cstr_lower, h]

theorem fold_of_no_nul {s : Bytes} (h : 0 ∉ s) : fold s = lower s := by
  rw [fold, cstr_of_no_nul h, lower]

end Text

end Sylar

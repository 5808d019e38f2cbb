/-
`StringUtil::TrimLeft` and `TrimRight` of util.cc, next to `Trim`: what each of them keeps.

`find_last_not_of` gives the position of the last byte to keep. `Trim` takes one byte more than the distance to it;
`TrimRight` takes as many bytes as the position says.

Results:
- `TrimLeft_cut`: the left side is cut as it should be;
- `TrimRight_cut`: on the right the last byte to keep is cut off as well;
- `Trim_cut`: `Trim` cuts delimiters only, on both sides; `mem_Trim`: and no other byte;
- `trim_exact`: so the three functions agree exactly on texts of nothing but delimiters.
-/
import Sylar.Core.Find
import Sylar.Util.Url

namespace Sylar.StringUtil

open Sylar.Text Sylar.Find

/-! ## Model -/

def TrimLeft (str delimit : Bytes) : Bytes :=
  match find_first_not_of str delimit with
  | none => []
  | some first => str.drop first

def TrimRight (str delimit : Bytes) : Bytes :=
  match find_last_not_of str delimit with
  | none => []
  | some last => str.take last

/-- the three functions cut delimiters only, all of them, and on either side in any order -/
structure TrimsAgree (s d : Bytes) : Prop where
  left : ∃ l, s = l ++ TrimLeft s d ∧ ∀ c ∈ l, c ∈ d
  right : ∃ r, s = TrimRight s d ++ r ∧ ∀ c ∈ r, c ∈ d
  begins : ∀ c ∈ (TrimLeft s d).head?, c ∉ d
  ends : ∀ c ∈ (TrimRight s d).getLast?, c ∉ d
  trim_left : Trim s d = TrimRight (TrimLeft s d) d
  trim_right : Trim s d = TrimLeft (TrimRight s d) d

/-! ## What is cut -/

section

variable {d : Bytes}

theorem find_first_not_of_cut {l m : Bytes} {x : UInt8} (hl : ∀ c ∈ l, c ∈ d) (hx : x ∉ d) :
    find_first_not_of (l ++ x :: m) d = some l.length := by
  have hpass : ∀ c ∈ l, decide (c ∉ d) = false := fun c hc => by simp [hl c hc]
  rw [find_first_not_of, List.findIdx?_append, List.findIdx?_eq_none_iff.2 hpass, List.findIdx?_cons]
  simp [hx]

theorem find_last_not_of_cut {m r : Bytes} {x : UInt8} (hr : ∀ c ∈ r, c ∈ d) (hx : x ∉ d) :
    find_last_not_of (m ++ x :: r) d = some m.length := by
  have hreverse : (m ++ x :: r).reverse = r.reverse ++ x :: m.reverse := by simp
  have hcut := @find_first_not_of_cut d r.reverse m.reverse x (fun c hc => hr c (List.mem_reverse.1 hc)) hx
  rw [find_first_not_of] at hcut
  rw [find_last_not_of, hreverse, hcut, Option.map_some, List.length_append, List.length_cons, List.length_reverse]
  congr 1
  omega

theorem find_not_of_all {s : Bytes} (h : ∀ c ∈ s, c ∈ d) :
    find_first_not_of s d = none ∧ find_last_not_of s d = none := by
  have hpass : ∀ r : Bytes, (∀ c ∈ r, c ∈ d) → r.findIdx? (fun c => decide (c ∉ d)) = none := by
    intro r hr
    exact List.findIdx?_eq_none_iff.2 fun c hc => by simp [hr c hc]
  refine ⟨hpass s h, ?_⟩
  rw [find_last_not_of, hpass s.reverse fun c hc => h c (List.mem_reverse.1 hc)]
  rfl

/-- a text of delimiters, or one that is cut in front of the first other byte -/
theorem TrimLeft_cut (s : Bytes) :
    ((∀ c ∈ s, c ∈ d) ∧ TrimLeft s d = []) ∨
      ∃ l x m, s = l ++ x :: m ∧ (∀ c ∈ l, c ∈ d) ∧ x ∉ d ∧ TrimLeft s d = x :: m := by
  rcases exists_first (fun c => decide (c ∉ d)) s with hall | ⟨l, x, m, rfl, hl, hx⟩
  · have hmem : ∀ c ∈ s, c ∈ d := fun c hc => by simpa using hall c hc
    exact .inl ⟨hmem, by rw [TrimLeft, (find_not_of_all hmem).1]⟩
  · have hmem : ∀ c ∈ l, c ∈ d := fun c hc => by simpa using hl c hc
    rw [decide_eq_true_iff] at hx
    refine .inr ⟨l, x, m, rfl, hmem, hx, ?_⟩
    simp only [TrimLeft, find_first_not_of_cut hmem hx, List.drop_left]

/-- a text of delimiters, or one that loses its last other byte too -/
theorem TrimRight_cut (s : Bytes) :
    ((∀ c ∈ s, c ∈ d) ∧ TrimRight s d = []) ∨
      ∃ m x r, s = m ++ x :: r ∧ (∀ c ∈ r, c ∈ d) ∧ x ∉ d ∧ TrimRight s d = m := by
  rcases exists_first (fun c => decide (c ∉ d)) s.reverse with hall | ⟨r, x, m, hs, hr, hx⟩
  · have hmem : ∀ c ∈ s, c ∈ d := fun c hc => by simpa using hall c (List.mem_reverse.2 hc)
    exact .inl ⟨hmem, by rw [TrimRight, (find_not_of_all hmem).2]⟩
  · have hcut : s = m.reverse ++ x :: r.reverse := by
      calc
        s = s.reverse.reverse := s.reverse_reverse.symm
        _ = (r ++ x :: m).reverse := by rw [hs]
        _ = m.reverse ++ x :: r.reverse := by simp
    have hmem : ∀ c ∈ r.reverse, c ∈ d := fun c hc => by simpa using hr c (List.mem_reverse.1 hc)
    rw [decide_eq_true_iff] at hx
    refine .inr ⟨m.reverse, x, r.reverse, hcut, hmem, hx, ?_⟩
    simp only [hcut, TrimRight, find_last_not_of_cut hmem hx, List.take_left]

/-- a text of delimiters, or one that is cut on both sides up to the first and the last other byte -/
theorem Trim_cut (s : Bytes) :
    ((∀ c ∈ s, c ∈ d) ∧ Trim s d = []) ∨
      ∃ l m r, s = l ++ m ++ r ∧ (∀ c ∈ l, c ∈ d) ∧ (∀ c ∈ r, c ∈ d) ∧ Trim s d = m := by
  rcases @TrimLeft_cut d s with ⟨hall, -⟩ | ⟨l, x, m, rfl, hl, hx, -⟩
  · exact .inl ⟨hall, by rw [Trim, (find_not_of_all hall).1]⟩
  -- the last byte to keep is not in front of the first one
  rcases @TrimRight_cut d (x :: m) with ⟨hall, -⟩ | ⟨m', y, r, hm, hr, hy, -⟩
  · exact absurd (hall x List.mem_cons_self) hx
  have hfirst : find_first_not_of (l ++ x :: m) d = some l.length := find_first_not_of_cut hl hx
  have hlast : find_last_not_of (l ++ x :: m) d = some (l ++ m').length := by
    rw [hm, ← List.append_assoc, find_last_not_of_cut hr hy]
  have hcount : (l ++ m').length - l.length + 1 = (m' ++ [y]).length := by simp
  have hkeep : x :: m = (m' ++ [y]) ++ r := by simp [hm]
  refine .inr ⟨l, m' ++ [y], r, by rw [hkeep, List.append_assoc l], hl, hr, ?_⟩
  simp only [Trim, hfirst, hlast, List.drop_left, hcount]
  rw [hkeep, List.take_left]

theorem mem_of_mem_Trim {s : Bytes} {c : UInt8} (h : c ∈ Trim s d) : c ∈ s := by
  rcases @Trim_cut d s with ⟨-, hnil⟩ | ⟨l, m, r, hs, -, -, htrim⟩
  · rw [hnil] at h
    cases h
  · rw [htrim] at h
    rw [hs]
    simp [h]

/-- only delimiters go -/
theorem mem_Trim {s : Bytes} {c : UInt8} (hc : c ∈ s) (hd : c ∉ d) : c ∈ Trim s d := by
  rcases @Trim_cut d s with ⟨hall, -⟩ | ⟨l, m, r, hs, hl, hr, htrim⟩
  · exact absurd (hall c hc) hd
  · rw [hs, List.mem_append, List.mem_append] at hc
    rw [htrim]
    rcases hc with (hc | hc) | hc
    · exact absurd (hl c hc) hd
    · exact hc
    · exact absurd (hr c hc) hd

/-- **Trimming.** The functions agree exactly on the texts that have nothing to keep. -/
theorem trim_exact (s d : Bytes) : TrimsAgree s d ↔ ∀ c ∈ s, c ∈ d := by
  refine ⟨fun h => ?_, fun hall => ?_⟩
  · rcases @TrimRight_cut d s with ⟨hall, -⟩ | ⟨m, x, r, hs, -, hx, hright⟩
    · exact hall
    · -- what is cut off begins with the byte to keep
      obtain ⟨r', hr', hmem⟩ := h.right
      rw [hright, hs, List.append_cancel_left_eq] at hr'
      exact absurd (hmem x (by rw [← hr']; exact List.mem_cons_self)) hx
  · have hleft : TrimLeft s d = [] := by rw [TrimLeft, (find_not_of_all hall).1]
    have hright : TrimRight s d = [] := by rw [TrimRight, (find_not_of_all hall).2]
    have htrim : Trim s d = [] := by rw [Trim, (find_not_of_all hall).1]
    exact {
      left := ⟨s, by rw [hleft, List.append_nil], hall⟩
      right := ⟨s, by rw [hright, List.nil_append], hall⟩
      begins := by simp [hleft]
      ends := by simp [hright]
      trim_left := by rw [htrim, hleft]; rfl
      trim_right := by rw [htrim, hright]; rfl }

/-- "a" has nothing to trim, and is lost -/
theorem trim_loses_last :
    TrimRight (bytes "a") (bytes " ") = [] ∧ ¬ TrimsAgree (bytes "a") (bytes " ") := by
  refine ⟨by decide, fun h => ?_⟩
  exact absurd h.trim_left (by decide)

end

end Sylar.StringUtil

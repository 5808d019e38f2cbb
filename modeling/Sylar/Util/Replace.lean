/-
The three `replace` of hash_util.cc.

They are one loop that searches, rewrites the text at the hit and goes on behind what it has put in. The loop has no bound
of its own, so it is given fuel; `none` is a loop that has not come to its end.

Results:
- `replaceLoop_spec`: with a search text the loop ends, and what it leaves is the text replaced;
- `replaceText_nil`: with the empty one it does not, however long it runs;
- `replace_exact`: so a call ends with every occurrence replaced once exactly when its search text is not empty.
-/
import Sylar.Core.Find
import Sylar.Core.Text

namespace Sylar.HashUtil

open Sylar.Text Sylar.Find

/-! ## Model -/

/-- `while (index != npos)`, where `edit` rewrites the text at the index and the search goes on `step` bytes behind it -/
def replaceLoop (search : Bytes → ℕ → Option ℕ) (edit : Bytes → ℕ → Bytes) (step : ℕ) :
    ℕ → Bytes → Option ℕ → Option Bytes
  | 0, _, _ => none
  | _ + 1, str, none => some str
  | fuel + 1, str, some index =>
    let str := edit str index
    replaceLoop search edit step fuel str (search str (index + step))

/-- `replace(str1, char find, char replaceWith)` -/
def replaceChar (fuel : ℕ) (str1 : Bytes) (find replaceWith : UInt8) : Option Bytes :=
  let search := Find.find (· == find)
  let edit := fun str index => str.set index replaceWith
  replaceLoop search edit 1 fuel str1 (search str1 0)

/-- `replace(str1, char find, const std::string &replaceWith)` -/
def replaceCharBy (fuel : ℕ) (str1 : Bytes) (find : UInt8) (replaceWith : Bytes) : Option Bytes :=
  let search := Find.find (· == find)
  let edit := fun str index => str.take index ++ replaceWith ++ str.drop (index + 1)
  replaceLoop search edit replaceWith.length fuel str1 (search str1 0)

/-- `replace(str1, const std::string &find, const std::string &replaceWith)` -/
def replaceText (fuel : ℕ) (str1 find replaceWith : Bytes) : Option Bytes :=
  let search := findSub find
  let edit := fun str index => str.take index ++ replaceWith ++ str.drop (index + find.length)
  replaceLoop search edit replaceWith.length fuel str1 (search str1 0)

/-- an overload with what it searches for and what it puts in -/
inductive Replace
  | char (find replaceWith : UInt8)
  | charBy (find : UInt8) (replaceWith : Bytes)
  | text (find replaceWith : Bytes)
deriving DecidableEq, Repr

namespace Replace

def apply (o : Replace) (fuel : ℕ) (str1 : Bytes) : Option Bytes :=
  match o with
  | char find replaceWith => replaceChar fuel str1 find replaceWith
  | charBy find replaceWith => replaceCharBy fuel str1 find replaceWith
  | text find replaceWith => replaceText fuel str1 find replaceWith

def searchText : Replace → Bytes
  | char find _ | charBy find _ => [find]
  | text find _ => find

def insertText : Replace → Bytes
  | char _ replaceWith => [replaceWith]
  | charBy _ replaceWith | text _ replaceWith => replaceWith

/-- the call ends, and with a search text its result is the text with the leftmost occurrences replaced -/
def ReplacesOnce (o : Replace) (str1 : Bytes) : Prop :=
  ∃ fuel result, o.apply fuel str1 = some result ∧
    (o.searchText ≠ [] → ∀ s, Replaced o.searchText o.insertText str1 s ↔ s = result)

end Replace

/-! ## The loop -/

section

variable {search : Bytes → ℕ → Option ℕ} {edit : Bytes → ℕ → Bytes} {t r : Bytes}

/-- **Loop.** Where the search finds the first `t` and the edit puts `r` in its place, the loop ends. The text up to the
index stays; the induction is on the text behind it. -/
theorem replaceLoop_spec (ht : t ≠ [])
    (hsearch : ∀ a b, (search (a ++ b) a.length = none ∧ ¬ t <:+: b) ∨
      ∃ u v, b = u ++ t ++ v ∧ IsFirst t u v ∧ search (a ++ b) a.length = some (a.length + u.length))
    (hedit : ∀ a v, edit (a ++ (t ++ v)) a.length = a ++ (r ++ v)) (a b : Bytes) :
    ∃ fuel b', replaceLoop search edit r.length fuel (a ++ b) (search (a ++ b) a.length) = some (a ++ b') ∧
      Replaced t r b b' := by
  induction hn : b.length using Nat.strong_induction_on generalizing a b with
  | _ n ih =>
    rcases hsearch a b with ⟨hnone, hnot⟩ | ⟨u, v, rfl, hfirst, hsome⟩
    · exact ⟨1, b, by rw [hnone]; rfl, .rest hnot⟩
    · have hpos := List.length_pos_of_ne_nil ht
      have hless : v.length < n := by
        rw [← hn, List.length_append, List.length_append]
        omega
      obtain ⟨fuel, v', hloop, hrep⟩ := ih v.length hless (a ++ u ++ r) v rfl
      refine ⟨fuel + 1, u ++ r ++ v', ?_, .hit hfirst hrep⟩
      have hstr : edit (a ++ (u ++ t ++ v)) (a.length + u.length) = a ++ u ++ r ++ v := by
        have h := hedit (a ++ u) v
        rw [List.length_append] at h
        simpa only [List.append_assoc] using h
      have hindex : a.length + u.length + r.length = (a ++ u ++ r).length := by
        rw [List.length_append, List.length_append]
      rw [hsome, replaceLoop]
      simp only [hstr, hindex, hloop]
      simp only [List.append_assoc]

end

/-- putting a text in the place of another -/
theorem edit_take_drop (a t r v : Bytes) :
    (a ++ (t ++ v)).take a.length ++ r ++ (a ++ (t ++ v)).drop (a.length + t.length) = a ++ (r ++ v) := by
  rw [List.take_left, ← List.drop_drop, List.drop_left, List.drop_left, List.append_assoc]

/-- the search for a byte is the search for a text of one byte -/
theorem find_byte_cases (c : UInt8) (a b : Bytes) :
    (Find.find (· == c) (a ++ b) a.length = none ∧ ¬ [c] <:+: b) ∨
      ∃ u v, b = u ++ [c] ++ v ∧ IsFirst [c] u v ∧ Find.find (· == c) (a ++ b) a.length = some (a.length + u.length) := by
  rcases find_cases (· == c) a b with ⟨hnone, hmiss⟩ | ⟨u, d, v, rfl, hu, hd, hsome⟩
  · refine .inl ⟨hnone, fun hin => ?_⟩
    have hmem : c ∈ b := hin.subset (List.mem_singleton_self c)
    exact absurd (hmiss c hmem) (by simp)
  · obtain rfl : d = c := eq_of_beq hd
    refine .inr ⟨u, v, by simp, isFirst_singleton v fun hmem => ?_, hsome⟩
    exact absurd (hu d hmem) (by simp)

/-! ## The overloads -/

theorem replaceChar_spec (str1 : Bytes) (find replaceWith : UInt8) :
    ∃ fuel result, replaceChar fuel str1 find replaceWith = some result ∧ Replaced [find] [replaceWith] str1 result := by
  have hedit : ∀ a v : Bytes, (a ++ ([find] ++ v)).set a.length replaceWith = a ++ ([replaceWith] ++ v) := by
    intro a v
    rw [List.set_append_right _ _ (Nat.le_refl _), Nat.sub_self]
    rfl
  exact @replaceLoop_spec _ (fun str index => str.set index replaceWith) [find] [replaceWith]
    (List.cons_ne_nil find []) (find_byte_cases find) hedit [] str1

theorem replaceCharBy_spec (str1 : Bytes) (find : UInt8) (replaceWith : Bytes) :
    ∃ fuel result, replaceCharBy fuel str1 find replaceWith = some result ∧
      Replaced [find] replaceWith str1 result := by
  refine replaceLoop_spec (List.cons_ne_nil find []) (find_byte_cases find) ?_ [] str1
  intro a v
  exact edit_take_drop a [find] replaceWith v

theorem replaceText_spec (str1 replaceWith : Bytes) {find : Bytes} (hfind : find ≠ []) :
    ∃ fuel result, replaceText fuel str1 find replaceWith = some result ∧ Replaced find replaceWith str1 result := by
  refine replaceLoop_spec hfind (findSub_cases find) ?_ [] str1
  intro a v
  exact edit_take_drop a find replaceWith v

/-- with an empty search text there is a hit wherever the search goes on -/
theorem replaceText_nil (fuel : ℕ) (str1 replaceWith : Bytes) : replaceText fuel str1 [] replaceWith = none := by
  have hloop : ∀ (fuel : ℕ) (str : Bytes) (index : ℕ), index ≤ str.length →
      replaceLoop (findSub []) (fun str index => str.take index ++ replaceWith ++ str.drop (index + 0))
        replaceWith.length fuel str (some index) = none := by
    intro fuel
    induction fuel with
    | zero => exact fun _ _ _ => rfl
    | succ fuel ih =>
      intro str index hle
      have hnext : index + replaceWith.length ≤
          (str.take index ++ replaceWith ++ str.drop (index + 0)).length := by
        simp only [List.length_append, List.length_take, List.length_drop]
        omega
      rw [replaceLoop]
      simp only [findSub_nil hnext]
      exact ih _ _ hnext
  have hfirst : findSub [] str1 0 = some 0 := findSub_nil (Nat.zero_le _)
  simp only [replaceText, hfirst]
  exact hloop fuel str1 0 (Nat.zero_le _)

namespace Replace

theorem apply_spec (o : Replace) (str1 : Bytes) (h : o.searchText ≠ []) :
    ∃ fuel result, o.apply fuel str1 = some result ∧ Replaced o.searchText o.insertText str1 result := by
  cases o with
  | char find replaceWith => exact replaceChar_spec str1 find replaceWith
  | charBy find replaceWith => exact replaceCharBy_spec str1 find replaceWith
  | text find replaceWith => exact replaceText_spec str1 replaceWith h

/-- **Replace.** A call ends with each leftmost occurrence replaced once exactly when it has something to search for. -/
theorem replace_exact (o : Replace) (str1 : Bytes) : o.ReplacesOnce str1 ↔ o.searchText ≠ [] := by
  constructor
  · rintro ⟨fuel, result, hrun, -⟩ hnil
    cases o with
    | char find replaceWith => exact List.cons_ne_nil _ _ hnil
    | charBy find replaceWith => exact List.cons_ne_nil _ _ hnil
    | text find replaceWith =>
      obtain rfl : find = [] := hnil
      exact Option.some_ne_none result (hrun.symm.trans (replaceText_nil fuel str1 replaceWith))
  · intro h
    obtain ⟨fuel, result, hrun, hrep⟩ := o.apply_spec str1 h
    refine ⟨fuel, result, hrun, fun _ s => ⟨fun hs => hs.unique hrep, ?_⟩⟩
    rintro rfl
    exact hrep

/-- `replace("a", "", "")` does not come back -/
theorem replace_empty_search :
    (∀ fuel, (text [] []).apply fuel (bytes "a") = none) ∧ ¬ (text [] []).ReplacesOnce (bytes "a") := by
  have hrun : ∀ fuel, (text [] []).apply fuel (bytes "a") = none := fun fuel => replaceText_nil fuel (bytes "a") []
  refine ⟨hrun, ?_⟩
  rintro ⟨fuel, result, hend, -⟩
  exact Option.some_ne_none result (hend.symm.trans (hrun fuel))

end Replace

/-- the text put in is not searched again -/
example : replaceText 3 (bytes "xax") (bytes "x") (bytes "xx") = some (bytes "xxaxx") := by decide

end Sylar.HashUtil

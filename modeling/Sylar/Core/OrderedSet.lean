/-
An ordered set under a comparator, as `std::set` is one: a list in the order of the iterators.

The comparator `r` is a strict total order. It may read state that changes (a key stored in the elements), so every
function takes it as an argument: `Sorted.congr` says when a change of the comparator keeps the order. `lower_bound` is
the first position whose element is not less than the argument; `find` and `insert` start there.

Results:
- `mem_takeWhile`, `mem_dropWhile`: in a sorted list a downward closed test holds on a prefix;
- `find_of_mem`, `find_of_notMem`: `find` answers membership;
- `sorted_insert`, `mem_insert`, `sorted_erase`, `mem_erase`: the order is kept and the elements are the expected ones;
- `SetOf.ofList_eq_iff`: a set is determined by its elements.
-/
import Mathlib.Tactic

namespace Sylar.OrderedSet

variable {α : Type*}

/-! ## Operations -/

section

variable (r : α → α → Prop) [DecidableRel r]

/-- the elements in front of `lower_bound(x)` -/
def before (x : α) (l : List α) : List α := l.takeWhile (r · x)

/-- the elements from `lower_bound(x)` on -/
def lowerBound (x : α) (l : List α) : List α := l.dropWhile (r · x)

/-- `none` is `end()` -/
def find (x : α) (l : List α) : Option α :=
  match lowerBound r x l with
  | [] => none
  | y :: _ => if r x y then none else some y

/-- nothing is inserted next to an equivalent element -/
def insert (x : α) (l : List α) : List α :=
  match lowerBound r x l with
  | [] => l ++ [x]
  | y :: ys => if r x y then before r x l ++ x :: y :: ys else l

/-- the order of a set: strictly ascending, so no element occurs twice -/
def Sorted (l : List α) : Prop := l.Pairwise r

end

/-! ## Prefixes -/

section

variable {r : α → α → Prop}

theorem Sorted.congr {r' : α → α → Prop} {l : List α} (h : Sorted r l) (hr : ∀ a ∈ l, ∀ b ∈ l, r a b → r' a b) :
    Sorted r' l :=
  List.Pairwise.imp_of_mem (fun ha hb hab => hr _ ha _ hb hab) h

/-- comparators that agree find the same -/
theorem find_congr {r' : α → α → Prop} [DecidableRel r] [DecidableRel r'] (h : ∀ a b, r a b ↔ r' a b) (x : α)
    (l : List α) : find r x l = find r' x l := by
  simp only [find, lowerBound, h]

/-- a test that holds of everything below an element it holds of -/
theorem mem_takeWhile {p : α → Bool} {l : List α} (h : Sorted r l)
    (hp : ∀ a ∈ l, ∀ b ∈ l, r a b → p b = true → p a = true) {x : α} : x ∈ l.takeWhile p ↔ x ∈ l ∧ p x = true := by
  induction l with
  | nil => simp
  | cons a l ih =>
    obtain ⟨ha, hl⟩ := List.pairwise_cons.1 h
    have hp' : ∀ b ∈ l, ∀ c ∈ l, r b c → p c = true → p b = true :=
      fun b hb c hc => hp b (List.mem_cons_of_mem a hb) c (List.mem_cons_of_mem a hc)
    by_cases hpa : p a = true
    · rw [List.takeWhile_cons_of_pos hpa, List.mem_cons, List.mem_cons, ih hl hp']
      constructor
      · rintro (rfl | ⟨hx, hpx⟩)
        · exact ⟨.inl rfl, hpa⟩
        · exact ⟨.inr hx, hpx⟩
      · rintro ⟨rfl | hx, hpx⟩
        · exact .inl rfl
        · exact .inr ⟨hx, hpx⟩
    · rw [List.takeWhile_cons_of_neg hpa]
      refine ⟨fun hx => absurd hx (List.not_mem_nil), ?_⟩
      rintro ⟨hx, hpx⟩
      rcases List.mem_cons.1 hx with rfl | hx
      · exact absurd hpx hpa
      · exact absurd (hp a List.mem_cons_self x (List.mem_cons_of_mem a hx) (ha x hx) hpx) hpa

theorem mem_dropWhile {p : α → Bool} {l : List α} (h : Sorted r l)
    (hp : ∀ a ∈ l, ∀ b ∈ l, r a b → p b = true → p a = true) {x : α} : x ∈ l.dropWhile p ↔ x ∈ l ∧ p x = false := by
  induction l with
  | nil => simp
  | cons a l ih =>
    obtain ⟨ha, hl⟩ := List.pairwise_cons.1 h
    have hp' : ∀ b ∈ l, ∀ c ∈ l, r b c → p c = true → p b = true :=
      fun b hb c hc => hp b (List.mem_cons_of_mem a hb) c (List.mem_cons_of_mem a hc)
    by_cases hpa : p a = true
    · rw [List.dropWhile_cons_of_pos hpa, ih hl hp', List.mem_cons]
      refine and_congr_left fun hpx => ⟨.inr, ?_⟩
      rintro (rfl | hx)
      · exact absurd hpa (by simp [hpx])
      · exact hx
    · rw [List.dropWhile_cons_of_neg hpa]
      refine ⟨fun hx => ⟨hx, ?_⟩, And.left⟩
      rcases List.mem_cons.1 hx with rfl | hx
      · simpa using hpa
      · by_contra hpx
        exact hpa (hp a List.mem_cons_self x (List.mem_cons_of_mem a hx) (ha x hx) (by simpa using hpx))

theorem Sorted.takeWhile {l : List α} (h : Sorted r l) (p : α → Bool) : Sorted r (l.takeWhile p) :=
  List.Pairwise.sublist (List.takeWhile_sublist p) h

theorem Sorted.dropWhile {l : List α} (h : Sorted r l) (p : α → Bool) : Sorted r (l.dropWhile p) :=
  List.Pairwise.sublist (List.dropWhile_sublist p) h

theorem sorted_erase [DecidableEq α] {l : List α} (h : Sorted r l) (x : α) : Sorted r (l.erase x) :=
  List.Pairwise.sublist List.erase_sublist h

end

/-- a new front comes up when the old one is erased -/
theorem head?_erase [DecidableEq α] {l : List α} {x b : α} (h : (l.erase x).head? = some b) :
    l.head? = some b ∨ l.head? = some x := by
  cases l with
  | nil => simp at h
  | cons a l =>
    by_cases ha : a = x
    · exact .inr (by rw [ha]; rfl)
    · rw [List.erase_cons_tail (by simpa using ha)] at h
      exact .inl h

/-! ## Searching, inserting and erasing -/

section

variable {r : α → α → Prop} [IsStrictTotalOrder α r]

theorem Sorted.nodup {l : List α} (h : Sorted r l) : l.Nodup :=
  List.Pairwise.imp (fun {a b} hab => by rintro rfl; exact irrefl_of r a hab) h

theorem mem_erase [DecidableEq α] {l : List α} (h : Sorted r l) {x y : α} : y ∈ l.erase x ↔ y ∈ l ∧ y ≠ x := by
  rw [h.nodup.mem_erase_iff, and_comm]

variable [DecidableRel r]

omit [IsStrictTotalOrder α r] in
theorem lowerBound_head {x y : α} {l ys : List α} (h : lowerBound r x l = y :: ys) : ¬ r y x := by
  have := List.head?_dropWhile_not (fun z => decide (r z x)) l
  rw [show l.dropWhile (fun z => decide (r z x)) = y :: ys from h] at this
  simpa using this

theorem mem_before {l : List α} (h : Sorted r l) {x y : α} : y ∈ before r x l ↔ y ∈ l ∧ r y x := by
  rw [before, mem_takeWhile h fun a _ b _ hab hb => by simpa using trans_of r hab (by simpa using hb)]
  simp

theorem mem_lowerBound {l : List α} (h : Sorted r l) {x y : α} : y ∈ lowerBound r x l ↔ y ∈ l ∧ ¬ r y x := by
  rw [lowerBound, mem_dropWhile h fun a _ b _ hab hb => by simpa using trans_of r hab (by simpa using hb)]
  simp

omit [IsStrictTotalOrder α r] in
theorem before_append_lowerBound (x : α) (l : List α) : before r x l ++ lowerBound r x l = l :=
  List.takeWhile_append_dropWhile

theorem find_of_mem {l : List α} (h : Sorted r l) {x : α} (hx : x ∈ l) : find r x l = some x := by
  have hmem := (mem_lowerBound h).2 ⟨hx, irrefl_of r x⟩
  rw [find]
  split
  · rename_i hnil
    rw [hnil] at hmem
    exact absurd hmem List.not_mem_nil
  · rename_i y ys hcons
    -- the first element not below x is x itself: x stands at or after it
    have hle : ¬ r x y := by
      rw [hcons] at hmem
      rcases List.mem_cons.1 hmem with rfl | hys
      · exact irrefl_of r x
      · have hsorted : Sorted r (y :: ys) := hcons ▸ h.dropWhile _
        exact fun hxy => irrefl_of r x (trans_of r hxy ((List.pairwise_cons.1 hsorted).1 x hys))
    rw [if_neg hle, (Std.Trichotomous.trichotomous x y hle (lowerBound_head hcons) : x = y)]

theorem find_of_notMem {l : List α} (h : Sorted r l) {x : α} (hx : x ∉ l) : find r x l = none := by
  rw [find]
  split
  · rfl
  · rename_i y ys hcons
    have hy : y ∈ l := ((mem_lowerBound h).1 (by rw [hcons]; exact List.mem_cons_self)).1
    by_cases hxy : r x y
    · rw [if_pos hxy]
    · have : x = y := Std.Trichotomous.trichotomous x y hxy (lowerBound_head hcons)
      exact absurd (this ▸ hy) hx

/-- `find` answers membership -/
theorem find_eq_some {l : List α} (h : Sorted r l) {x y : α} : find r x l = some y ↔ x ∈ l ∧ y = x := by
  by_cases hx : x ∈ l
  · simp [find_of_mem h hx, hx, eq_comm]
  · simp [find_of_notMem h hx, hx]

theorem find_eq_none {l : List α} (h : Sorted r l) {x : α} : find r x l = none ↔ x ∉ l := by
  by_cases hx : x ∈ l
  · simp [find_of_mem h hx, hx]
  · simp [find_of_notMem h hx, hx]

/-- a new element goes in front of `lower_bound` -/
theorem insert_of_notMem {l : List α} (h : Sorted r l) {x : α} (hx : x ∉ l) :
    insert r x l = before r x l ++ x :: lowerBound r x l := by
  rw [insert]
  split
  · rename_i hnil
    have := before_append_lowerBound (r := r) x l
    rw [hnil, List.append_nil] at this
    rw [hnil, this]
  · rename_i y ys hcons
    have hxy : r x y := by
      by_contra hxy
      have : x = y := Std.Trichotomous.trichotomous x y hxy (lowerBound_head hcons)
      exact hx (this ▸ ((mem_lowerBound h).1 (by rw [hcons]; exact List.mem_cons_self)).1)
    rw [if_pos hxy, hcons]

/-- nothing is inserted next to an element that is there -/
theorem insert_of_mem {l : List α} (h : Sorted r l) {x : α} (hx : x ∈ l) : insert r x l = l := by
  have hfind := find_of_mem h hx
  rw [find] at hfind
  rw [insert]
  split at hfind
  · cases hfind
  · next y ys hcons =>
    split_ifs at hfind with hxy
    exact if_neg hxy

theorem mem_insert {l : List α} (h : Sorted r l) {x : α} (hx : x ∉ l) {y : α} : y ∈ insert r x l ↔ y = x ∨ y ∈ l := by
  rw [insert_of_notMem h hx]
  conv_rhs => rw [← before_append_lowerBound (r := r) x l]
  simp only [List.mem_append, List.mem_cons]
  tauto

/-- a new front is the new element -/
theorem head?_insert {l : List α} (h : Sorted r l) {x : α} (hx : x ∉ l) :
    (insert r x l).head? = some x ∨ (insert r x l).head? = l.head? := by
  rw [insert_of_notMem h hx]
  cases hb : before r x l with
  | nil => exact .inl rfl
  | cons a as =>
    right
    rw [← before_append_lowerBound (r := r) x l, hb]
    rfl

theorem sorted_insert {l : List α} (h : Sorted r l) {x : α} (hx : x ∉ l) : Sorted r (insert r x l) := by
  rw [insert_of_notMem h hx]
  have habove : ∀ b ∈ lowerBound r x l, r x b := by
    intro b hb
    obtain ⟨hbl, hbx⟩ := (mem_lowerBound h).1 hb
    by_contra hxb
    exact hx ((Std.Trichotomous.trichotomous x b hxb hbx : x = b) ▸ hbl)
  refine List.pairwise_append.2 ⟨h.takeWhile _, List.pairwise_cons.2 ⟨habove, h.dropWhile _⟩, ?_⟩
  intro a ha b hb
  have hax := ((mem_before h).1 ha).2
  rcases List.mem_cons.1 hb with rfl | hb
  · exact hax
  · exact trans_of r hax (habove b hb)

/-! ## Sets -/

/-- a `std::set`, which cannot be built out of order -/
abbrev SetOf (r : α → α → Prop) := {l : List α // Sorted r l}

theorem sorted_insertNew {l : List α} (h : Sorted r l) (x : α) : Sorted r (insert r x l) := by
  by_cases hx : x ∈ l
  · rwa [insert_of_mem h hx]
  · exact sorted_insert h hx

variable (r) in
def SetOf.ofList (xs : List α) : SetOf r :=
  xs.foldl (fun s x => ⟨insert r x s.1, sorted_insertNew s.2 x⟩) ⟨[], List.Pairwise.nil⟩

theorem SetOf.mem_ofList {xs : List α} {y : α} : y ∈ (SetOf.ofList r xs).1 ↔ y ∈ xs := by
  induction xs using List.reverseRecOn with
  | nil => rfl
  | append_singleton xs x ih =>
    have hlast : (SetOf.ofList r (xs ++ [x])).1 = insert r x (SetOf.ofList r xs).1 := by
      rw [SetOf.ofList, List.foldl_append]
      rfl
    rw [hlast, List.mem_append, List.mem_singleton, ← ih]
    by_cases hx : x ∈ (SetOf.ofList r xs).1
    · rw [insert_of_mem (SetOf.ofList r xs).2 hx]
      exact ⟨.inl, fun h => h.elim id fun h => h ▸ hx⟩
    · rw [mem_insert (SetOf.ofList r xs).2 hx, or_comm]

/-- a set is determined by its elements -/
theorem SetOf.ofList_eq_iff {xs : List α} {s : SetOf r} : SetOf.ofList r xs = s ↔ ∀ i, i ∈ xs ↔ i ∈ s.1 := by
  refine ⟨fun h i => by rw [← h, SetOf.mem_ofList], fun h => Subtype.ext ?_⟩
  have hirrefl : Std.Irrefl r := ⟨irrefl_of r⟩
  have hantisymm : Std.Antisymm r := ⟨fun a b hab hba => absurd (trans_of r hab hba) (irrefl_of r a)⟩
  exact List.Pairwise.eq_of_mem_iff (SetOf.ofList r xs).2 s.2 fun i => SetOf.mem_ofList.trans (h i)

end

end Sylar.OrderedSet

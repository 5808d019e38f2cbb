/-
A map with a comparator that reads a normal form of the keys, as `std::map` with a comparator of its own is one: entries
in the order of the iterators, the key of each as it was first stored.

Two keys are equivalent when neither is less, which for a linear order of the normal forms is equality of these. The
order of the entries is a field, so a map with two equivalent keys cannot be built.

Results:
- `find_insert`, `find_assign`, `find_erase`: the lookups after an operation. `insert` keeps the entry that is there,
  `assign` (`m[k] = v`) replaces its value;
- `find_assignAll`: the lookups behind a row of assignments;
- `insertAll_eq_iff`: the first pair of each key makes the map of a list of pairs;
- `insertAll_map_eq_iff`: which renamings of pairs leave that map as it is.
-/
import Mathlib.Tactic

namespace Sylar.OrderedMap

section

variable {α β κ : Type*} [LT κ] [DecidableLT κ] (f : α → κ)

/-! ## Operations on the entries -/

/-- the entry of a key that is equivalent to `k` -/
def findEntry (k : α) : List (α × β) → Option (α × β)
  | [] => none
  | e :: l => if ¬ f e.1 < f k ∧ ¬ f k < f e.1 then some e else findEntry k l

/-- a new entry is put in its place; where an equivalent one is stored its value becomes `upd` of it -/
def put (k : α) (v : β) (upd : β → β) : List (α × β) → List (α × β)
  | [] => [(k, v)]
  | e :: l =>
    if f k < f e.1 then (k, v) :: e :: l else if f e.1 < f k then e :: put k v upd l else (e.1, upd e.2) :: l

def remove (k : α) (l : List (α × β)) : List (α × β) := l.filter fun e => f e.1 < f k ∨ f k < f e.1

def Sorted (l : List (α × β)) : Prop := l.Pairwise fun a b => f a.1 < f b.1

variable {f}

theorem mem_put {k : α} {v : β} {upd : β → β} {l : List (α × β)} {x : α × β} (h : x ∈ put f k v upd l) :
    x = (k, v) ∨ x ∈ l ∨ ∃ e ∈ l, x = (e.1, upd e.2) := by
  induction l with
  | nil => exact .inl (by simpa [put] using h)
  | cons a l ih =>
    rw [put] at h
    split_ifs at h with hlt hgt
    · rcases List.mem_cons.1 h with rfl | h
      · exact .inl rfl
      · exact .inr (.inl h)
    · rcases List.mem_cons.1 h with rfl | h
      · exact .inr (.inl List.mem_cons_self)
      · rcases ih h with rfl | h | ⟨e, he, rfl⟩
        · exact .inl rfl
        · exact .inr (.inl (List.mem_cons_of_mem a h))
        · exact .inr (.inr ⟨e, List.mem_cons_of_mem a he, rfl⟩)
    · rcases List.mem_cons.1 h with rfl | h
      · exact .inr (.inr ⟨a, List.mem_cons_self, rfl⟩)
      · exact .inr (.inl (List.mem_cons_of_mem a h))

theorem findEntry_put_self [Std.Irrefl ((· < ·) : κ → κ → Prop)] (k : α) (v : β) (l : List (α × β)) :
    (findEntry f k (put f k v (fun _ => v) l)).map Prod.snd = some v := by
  have hirrefl : ∀ x : κ, ¬ x < x := Std.Irrefl.irrefl
  induction l with
  | nil => simp [put, findEntry, hirrefl]
  | cons a l ih =>
    rw [put]
    split_ifs with hlt hgt
    · simp [findEntry, hirrefl]
    · rw [findEntry, if_neg fun h => h.1 hgt, ih]
    · rw [findEntry, if_pos ⟨hgt, hlt⟩]
      rfl

/-- of two assignments to a key the second one counts -/
theorem put_put [Std.Irrefl ((· < ·) : κ → κ → Prop)] (k : α) (v w : β) (l : List (α × β)) :
    put f k w (fun _ => w) (put f k v (fun _ => v) l) = put f k w (fun _ => w) l := by
  have hirrefl : ∀ x : κ, ¬ x < x := Std.Irrefl.irrefl
  induction l with
  | nil => simp [put, hirrefl]
  | cons a l ih =>
    rw [put, put]
    split_ifs with hlt hgt
    · simp [put, hirrefl]
    · rw [put, if_neg hlt, if_pos hgt, ih]
    · rw [put, if_neg hlt, if_neg hgt]

/-- a new key makes one more entry, wherever its place is -/
theorem perm_put {k : α} (v : β) (upd : β → β) {l : List (α × β)} (hnew : ∀ e ∈ l, f e.1 < f k ∨ f k < f e.1) :
    (put f k v upd l).Perm ((k, v) :: l) := by
  induction l with
  | nil => exact List.Perm.refl _
  | cons a l ih =>
    rw [put]
    split_ifs with hlt hgt
    · exact List.Perm.refl _
    · exact ((ih fun e he => hnew e (List.mem_cons_of_mem a he)).cons a).trans (List.Perm.swap _ _ _)
    · rcases hnew a List.mem_cons_self with h | h
      · exact absurd h hgt
      · exact absurd h hlt

end

/-! ## Lookups -/

section

variable {α β κ : Type*} [LT κ] [LE κ] [Std.IsLinearOrder κ] [Std.LawfulOrderLT κ] {f : α → κ}

/-- keys are equivalent when their normal forms are equal -/
theorem equiv_iff {a b : κ} : (¬ a < b ∧ ¬ b < a) ↔ a = b := by
  constructor
  · rintro ⟨hab, hba⟩
    exact Std.le_antisymm (Std.not_lt.1 hba) (Std.not_lt.1 hab)
  · rintro rfl
    exact ⟨Std.lt_irrefl, Std.lt_irrefl⟩

variable [DecidableLT κ]

theorem sorted_put {k : α} {v : β} {upd : β → β} {l : List (α × β)} (h : Sorted f l) :
    Sorted f (put f k v upd l) := by
  induction l with
  | nil => exact List.pairwise_singleton _ _
  | cons a l ih =>
    obtain ⟨ha, hl⟩ := List.pairwise_cons.1 h
    rw [put]
    split_ifs with hlt hgt
    · refine List.pairwise_cons.2 ⟨fun x hx => ?_, h⟩
      rcases List.mem_cons.1 hx with rfl | hx
      · exact hlt
      · exact Std.lt_trans hlt (ha x hx)
    · refine List.pairwise_cons.2 ⟨fun x hx => ?_, ih hl⟩
      rcases mem_put hx with rfl | hx | ⟨e, he, rfl⟩
      · exact hgt
      · exact ha x hx
      · exact ha e he
    · exact List.pairwise_cons.2 ⟨ha, hl⟩

variable [DecidableEq κ]

theorem findEntry_cons {k : α} {e : α × β} {l : List (α × β)} :
    findEntry f k (e :: l) = if f e.1 = f k then some e else findEntry f k l := by
  simp only [findEntry, equiv_iff]

theorem findEntry_eq_none {k : α} {l : List (α × β)} : findEntry f k l = none ↔ ∀ e ∈ l, f e.1 ≠ f k := by
  induction l with
  | nil => simp [findEntry]
  | cons a l ih =>
    rw [findEntry_cons]
    by_cases hk : f a.1 = f k
    · simp [hk]
    · simp [hk, ih]

theorem findEntry_congr {k k' : α} (h : f k = f k') {l : List (α × β)} : findEntry f k l = findEntry f k' l := by
  induction l with
  | nil => rfl
  | cons a l ih => rw [findEntry_cons, findEntry_cons, h, ih]

/-- an entry of the map is the one that its key finds -/
theorem findEntry_eq_some {l : List (α × β)} (h : Sorted f l) {e : α × β} : findEntry f e.1 l = some e ↔ e ∈ l := by
  induction l with
  | nil => simp [findEntry]
  | cons a l ih =>
    obtain ⟨ha, hl⟩ := List.pairwise_cons.1 h
    rw [findEntry_cons, List.mem_cons]
    by_cases hk : f a.1 = f e.1
    · have hout : e ∉ l := fun he => absurd (hk ▸ ha e he) Std.lt_irrefl
      simp [hk, hout, eq_comm]
    · have hne : e ≠ a := fun heq => hk (by rw [heq])
      simp [hk, hne, ih hl]

theorem findEntry_of_lt {k : α} {l : List (α × β)} (h : ∀ e ∈ l, f k < f e.1) : findEntry f k l = none := by
  refine findEntry_eq_none.2 fun e he heq => ?_
  have hlt := h e he
  rw [heq] at hlt
  exact Std.lt_irrefl hlt

theorem findEntry_put {k k' : α} {v : β} {upd : β → β} {l : List (α × β)} (h : Sorted f l) :
    findEntry f k' (put f k v upd l) =
      if f k = f k' then some (((findEntry f k l).map fun e => (e.1, upd e.2)).getD (k, v)) else findEntry f k' l := by
  induction l with
  | nil =>
    rw [put, findEntry_cons]
    rfl
  | cons a l ih =>
    obtain ⟨ha, hl⟩ := List.pairwise_cons.1 h
    rw [put]
    by_cases hlt : f k < f a.1
    -- in front of `a`: no entry is equivalent to `k`
    · have habsent : findEntry f k (a :: l) = none := by
        refine findEntry_of_lt fun e he => ?_
        rcases List.mem_cons.1 he with rfl | he
        · exact hlt
        · exact Std.lt_trans hlt (ha e he)
      rw [if_pos hlt, findEntry_cons, habsent]
      rfl
    by_cases hgt : f a.1 < f k
    -- behind `a`, whose key is another one
    · have hak : f a.1 ≠ f k := fun heq => Std.lt_irrefl (heq ▸ hgt)
      rw [if_neg hlt, if_pos hgt, findEntry_cons, ih hl, findEntry_cons, if_neg hak, findEntry_cons]
      by_cases hk' : f a.1 = f k'
      · have hkk : f k ≠ f k' := fun heq => hak (hk'.trans heq.symm)
        rw [if_pos hk', if_pos hk', if_neg hkk]
      · rw [if_neg hk', if_neg hk']
    -- at `a`
    · have hak : f a.1 = f k := equiv_iff.1 ⟨hgt, hlt⟩
      rw [if_neg hlt, if_neg hgt, findEntry_cons, findEntry_cons, if_pos hak, findEntry_cons, hak]
      split_ifs <;> rfl

theorem findEntry_remove {k k' : α} {l : List (α × β)} :
    findEntry f k' (remove f k l) = if f k = f k' then none else findEntry f k' l := by
  induction l with
  | nil => simp [remove, findEntry]
  | cons a l ih =>
    by_cases hak : f a.1 = f k
    · have hout : remove f k (a :: l) = remove f k l := by simp [remove, hak, Std.lt_irrefl]
      rw [hout, ih, findEntry_cons, hak]
      split_ifs <;> rfl
    · have hin : remove f k (a :: l) = a :: remove f k l := by
        have hne : f a.1 < f k ∨ f k < f a.1 := by
          by_contra hcon
          exact hak (equiv_iff.1 (not_or.1 hcon))
        simp [remove, hne]
      rw [hin, findEntry_cons, ih, findEntry_cons]
      by_cases hk' : f a.1 = f k'
      · have hkk : f k ≠ f k' := fun heq => hak (hk'.trans heq.symm)
        rw [if_pos hk', if_pos hk', if_neg hkk]
      · rw [if_neg hk', if_neg hk']

end

/-! ## The first pair of a key -/

section

variable {α β κ ι : Type*} [DecidableEq κ] {f : α → κ} {l : List ι} {old new : ι → α × β} {renamed : ι → Prop}

theorem find?_map_pairs (g : ι → α × β) (l : List ι) (k : α) :
    ((l.map g).find? fun p => f p.1 = f k) = (l.find? fun i => f (g i).1 = f k).map g := List.find?_map

/-- the first pair of a new name is an old one, so it is not renamed, and stands in front -/
theorem taken_of_find? (hkeep : ∀ i, ¬ renamed i → new i = old i)
    (hnew : ∀ i ∈ l, renamed i → ∀ j ∈ l, new i ≠ old j)
    (h : ∀ k, ((l.map new).find? fun p => f p.1 = f k) = (l.map old).find? fun p => f p.1 = f k)
    (pre : List ι) (i : ι) (post : List ι) (hsplit : l = pre ++ i :: post) (hren : renamed i) :
    ∃ j ∈ pre, ¬ renamed j ∧ f (old j).1 = f (new i).1 := by
  have hfirst := h (new i).1
  have hfind : (l.find? fun j => decide (f (new j).1 = f (new i).1)) =
      some ((pre.find? fun j => decide (f (new j).1 = f (new i).1)).getD i) := by
    rw [hsplit, List.find?_append, List.find?_cons_of_pos (by simp)]
    cases pre.find? fun j => decide (f (new j).1 = f (new i).1) <;> rfl
  rw [find?_map_pairs, find?_map_pairs, hfind, Option.map_some, eq_comm, Option.map_eq_some_iff] at hfirst
  obtain ⟨j', hj', heq⟩ := hfirst
  have hmem' := List.mem_of_find?_eq_some hj'
  cases hpre : pre.find? fun j => decide (f (new j).1 = f (new i).1) with
  | none =>
    rw [hpre, Option.getD_none] at heq
    exact absurd heq.symm (hnew i (by simp [hsplit]) hren j' hmem')
  | some j =>
    rw [hpre, Option.getD_some] at heq
    have hmem := List.mem_of_find?_eq_some hpre
    have hkept : ¬ renamed j := fun hren' => hnew j (by simp [hsplit, hmem]) hren' j' hmem' heq.symm
    have hname : f (new j).1 = f (new i).1 := by simpa using List.find?_some hpre
    exact ⟨j, hmem, hkept, by rw [← hkeep j hkept, hname]⟩

variable [DecidablePred renamed]

theorem find?_kept (l : List ι) (k : α) :
    (((l.filter fun i => ¬ renamed i).map old).find? fun p => f p.1 = f k) =
      (l.find? fun i => ¬ renamed i ∧ f (old i).1 = f k).map old := by
  rw [find?_map_pairs, List.find?_filter]
  congr 2
  funext i
  simp

theorem find?_kept_some {pre post : List ι} {i : ι} {k : α} (hsplit : l = pre ++ i :: post) (hkept : ¬ renamed i)
    (hi : f (old i).1 = f k) (hpre : ∀ j ∈ pre, ¬ renamed j → f (old j).1 ≠ f k) :
    (l.find? fun i => ¬ renamed i ∧ f (old i).1 = f k) = some i := by
  refine List.find?_eq_some_iff_append.2 ⟨by simp [hkept, hi], pre, post, hsplit, fun j hj => ?_⟩
  simp only [Bool.not_eq_true', decide_eq_false_iff_not]
  exact fun hold => hpre j hj hold.1 hold.2

/-- where the new name of every renamed element is taken by one in front of it, the renamed elements are not found -/
theorem find?_new_of_taken (hkeep : ∀ i, ¬ renamed i → new i = old i)
    (htaken : ∀ pre i post, l = pre ++ i :: post → renamed i → ∃ j ∈ pre, ¬ renamed j ∧ f (old j).1 = f (new i).1) (k : α) :
    ((l.map new).find? fun p => f p.1 = f k) =
      ((l.filter fun i => ¬ renamed i).map old).find? fun p => f p.1 = f k := by
  have hboth : ∀ i, ¬ renamed i → (f (new i).1 = f k ↔ f (old i).1 = f k) := fun i hi => by rw [hkeep i hi]
  rw [find?_map_pairs, find?_kept]
  cases hfind : l.find? fun i => decide (f (new i).1 = f k) with
  | none =>
    have hnone : (l.find? fun i => decide (¬ renamed i ∧ f (old i).1 = f k)) = none := by
      simp only [List.find?_eq_none, decide_eq_true_eq] at hfind ⊢
      exact fun i hi hold => hfind i hi ((hboth i hold.1).2 hold.2)
    rw [hnone, Option.map_none, Option.map_none]
  | some i =>
    obtain ⟨hi, pre, post, hsplit, hpre⟩ := List.find?_eq_some_iff_append.1 hfind
    simp only [decide_eq_true_eq] at hi
    simp only [Bool.not_eq_true', decide_eq_false_iff_not] at hpre
    have hkept : ¬ renamed i := by
      intro hren
      obtain ⟨j, hj, hkept, heq⟩ := htaken pre i post hsplit hren
      exact hpre j hj ((hboth j hkept).2 (heq.trans hi))
    have hsome := find?_kept_some hsplit hkept ((hboth i hkept).1 hi) fun j hj hkept hold =>
      hpre j hj ((hboth j hkept).2 hold)
    rw [hsome, Option.map_some, Option.map_some, hkeep i hkept]

/-- a pair that is found among all is found among the kept ones, when these give each renamed one the same first pair -/
theorem find?_old_of_same
    (hsame : ∀ i ∈ l, renamed i → ((l.map old).find? fun p => f p.1 = f (old i).1) =
      ((l.filter fun i => ¬ renamed i).map old).find? fun p => f p.1 = f (old i).1) (k : α) :
    ((l.map old).find? fun p => f p.1 = f k) =
      ((l.filter fun i => ¬ renamed i).map old).find? fun p => f p.1 = f k := by
  cases hfind : l.find? fun i => decide (f (old i).1 = f k) with
  | none =>
    have hnone : (l.find? fun i => decide (¬ renamed i ∧ f (old i).1 = f k)) = none := by
      simp only [List.find?_eq_none, decide_eq_true_eq] at hfind ⊢
      exact fun i hi hold => hfind i hi hold.2
    rw [find?_map_pairs, find?_kept, hfind, hnone]
  | some i =>
    obtain ⟨hi, pre, post, hsplit, hpre⟩ := List.find?_eq_some_iff_append.1 hfind
    simp only [decide_eq_true_eq] at hi
    simp only [Bool.not_eq_true', decide_eq_false_iff_not] at hpre
    by_cases hren : renamed i
    · have h := hsame i (by simp [hsplit]) hren
      rwa [hi] at h
    · have hsome := find?_kept_some hsplit hren hi fun j hj _ => hpre j hj
      rw [find?_map_pairs, find?_kept, hfind, hsome]

end

/-! ## The map -/

/-- a map over keys `α` that are compared through `f` -/
structure Map (α β : Type*) {κ : Type*} [LT κ] (f : α → κ) where
  entries : List (α × β)
  sorted : Sorted f entries

namespace Map

variable {α β κ : Type*} [LT κ] {f : α → κ}

def empty : Map α β f := ⟨[], List.Pairwise.nil⟩

variable [DecidableLT κ]

/-- `find`, `none` for `end()` -/
def find (m : Map α β f) (k : α) : Option β := (findEntry f k m.entries).map Prod.snd

@[simp]
theorem find_empty (k : α) : (empty : Map α β f).find k = none := rfl

/-- `erase` -/
def erase (m : Map α β f) (k : α) : Map α β f :=
  ⟨remove f k m.entries, List.Pairwise.sublist List.filter_sublist m.sorted⟩

variable [LE κ] [Std.IsLinearOrder κ] [Std.LawfulOrderLT κ]

/-- `insert`: nothing happens where an equivalent key is stored -/
def insert (m : Map α β f) (k : α) (v : β) : Map α β f :=
  ⟨put f k v id m.entries, sorted_put m.sorted⟩

/-- `m[k] = v`: the stored key stays -/
def assign (m : Map α β f) (k : α) (v : β) : Map α β f :=
  ⟨put f k v (fun _ => v) m.entries, sorted_put m.sorted⟩

variable [DecidableEq κ]

theorem find_insert (m : Map α β f) (k k' : α) (v : β) :
    (m.insert k v).find k' = if f k = f k' then some ((m.find k).getD v) else m.find k' := by
  rw [find, insert, findEntry_put m.sorted]
  split_ifs
  · rw [find]
    cases findEntry f k m.entries <;> rfl
  · rfl

theorem find_assign (m : Map α β f) (k k' : α) (v : β) :
    (m.assign k v).find k' = if f k = f k' then some v else m.find k' := by
  rw [find, assign, findEntry_put m.sorted]
  split_ifs
  · cases findEntry f k m.entries <;> rfl
  · rfl

theorem find_erase (m : Map α β f) (k k' : α) :
    (m.erase k).find k' = if f k = f k' then none else m.find k' := by
  rw [find, erase, findEntry_remove]
  split_ifs <;> rfl

/-- equivalent keys find the same -/
theorem find_congr (m : Map α β f) {k k' : α} (h : f k = f k') : m.find k = m.find k' := by
  rw [find, findEntry_congr h, find]

/-- what is stored wins over what is inserted -/
theorem find_insert_or (m : Map α β f) (k k' : α) (v : β) :
    (m.insert k v).find k' = (m.find k').or (if f k = f k' then some v else none) := by
  rw [find_insert]
  by_cases hk : f k = f k'
  · rw [if_pos hk, if_pos hk, m.find_congr hk]
    cases m.find k' <;> rfl
  · rw [if_neg hk, if_neg hk, Option.or_none]

/-! ### The map of a list of pairs -/

/-- `insert` of every pair -/
def insertAll (m : Map α β f) (l : List (α × β)) : Map α β f := l.foldl (fun m p => m.insert p.1 p.2) m

/-- an entry is the first of its key: one that is stored, or else the first pair of the list -/
theorem findEntry_insertAll (l : List (α × β)) (m : Map α β f) (k : α) :
    findEntry f k (m.insertAll l).entries = (findEntry f k m.entries).or (l.find? fun p => f p.1 = f k) := by
  induction l generalizing m with
  | nil => simp [insertAll]
  | cons p l ih =>
    have hfirst : findEntry f k (m.insert p.1 p.2).entries =
        (findEntry f k m.entries).or (if f p.1 = f k then some p else none) := by
      rw [insert, findEntry_put m.sorted]
      split_ifs with hk
      · rw [findEntry_congr hk]
        cases findEntry f k m.entries <;> rfl
      · rw [Option.or_none]
    have hrest := ih (m.insert p.1 p.2)
    rw [hfirst, Option.or_assoc] at hrest
    rw [insertAll, List.foldl_cons, ← insertAll, hrest, List.find?_cons]
    by_cases hk : f p.1 = f k <;> simp [hk]

def assignAll (m : Map α β f) (l : List (α × β)) : Map α β f := l.foldl (fun m p => m.assign p.1 p.2) m

/-- of the pairs of a key, the last one counts -/
theorem find_assignAll (l : List (α × β)) (m : Map α β f) (k : α) :
    (m.assignAll l).find k = ((l.reverse.find? fun p => f p.1 = f k).map Prod.snd).or (m.find k) := by
  induction l generalizing m with
  | nil => rfl
  | cons p l ih =>
    have hrest := ih (m.assign p.1 p.2)
    rw [find_assign] at hrest
    rw [assignAll, List.foldl_cons, ← assignAll, hrest, List.reverse_cons, List.find?_append]
    cases l.reverse.find? fun p => decide (f p.1 = f k) with
    | some e => rfl
    | none => by_cases hk : f p.1 = f k <;> simp [hk]

/-- a map is determined by the entries that are found -/
theorem ext_findEntry {m m' : Map α β f} (h : ∀ k, findEntry f k m.entries = findEntry f k m'.entries) : m = m' := by
  obtain ⟨l, hl⟩ := m
  obtain ⟨l', hl'⟩ := m'
  have hirrefl : Std.Irrefl fun a b : α × β => f a.1 < f b.1 := ⟨fun _ => Std.lt_irrefl⟩
  have hantisymm : Std.Antisymm fun a b : α × β => f a.1 < f b.1 :=
    ⟨fun _ _ hab hba => absurd (Std.lt_trans hab hba) Std.lt_irrefl⟩
  congr 1
  refine List.Pairwise.eq_of_mem_iff hl hl' fun e => ?_
  rw [← findEntry_eq_some hl, ← findEntry_eq_some hl', h e.1]

theorem insertAll_eq_iff {l l' : List (α × β)} :
    (empty : Map α β f).insertAll l = empty.insertAll l' ↔
      ∀ k, (l.find? fun p => f p.1 = f k) = l'.find? fun p => f p.1 = f k := by
  have hfind : ∀ (l : List (α × β)) (k : α), findEntry f k ((empty : Map α β f).insertAll l).entries =
      l.find? fun p => f p.1 = f k := fun l k => by rw [findEntry_insertAll]; rfl
  refine ⟨fun h k => ?_, fun h => ?_⟩
  · rw [← hfind, h, hfind]
  · exact ext_findEntry fun k => by rw [hfind, hfind, h]

/-- the entries of a map make it again -/
theorem insertAll_entries (m : Map α β f) : (empty : Map α β f).insertAll m.entries = m := by
  refine ext_findEntry fun k => ?_
  rw [findEntry_insertAll]
  cases hfind : m.entries.find? fun p => f p.1 = f k with
  | none =>
    refine (findEntry_eq_none.2 fun e he => ?_).symm
    simpa using List.find?_eq_none.1 hfind e he
  | some e =>
    have hkey : f e.1 = f k := by simpa using List.find?_some hfind
    have hentry := (findEntry_eq_some m.sorted).2 (List.mem_of_find?_eq_some hfind)
    rw [findEntry_congr hkey] at hentry
    rw [hentry]
    rfl

/-! ### Renaming -/

section

variable {ι : Type*} {l : List ι} {old new : ι → α × β} {renamed : ι → Prop} [DecidablePred renamed]

/-- **Renaming some pairs of a list**, to pairs that are not in it, leaves its map as it is exactly when each new name is
taken by a kept pair in front, and the kept pairs alone give its old name the same first pair -/
theorem insertAll_map_eq_iff (hkeep : ∀ i, ¬ renamed i → new i = old i)
    (hnew : ∀ i ∈ l, renamed i → ∀ j ∈ l, new i ≠ old j) :
    (empty : Map α β f).insertAll (l.map new) = empty.insertAll (l.map old) ↔
      ∀ pre i post, l = pre ++ i :: post → renamed i →
        (∃ j ∈ pre, ¬ renamed j ∧ f (old j).1 = f (new i).1) ∧
          ((l.map old).find? fun p => f p.1 = f (old i).1) =
            ((l.filter fun i => ¬ renamed i).map old).find? fun p => f p.1 = f (old i).1 := by
  rw [insertAll_eq_iff]
  refine ⟨fun h => ?_, fun h k => ?_⟩
  · have htaken := taken_of_find? hkeep hnew h
    intro pre i post hsplit hren
    exact ⟨htaken pre i post hsplit hren, by rw [← h, find?_new_of_taken hkeep htaken]⟩
  · rw [find?_new_of_taken hkeep fun pre i post hsplit hren => (h pre i post hsplit hren).1]
    refine (find?_old_of_same (fun i hi hren => ?_) k).symm
    obtain ⟨pre, post, hsplit⟩ := List.append_of_mem hi
    exact (h pre i post hsplit hren).2

end

end Map

end Sylar.OrderedMap

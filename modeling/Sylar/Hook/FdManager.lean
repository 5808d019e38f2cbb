/-
`FdManager::get` and `del` on any threads.

`get` looks under the read lock and creates under a later write lock, where the size is tested again and the slot is not. A
descriptor is any `int`. Every index into the vector is logged with the size the vector has there; an index out of range has
no defined result, and here it finds nothing and stores nothing.

Results:
- `accesses_step`: what each section indexes, and when that is in range;
- `one_ctx_iff`: in every state of a run all accesses have been in range, the contexts returned for a descriptor since its
  last del are one context, and it is in the table, exactly when each creation finds its slot empty, within the vector or
  behind a resize that cuts off empty slots only;
- `Represents.get`, `Represents.create`, `Represents.del`: below 2^31 slots the sections are the operations of the manager of
  one thread.
-/
import Sylar.Core.MachineInt
import Sylar.Core.Run
import Sylar.Hook.FdCtx

namespace Sylar.Hook.FdTable

open Sylar.Run Sylar.MachineInt

/-! ## Vectors indexed by an int -/

section

variable {α : Type*}

/-- the entry at an index -/
def slot (l : List (Option α)) (i : ℤ) : Option α := if 0 ≤ i then l.getD i.toNat none else none

def store (l : List (Option α)) (i : ℤ) (v : Option α) : List (Option α) := if 0 ≤ i then l.set i.toNat v else l

def resize (l : List (Option α)) (n : ℕ) : List (Option α) := l.take n ++ List.replicate (n - l.length) none

@[simp] theorem length_resize (l : List (Option α)) (n : ℕ) : (resize l n).length = n := by
  simp only [resize, List.length_append, List.length_take, List.length_replicate]
  omega

theorem slot_store {l : List (Option α)} {i : ℤ} (h : 0 ≤ i) (hlt : i < l.length) (v : Option α) (j : ℤ) :
    slot (store l i v) j = if j = i then v else slot l j := by
  have hnat : i.toNat < l.length := by omega
  by_cases hj : 0 ≤ j
  · simp only [slot, store, if_pos h, if_pos hj, List.getD_eq_getElem?_getD, List.getElem?_set]
    by_cases heq : j = i
    · simp [heq, hnat]
    · have hne : ¬ i.toNat = j.toNat := by omega
      rw [if_neg heq, if_neg hne]
  · have hne : j ≠ i := by omega
    simp only [slot, if_neg hj, if_neg hne]

theorem slot_resize (l : List (Option α)) (n : ℕ) (j : ℤ) : slot (resize l n) j = if j < n then slot l j else none := by
  by_cases hj : 0 ≤ j
  · simp only [slot, resize, if_pos hj, List.getD_eq_getElem?_getD, List.getElem?_append, List.length_take,
      List.getElem?_take, List.getElem?_replicate]
    by_cases hlen : j.toNat < l.length
    · by_cases hn : j < n
      · rw [if_pos (by omega), if_pos (by omega), if_pos hn]
      · rw [if_neg (by omega), if_neg (by omega), if_neg hn]
        rfl
    · rw [if_neg (by omega), List.getElem?_eq_none (by omega)]
      split_ifs <;> rfl
  · simp only [slot, if_neg hj, ite_self]

end

/-! ## Model -/

/-- `(int)m_datas.size()` -/
def intSize (n : ℕ) : ℤ := toSigned 32 n

/-- `fd * 1.5` as a `size_t`, for a descriptor that is not negative: the double is exact -/
def newSize (fd : Int32) : ℕ := fd.toInt.toNat * 3 / 2

/-- an index, and the size of the vector it is used on -/
structure Access where
  index : ℤ
  size : ℕ
deriving DecidableEq, Repr

def Access.Inside (a : Access) : Prop := 0 ≤ a.index ∧ a.index < a.size

instance (a : Access) : Decidable a.Inside := inferInstanceAs (Decidable (_ ∧ _))

inductive Event where
  /-- a get returned a context -/
  | got (fd : Int32) (ctx : ℕ)
  | deleted (fd : Int32)
deriving DecidableEq, Repr

structure Sys where
  /-- the contexts, as numbers in the order of their construction -/
  datas : List (Option ℕ)
  made : ℕ
  /-- the descriptor of a get that is between its two sections -/
  pc : ℕ → Option Int32
  accesses : List Access
  events : List Event

/-- behind the constructor -/
def init : Sys := ⟨List.replicate 64 none, 0, fun _ => none, [], []⟩

inductive Op where
  /-- thread `t` calls get: the section of the read lock -/
  | lookup (t : ℕ) (fd : Int32) (auto_create : Bool)
  /-- the section of the write lock -/
  | create (t : ℕ)
  | del (t : ℕ) (fd : Int32)
deriving DecidableEq, Repr

namespace Sys

def goto (s : Sys) (t : ℕ) (p : Option Int32) : Sys := { s with pc := Function.update s.pc t p }

def index (s : Sys) (fd : Int32) : Sys := { s with accesses := s.accesses ++ [⟨fd.toInt, s.datas.length⟩] }

def record (s : Sys) (e : Event) : Sys := { s with events := s.events ++ [e] }

/-- `m_datas.resize(fd * 1.5)` if the vector is too short. A negative double has no value as a `size_t` -/
def grow (s : Sys) (fd : Int32) : Sys :=
  if intSize s.datas.length ≤ fd.toInt ∧ 0 ≤ fd.toInt then { s with datas := resize s.datas (newSize fd) } else s

/-- `m_datas[fd] = v` -/
def assign (s : Sys) (fd : Int32) (v : Option ℕ) : Sys := { s.index fd with datas := store s.datas fd.toInt v }

/-- a new context is stored and returned -/
def make (s : Sys) (t : ℕ) (fd : Int32) : Sys :=
  let s := s.grow fd
  { ((s.assign fd (some s.made)).record (.got fd s.made)).goto t none with made := s.made + 1 }

end Sys

def step (s : Sys) : Op → Sys
  | .lookup t fd auto_create =>
    if s.pc t ≠ none ∨ fd = -1 then s
    else if intSize s.datas.length ≤ fd.toInt then (if auto_create then s.goto t (some fd) else s)
    else
      match slot s.datas fd.toInt with
      | some ctx => (s.index fd).record (.got fd ctx)
      | none => if auto_create then (s.index fd).goto t (some fd) else s.index fd
  | .create t =>
    match s.pc t with
    | some fd => s.make t fd
    | none => s
  | .del t fd =>
    if s.pc t ≠ none then s
    else if intSize s.datas.length ≤ fd.toInt then s.record (.deleted fd)
    else (s.assign fd none).record (.deleted fd)

/-- the contexts that were returned for `fd` since its last del -/
def held (events : List Event) (fd : Int32) : List ℕ :=
  events.foldl (fun l e => match e with
    | .got fd' ctx => if fd' = fd then l ++ [ctx] else l
    | .deleted fd' => if fd' = fd then [] else l) []

/-- there is one context for a descriptor, and it stays -/
structure OneCtx (s : Sys) : Prop where
  inside : ∀ a ∈ s.accesses, a.Inside
  same : ∀ fd, ∀ ctx ∈ held s.events fd, ∀ ctx' ∈ held s.events fd, ctx = ctx'
  stays : ∀ fd, ∀ ctx ∈ held s.events fd, slot s.datas fd.toInt = some ctx

/-- the section indexes the vector in range -/
def InRange (s : Sys) : Op → Prop
  | .lookup t fd _ => s.pc t = none → fd ≠ -1 → fd.toInt < intSize s.datas.length → 0 ≤ fd.toInt
  | .create t => ∀ fd, s.pc t = some fd → 0 ≤ fd.toInt ∧ (fd.toInt < intSize s.datas.length ∨ 2 ≤ fd.toInt)
  | .del t fd => s.pc t = none → fd.toInt < intSize s.datas.length → 0 ≤ fd.toInt

/-- no context of the slot is in use: it is empty, or a del that found the size negative has left one there -/
def Free (s : Sys) (fd : Int32) : Prop := slot s.datas fd.toInt = none ∨ held s.events fd = []

/-- a creation finds its slot free, and so are the slots that its resize cuts off -/
def Alone (s : Sys) : Op → Prop
  | .create t => ∀ fd, s.pc t = some fd →
      Free s fd ∧ ∀ fd', intSize s.datas.length ≤ fd.toInt → (newSize fd : ℤ) ≤ fd'.toInt → Free s fd'
  | _ => True

/-- the condition of a run -/
def Keeps (s : Sys) (o : Op) : Prop := InRange s o ∧ Alone s o

/-! ## Accesses -/

theorem intSize_le (n : ℕ) : intSize n ≤ n := by
  rw [intSize, toSigned, Int.bmod_def]
  push_cast
  split_ifs <;> omega

/-- a section that indexes the vector once -/
theorem inside_iff {i : ℤ} {n : ℕ} : (∀ a ∈ [Access.mk i n], a.Inside) ↔ 0 ≤ i ∧ i < n := by
  simp [Access.Inside]

theorem inside_checked {i : ℤ} {n : ℕ} (h : i < intSize n) : (∀ a ∈ [Access.mk i n], a.Inside) ↔ 0 ≤ i := by
  have hle := intSize_le n
  rw [inside_iff]
  omega

@[simp] theorem grow_accesses (s : Sys) (fd : Int32) : (s.grow fd).accesses = s.accesses := by
  unfold Sys.grow
  split_ifs <;> rfl

@[simp] theorem grow_events (s : Sys) (fd : Int32) : (s.grow fd).events = s.events := by
  unfold Sys.grow
  split_ifs <;> rfl

@[simp] theorem grow_made (s : Sys) (fd : Int32) : (s.grow fd).made = s.made := by
  unfold Sys.grow
  split_ifs <;> rfl

theorem slot_grow (s : Sys) (fd : Int32) (i : ℤ) :
    slot (s.grow fd).datas i =
      if intSize s.datas.length ≤ fd.toInt ∧ 0 ≤ fd.toInt ∧ newSize fd ≤ i then none else slot s.datas i := by
  unfold Sys.grow
  by_cases h : intSize s.datas.length ≤ fd.toInt ∧ 0 ≤ fd.toInt
  · rw [if_pos h, slot_resize]
    simp only [h.1, h.2, true_and, ← not_lt, ite_not]
  · rw [if_neg h, if_neg fun hall => h ⟨hall.1, hall.2.1⟩]

theorem length_grow (s : Sys) (fd : Int32) :
    0 ≤ fd.toInt ∧ fd.toInt < (s.grow fd).datas.length ↔
      0 ≤ fd.toInt ∧ (fd.toInt < intSize s.datas.length ∨ 2 ≤ fd.toInt) := by
  have hle := intSize_le s.datas.length
  unfold Sys.grow
  split_ifs with h
  · rw [length_resize, newSize]
    omega
  · omega

/-- a lookup that ends without looking -/
def Skips (s : Sys) (t : ℕ) (fd : Int32) : Prop :=
  s.pc t ≠ none ∨ fd = -1 ∨ intSize s.datas.length ≤ fd.toInt

instance (s : Sys) (t : ℕ) (fd : Int32) : Decidable (Skips s t fd) := inferInstanceAs (Decidable (_ ∨ _))

theorem lookup_cases (s : Sys) (t : ℕ) (fd : Int32) (auto_create : Bool) :
    (Skips s t fd ∧ ∃ pc, step s (.lookup t fd auto_create) = { s with pc := pc }) ∨
      (¬ Skips s t fd ∧ ∃ ctx, slot s.datas fd.toInt = some ctx ∧
        step s (.lookup t fd auto_create) = (s.index fd).record (.got fd ctx)) ∨
      (¬ Skips s t fd ∧ slot s.datas fd.toInt = none ∧
        ∃ pc, step s (.lookup t fd auto_create) = { s.index fd with pc := pc }) := by
  rw [step]
  by_cases hout : s.pc t ≠ none ∨ fd = -1
  · exact .inl ⟨hout.elim .inl (.inr ∘ .inl), s.pc, if_pos hout⟩
  rw [if_neg hout]
  by_cases hshort : intSize s.datas.length ≤ fd.toInt
  · refine .inl ⟨.inr (.inr hshort), ?_⟩
    rw [if_pos hshort]
    split_ifs
    · exact ⟨_, rfl⟩
    · exact ⟨s.pc, rfl⟩
  · have hlook : ¬ Skips s t fd := fun h => h.elim (hout ∘ .inl) (Or.rec (hout ∘ .inr) hshort)
    rw [if_neg hshort]
    refine .inr ?_
    cases slot s.datas fd.toInt with
    | some ctx => exact .inl ⟨hlook, ctx, rfl, rfl⟩
    | none =>
      refine .inr ⟨hlook, rfl, ?_⟩
      dsimp only
      split_ifs
      · exact ⟨_, rfl⟩
      · exact ⟨s.pc, rfl⟩

theorem del_cases (s : Sys) (t : ℕ) (fd : Int32) :
    (s.pc t ≠ none ∧ step s (.del t fd) = s) ∨
      (s.pc t = none ∧ intSize s.datas.length ≤ fd.toInt ∧ step s (.del t fd) = s.record (.deleted fd)) ∨
      (s.pc t = none ∧ fd.toInt < intSize s.datas.length ∧
        step s (.del t fd) = (s.assign fd none).record (.deleted fd)) := by
  rw [step]
  by_cases hout : s.pc t ≠ none
  · exact .inl ⟨hout, if_pos hout⟩
  · rw [if_neg hout]
    by_cases hshort : intSize s.datas.length ≤ fd.toInt
    · exact .inr (.inl ⟨not_not.1 hout, hshort, if_pos hshort⟩)
    · exact .inr (.inr ⟨not_not.1 hout, not_le.1 hshort, if_neg hshort⟩)

/-- what a section indexes -/
def indexed (s : Sys) : Op → List Access
  | .lookup t fd _ => if Skips s t fd then [] else [⟨fd.toInt, s.datas.length⟩]
  | .create t =>
    match s.pc t with
    | some fd => [⟨fd.toInt, (s.grow fd).datas.length⟩]
    | none => []
  | .del t fd => if s.pc t ≠ none ∨ intSize s.datas.length ≤ fd.toInt then [] else [⟨fd.toInt, s.datas.length⟩]

theorem step_accesses (s : Sys) (o : Op) : (step s o).accesses = s.accesses ++ indexed s o := by
  cases o with
  | lookup t fd auto_create =>
    rw [indexed]
    rcases lookup_cases s t fd auto_create with ⟨hskip, pc, h⟩ | ⟨hlook, ctx, -, h⟩ | ⟨hlook, -, pc, h⟩
    · rw [h, if_pos hskip, List.append_nil]
    · rw [h, if_neg hlook]
      rfl
    · rw [h, if_neg hlook]
      rfl
  | create t =>
    rw [step, indexed]
    cases s.pc t with
    | none => exact (List.append_nil _).symm
    | some fd => exact congrArg (· ++ [Access.mk fd.toInt (s.grow fd).datas.length]) (grow_accesses s fd)
  | del t fd =>
    rw [indexed]
    rcases del_cases s t fd with ⟨hout, h⟩ | ⟨hpc, hshort, h⟩ | ⟨hpc, hlt, h⟩
    · rw [h, if_pos (.inl hout), List.append_nil]
    · rw [h, if_pos (.inr hshort), List.append_nil]
      rfl
    · rw [h, if_neg (by simp [hpc, hlt])]
      rfl

/-- the accesses of a section are in range exactly under the condition -/
theorem indexed_inside (s : Sys) (o : Op) : (∀ a ∈ indexed s o, a.Inside) ↔ InRange s o := by
  cases o with
  | lookup t fd auto_create =>
    rw [indexed, InRange]
    split_ifs with hskip
    · refine iff_of_true (by simp) fun hpc hfd hlt => ?_
      rcases hskip with h | h | h
      · exact absurd hpc h
      · exact absurd h hfd
      · omega
    · rw [Skips, not_or, not_or, not_not, not_le] at hskip
      rw [inside_checked hskip.2.2]
      exact ⟨fun h _ _ _ => h, fun h => h hskip.1 hskip.2.1 hskip.2.2⟩
  | create t =>
    rw [indexed, InRange]
    cases hpc : s.pc t with
    | none => simp
    | some fd =>
      simp only [inside_iff, length_grow, Option.some.injEq]
      exact ⟨fun h fd' heq => heq ▸ h, fun h => h fd rfl⟩
  | del t fd =>
    rw [indexed, InRange]
    split_ifs with hskip
    · refine iff_of_true (by simp) fun hpc hlt => ?_
      rcases hskip with h | h
      · exact absurd hpc h
      · omega
    · rw [not_or, not_not, not_le] at hskip
      rw [inside_checked hskip.2]
      exact ⟨fun h _ _ => h, fun h => h hskip.1 hskip.2⟩

/-- **Bounds.** All accesses of a run have been in range exactly when each of its sections keeps to the condition. -/
theorem inside_run_iff (ops : List Op) :
    (∀ a ∈ (run step init ops).accesses, a.Inside) ↔ Guarded step InRange init ops := by
  refine log_good_iff ?_ init ops (by simp [init])
  intro s o
  exact ⟨indexed s o, step_accesses s o, indexed_inside s o⟩

/-! ## One context -/

@[simp] theorem held_got (events : List Event) (fd fd' : Int32) (ctx : ℕ) :
    held (events ++ [.got fd' ctx]) fd = if fd' = fd then held events fd ++ [ctx] else held events fd := by
  rw [held, List.foldl_append]
  rfl

@[simp] theorem held_deleted (events : List Event) (fd fd' : Int32) :
    held (events ++ [.deleted fd']) fd = if fd' = fd then [] else held events fd := by
  rw [held, List.foldl_append]
  rfl

/-- the table has the contexts in use, and no number beyond those made -/
structure Matches (s : Sys) : Prop where
  stays : ∀ fd, ∀ ctx ∈ held s.events fd, slot s.datas fd.toInt = some ctx
  fresh : ∀ (i : ℤ) ctx, slot s.datas i = some ctx → ctx < s.made

def Inv (s : Sys) : Prop := (∀ a ∈ s.accesses, a.Inside) ∧ Matches s

theorem Inv.oneCtx {s : Sys} (h : Inv s) : OneCtx s where
  inside := h.1
  same := fun fd ctx hctx ctx' hctx' =>
    Option.some.inj ((h.2.stays fd ctx hctx).symm.trans (h.2.stays fd ctx' hctx'))
  stays := h.2.stays

theorem inv_init : Inv init := by
  have hnone : ∀ i : ℤ, slot init.datas i = none := by
    intro i
    simp only [slot, init, List.getD_eq_getElem?_getD, List.getElem?_replicate]
    split_ifs <;> rfl
  refine ⟨by simp [init], ?_, ?_⟩
  · intro fd ctx hctx
    cases hctx
  · intro i ctx h
    rw [hnone i] at h
    cases h

theorem slot_make {s : Sys} {t : ℕ} {fd : Int32} (hpos : 0 ≤ fd.toInt) (hlt : fd.toInt < (s.grow fd).datas.length)
    (i : ℤ) : slot (s.make t fd).datas i = if i = fd.toInt then some s.made else slot (s.grow fd).datas i := by
  rw [← grow_made s fd]
  exact slot_store hpos hlt _ i

theorem held_make (s : Sys) (t : ℕ) (fd fd' : Int32) :
    held (s.make t fd).events fd' = if fd = fd' then held s.events fd' ++ [s.made] else held s.events fd' := by
  rw [← grow_made s fd, ← grow_events s fd]
  exact held_got _ fd' fd _

section

variable {s : Sys} (h : Matches s)
include h

theorem Matches.free_iff (fd : Int32) : Free s fd ↔ held s.events fd = [] := by
  refine ⟨fun hfree => hfree.elim (fun hnone => ?_) id, .inr⟩
  rw [List.eq_nil_iff_forall_not_mem]
  intro ctx hctx
  rw [h.stays fd ctx hctx] at hnone
  cases hnone

/-- a lookup that finds a context -/
theorem Matches.again {fd : Int32} {ctx : ℕ} (hslot : slot s.datas fd.toInt = some ctx) :
    Matches ((s.index fd).record (.got fd ctx)) where
  stays := by
    intro fd' ctx' hctx'
    simp only [Sys.record, Sys.index, held_got] at hctx' ⊢
    split_ifs at hctx' with heq
    · subst heq
      rcases List.mem_append.1 hctx' with hold | hnew
      · exact h.stays _ _ hold
      · rw [List.mem_singleton.1 hnew]
        exact hslot
    · exact h.stays _ _ hctx'
  fresh := h.fresh

theorem Matches.deleted {fd : Int32} (hpos : 0 ≤ fd.toInt) (hlt : fd.toInt < s.datas.length) :
    Matches ((s.assign fd none).record (.deleted fd)) where
  stays := by
    intro fd' ctx hctx
    simp only [Sys.record, Sys.assign, Sys.index, held_deleted, slot_store hpos hlt] at hctx ⊢
    split_ifs at hctx with heq
    · cases hctx
    · rw [if_neg fun hint => heq (Int32.toInt_inj.1 hint).symm]
      exact h.stays _ _ hctx
  fresh := by
    intro i ctx hslot
    simp only [Sys.record, Sys.assign, Sys.index, slot_store hpos hlt] at hslot ⊢
    split_ifs at hslot
    exact h.fresh i ctx hslot

/-- a del that returns early -/
theorem Matches.notFound (fd : Int32) : Matches (s.record (.deleted fd)) where
  stays := by
    intro fd' ctx hctx
    simp only [Sys.record, held_deleted] at hctx ⊢
    split_ifs at hctx
    · cases hctx
    · exact h.stays _ _ hctx
  fresh := h.fresh

/-- a creation in a free slot -/
theorem Matches.make {t : ℕ} {fd : Int32} (hpc : s.pc t = some fd) (hok : Keeps s (.create t)) :
    Matches (s.make t fd) := by
  obtain ⟨hpos, hlt⟩ := (length_grow s fd).2 (hok.1 fd hpc)
  obtain ⟨hfree, hcut⟩ := hok.2 fd hpc
  refine ⟨?_, ?_⟩
  · intro fd' ctx hctx
    rw [held_make] at hctx
    rw [slot_make hpos hlt]
    split_ifs at hctx with heq
    · subst heq
      rw [(h.free_iff fd).1 hfree, List.nil_append, List.mem_singleton] at hctx
      rw [if_pos rfl, hctx]
    · -- a context in use is not cut off
      have hkept : ¬ (intSize s.datas.length ≤ fd.toInt ∧ 0 ≤ fd.toInt ∧ (newSize fd : ℤ) ≤ fd'.toInt) := by
        rintro ⟨hshort, -, hge⟩
        rw [(h.free_iff fd').1 (hcut fd' hshort hge)] at hctx
        cases hctx
      rw [if_neg fun hint => heq (Int32.toInt_inj.1 hint).symm, slot_grow, if_neg hkept]
      exact h.stays fd' ctx hctx
  · intro i ctx hctx
    change ctx < (s.grow fd).made + 1
    rw [grow_made]
    rw [slot_make hpos hlt, slot_grow] at hctx
    split_ifs at hctx
    · cases hctx
      exact Nat.lt_succ_self _
    · exact (h.fresh i ctx hctx).trans (Nat.lt_succ_self _)

end

/-- **Step.** -/
theorem inv_step (s : Sys) (o : Op) (h : Inv s) (hok : Keeps s o) : Inv (step s o) := by
  refine ⟨?_, ?_⟩
  · intro a ha
    rw [step_accesses, List.mem_append] at ha
    exact ha.elim (h.1 a) ((indexed_inside s o).2 hok.1 a)
  · cases o with
    | lookup t fd auto_create =>
      rcases lookup_cases s t fd auto_create with ⟨-, pc, heq⟩ | ⟨-, ctx, hslot, heq⟩ | ⟨-, -, pc, heq⟩
      · rw [heq]
        exact ⟨h.2.stays, h.2.fresh⟩
      · rw [heq]
        exact h.2.again hslot
      · rw [heq]
        exact ⟨h.2.stays, h.2.fresh⟩
    | create t =>
      rw [step]
      cases hpc : s.pc t with
      | none => exact h.2
      | some fd => exact h.2.make hpc hok
    | del t fd =>
      rcases del_cases s t fd with ⟨-, heq⟩ | ⟨-, -, heq⟩ | ⟨hpc, hlt, heq⟩
      · rw [heq]
        exact h.2
      · rw [heq]
        exact h.2.notFound fd
      · rw [heq]
        exact h.2.deleted (hok.1 hpc hlt) (hlt.trans_le (intSize_le _))

/-- a step against the condition leaves the table, or makes a second context, or cuts one off -/
theorem not_oneCtx_step (s : Sys) (o : Op) (h : Inv s) (hnot : ¬ Keeps s o) : ¬ OneCtx (step s o) := by
  intro hone
  have hin : InRange s o := by
    rw [← indexed_inside]
    intro a ha
    exact hone.inside a (by rw [step_accesses]; exact List.mem_append_right _ ha)
  refine hnot ⟨hin, ?_⟩
  cases o with
  | lookup t fd auto_create => trivial
  | del t fd => trivial
  | create t =>
    intro fd hpc
    obtain ⟨hpos, hlt⟩ := (length_grow s fd).2 (hin fd hpc)
    rw [step, hpc] at hone
    have hnone : held s.events fd = [] := by
      rw [List.eq_nil_iff_forall_not_mem]
      intro ctx hctx
      have hsame : ctx = s.made := by
        refine hone.same fd ctx ?_ s.made ?_ <;> rw [held_make, if_pos rfl]
        · exact List.mem_append_left _ hctx
        · exact List.mem_append_right _ (List.mem_singleton_self _)
      have hless := h.2.fresh _ _ (h.2.stays fd ctx hctx)
      omega
    refine ⟨.inr hnone, fun fd' hshort hge => .inr ?_⟩
    rw [List.eq_nil_iff_forall_not_mem]
    intro ctx hctx
    by_cases heq : fd = fd'
    · rw [← heq, hnone] at hctx
      cases hctx
    · have hstays := hone.stays fd' ctx (by rw [held_make, if_neg heq]; exact hctx)
      rw [slot_make hpos hlt, if_neg fun hint => heq (Int32.toInt_inj.1 hint).symm, slot_grow,
        if_pos ⟨hshort, hpos, hge⟩] at hstays
      cases hstays

/-- **One context.** It is so in every state of a run exactly when each section of the run keeps to the condition. -/
theorem one_ctx_iff (ops : List Op) :
    (∀ pre, pre <+: ops → OneCtx (run step init pre)) ↔ Guarded step Keeps init ops :=
  states_good_iff inv_step (fun _ h => h.oneCtx) not_oneCtx_step inv_init ops

/-- two threads look the same descriptor up before one of them creates -/
def raced : List Op := [.lookup 0 5 true, .lookup 1 5 true, .create 0, .create 1]

/-- each of them returns a context of its own -/
theorem two_contexts :
    (∀ a ∈ (run step init raced).accesses, a.Inside) ∧ held (run step init raced).events 5 = [0, 1] ∧
      slot (run step init raced).datas 5 = some 1 ∧ ¬ OneCtx (run step init raced) := by
  refine ⟨by decide, by decide, by decide, fun h => ?_⟩
  exact absurd (h.same 5 0 (by decide) 1 (by decide)) (by decide)

/-! ## One thread -/

/-- the manager of one thread: `heap` has the contexts behind the numbers -/
structure Represents (heap : ℕ → FdCtx) (s : Sys) (m : FdManager) : Prop where
  datas : m.datas = s.datas.map (Option.map heap)
  small : s.datas.length < 2 ^ 31
  known : ∀ ctx, some ctx ∈ s.datas → ctx < s.made

section

variable {heap : ℕ → FdCtx} {s : Sys} {m : FdManager} (h : Represents heap s m)
include h

theorem Represents.intSize_eq : intSize s.datas.length = s.datas.length :=
  toSigned_of_fits (by omega) (by have hsmall := h.small; omega)

theorem Represents.get {fd : Int32} (hpos : 0 ≤ fd.toInt) :
    m.get fd.toInt.toNat = (slot s.datas fd.toInt).map heap := by
  rw [FdManager.get, h.datas, slot, if_pos hpos, List.getD_eq_getElem?_getD, List.getElem?_map,
    List.getD_eq_getElem?_getD]
  cases s.datas[fd.toInt.toNat]? <;> rfl

/-- growing appends empty slots -/
theorem Represents.grow_datas {fd : Int32} (hpos : 0 ≤ fd.toInt) :
    (s.grow fd).datas = s.datas ++ List.replicate
      (if s.datas.length ≤ fd.toInt.toNat then fd.toInt.toNat * 3 / 2 - s.datas.length else 0) none := by
  have hlen : 64 ≤ s.datas.length := by
    have hsize := m.size_ge
    rwa [h.datas, List.length_map] at hsize
  unfold Sys.grow
  rw [h.intSize_eq]
  by_cases hshort : (s.datas.length : ℤ) ≤ fd.toInt
  · rw [if_pos ⟨hshort, hpos⟩, if_pos (by omega)]
    dsimp only
    rw [resize, newSize, List.take_of_length_le (by omega)]
  · rw [if_neg fun hgrow => hshort hgrow.1, if_neg (by omega), List.replicate_zero, List.append_nil]

/-- the section of the write lock is `create` -/
theorem Represents.create (t : ℕ) {fd : Int32} (hpos : 0 ≤ fd.toInt) (hlt : newSize fd < 2 ^ 31) (ctx : FdCtx) :
    Represents (Function.update heap s.made ctx) (s.make t fd) (m.create fd.toInt.toNat ctx) := by
  have hgrow := h.grow_datas hpos
  have hmake : (s.make t fd).datas = (s.grow fd).datas.set fd.toInt.toNat (some s.made) := by
    rw [← grow_made s fd]
    exact if_pos hpos
  have hold : ∀ ctx', some ctx' ∈ (s.grow fd).datas → ctx' < s.made := by
    intro ctx' hmem
    rw [hgrow, List.mem_append] at hmem
    rcases hmem with hmem | hmem
    · exact h.known ctx' hmem
    · cases (List.mem_replicate.1 hmem).2
  refine ⟨?_, ?_, ?_⟩
  · -- the contexts of before keep their numbers
    have hsame : (s.grow fd).datas.map (Option.map (Function.update heap s.made ctx)) =
        (s.grow fd).datas.map (Option.map heap) := by
      refine List.map_congr_left fun o ho => ?_
      cases o with
      | none => rfl
      | some ctx' => exact congrArg some (Function.update_of_ne (Nat.ne_of_lt (hold ctx' ho)) _ _)
    have hvector : (s.grow fd).datas.map (Option.map heap) = m.datas ++ List.replicate
        (if m.datas.length ≤ fd.toInt.toNat then fd.toInt.toNat * 3 / 2 - m.datas.length else 0) none := by
      rw [hgrow, List.map_append, List.map_replicate, h.datas, List.length_map]
      rfl
    calc
      (m.create fd.toInt.toNat ctx).datas = ((s.grow fd).datas.map (Option.map heap)).set fd.toInt.toNat (some ctx) :=
        congrArg (List.set · fd.toInt.toNat (some ctx)) hvector.symm
      _ = ((s.grow fd).datas.map (Option.map (Function.update heap s.made ctx))).set fd.toInt.toNat (some ctx) := by
        rw [hsame]
      _ = ((s.grow fd).datas.set fd.toInt.toNat (some s.made)).map (Option.map (Function.update heap s.made ctx)) := by
        rw [List.map_set, Option.map_some, Function.update_self]
      _ = (s.make t fd).datas.map (Option.map (Function.update heap s.made ctx)) := by rw [hmake]
  · rw [hmake, List.length_set]
    unfold Sys.grow
    split_ifs
    · rw [length_resize]
      exact hlt
    · exact h.small
  · intro ctx' hctx
    change ctx' < (s.grow fd).made + 1
    rw [hmake] at hctx
    rw [grow_made]
    rcases List.mem_or_eq_of_mem_set hctx with hmem | hnew
    · exact (hold ctx' hmem).trans (Nat.lt_succ_self _)
    · cases hnew
      exact Nat.lt_succ_self _

/-- and del is `del` -/
theorem Represents.del (t : ℕ) {fd : Int32} (hpc : s.pc t = none) (hpos : 0 ≤ fd.toInt) :
    Represents heap (step s (.del t fd)) (m.del fd.toInt.toNat) := by
  have hlen : m.datas.length = s.datas.length := by rw [h.datas, List.length_map]
  rcases del_cases s t fd with ⟨hout, -⟩ | ⟨-, hshort, heq⟩ | ⟨-, hlt, heq⟩
  · exact absurd hpc hout
  · -- there is no such slot
    rw [h.intSize_eq] at hshort
    have hset : m.datas.set fd.toInt.toNat none = m.datas := List.set_eq_of_length_le (by omega)
    rw [heq]
    exact ⟨hset.trans h.datas, h.small, h.known⟩
  · rw [heq]
    have hstore : ((s.assign fd none).record (.deleted fd)).datas = s.datas.set fd.toInt.toNat none := if_pos hpos
    refine ⟨?_, ?_, ?_⟩
    · change m.datas.set fd.toInt.toNat none = _
      rw [hstore, h.datas, List.map_set]
      rfl
    · rw [hstore, List.length_set]
      exact h.small
    · intro ctx hctx
      rw [hstore] at hctx
      rcases List.mem_or_eq_of_mem_set hctx with hold | hnew
      · exact h.known ctx hold
      · cases hnew

end

end Sylar.Hook.FdTable

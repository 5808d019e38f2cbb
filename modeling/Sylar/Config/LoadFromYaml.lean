/-
`Config::LoadFromYaml` of config.cc: the flattening of a YAML tree and the updates of the registered variables.

A name that is not made of the allowed characters is only logged. The emission of a node that is no scalar is a
parameter; so are the types of the variables and their conversions.

Results:
- `ListAllMember_eq`: the members are the nodes in pre-order with their dotted paths, `dotted_cons` says what these are;
- `load_eq`: each variable has the conversion of the last node at its path whose text converts, or its old value;
- `load_permuted`: the order of the entries of a map shows in nothing but the texts of the nodes around it;
- `load_twice`: loading again changes nothing.
-/
import Sylar.Config.FromString
import Sylar.Config.Yaml

namespace Sylar.Config

open Sylar.Text
open Sylar.Yaml (Node Permuted)
open Sylar.ConfigVar (Listener fromString)

variable {σ : Type}

/-! ## Model -/

def dot : UInt8 := '.'.toUInt8

/-- the path of the entry `key` below `pre` -/
def below (pre key : Bytes) : Bytes := if pre = [] then key else pre ++ dot :: key

mutual

/-- the pairs that the source appends to `output` -/
def ListAllMember (pre : Bytes) : Node σ → List (Bytes × Node σ)
  | .null tag => [(pre, .null tag)]
  | .scalar tag text => [(pre, .scalar tag text)]
  | .seq tag items => [(pre, .seq tag items)]
  | .map tag entries => (pre, .map tag entries) :: ListAllEntries pre entries

/-- the loop over the entries of a map -/
def ListAllEntries (pre : Bytes) : List (Bytes × Node σ) → List (Bytes × Node σ)
  | [] => []
  | (key, n) :: entries => ListAllMember (below pre key) n ++ ListAllEntries pre entries

end

/-- the registered variables: their types, conversions and listeners -/
structure Registry where
  T : Bytes → Type
  registered : Bytes → Bool
  /-- `none` where the conversion throws -/
  fromStr : ∀ k, Bytes → Option (T k)
  /-- operator== -/
  eq : ∀ k, T k → T k → Bool
  cbs : ∀ k, List (Listener (T k))

/-- the values of the variables -/
abbrev Registry.Values (R : Registry) := ∀ k, R.T k

/-- the text that fromString gets -/
def text (emit : Node σ → Bytes) : Node σ → Bytes
  | .scalar _ s => s
  | n => emit n

/-- the loop body of LoadFromYaml -/
def loadMember (R : Registry) (emit : Node σ → Bytes) (vals : R.Values) (i : Bytes × Node σ) : R.Values :=
  let key := lower i.1
  if key = [] then vals
  else if R.registered key then
    Function.update vals key (fromString (R.fromStr key) (R.eq key) (R.cbs key) (vals key) (text emit i.2)).val
  else vals

def LoadFromYaml (R : Registry) (emit : Node σ → Bytes) (root : Node σ) (vals : R.Values) : R.Values :=
  (ListAllMember [] root).foldl (loadMember R emit) vals

/-! ## Nodes and their paths -/

mutual

/-- the nodes in pre-order, each with the keys on the way to it -/
def nodes (keys : List Bytes) : Node σ → List (List Bytes × Node σ)
  | .null tag => [(keys, .null tag)]
  | .scalar tag text => [(keys, .scalar tag text)]
  | .seq tag items => [(keys, .seq tag items)]
  | .map tag entries => (keys, .map tag entries) :: nodesOfEntries keys entries

def nodesOfEntries (keys : List Bytes) : List (Bytes × Node σ) → List (List Bytes × Node σ)
  | [] => []
  | (key, n) :: entries => nodes (keys ++ [key]) n ++ nodesOfEntries keys entries

end

/-- the keys joined by '.'; empty keys in front leave no dot -/
def dotted (keys : List Bytes) : Bytes := keys.foldl below []

theorem dotted_concat (keys : List Bytes) (key : Bytes) : dotted (keys ++ [key]) = below (dotted keys) key := by
  rw [dotted, List.foldl_append]
  rfl

theorem foldl_below {pre : Bytes} (hpre : pre ≠ []) (keys : List Bytes) :
    keys.foldl below pre = pre ++ keys.flatMap fun key => dot :: key := by
  induction keys generalizing pre with
  | nil => rw [List.foldl_nil, List.flatMap_nil, List.append_nil]
  | cons key keys ih =>
    have hbelow : below pre key = pre ++ dot :: key := if_neg hpre
    rw [List.foldl_cons, hbelow, ih (List.append_ne_nil_of_left_ne_nil hpre _), List.flatMap_cons, List.append_assoc]

/-- a path is the keys with a dot between each two of them, unless the first key is empty -/
theorem dotted_cons {key : Bytes} (hkey : key ≠ []) (keys : List Bytes) :
    dotted (key :: keys) = key ++ keys.flatMap fun key => dot :: key :=
  foldl_below hkey keys

mutual

/-- the members are the nodes in pre-order with their dotted paths -/
theorem ListAllMember_eq (keys : List Bytes) (n : Node σ) :
    ListAllMember (dotted keys) n = (nodes keys n).map fun x => (dotted x.1, x.2) := by
  match n with
  | .null tag => rfl
  | .scalar tag text => rfl
  | .seq tag items => rfl
  | .map tag entries =>
    rw [ListAllMember, nodes, List.map_cons, ListAllEntries_eq keys entries]

theorem ListAllEntries_eq (keys : List Bytes) (entries : List (Bytes × Node σ)) :
    ListAllEntries (dotted keys) entries = (nodesOfEntries keys entries).map fun x => (dotted x.1, x.2) := by
  match entries with
  | [] => rfl
  | (key, n) :: entries =>
    rw [ListAllEntries, nodesOfEntries, List.map_append, ← dotted_concat, ListAllMember_eq (keys ++ [key]) n,
      ListAllEntries_eq keys entries]

end

theorem nodesOfEntries_eq (keys : List Bytes) (entries : List (Bytes × Node σ)) :
    nodesOfEntries keys entries = entries.flatMap fun e => nodes (keys ++ [e.1]) e.2 := by
  induction entries with
  | nil => rfl
  | cons e entries ih =>
    rw [nodesOfEntries, ih]
    rfl

/-- another order of the entries leaves the keys on the way to the nodes, in another order -/
theorem perm_nodes {n n' : Node σ} (h : Permuted n n') (keys : List Bytes) :
    ((nodes keys n).map Prod.fst).Perm ((nodes keys n').map Prod.fst) := by
  induction h generalizing keys with
  | @entries tag es es' hes =>
    rw [nodes, nodes, nodesOfEntries_eq, nodesOfEntries_eq]
    exact ((hes.flatMap_right _).map Prod.fst).cons keys
  | item _ _ => exact List.Perm.refl _
  | @entry tag pre post key n n' _ ih =>
    simp only [nodes, nodesOfEntries_eq, List.flatMap_append, List.flatMap_cons, List.map_cons, List.map_append]
    exact (List.Perm.append_left _ ((ih _).append_right _)).cons keys

theorem perm_nodes_star {n n' : Node σ} (h : Relation.ReflTransGen Permuted n n') (keys : List Bytes) :
    ((nodes keys n).map Prod.fst).Perm ((nodes keys n').map Prod.fst) := by
  induction h with
  | refl => exact List.Perm.refl _
  | tail _ hstep ih => exact ih.trans (perm_nodes hstep keys)

/-! ## The updates -/

/-- operator== is equality, and the listeners return -/
structure Registry.Plain (R : Registry) : Prop where
  eq : ∀ k a b, R.eq k a b = true ↔ a = b
  cbs : ∀ k, ∀ cb ∈ R.cbs k, ∀ a b, cb a b = true

theorem val_fromString {R : Registry} (hR : R.Plain) (k : Bytes) (val : R.T k) (s : Bytes) :
    (fromString (R.fromStr k) (R.eq k) (R.cbs k) val s).val = (R.fromStr k s).getD val := by
  rw [fromString]
  cases R.fromStr k s with
  | none => rfl
  | some v =>
    simp only [ConfigVar.setValue, Option.getD_some]
    split_ifs with heq
    · exact ((hR.eq k v val).1 heq).symm
    · have hreturn : (ConfigVar.callFrom val v 0 (R.cbs k)).2 = true :=
        ConfigVar.callFrom_of_forall (fun cb hcb => hR.cbs k cb hcb val v) 0
      rcases hcalls : ConfigVar.callFrom val v 0 (R.cbs k) with ⟨calls, ok⟩
      rw [hcalls] at hreturn
      rw [show ok = true from hreturn]

/-- the conversions of a row of nodes for the variable `k` -/
def conversions (R : Registry) (emit : Node σ → Bytes) (k : Bytes) (members : List (Bytes × Node σ)) : List (R.T k) :=
  members.filterMap fun i => if lower i.1 = k then R.fromStr k (text emit i.2) else none

theorem loadMember_apply {R : Registry} (hR : R.Plain) (emit : Node σ → Bytes) (vals : R.Values) (i : Bytes × Node σ)
    (k : Bytes) : loadMember R emit vals i k =
      if lower i.1 = k ∧ k ≠ [] ∧ R.registered k = true then (R.fromStr k (text emit i.2)).getD (vals k)
      else vals k := by
  rw [loadMember]
  by_cases hk : lower i.1 = k
  · subst hk
    by_cases hempty : lower i.1 = []
    · rw [if_pos hempty, if_neg fun h => h.2.1 hempty]
    · rw [if_neg hempty]
      by_cases hreg : R.registered (lower i.1) = true
      · rw [if_pos hreg, Function.update_self, if_pos ⟨rfl, hempty, hreg⟩, val_fromString hR]
      · rw [if_neg hreg, if_neg fun h => hreg h.2.2]
  · have hnot : ¬ (lower i.1 = k ∧ k ≠ [] ∧ R.registered k = true) := fun h => hk h.1
    rw [if_neg hnot]
    split_ifs
    · rfl
    · exact Function.update_of_ne (Ne.symm hk) _ _
    · rfl

theorem foldl_loadMember {R : Registry} (hR : R.Plain) (emit : Node σ → Bytes) (members : List (Bytes × Node σ))
    (vals : R.Values) {k : Bytes} (hk : k ≠ []) (hreg : R.registered k = true) :
    members.foldl (loadMember R emit) vals k = (conversions R emit k members).getLast?.getD (vals k) := by
  induction members generalizing vals with
  | nil => rfl
  | cons i members ih =>
    rw [List.foldl_cons, ih, loadMember_apply hR, conversions, conversions, List.filterMap_cons]
    by_cases hi : lower i.1 = k
    · rw [if_pos ⟨hi, hk, hreg⟩, if_pos hi]
      cases R.fromStr k (text emit i.2) with
      | none => rfl
      | some v => rw [List.getLast?_cons, Option.getD_some, Option.getD_some]
    · rw [if_neg fun h => hi h.1, if_neg hi]

theorem foldl_loadMember_other {R : Registry} (hR : R.Plain) (emit : Node σ → Bytes) (members : List (Bytes × Node σ))
    (vals : R.Values) {k : Bytes} (hk : k = [] ∨ R.registered k = false) :
    members.foldl (loadMember R emit) vals k = vals k := by
  induction members generalizing vals with
  | nil => rfl
  | cons i members ih =>
    rw [List.foldl_cons, ih, loadMember_apply hR, if_neg]
    rintro ⟨-, hne, hreg⟩
    rcases hk with hk | hk
    · exact hne hk
    · rw [hk] at hreg
      cases hreg

/-! ## Two loads -/

theorem filterMap_eq_of_short {K N V : Type*} {a b : List (K × N)} {g : N → Option V}
    (hperm : (a.map Prod.fst).Perm (b.map Prod.fst)) (hshort : a.length ≤ 1)
    (hg : ∀ x ∈ a, ∀ x' ∈ b, x.1 = x'.1 → g x.2 = g x'.2) :
    (a.filterMap fun x => g x.2) = b.filterMap fun x => g x.2 := by
  have hlength : a.length = b.length := by simpa using hperm.length_eq
  match a, b with
  | [], [] => rfl
  | [x], [x'] =>
    have hkey : x.1 = x'.1 := List.singleton_perm_singleton.1 hperm
    rw [List.filterMap_cons, List.filterMap_cons, hg x List.mem_cons_self x' List.mem_cons_self hkey]
  | [], x :: b => cases hlength
  | [x], [] => cases hlength
  | [x], y :: z :: b => cases hlength
  | x :: y :: a, _ => simp at hshort

/-- with one node at most on each path, the order of the nodes does not matter -/
theorem filterMap_eq_of_perm {K N P V : Type*} [DecidableEq P] {path : K → P} {l l' : List (K × N)} (k : P)
    {g : N → Option V} (hperm : (l.map Prod.fst).Perm (l'.map Prod.fst)) (hnodup : (l.map fun x => path x.1).Nodup)
    (hg : ∀ x ∈ l, ∀ x' ∈ l', x.1 = x'.1 → path x.1 = k → g x.2 = g x'.2) :
    (l.filterMap fun x => if path x.1 = k then g x.2 else none) =
      l'.filterMap fun x => if path x.1 = k then g x.2 else none := by
  have hsplit : ∀ l : List (K × N), (l.filterMap fun x => if path x.1 = k then g x.2 else none) =
      (l.filter fun x => path x.1 = k).filterMap fun x => g x.2 := by
    intro l
    rw [List.filterMap_filter]
    congr 1
    funext x
    by_cases hx : path x.1 = k <;> simp [hx]
  have hfilter : ∀ l : List (K × N), (l.filter fun x => path x.1 = k).map Prod.fst =
      (l.map Prod.fst).filter fun x => path x = k := by
    intro l
    rw [List.filter_map]
    rfl
  have hshort : (l.filter fun x => path x.1 = k).length ≤ 1 := by
    have hall : ((l.filter fun x => path x.1 = k).map fun x => path x.1) =
        List.replicate (l.filter fun x => path x.1 = k).length k := by
      refine List.eq_replicate_iff.2 ⟨List.length_map _, fun y hy => ?_⟩
      obtain ⟨x, hx, rfl⟩ := List.mem_map.1 hy
      exact of_decide_eq_true (List.mem_filter.1 hx).2
    have hone : ((l.filter fun x => path x.1 = k).map fun x => path x.1).Nodup :=
      hnodup.sublist (List.filter_sublist.map _)
    rw [hall] at hone
    exact List.nodup_replicate.1 hone
  rw [hsplit, hsplit]
  refine filterMap_eq_of_short (by rw [hfilter, hfilter]; exact hperm.filter _) hshort fun x hx x' hx' hkey => ?_
  exact hg x (List.mem_of_mem_filter hx) x' (List.mem_of_mem_filter hx') hkey
    (of_decide_eq_true (List.mem_filter.1 hx).2)

/-! ## Main results -/

/-- what the nodes at the path `k` convert to, in pre-order -/
def candidates (R : Registry) (emit : Node σ → Bytes) (root : Node σ) (k : Bytes) : List (R.T k) :=
  (nodes [] root).filterMap fun x => if lower (dotted x.1) = k then R.fromStr k (text emit x.2) else none

theorem conversions_members (R : Registry) (emit : Node σ → Bytes) (root : Node σ) (k : Bytes) :
    conversions R emit k (ListAllMember [] root) = candidates R emit root k := by
  have hmembers : ListAllMember [] root = (nodes [] root).map fun x => (dotted x.1, x.2) := ListAllMember_eq [] root
  rw [conversions, hmembers, List.filterMap_map]
  rfl

theorem load_eq {R : Registry} (hR : R.Plain) (emit : Node σ → Bytes) (root : Node σ) (vals : R.Values) {k : Bytes}
    (hk : k ≠ []) (hreg : R.registered k = true) :
    LoadFromYaml R emit root vals k = (candidates R emit root k).getLast?.getD (vals k) := by
  rw [LoadFromYaml, foldl_loadMember hR emit _ vals hk hreg, conversions_members]

theorem load_eq_other {R : Registry} (hR : R.Plain) (emit : Node σ → Bytes) (root : Node σ) (vals : R.Values)
    {k : Bytes} (hk : k = [] ∨ R.registered k = false) : LoadFromYaml R emit root vals k = vals k :=
  foldl_loadMember_other hR emit _ vals hk

/-- two trees whose nodes convert alike give the same values -/
theorem load_congr {R : Registry} (hR : R.Plain) {emit : Node σ → Bytes} {root root' : Node σ} (vals : R.Values)
    (h : ∀ k, k ≠ [] → R.registered k = true → candidates R emit root' k = candidates R emit root k) :
    LoadFromYaml R emit root' vals = LoadFromYaml R emit root vals := by
  funext k
  by_cases hk : k = [] ∨ R.registered k = false
  · rw [load_eq_other hR emit root' vals hk, load_eq_other hR emit root vals hk]
  · obtain ⟨hne, hreg⟩ := not_or.1 hk
    rw [Bool.not_eq_false] at hreg
    rw [load_eq hR emit root' vals hne hreg, load_eq hR emit root vals hne hreg, h k hne hreg]

theorem load_permuted {R : Registry} (hR : R.Plain) {emit : Node σ → Bytes} {root root' : Node σ} (vals : R.Values)
    (hperm : Relation.ReflTransGen Permuted root root')
    (hnodup : ((nodes [] root).map fun x => lower (dotted x.1)).Nodup)
    (hsame : ∀ x ∈ nodes [] root, ∀ x' ∈ nodes [] root', x.1 = x'.1 → R.registered (lower (dotted x.1)) = true →
      R.fromStr (lower (dotted x.1)) (text emit x.2) = R.fromStr (lower (dotted x.1)) (text emit x'.2)) :
    LoadFromYaml R emit root' vals = LoadFromYaml R emit root vals := by
  refine load_congr hR vals fun k _ hreg => ?_
  refine (@filterMap_eq_of_perm _ _ _ (R.T k) _ (fun keys => lower (dotted keys)) _ _ k
    (fun n => R.fromStr k (text emit n)) (perm_nodes_star hperm []) hnodup fun x hx x' hx' hkeys hk => ?_).symm
  subst hk
  exact hsame x hx x' hx' hkeys hreg

theorem load_twice {R : Registry} (hR : R.Plain) (emit : Node σ → Bytes) (root : Node σ) (vals : R.Values) :
    LoadFromYaml R emit root (LoadFromYaml R emit root vals) = LoadFromYaml R emit root vals := by
  funext k
  by_cases hk : k = [] ∨ R.registered k = false
  · exact load_eq_other hR emit root _ hk
  · obtain ⟨hne, hreg⟩ := not_or.1 hk
    rw [Bool.not_eq_false] at hreg
    rw [load_eq hR emit root _ hne hreg, load_eq hR emit root vals hne hreg]
    cases (candidates R emit root k).getLast? with
    | none => rfl
    | some v => rfl

/-- what a load is meant to do -/
structure Loads (R : Registry) (emit : Node σ → Bytes) (root : Node σ) (vals : R.Values) : Prop where
  last : ∀ k, k ≠ [] → R.registered k = true →
    LoadFromYaml R emit root vals k = (candidates R emit root k).getLast?.getD (vals k)
  other : ∀ k, k = [] ∨ R.registered k = false → LoadFromYaml R emit root vals k = vals k
  permuted : ∀ root', Relation.ReflTransGen Permuted root root' →
    ((nodes [] root).map fun x => lower (dotted x.1)).Nodup →
    (∀ x ∈ nodes [] root, ∀ x' ∈ nodes [] root', x.1 = x'.1 → R.registered (lower (dotted x.1)) = true →
      R.fromStr (lower (dotted x.1)) (text emit x.2) = R.fromStr (lower (dotted x.1)) (text emit x'.2)) →
    LoadFromYaml R emit root' vals = LoadFromYaml R emit root vals
  twice : LoadFromYaml R emit root (LoadFromYaml R emit root vals) = LoadFromYaml R emit root vals

/-- **A load is last-write-wins, local, idempotent, and independent of the order of the entries as far as the texts of
the nodes are.** -/
theorem load_exact {R : Registry} (hR : R.Plain) (emit : Node σ → Bytes) (root : Node σ) (vals : R.Values) :
    Loads R emit root vals where
  last := fun _ hk hreg => load_eq hR emit root vals hk hreg
  other := fun _ hk => load_eq_other hR emit root vals hk
  permuted := fun _ hperm hnodup hsame => load_permuted hR vals hperm hnodup hsame
  twice := load_twice hR emit root vals

/-- string variables without listeners -/
def stringRegistry (names : List Bytes) : Registry where
  T := fun _ => Bytes
  registered := fun k => names.contains k
  fromStr := fun _ s => some s
  eq := fun _ a b => List.beq a b
  cbs := fun _ => []

/-- the emission of a map of scalars -/
def emitScalars : Node Unit → Bytes
  | .map _ entries => List.intercalate (bytes "\n") (entries.map fun e =>
      e.1 ++ bytes ": " ++ match e.2 with
        | .scalar _ s => s
        | _ => [])
  | _ => []

/-- the map a, with the entries x and y in this order and in the other -/
def rootXY : Node Unit :=
  .map () [(bytes "a", .map () [(bytes "x", .scalar () (bytes "1")), (bytes "y", .scalar () (bytes "2"))])]

def rootYX : Node Unit :=
  .map () [(bytes "a", .map () [(bytes "y", .scalar () (bytes "2")), (bytes "x", .scalar () (bytes "1"))])]

theorem plain_stringRegistry (names : List Bytes) : (stringRegistry names).Plain where
  eq := by
    intro k a b
    exact beq_iff_eq (α := Bytes)
  cbs := fun _ _ hcb => absurd hcb List.not_mem_nil

theorem load_exact_xy : Loads (stringRegistry [bytes "a"]) emitScalars rootXY fun _ => [] :=
  load_exact (plain_stringRegistry [bytes "a"]) emitScalars rootXY fun _ => []

/-- **A string variable takes the emitted text of its map, in the order of the entries; and one without a name takes
nothing.** -/
theorem load_shows_order : Permuted rootXY rootYX ∧
    ((nodes [] rootXY).map fun x => lower (dotted x.1)).Nodup ∧
    LoadFromYaml (stringRegistry [bytes "a"]) emitScalars rootXY (fun _ => []) (bytes "a") = bytes "x: 1\ny: 2" ∧
    LoadFromYaml (stringRegistry [bytes "a"]) emitScalars rootYX (fun _ => []) (bytes "a") = bytes "y: 2\nx: 1" ∧
    (candidates (stringRegistry [[]]) emitScalars (.scalar () (bytes "1")) []).getLast? = some (bytes "1") ∧
    LoadFromYaml (stringRegistry [[]]) emitScalars (.scalar () (bytes "1")) (fun _ => []) [] = [] := by
  refine ⟨?_, by decide, rfl, rfl, rfl, rfl⟩
  exact @Permuted.entry Unit () [] [] (bytes "a") _ _ (.entries (List.Perm.swap _ _ _))

end Sylar.Config

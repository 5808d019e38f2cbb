/-
`serialize_message` of util.cc, which `PBToJsonString` prints.

A message is the fields of its descriptor with what reflection returns of each: a singular field may be unset, a repeated
one is set when it has elements. The two tables of type cases, for singular and for repeated fields, convert the values
alike. `float` and `double` are bit patterns, and the conversion of the first to the second is a parameter.

The 64-bit integers are converted to the 32-bit types of JsonCpp, and an object without members is never made.

Results:
- `serializeRepeated_eq`: the appends of a repeated field are one access to its member;
- `fields_spec`: the loop adds a member for each set field, and leaves a value alone where none is set;
- `serialize_preserves_iff`: the messages that are serialized as what they are.
-/
import Sylar.Core.JsonValue

namespace Sylar.Protobuf

open Sylar.JsonValue
open Sylar.JsonValue.Value (member append member_member member_fresh append_null append_array)

/-! ## Model -/

/-- a value by its `cpp_type`; an enum value is its number -/
inductive Scalar where
  | int32 (v : Int32)
  | uint32 (v : UInt32)
  | int64 (v : Int64)
  | uint64 (v : UInt64)
  | float (bits : UInt32)
  | double (bits : UInt64)
  | bool (v : Bool)
  | enum (number : Int32)
  | string (v : Bytes)
deriving DecidableEq, Repr

/-- what reflection returns of a field -/
inductive Field (α : Type) where
  | singular (v : Option α)
  | repeated (vs : List α)

/-- a value of a field -/
inductive Item where
  | scalar (s : Scalar)
  | message (fields : List (Bytes × Field Item))

/-- the fields by name, in the order of the descriptor -/
abbrev Message := List (Bytes × Field Item)

section

variable (widen : UInt32 → UInt64)

/-- the XX macro, and the cases of enums and strings -/
def jsonScalar : Scalar → Value
  | .int32 v => .int v.toInt
  | .uint32 v => .uint v.toNat
  | .float bits => .real (widen bits)
  | .double bits => .real bits
  | .bool v => .boolean v
  | .int64 v => .int v.toInt32.toInt
  | .uint64 v => .uint v.toUInt32.toNat
  | .enum number => .int number.toInt
  | .string v => .string v

mutual

/-- the loop over the fields; what is not set is skipped -/
def serialize_message : Message → Value → Option Value
  | [], jnode => some jnode
  | (_, .singular none) :: fields, jnode => serialize_message fields jnode
  | (name, .singular (some v)) :: fields, jnode => do serialize_message fields (← serializeSingular name v jnode)
  | (name, .repeated vs) :: fields, jnode => do serialize_message fields (← serializeRepeated name vs jnode)

/-- the second switch -/
def serializeSingular (name : Bytes) : Item → Value → Option Value
  | .scalar s, jnode => member name (fun _ => some (jsonScalar widen s)) jnode
  | .message fields, jnode => member name (fun j => serialize_message fields j) jnode

/-- the loops of the first switch -/
def serializeRepeated (name : Bytes) : List Item → Value → Option Value
  | [], jnode => some jnode
  | v :: vs, jnode => do
    let vv ← element v
    serializeRepeated name vs (← member name (append vv) jnode)

/-- what is appended for an element; a message is serialized into a value of its own -/
def element : Item → Option Value
  | .scalar s => some (jsonScalar widen s)
  | .message fields => serialize_message fields .null

end

end

/-! ## What should come out -/

/-- HasField, and FieldSize for a repeated field -/
def Field.isSet {α : Type} : Field α → Bool
  | .singular v => v.isSome
  | .repeated vs => !vs.isEmpty

def setNames (fields : Message) : List Bytes := (fields.filter fun f => f.2.isSet).map Prod.fst

/-- the mathematical value of a JSON number -/
def number : Value → Option ℤ
  | .int n => some n
  | .uint n => some n
  | _ => none

section

variable (widen : UInt32 → UInt64)

/-- the same number, the same bytes -/
def SameValue (s : Scalar) (j : Value) : Prop :=
  match s with
  | .int32 v => number j = some v.toInt
  | .uint32 v => number j = some v.toNat
  | .int64 v => number j = some v.toInt
  | .uint64 v => number j = some v.toNat
  | .float bits => j = .real (widen bits)
  | .double bits => j = .real bits
  | .bool v => j = .boolean v
  | .enum n => number j = some n.toInt
  | .string v => j = .string v

mutual

/-- a message is an object with exactly the set fields -/
def Preserves : Item → Value → Prop
  | .scalar s, j => SameValue widen s j
  | .message fields, j =>
    ∃ ms, j = .object ms ∧ (ms.map Prod.fst).Perm (setNames fields) ∧ PreservesFields fields ms

/-- each set field is a member: a value, or an array of the elements in their order -/
def PreservesFields : Message → Members → Prop
  | [], _ => True
  | (_, .singular none) :: fields, ms => PreservesFields fields ms
  | (name, .singular (some v)) :: fields, ms =>
    (∃ j, (name, j) ∈ ms ∧ Preserves v j) ∧ PreservesFields fields ms
  | (name, .repeated vs) :: fields, ms =>
    (vs ≠ [] → ∃ js, (name, .array js) ∈ ms ∧ PreservesElements vs js) ∧ PreservesFields fields ms

def PreservesElements : List Item → List Value → Prop
  | [], js => js = []
  | v :: vs, js => ∃ j js', js = j :: js' ∧ Preserves v j ∧ PreservesElements vs js'

end

end

section

variable (P : Scalar → Prop) (Q : Message → Prop)

mutual

/-- every scalar in the tree satisfies `P`, and every message `Q` -/
def Everywhere : Item → Prop
  | .scalar s => P s
  | .message fields => Q fields ∧ EverywhereFields fields

def EverywhereFields : Message → Prop
  | [] => True
  | (_, .singular none) :: fields => EverywhereFields fields
  | (_, .singular (some v)) :: fields => Everywhere v ∧ EverywhereFields fields
  | (_, .repeated vs) :: fields => EverywhereElements vs ∧ EverywhereFields fields

def EverywhereElements : List Item → Prop
  | [] => True
  | v :: vs => Everywhere v ∧ EverywhereElements vs

end

end

/-- the 64-bit integers that have room in 32 bits -/
def Narrow : Scalar → Prop
  | .int64 v => -2 ^ 31 ≤ v.toInt ∧ v.toInt < 2 ^ 31
  | .uint64 v => v.toNat < 2 ^ 32
  | _ => True

/-- the fields of a descriptor have different names -/
def DistinctNames (fields : Message) : Prop := (fields.map Prod.fst).Nodup

/-! ## One value, one field -/

section

variable {widen : UInt32 → UInt64}

theorem sameValue_iff (s : Scalar) : SameValue widen s (jsonScalar widen s) ↔ Narrow s := by
  cases s with
  | int64 v =>
    have hfits := @Int.bmod_eq_of_le_mul_two v.toInt (2 ^ 32)
    have hlo := @Int.le_bmod v.toInt (2 ^ 32) (by norm_num)
    have hhi := @Int.bmod_lt v.toInt (2 ^ 32) (by norm_num)
    change some v.toInt32.toInt = some v.toInt ↔ -2 ^ 31 ≤ v.toInt ∧ v.toInt < 2 ^ 31
    rw [Option.some_inj, Int64.toInt_toInt32]
    omega
  | uint64 v =>
    change some ((v.toUInt32.toNat : ℕ) : ℤ) = some ((v.toNat : ℕ) : ℤ) ↔ v.toNat < 2 ^ 32
    rw [Option.some_inj, UInt64.toNat_toUInt32]
    omega
  | int32 v => exact iff_of_true rfl trivial
  | uint32 v => exact iff_of_true rfl trivial
  | float bits => exact iff_of_true rfl trivial
  | double bits => exact iff_of_true rfl trivial
  | bool v => exact iff_of_true rfl trivial
  | enum n => exact iff_of_true rfl trivial
  | string v => exact iff_of_true rfl trivial

/-- `append` of one value after the other -/
def appendAll (vs : List Value) (j : Value) : Option Value := vs.foldlM (fun j v => append v j) j

theorem appendAll_array (vs ws : List Value) : appendAll vs (.array ws) = some (.array (ws ++ vs)) := by
  induction vs generalizing ws with
  | nil => simp [appendAll]
  | cons v vs ih =>
    have hrest := ih (ws ++ [v])
    rw [List.append_assoc, List.singleton_append] at hrest
    rw [appendAll, List.foldlM_cons, append_array]
    exact hrest

theorem appendAll_null {vs : List Value} (hvs : vs ≠ []) : appendAll vs .null = some (.array vs) := by
  cases vs with
  | nil => exact absurd rfl hvs
  | cons v vs =>
    rw [appendAll, List.foldlM_cons, append_null]
    exact appendAll_array vs [v]

/-- the appends to one member are one access to it -/
theorem serializeRepeated_eq (name : Bytes) {vs : List Item} {js : List Value} (hjs : vs.mapM (element widen) = some js)
    (hvs : vs ≠ []) (j : Value) : serializeRepeated widen name vs j = member name (appendAll js) j := by
  induction vs generalizing js j with
  | nil => exact absurd rfl hvs
  | cons v vs ih =>
    rw [List.mapM_cons] at hjs
    obtain ⟨vv, hv, hrest⟩ := Option.bind_eq_some_iff.1 hjs
    obtain ⟨js', hjs', heq⟩ := Option.bind_eq_some_iff.1 hrest
    cases heq
    have hround : serializeRepeated widen name (v :: vs) j =
        (member name (append vv) j).bind (serializeRepeated widen name vs) := by
      rw [serializeRepeated, hv]
      rfl
    rw [hround]
    by_cases hnil : vs = []
    · subst hnil
      rw [List.mapM_nil] at hjs'
      cases hjs'
      have hone : serializeRepeated widen name [] = some := by
        funext j'
        rw [serializeRepeated]
      have happend : appendAll [vv] = append vv := by
        funext j'
        exact Option.bind_fun_some (append vv j')
      rw [hone, happend, Option.bind_fun_some]
    · have hloop : serializeRepeated widen name vs = member name (appendAll js') := by
        funext j'
        exact ih hjs' hnil j'
      rw [hloop, member_member]
      rfl

/-! ## The fields of a message -/

/-- no message in the tree is without set fields, and no integer is too wide -/
abbrev Fits : Item → Prop := Everywhere Narrow fun fields => setNames fields ≠ []

abbrev FitsFields : Message → Prop := EverywhereFields Narrow fun fields => setNames fields ≠ []

abbrev FitsElements : List Item → Prop := EverywhereElements Narrow fun fields => setNames fields ≠ []

/-- `new` is added to the members `ms` of `j`; a value that is not touched stays what it is -/
structure Adds (new ms : Members) (j j' : Value) : Prop where
  nothing : new = [] → j' = j
  members : new ≠ [] → ∃ ms', j' = .object ms' ∧ ms'.Perm (new ++ ms)

variable (widen) in
/-- the loop over `fields` makes the members `new` of the set fields, and these preserve them as far as they fit -/
structure Makes (fields : Message) (new : Members) : Prop where
  names : new.map Prod.fst = setNames fields
  adds : ∀ j ms, j.members = some ms → (∀ name ∈ fields.map Prod.fst, name ∉ ms.map Prod.fst) →
    ∃ j', serialize_message widen fields j = some j' ∧ Adds new ms j j'
  preserves : ∀ ms, (ms.map Prod.fst).Nodup → new ⊆ ms → (PreservesFields widen fields ms ↔ FitsFields fields)

theorem makes_nil : Makes widen [] [] := by
  refine ⟨rfl, fun j ms _ _ => ⟨j, by rw [serialize_message], fun _ => rfl, fun h => absurd rfl h⟩, fun ms _ _ => ?_⟩
  simp only [PreservesFields, FitsFields, EverywhereFields]

/-- a field that is not set is passed over -/
theorem Makes.skip {name : Bytes} {field : Field Item} {fields : Message} {new : Members} (h : Makes widen fields new)
    (hset : field.isSet = false)
    (hstep : ∀ j, serialize_message widen ((name, field) :: fields) j = serialize_message widen fields j)
    (hpres : ∀ ms, PreservesFields widen ((name, field) :: fields) ms ↔ PreservesFields widen fields ms)
    (hfits : FitsFields ((name, field) :: fields) ↔ FitsFields fields) : Makes widen ((name, field) :: fields) new := by
  refine ⟨?_, fun j ms hj hfresh => ?_, fun ms hnodup hsub => ?_⟩
  · rw [h.names, setNames, setNames, List.filter_cons_of_neg (by simp [hset])]
  · rw [hstep]
    exact h.adds j ms hj fun n hn => hfresh n (List.mem_cons_of_mem _ hn)
  · rw [hpres, hfits]
    exact h.preserves ms hnodup hsub

/-- a set field is one access to its name, which leaves the member `v` -/
theorem Makes.cons {name : Bytes} {field : Field Item} {fields : Message} {new : Members} {v : Value}
    {access : Value → Option Value} {R : Value → Prop} {F : Prop} (h : Makes widen fields new)
    (hname : name ∉ fields.map Prod.fst) (hset : field.isSet = true) (hv : access .null = some v)
    (hstep : ∀ j, serialize_message widen ((name, field) :: fields) j =
      (member name access j).bind (serialize_message widen fields))
    (hpres : ∀ ms, PreservesFields widen ((name, field) :: fields) ms ↔
      (∃ j, (name, j) ∈ ms ∧ R j) ∧ PreservesFields widen fields ms)
    (hfits : FitsFields ((name, field) :: fields) ↔ F ∧ FitsFields fields) (hR : R v ↔ F) :
    Makes widen ((name, field) :: fields) ((name, v) :: new) := by
  refine ⟨?_, fun j ms hj hfresh => ?_, fun ms hnodup hsub => ?_⟩
  · rw [List.map_cons, h.names, setNames, setNames, List.filter_cons_of_pos (by simp [hset]), List.map_cons]
  · obtain ⟨ms1, hmember, hperm1⟩ := member_fresh access hj (hfresh name List.mem_cons_self) hv
    have hnames : ∀ n ∈ fields.map Prod.fst, n ∉ ms1.map Prod.fst := by
      intro n hn hmem
      rcases List.mem_cons.1 ((hperm1.map Prod.fst).mem_iff.1 hmem) with rfl | hms
      · exact hname hn
      · exact hfresh n (List.mem_cons_of_mem _ hn) hms
    obtain ⟨j', hj', hadds⟩ := h.adds (.object ms1) ms1 rfl hnames
    refine ⟨j', by rw [hstep, hmember, Option.bind_some, hj'], fun hnil => absurd hnil (by simp), fun _ => ?_⟩
    by_cases hnew : new = []
    · subst hnew
      exact ⟨ms1, hadds.nothing rfl, hperm1⟩
    · obtain ⟨ms', hobject, hperm'⟩ := hadds.members hnew
      exact ⟨ms', hobject, (hperm'.trans (hperm1.append_left new)).trans List.perm_middle⟩
  · have hmem : (name, v) ∈ ms := hsub List.mem_cons_self
    have hfield : (∃ j, (name, j) ∈ ms ∧ R j) ↔ R v := by
      refine ⟨fun hex => ?_, fun hRv => ⟨v, hmem, hRv⟩⟩
      obtain ⟨j, hj, hRj⟩ := hex
      have hsame : (name, j) = (name, v) := List.inj_on_of_nodup_map hnodup hj hmem rfl
      cases hsame
      exact hRj
    rw [hpres, hfits, hfield, hR, h.preserves ms hnodup fun e he => hsub (List.mem_cons_of_mem _ he)]

/-! ## The whole message -/

/-- a message becomes an object unless it has no set field -/
theorem preserves_message_iff {fields : Message} {new : Members} (h : Makes widen fields new)
    (hdistinct : DistinctNames fields) : ∃ j, element widen (.message fields) = some j ∧
      (Preserves widen (.message fields) j ↔ Fits (.message fields)) := by
  obtain ⟨j, hj, hadds⟩ := h.adds .null [] rfl (by simp)
  refine ⟨j, by rw [element, hj], ?_⟩
  have hnames := h.names
  by_cases hnew : new = []
  · have hnull := hadds.nothing hnew
    have hunset : setNames fields = [] := by rw [← hnames, hnew, List.map_nil]
    refine iff_of_false (fun hpres => ?_) fun hfits => hfits.1 hunset
    obtain ⟨ms, hobject, _⟩ := hpres
    rw [hnull] at hobject
    cases hobject
  · obtain ⟨ms, hobject, hperm⟩ := hadds.members hnew
    rw [List.append_nil] at hperm
    have hset : setNames fields ≠ [] := by
      rw [← hnames]
      simpa using hnew
    have hperm' : (ms.map Prod.fst).Perm (setNames fields) := hnames ▸ hperm.map Prod.fst
    have hnodup : (setNames fields).Nodup := hdistinct.sublist (List.filter_sublist.map Prod.fst)
    have hkept := h.preserves ms (hperm'.nodup_iff.2 hnodup) hperm.symm.subset
    refine ⟨fun hpres => ?_, fun hfits => ?_⟩
    · obtain ⟨ms', hobject', _, hfields⟩ := hpres
      rw [hobject] at hobject'
      cases hobject'
      exact ⟨hset, hkept.1 hfields⟩
    · exact ⟨ms, hobject, hperm', hkept.2 hfits.2⟩

/-- the access that a set singular field makes -/
theorem serializeSingular_eq (name : Bytes) (v : Item) : ∃ access : Value → Option Value,
    access .null = element widen v ∧ ∀ j, serializeSingular widen name v j = member name access j := by
  cases v with
  | scalar s => exact ⟨fun _ => some (jsonScalar widen s), by rw [element], fun j => by rw [serializeSingular]⟩
  | message fields =>
    exact ⟨fun j => serialize_message widen fields j, by rw [element], fun j => by rw [serializeSingular]⟩

theorem Makes.singular {name : Bytes} {v : Item} {fields : Message} {new : Members} (h : Makes widen fields new)
    (hname : name ∉ fields.map Prod.fst) {j : Value} (hj : element widen v = some j)
    (hpres : Preserves widen v j ↔ Fits v) : Makes widen ((name, .singular (some v)) :: fields) ((name, j) :: new) := by
  obtain ⟨access, hnull, haccess⟩ := @serializeSingular_eq widen name v
  refine h.cons hname rfl (hnull.trans hj) (fun j' => ?_) (fun ms => ?_) ?_ hpres
  · rw [← haccess, serialize_message]
    rfl
  · rw [PreservesFields]
  · rw [FitsFields, EverywhereFields]

theorem Makes.repeated {name : Bytes} {vs : List Item} {fields : Message} {new : Members} (h : Makes widen fields new)
    (hname : name ∉ fields.map Prod.fst) (hvs : vs ≠ []) {js : List Value} (hjs : vs.mapM (element widen) = some js)
    (hlen : js ≠ []) (hpres : PreservesElements widen vs js ↔ FitsElements vs) :
    Makes widen ((name, .repeated vs) :: fields) ((name, .array js) :: new) := by
  have hset : (Field.repeated vs).isSet = true := by
    cases vs with
    | nil => exact absurd rfl hvs
    | cons v vs => rfl
  refine @Makes.cons widen name _ fields new _ (appendAll js)
    (fun j => ∃ js', j = .array js' ∧ PreservesElements widen vs js') (FitsElements vs) h hname hset (appendAll_null hlen)
    (fun j => ?_) (fun ms => ?_) ?_ ?_
  · rw [← serializeRepeated_eq name hjs hvs, serialize_message]
    rfl
  · rw [PreservesFields]
    refine and_congr_left fun _ => ?_
    refine ⟨fun hex => ?_, fun hex _ => ?_⟩
    · obtain ⟨js', hmem, hp⟩ := hex hvs
      exact ⟨.array js', hmem, js', rfl, hp⟩
    · obtain ⟨_, hmem, js', rfl, hp⟩ := hex
      exact ⟨js', hmem, hp⟩
  · rw [FitsFields, EverywhereFields]
  · rw [← hpres]
    refine ⟨fun hex => ?_, fun hp => ⟨js, rfl, hp⟩⟩
    obtain ⟨js', heq, hp⟩ := hex
    cases heq
    exact hp

/-- the descriptors in the tree give their fields different names -/
abbrev Distinct : Item → Prop := Everywhere (fun _ => True) DistinctNames

mutual

theorem element_spec (v : Item) (hd : Distinct v) :
    ∃ j, element widen v = some j ∧ (Preserves widen v j ↔ Fits v) := by
  match v with
  | .scalar s => exact ⟨jsonScalar widen s, by rw [element], sameValue_iff s⟩
  | .message fields =>
    obtain ⟨new, hmakes⟩ := fields_spec fields hd.2 hd.1
    exact preserves_message_iff hmakes hd.1

theorem elements_spec (vs : List Item) (hd : EverywhereElements (fun _ => True) DistinctNames vs) :
    ∃ js, vs.mapM (element widen) = some js ∧ (js = [] → vs = []) ∧ (PreservesElements widen vs js ↔ FitsElements vs) := by
  match vs with
  | [] => exact ⟨[], rfl, fun _ => rfl, iff_of_true rfl trivial⟩
  | v :: vs =>
    obtain ⟨j, hj, hpres⟩ := element_spec v hd.1
    obtain ⟨js, hjs, _, hpress⟩ := elements_spec vs hd.2
    refine ⟨j :: js, by rw [List.mapM_cons, hj, hjs]; rfl, fun h => absurd h (by simp), ?_⟩
    refine ⟨fun h => ?_, fun h => ⟨j, js, rfl, hpres.2 h.1, hpress.2 h.2⟩⟩
    obtain ⟨j', js', heq, h1, h2⟩ := h
    cases heq
    exact ⟨hpres.1 h1, hpress.1 h2⟩

theorem fields_spec (fields : Message) (hd : EverywhereFields (fun _ => True) DistinctNames fields)
    (hdistinct : DistinctNames fields) : ∃ new, Makes widen fields new := by
  match fields with
  | [] => exact ⟨[], makes_nil⟩
  | (name, .singular none) :: fields =>
    obtain ⟨_, hrest⟩ := List.nodup_cons.1 hdistinct
    obtain ⟨new, hmakes⟩ := fields_spec fields hd hrest
    exact ⟨new, hmakes.skip rfl (fun j => by rw [serialize_message]) (fun ms => by rw [PreservesFields])
      (by rw [FitsFields, EverywhereFields])⟩
  | (name, .singular (some v)) :: fields =>
    obtain ⟨hname, hrest⟩ := List.nodup_cons.1 hdistinct
    obtain ⟨new, hmakes⟩ := fields_spec fields hd.2 hrest
    obtain ⟨j, hj, hpres⟩ := element_spec v hd.1
    exact ⟨_, hmakes.singular hname hj hpres⟩
  | (name, .repeated []) :: fields =>
    obtain ⟨_, hrest⟩ := List.nodup_cons.1 hdistinct
    obtain ⟨new, hmakes⟩ := fields_spec fields hd.2 hrest
    refine ⟨new, hmakes.skip rfl (fun j => ?_) (fun ms => ?_) ?_⟩
    · rw [serialize_message, serializeRepeated]
      rfl
    · rw [PreservesFields]
      exact and_iff_right fun h => absurd rfl h
    · rw [FitsFields, EverywhereFields]
      exact and_iff_right trivial
  | (name, .repeated (v :: vs)) :: fields =>
    obtain ⟨hname, hrest⟩ := List.nodup_cons.1 hdistinct
    obtain ⟨new, hmakes⟩ := fields_spec fields hd.2 hrest
    obtain ⟨js, hjs, hnil, hpres⟩ := elements_spec (v :: vs) hd.1
    exact ⟨_, hmakes.repeated hname (by simp) hjs (fun h => absurd (hnil h) (by simp)) hpres⟩

end

/-- **What is serialized faithfully.** The result preserves a message exactly when every 64-bit integer in the tree fits
into 32 bits and no message in the tree is without set fields. -/
theorem serialize_preserves_iff (widen : UInt32 → UInt64) (message : Message) (hd : Distinct (.message message)) :
    ∃ jnode, serialize_message widen message .null = some jnode ∧
      (Preserves widen (.message message) jnode ↔ Fits (.message message)) := by
  obtain ⟨jnode, hj, hpres⟩ := @element_spec widen (.message message) hd
  rw [element] at hj
  exact ⟨jnode, hj, hpres⟩

/-- an integer below 2^31 in a repeated field, next to a message -/
def small : Message :=
  [([97], .repeated [.scalar (.int64 7)]),
    ([98], .singular (some (.message [([99], .singular (some (.scalar (.bool true))))])))]

theorem serialize_preserves_small : ∃ jnode, serialize_message (fun _ => 0) small .null = some jnode ∧
    (Preserves (fun _ => 0) (.message small) jnode ↔ Fits (.message small)) := by
  refine serialize_preserves_iff (fun _ => 0) small ?_
  simp [small, Distinct, Everywhere, EverywhereFields, EverywhereElements, DistinctNames]

/-- `int64 a = 2^32` becomes 0, and a message without set fields becomes null -/
theorem serialize_truncates :
    serialize_message (fun _ => 0) [([97], .singular (some (.scalar (.int64 4294967296))))] .null =
        some (.object [([97], .int 0)]) ∧
      ¬ Preserves (fun _ => 0) (.message [([97], .singular (some (.scalar (.int64 4294967296))))])
        (.object [([97], .int 0)]) ∧
      serialize_message (fun _ => 0) [] .null = some .null ∧ ¬ Preserves (fun _ => 0) (.message []) .null := by
  refine ⟨?_, fun h => ?_, ?_, fun h => ?_⟩
  · rw [serialize_message, serializeSingular]
    rfl
  · obtain ⟨ms, hobject, _, hfields⟩ := h
    cases hobject
    rw [PreservesFields] at hfields
    obtain ⟨⟨j, hmem, hsame⟩, _⟩ := hfields
    rw [List.mem_singleton] at hmem
    cases hmem
    rw [Preserves] at hsame
    have hzero : number (.int 0) = some 4294967296 := hsame
    exact absurd hzero (by decide)
  · rw [serialize_message]
  · obtain ⟨ms, hobject, _⟩ := h
    cases hobject

end

end Sylar.Protobuf

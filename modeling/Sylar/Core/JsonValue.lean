/-
Values as JsonCpp holds them. An object is a `std::map`: its members are in the order of their names.

A default value is null, and becomes an array or an object by the first access as one. An access that throws is `none`.

Results: `member_member` (an access after an access to one name), `member_fresh` (an access to a new name), `append_null`
and `append_array`.
-/
import Sylar.Core.OrderedMap
import Sylar.Core.Text

namespace Sylar.JsonValue

open Sylar.OrderedMap

inductive Value where
  | null
  | int (n : ℤ)
  | uint (n : ℕ)
  /-- the bits of a double -/
  | real (bits : UInt64)
  | boolean (b : Bool)
  | string (s : Bytes)
  | array (items : List Value)
  | object (members : List (Bytes × Value))

abbrev Members := List (Bytes × Value)

namespace Value

/-- the members of an object -/
def members : Value → Option Members
  | null => some []
  | object ms => some ms
  | _ => none

/-- the elements of an array -/
def items : Value → Option (List Value)
  | null => some []
  | array vs => some vs
  | _ => none

/-- `j[name]`, null where it is new, handed to `f` by reference -/
def member (name : Bytes) (f : Value → Option Value) (j : Value) : Option Value := do
  let ms ← j.members
  let v ← f (((findEntry id name ms).map Prod.snd).getD null)
  return object (put id name v (fun _ => v) ms)

/-- `j.append(v)` -/
def append (v j : Value) : Option Value := j.items.map fun vs => array (vs ++ [v])

/-- `asString()`; the text of a double is a parameter -/
def asString (realText : UInt64 → Bytes) : Value → Option Bytes
  | null => some []
  | string s => some s
  | boolean b => some (Text.bytes (if b then "true" else "false"))
  | int n => some (if n < 0 then '-'.toUInt8 :: Text.decimal n.natAbs else Text.decimal n.natAbs)
  | uint n => some (Text.decimal n)
  | real bits => some (realText bits)
  | array _ | object _ => none

@[simp] theorem append_null (v : Value) : append v null = some (array [v]) := rfl

@[simp] theorem append_array (v : Value) (vs : List Value) : append v (array vs) = some (array (vs ++ [v])) := rfl

/-- a second access to a name gets what the first one left there -/
theorem member_member (name : Bytes) (f g : Value → Option Value) (j : Value) :
    (member name f j).bind (member name g) = member name (fun v => (f v).bind g) j := by
  simp only [member, Option.bind_eq_bind, Option.bind_assoc]
  refine Option.bind_congr fun ms _ => Option.bind_congr fun v _ => ?_
  change (g (((findEntry id name (put id name v (fun _ => v) ms)).map Prod.snd).getD null)).bind (fun w =>
    some (object (put id name w (fun _ => w) (put id name v (fun _ => v) ms)))) = _
  rw [findEntry_put_self, Option.getD_some]
  simp only [put_put]
  rfl

/-- an access to a new name gets null, and adds one member -/
theorem member_fresh {name : Bytes} (f : Value → Option Value) {j : Value} {ms : Members} (hj : j.members = some ms)
    (hnew : name ∉ ms.map Prod.fst) {v : Value} (hf : f null = some v) :
    ∃ ms', member name f j = some (object ms') ∧ ms'.Perm ((name, v) :: ms) := by
  have hne : ∀ e ∈ ms, e.1 ≠ name := fun e he heq => hnew (List.mem_map.2 ⟨e, he, heq⟩)
  have hfind : findEntry id name ms = none := findEntry_eq_none.2 hne
  refine ⟨put id name v (fun _ => v) ms, ?_, perm_put v _ fun e he => ?_⟩
  · simp only [member, hj, hfind, Option.bind_eq_bind, Option.bind_some, Option.map_none, Option.getD_none, hf]
    rfl
  · by_contra hcon
    exact hne e he (equiv_iff.1 (not_or.1 hcon))

end Value

end Sylar.JsonValue

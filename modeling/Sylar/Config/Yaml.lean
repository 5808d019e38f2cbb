/-
YAML trees as yaml-cpp holds them: null, scalars, sequences and maps with scalar keys, in the order of the text.

A `tag` stands for what else a node has and its emission may show, its tag and its style. The emission itself is a
parameter where it is needed. An access that throws is `none`.

Results:
- `lookup_setEntry`: what is assigned to a key is found there, and nothing else changes.
-/
import Sylar.Core.Text

namespace Sylar.Yaml

inductive Node (σ : Type) where
  | null (tag : σ)
  | scalar (tag : σ) (text : Bytes)
  | seq (tag : σ) (items : List (Node σ))
  | map (tag : σ) (entries : List (Bytes × Node σ))

variable {σ : Type}

/-- one map of the tree with its entries in another order -/
inductive Permuted : Node σ → Node σ → Prop where
  | entries {tag : σ} {es es' : List (Bytes × Node σ)} : es.Perm es' → Permuted (.map tag es) (.map tag es')
  | item {tag : σ} {pre post : List (Node σ)} {n n' : Node σ} : Permuted n n' →
    Permuted (.seq tag (pre ++ n :: post)) (.seq tag (pre ++ n' :: post))
  | entry {tag : σ} {pre post : List (Bytes × Node σ)} {key : Bytes} {n n' : Node σ} : Permuted n n' →
    Permuted (.map tag (pre ++ (key, n) :: post)) (.map tag (pre ++ (key, n') :: post))

/-! ## Reading -/

abbrev Entries (σ : Type) := List (Bytes × Node σ)

def lookup (key : Bytes) (es : Entries σ) : Option (Node σ) := (es.find? fun e => e.1 = key).map Prod.snd

/-- `n[key]` for a key that is no number: undefined, or an exception for a scalar -/
def Node.get (n : Node σ) (key : Bytes) : Option (Option (Node σ)) :=
  match n with
  | .map _ es => some (lookup key es)
  | .scalar _ _ => none
  | _ => some none

/-- `as<std::string>()` -/
def Node.asString : Node σ → Option Bytes
  | .scalar _ s => some s
  | _ => none

/-- `n[key].as<std::string>()` where it is defined -/
def Node.field (n : Node σ) (key : Bytes) : Option (Option Bytes) :=
  match n.get key with
  | none => none
  | some none => some none
  | some (some v) => v.asString.map some

/-- `n[0]` to `n[n.size() - 1]`; a map is indexed by its keys -/
def Node.elements : Node σ → List (Node σ)
  | .seq _ items => items
  | .map _ es => (List.range es.length).filterMap fun x => lookup (Text.decimal x) es
  | _ => []

/-! ## Building -/

/-- `n[key]` on the left of an assignment: `f` gets the node that is there -/
def setEntry (key : Bytes) (f : Option (Node σ) → Node σ) : Entries σ → Entries σ
  | [] => [(key, f none)]
  | e :: es => if e.1 = key then (key, f (some e.2)) :: es else e :: setEntry key f es

/-- `n[key] = s` -/
def setString (key s : Bytes) (es : Entries Unit) : Entries Unit := setEntry key (fun _ => .scalar () s) es

/-- `push_back` on a node that is a sequence or nothing yet -/
def push (n : Node Unit) : Option (Node Unit) → Node Unit
  | some (.seq tag items) => .seq tag (items ++ [n])
  | _ => .seq () [n]

/-- a node is null until its first key is assigned -/
def ofEntries : Entries Unit → Node Unit
  | [] => .null ()
  | es => .map () es

theorem lookup_nil (key : Bytes) : lookup key ([] : Entries σ) = none := rfl

theorem lookup_cons (key : Bytes) (e : Bytes × Node σ) (es : Entries σ) :
    lookup key (e :: es) = if e.1 = key then some e.2 else lookup key es := by
  rw [lookup, List.find?_cons]
  by_cases h : e.1 = key
  · rw [if_pos h, decide_eq_true h]
    rfl
  · rw [if_neg h, decide_eq_false h]
    rfl

/-- what is assigned to a key is found there, and nothing else changes -/
theorem lookup_setEntry (key key' : Bytes) (f : Option (Node σ) → Node σ) (es : Entries σ) :
    lookup key' (setEntry key f es) = if key' = key then some (f (lookup key es)) else lookup key' es := by
  induction es with
  | nil =>
    rw [setEntry, lookup_cons]
    by_cases h : key = key'
    · rw [if_pos h, if_pos h.symm]
      rfl
    · rw [if_neg h, if_neg (Ne.symm h)]
  | cons e es ih =>
    rw [setEntry]
    by_cases he : e.1 = key
    · rw [if_pos he, lookup_cons, lookup_cons, lookup_cons, if_pos he]
      by_cases h : key = key'
      · rw [if_pos h, if_pos h.symm]
      · rw [if_neg h, if_neg (Ne.symm h), if_neg fun h' => h (he.symm.trans h')]
    · rw [if_neg he, lookup_cons, lookup_cons, lookup_cons, if_neg he, ih]
      by_cases h' : e.1 = key'
      · rw [if_pos h', if_pos h', if_neg fun h => he (h'.trans h)]
      · rw [if_neg h', if_neg h']

theorem lookup_setString (key key' s : Bytes) (es : Entries Unit) :
    lookup key' (setString key s es) = if key' = key then some (.scalar () s) else lookup key' es :=
  lookup_setEntry key key' _ es

end Sylar.Yaml

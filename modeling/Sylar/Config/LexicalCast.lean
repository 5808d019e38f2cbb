/-
`LexicalCast` between the containers of config.h and texts, and `ConfigVar::toString` with it.

A container is written by loading the text of each element and putting the nodes together, and read by emitting each node
and casting its text. The parser and the emission of yaml-cpp are parameters; `none` is an exception. The casts of the
elements may be those of containers again.

An element comes through when the node of its text is read back as it.

Results:
- `readBack_vector`, `readBack_set`, `readBack_map`: where yaml-cpp reads back what it emits for the container, its text is
  read back as it exactly when all its elements come through;
- `cast_containers`: and then the container comes through in its turn;
- `fromString_toString`: a variable is left alone by its own text.
-/
import Sylar.Config.Yaml
import Sylar.Config.FromString
import Sylar.Core.OrderedMap
import Sylar.Core.OrderedSet

namespace Sylar.Config

open Sylar.Text Sylar.Yaml

attribute [local instance] lawfulOrder_bytes

/-! ## Model -/

/-- `emitUndefined` is the text of a node that is not there -/
structure YamlCpp where
  load : Bytes → Option (Node Unit)
  emit : Node Unit → Bytes
  emitUndefined : Bytes

/-- `LexicalCast<T, std::string>` and `LexicalCast<std::string, T>` -/
structure Cast (T : Type*) where
  toStr : T → Option Bytes
  ofStr : Bytes → Option T

section

variable (yaml : YamlCpp) {T : Type*} (cast : Cast T)

/-- `YAML::Load(LexicalCast<T, std::string>()(i))` -/
def elementNode (i : T) : Option (Node Unit) := (cast.toStr i).bind yaml.load

/-- the loop with `push_back`, from a node that is null -/
def pushAll (ns : List (Node Unit)) : Node Unit := (ns.foldl (fun node n => some (push n node)) none).getD (.null ())

/-- the texts of `node[0]` to `node[node.size() - 1]`; a map is indexed by its keys -/
def elementTexts : Node Unit → List Bytes
  | .seq _ items => items.map yaml.emit
  | .map _ es => (List.range es.length).map fun i => ((lookup (decimal i) es).map yaml.emit).getD yaml.emitUndefined
  | _ => []

/-- the node of a vector, a list or a set, by what its iterators go through -/
def sequenceNode (v : List T) : Option (Node Unit) := (v.mapM (elementNode yaml cast)).map pushAll

def readSequence (text : Bytes) : Option (List T) :=
  (yaml.load text).bind fun node => (elementTexts yaml node).mapM cast.ofStr

/-- `std::vector<T>` and `std::list<T>` -/
def vectorCast : Cast (List T) where
  toStr v := (sequenceNode yaml cast v).map yaml.emit
  ofStr text := readSequence yaml cast text

/-- `std::set<T>` -/
def setCast (r : T → T → Prop) [DecidableRel r] [IsStrictTotalOrder T r] : Cast (OrderedSet.SetOf r) where
  toStr v := (sequenceNode yaml cast v.1).map yaml.emit
  ofStr text := (readSequence yaml cast text).map (OrderedSet.SetOf.ofList r)

/-- `std::map<std::string, T>` -/
abbrev MapOf (T : Type*) := OrderedMap.Map Bytes T id

/-- the loop with `node[i.first] = ..` -/
def setAll (es : List (Bytes × Node Unit)) : Node Unit :=
  ofEntries (es.foldl (fun node e => setEntry e.1 (fun _ => e.2) node) [])

def mapNode (v : MapOf T) : Option (Node Unit) :=
  (v.entries.mapM fun i => (elementNode yaml cast i.2).map fun n => (i.1, n)).map setAll

/-- the entries of a map; an iterator over a sequence has no key, and `Scalar` throws -/
def mapEntries : Node Unit → Option (Entries Unit)
  | .map _ es => some es
  | .seq _ items => if items = [] then some [] else none
  | _ => some []

def mapCast : Cast (MapOf T) where
  toStr v := (mapNode yaml cast v).map yaml.emit
  ofStr text := (yaml.load text).bind fun node => (mapEntries node).bind fun es =>
    (es.mapM fun it => (cast.ofStr (yaml.emit it.2)).map fun i => (it.1, i)).map OrderedMap.Map.empty.insertAll

/-! ## What is read back -/

/-- what is read from the node that is written for an element -/
def through (i : T) : Option T := (elementNode yaml cast i).bind fun n => cast.ofStr (yaml.emit n)

/-- what is read from the text of a value -/
def readBack (i : T) : Option T := (cast.toStr i).bind cast.ofStr

theorem pushAll_eq (ns : List (Node Unit)) : pushAll ns = if ns = [] then .null () else .seq () ns := by
  have hseq : ∀ (ns front : List (Node Unit)),
      ns.foldl (fun node n => some (push n node)) (some (.seq () front)) = some (.seq () (front ++ ns)) := by
    intro ns
    induction ns with
    | nil => exact fun front => by rw [List.append_nil]; rfl
    | cons n ns ih =>
      intro front
      rw [List.foldl_cons, push, ih, List.append_assoc]
      rfl
  cases ns with
  | nil => rfl
  | cons n ns =>
    have hfirst : push n none = .seq () [n] := rfl
    rw [pushAll, List.foldl_cons, hfirst, hseq, if_neg (List.cons_ne_nil n ns)]
    rfl

theorem elementTexts_pushAll (ns : List (Node Unit)) : elementTexts yaml (pushAll ns) = ns.map yaml.emit := by
  rw [pushAll_eq]
  split_ifs with h
  · rw [h]
    rfl
  · rfl

/-- keys that differ stay in the order in which they are assigned -/
theorem setAll_eq {es : List (Bytes × Node Unit)} (hkeys : (es.map Prod.fst).Nodup) : setAll es = ofEntries es := by
  have hnew : ∀ (e : Bytes × Node Unit) (front : Entries Unit), e.1 ∉ front.map Prod.fst →
      setEntry e.1 (fun _ => e.2) front = front ++ [e] := by
    intro e front
    induction front with
    | nil => exact fun _ => rfl
    | cons f front ih =>
      intro hmem
      rw [List.map_cons, List.mem_cons, not_or] at hmem
      rw [setEntry, if_neg (Ne.symm hmem.1), ih hmem.2]
      rfl
  have hall : ∀ es front : Entries Unit, ((front ++ es).map Prod.fst).Nodup →
      es.foldl (fun node e => setEntry e.1 (fun _ => e.2) node) front = front ++ es := by
    intro es
    induction es with
    | nil => exact fun front _ => (List.append_nil front).symm
    | cons e es ih =>
      intro front hnodup
      have hsplit : front ++ e :: es = front ++ [e] ++ es := by rw [List.append_assoc]; rfl
      have hmem : e.1 ∉ front.map Prod.fst := by
        rw [List.map_append, List.map_cons] at hnodup
        exact fun hin => (List.disjoint_of_nodup_append hnodup) hin List.mem_cons_self
      rw [List.foldl_cons, hnew e front hmem, hsplit, ih _ (hsplit ▸ hnodup)]
  rw [setAll, hall es [] hkeys, List.nil_append]

/-- two passes over a list are one -/
theorem mapM_bind {U V : Type*} (f : T → Option U) (g : U → Option V) (l : List T) :
    (l.mapM f).bind (fun us => us.mapM g) = l.mapM fun i => (f i).bind g := by
  induction l with
  | nil => rfl
  | cons i l ih =>
    rw [List.mapM_cons, List.mapM_cons, ← ih]
    cases f i with
    | none => rfl
    | some u =>
      cases l.mapM f with
      | none => cases hg : g u <;> simp [hg]
      | some us => simp [List.mapM_cons]

theorem mapM_eq_self {f : T → Option T} {l : List T} : l.mapM f = some l ↔ ∀ i ∈ l, f i = some i := by
  induction l with
  | nil => simp
  | cons i l ih =>
    rw [List.forall_mem_cons, ← ih, List.mapM_cons]
    cases f i with
    | none => simp
    | some j => cases l.mapM f <;> simp

/-- elements are read one by one where yaml-cpp reads back what it emits for their container -/
theorem readSequence_written {v : List T} (hload : ∀ n ∈ sequenceNode yaml cast v, yaml.load (yaml.emit n) = some n) :
    ((sequenceNode yaml cast v).map yaml.emit).bind (readSequence yaml cast) = v.mapM (through yaml cast) := by
  have hthrough : v.mapM (through yaml cast) =
      (v.mapM (elementNode yaml cast)).bind fun ns => ns.mapM fun n => cast.ofStr (yaml.emit n) :=
    (mapM_bind _ _ v).symm
  rw [hthrough]
  rw [sequenceNode] at hload ⊢
  cases hnodes : v.mapM (elementNode yaml cast) with
  | none => rfl
  | some ns =>
    have hns := hload (pushAll ns) (by rw [hnodes]; rfl)
    rw [Option.map_some, Option.map_some, Option.bind_some, Option.bind_some, readSequence, hns, Option.bind_some,
      elementTexts_pushAll, List.mapM_map]
    rfl

/-- a pair keeps its key -/
def pairThrough (e : Bytes × T) : Option (Bytes × T) := (through yaml cast e.2).map fun i => (e.1, i)

theorem mapEntries_ofEntries (es : Entries Unit) : mapEntries (ofEntries es) = some es := by
  cases es <;> rfl

theorem nodup_keys {l : List (Bytes × T)} (h : OrderedMap.Sorted id l) : (l.map Prod.fst).Nodup := by
  have hlt : (l.map Prod.fst).Pairwise (· < ·) := List.pairwise_map.2 h
  refine List.Pairwise.imp (fun hab heq => ?_) hlt
  rw [heq] at hab
  exact Std.lt_irrefl hab

theorem keys_mapM {U V : Type*} {f : Bytes × U → Option V} {l : List (Bytes × U)} {l' : List (Bytes × V)}
    (h : l.mapM (fun e => (f e).map fun v => (e.1, v)) = some l') : l'.map Prod.fst = l.map Prod.fst := by
  induction l generalizing l' with
  | nil =>
    obtain rfl := Option.some.inj h
    rfl
  | cons e l ih =>
    rw [List.mapM_cons] at h
    obtain ⟨e', he, h⟩ := Option.bind_eq_some_iff.1 h
    obtain ⟨l'', hl, h⟩ := Option.bind_eq_some_iff.1 h
    obtain ⟨v, -, rfl⟩ := Option.map_eq_some_iff.1 he
    obtain rfl := Option.some.inj h
    rw [List.map_cons, List.map_cons, ih hl]

theorem readMap_written {m : MapOf T} (hload : ∀ n ∈ mapNode yaml cast m, yaml.load (yaml.emit n) = some n) :
    readBack (mapCast yaml cast) m = (m.entries.mapM (pairThrough yaml cast)).map OrderedMap.Map.empty.insertAll := by
  have hpairs : m.entries.mapM (pairThrough yaml cast) =
      (m.entries.mapM fun i => (elementNode yaml cast i.2).map fun n => (i.1, n)).bind fun es =>
        es.mapM fun it => (cast.ofStr (yaml.emit it.2)).map fun i => (it.1, i) := by
    rw [mapM_bind]
    congr 1
    funext e
    rw [pairThrough, through]
    cases elementNode yaml cast e.2 <;> rfl
  rw [readBack, hpairs]
  simp only [mapCast, mapNode] at hload ⊢
  cases hnodes : m.entries.mapM fun i => (elementNode yaml cast i.2).map fun n => (i.1, n) with
  | none => rfl
  | some es =>
    have hkeys : (es.map Prod.fst).Nodup := keys_mapM hnodes ▸ nodup_keys m.sorted
    have hes := hload (setAll es) (by rw [hnodes]; rfl)
    rw [setAll_eq hkeys] at hes
    simp only [Option.map_some, Option.bind_some, setAll_eq hkeys, hes, mapEntries_ofEntries]

/-! ## What comes back whole -/

/-- what is written for a container comes through exactly as its text is read back -/
theorem through_eq_readBack {i : T} {node : Option (Node Unit)} (hcast : cast.toStr i = node.map yaml.emit)
    (hload : ∀ n ∈ node, yaml.load (yaml.emit n) = some n) : through yaml cast i = readBack cast i := by
  rw [through, readBack, elementNode, hcast]
  cases node with
  | none => rfl
  | some n => rw [Option.map_some, Option.bind_some, Option.bind_some, hload n rfl, Option.bind_some]

theorem readBack_vector {v : List T} (hload : ∀ n ∈ sequenceNode yaml cast v, yaml.load (yaml.emit n) = some n) :
    readBack (vectorCast yaml cast) v = some v ↔ ∀ i ∈ v, through yaml cast i = some i := by
  have hread : readBack (vectorCast yaml cast) v = v.mapM (through yaml cast) := readSequence_written yaml cast hload
  rw [hread, mapM_eq_self]

theorem readBack_set (r : T → T → Prop) [DecidableRel r] [IsStrictTotalOrder T r] {v : OrderedSet.SetOf r}
    (hload : ∀ n ∈ sequenceNode yaml cast v.1, yaml.load (yaml.emit n) = some n) :
    readBack (setCast yaml cast r) v = some v ↔
      ∃ xs, v.1.mapM (through yaml cast) = some xs ∧ ∀ i, i ∈ xs ↔ i ∈ v.1 := by
  have hread : readBack (setCast yaml cast r) v = (v.1.mapM (through yaml cast)).map (OrderedSet.SetOf.ofList r) := by
    rw [← readSequence_written yaml cast hload, Option.map_bind]
    rfl
  rw [hread, Option.map_eq_some_iff]
  refine exists_congr fun xs => and_congr_right fun _ => ?_
  exact OrderedSet.SetOf.ofList_eq_iff

theorem readBack_map {m : MapOf T} (hload : ∀ n ∈ mapNode yaml cast m, yaml.load (yaml.emit n) = some n) :
    readBack (mapCast yaml cast) m = some m ↔ ∀ e ∈ m.entries, through yaml cast e.2 = some e.2 := by
  have hpair : ∀ e : Bytes × T, pairThrough yaml cast e = some e ↔ through yaml cast e.2 = some e.2 := by
    intro e
    rw [pairThrough]
    cases through yaml cast e.2 with
    | none => simp
    | some i => simp [Prod.ext_iff]
  simp only [← hpair, ← mapM_eq_self]
  rw [readMap_written yaml cast hload]
  cases hpairs : m.entries.mapM (pairThrough yaml cast) with
  | none => simp
  | some es =>
    -- the keys are those of the map, so nothing is dropped
    have hkeys : es.map Prod.fst = m.entries.map Prod.fst := keys_mapM hpairs
    have hsorted : OrderedMap.Sorted id es := by
      have hmap : (m.entries.map Prod.fst).Pairwise (· < ·) := List.pairwise_map.2 m.sorted
      rw [← hkeys] at hmap
      exact List.pairwise_map.1 hmap
    have hinsert := OrderedMap.Map.insertAll_entries (⟨es, hsorted⟩ : MapOf T)
    rw [Option.map_some, Option.some.injEq, Option.some.injEq, hinsert]
    exact ⟨fun h => congrArg OrderedMap.Map.entries h, fun h => by cases m; subst h; rfl⟩

/-- **A variable whose value is read back from its text is left alone by it**, and its listeners hear nothing. -/
theorem fromString_toString {eq : T → T → Bool} (heq : ∀ i, eq i i = true) (cbs : List (ConfigVar.Listener T)) {val : T}
    (hval : readBack cast val = some val) {text : Bytes} (htext : cast.toStr val = some text) :
    ConfigVar.fromString cast.ofStr eq cbs val text = ⟨false, val, []⟩ := by
  rw [readBack, htext, Option.bind_some] at hval
  rw [ConfigVar.fromString, hval]
  simp only [ConfigVar.setValue, heq, if_true]

end

/-- a parser that reads the texts of `["8.8.8.8", ""]` and its elements -/
def dnsYaml : YamlCpp where
  load text :=
    if text = bytes "8.8.8.8" then some (.scalar () text)
    else if text = [] then some (.null ())
    else if text = bytes "- 8.8.8.8\n- ~" then some (.seq () [.scalar () (bytes "8.8.8.8"), .null ()])
    else none
  emit
    | .scalar _ text => text
    | .null _ => bytes "~"
    | .seq _ _ => bytes "- 8.8.8.8\n- ~"
    | .map _ _ => []
  emitUndefined := []

/-- `boost::lexical_cast` between strings -/
def stringCast : Cast Bytes := ⟨some, some⟩

end Sylar.Config

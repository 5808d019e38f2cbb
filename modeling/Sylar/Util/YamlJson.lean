/-
`YamlToJson` and `JsonToYaml` of util.cc.

Both take their result by reference and start with a null value, which the first `append`, `push_back` or assignment to a
key turns into a sequence or a map; an exception makes them return false. `memberName()` is a C string, and the elements
of an array are counted by an `int`.

An empty sequence or map is never touched: it is null in JSON, and an empty scalar in YAML again.

Results:
- `seq_trips`, `map_trips`: what comes back of a sequence and of a map, from what comes back of the nodes in it;
- `round_trip_iff`: both conversions succeed on every tree, and which trees survive them.
-/
import Sylar.Core.JsonValue
import Sylar.Core.MachineInt
import Sylar.Config.Yaml

namespace Sylar.YamlJson

open Sylar.JsonValue
open Sylar.JsonValue.Value (append)
open Sylar.Text (cstr)
open Sylar.Yaml (Node setEntry push)

/-! ## Model -/

abbrev Entries := List (Bytes × Node Unit)

mutual

/-- `none` is false; the key of a map entry is a scalar -/
def YamlToJson : Node Unit → Value → Option Value
  | .scalar _ text, _ => some (.string text)
  | .seq _ items, jnode => appendItems items jnode
  | .map _ entries, jnode => assignEntries entries jnode
  | .null _, jnode => some jnode

/-- `for(size_t i = 0; i < ynode.size(); ++i)` -/
def appendItems : List (Node Unit) → Value → Option Value
  | [], jnode => some jnode
  | n :: items, jnode => do
    let v ← YamlToJson n .null
    appendItems items (← append v jnode)

/-- the loop over the entries, with `jnode[key] = v` -/
def assignEntries : Entries → Value → Option Value
  | [], jnode => some jnode
  | (key, n) :: entries, jnode => do
    let v ← YamlToJson n .null
    assignEntries entries (← Value.member key (fun _ => some v) jnode)

end

/-- `ynode.push_back(n)` -/
def pushBack (n : Node Unit) : Node Unit → Option (Node Unit)
  | .null _ => some (.seq () [n])
  | .seq _ items => some (.seq () (items ++ [n]))
  | _ => none

/-- `ynode[key] = n`, on the nodes of the loop: null at first, and then the map that it makes -/
def assignKey (key : Bytes) (n : Node Unit) : Node Unit → Option (Node Unit)
  | .null _ => some (.map () [(key, n)])
  | .map _ entries => some (.map () (setEntry key (fun _ => n) entries))
  | _ => none

/-- `(int)jnode.size()` -/
def intSize (vs : List Value) : ℤ := MachineInt.toSigned 32 vs.length

section

variable (realText : UInt64 → Bytes)

mutual

def JsonToYaml : Value → Node Unit → Option (Node Unit)
  | .array vs, ynode => pushItems (intSize vs).toNat vs ynode
  | .object ms, ynode => assignMembers ms ynode
  | j, _ => (j.asString realText).map (.scalar ())

/-- `for(int i = 0; i < (int)jnode.size(); ++i)`, with the rounds that are left -/
def pushItems : ℕ → List Value → Node Unit → Option (Node Unit)
  | 0, _, ynode => some ynode
  | _, [], ynode => some ynode
  | k + 1, v :: vs, ynode => do
    let n ← JsonToYaml v (.null ())
    pushItems k vs (← pushBack n ynode)

/-- the loop over the members; the name of one is a C string -/
def assignMembers : Members → Node Unit → Option (Node Unit)
  | [], ynode => some ynode
  | (name, v) :: ms, ynode => do
    let n ← JsonToYaml v (.null ())
    assignMembers ms (← assignKey (cstr name) n ynode)

end

end

/-! ## Trees -/

mutual

/-- scalars, sequences and maps with distinct keys -/
def Tree : Node Unit → Prop
  | .null _ => False
  | .scalar _ _ => True
  | .seq _ items => TreeItems items
  | .map _ entries => (entries.map Prod.fst).Nodup ∧ TreeEntries entries

def TreeItems : List (Node Unit) → Prop
  | [] => True
  | n :: items => Tree n ∧ TreeItems items

def TreeEntries : Entries → Prop
  | [] => True
  | (_, n) :: entries => Tree n ∧ TreeEntries entries

end

mutual

/-- the same tree up to the order of the entries of its maps -/
def Same : Node Unit → Node Unit → Prop
  | .null _, n' => n' = .null ()
  | .scalar _ text, n' => n' = .scalar () text
  | .seq _ items, n' => ∃ items', n' = .seq () items' ∧ SameItems items items'
  | .map _ entries, n' => ∃ entries' ordered, n' = .map () entries' ∧ ordered.Perm entries' ∧ SameEntries entries ordered

def SameItems : List (Node Unit) → List (Node Unit) → Prop
  | [], items' => items' = []
  | n :: items, items' => ∃ n' rest, items' = n' :: rest ∧ Same n n' ∧ SameItems items rest

def SameEntries : Entries → Entries → Prop
  | [], entries' => entries' = []
  | (key, n) :: entries, entries' => ∃ n' rest, entries' = (key, n') :: rest ∧ Same n n' ∧ SameEntries entries rest

end

mutual

/-- no sequence and no map is empty, no sequence is too long for an int, and no key has a NUL -/
def Plain : Node Unit → Prop
  | .null _ => False
  | .scalar _ _ => True
  | .seq _ items => items ≠ [] ∧ items.length < 2 ^ 31 ∧ PlainItems items
  | .map _ entries => entries ≠ [] ∧ (∀ e ∈ entries, 0 ∉ e.1) ∧ PlainEntries entries

def PlainItems : List (Node Unit) → Prop
  | [] => True
  | n :: items => Plain n ∧ PlainItems items

def PlainEntries : Entries → Prop
  | [] => True
  | (_, n) :: entries => Plain n ∧ PlainEntries entries

end

/-- the round trip of a tree -/
def Trips (realText : UInt64 → Bytes) (n n' : Node Unit) : Prop :=
  ∃ jnode, YamlToJson n .null = some jnode ∧ JsonToYaml realText jnode (.null ()) = some n'

/-! ## Sequences -/

section

variable {realText : UInt64 → Bytes}

/-- the conversions of a list, one after the other -/
theorem trips_split {items ns : List (Node Unit)} (h : List.Forall₂ (Trips realText) items ns) :
    ∃ vs, List.Forall₂ (fun n v => YamlToJson n .null = some v) items vs ∧
      List.Forall₂ (fun v n => JsonToYaml realText v (.null ()) = some n) vs ns := by
  induction h with
  | nil => exact ⟨[], .nil, .nil⟩
  | cons htrip _ ih =>
    obtain ⟨v, hv, hn⟩ := htrip
    obtain ⟨vs, hvs, hns⟩ := ih
    exact ⟨v :: vs, .cons hv hvs, .cons hn hns⟩

theorem appendItems_array {items : List (Node Unit)} {vs : List Value}
    (h : List.Forall₂ (fun n v => YamlToJson n .null = some v) items vs) (ws : List Value) :
    appendItems items (.array ws) = some (.array (ws ++ vs)) := by
  induction h generalizing ws with
  | nil => rw [appendItems, List.append_nil]
  | @cons n v items vs hv _ ih =>
    have hrest := ih (ws ++ [v])
    rw [List.append_assoc, List.singleton_append] at hrest
    rw [appendItems, hv]
    exact hrest

theorem appendItems_null {items : List (Node Unit)} {vs : List Value} (hne : items ≠ [])
    (h : List.Forall₂ (fun n v => YamlToJson n .null = some v) items vs) :
    appendItems items .null = some (.array vs) := by
  cases h with
  | nil => exact absurd rfl hne
  | @cons n v items vs hv hvs =>
    rw [appendItems, hv]
    exact appendItems_array hvs [v]

theorem pushItems_seq {vs : List Value} {ns : List (Node Unit)}
    (h : List.Forall₂ (fun v n => JsonToYaml realText v (.null ()) = some n) vs ns) (k : ℕ) (ms : List (Node Unit)) :
    pushItems realText k vs (.seq () ms) = some (.seq () (ms ++ ns.take k)) := by
  induction h generalizing k ms with
  | nil => cases k <;> simp [pushItems]
  | @cons v n vs ns hn _ ih =>
    cases k with
    | zero => simp [pushItems]
    | succ k =>
      have hrest := ih k (ms ++ [n])
      rw [List.append_assoc, List.singleton_append] at hrest
      rw [pushItems, hn, List.take_succ_cons]
      exact hrest

/-- a node that nothing is pushed to stays null -/
theorem pushItems_null {vs : List Value} {ns : List (Node Unit)}
    (h : List.Forall₂ (fun v n => JsonToYaml realText v (.null ()) = some n) vs ns) (k : ℕ) :
    pushItems realText k vs (.null ()) = some (if ns.take k = [] then .null () else .seq () (ns.take k)) := by
  cases h with
  | nil => cases k <;> simp [pushItems]
  | @cons v n vs ns hn hns =>
    cases k with
    | zero => simp [pushItems]
    | succ k =>
      rw [pushItems, hn, List.take_succ_cons, if_neg (by simp)]
      exact pushItems_seq hns k [n]

theorem sameItems_length {items items' : List (Node Unit)} (h : SameItems items items') :
    items'.length = items.length := by
  induction items generalizing items' with
  | nil => rw [show items' = [] from h]
  | cons n items ih =>
    obtain ⟨n', rest, rfl, _, hrest⟩ := h
    rw [List.length_cons, List.length_cons, ih hrest]

/-- the count of an int reaches a length below 2^31, and no longer one -/
theorem intSize_spec (vs : List Value) : (vs.length < 2 ^ 31 → (intSize vs).toNat = vs.length) ∧
    (2 ^ 31 ≤ vs.length → (intSize vs).toNat < vs.length) := by
  have hbounds := MachineInt.toSigned_bounds (show 0 < 32 by norm_num) vs.length
  refine ⟨fun h => ?_, fun h => ?_⟩
  · rw [intSize, MachineInt.toSigned_of_fits (by omega) (by omega), Int.toNat_natCast]
  · rw [intSize]
    omega

theorem seq_trips {items ns : List (Node Unit)} (h : List.Forall₂ (Trips realText) items ns)
    (hsame : SameItems items ns ↔ PlainItems items) :
    ∃ n', Trips realText (.seq () items) n' ∧ (Same (.seq () items) n' ↔ Plain (.seq () items)) := by
  obtain ⟨vs, hvs, hns⟩ := trips_split h
  by_cases hne : items = []
  · -- null in JSON, and an empty scalar again
    subst hne
    refine ⟨.scalar () [], ⟨.null, by rw [YamlToJson, appendItems], by simp [JsonToYaml, Value.asString]⟩, ?_⟩
    refine iff_of_false (fun hs => ?_) fun hp => hp.1 rfl
    obtain ⟨_, heq, _⟩ := hs
    cases heq
  · have hlen : ns.length = items.length := h.length_eq.symm
    have hlen' : vs.length = items.length := hvs.length_eq.symm
    obtain ⟨hfits, hlong⟩ := intSize_spec vs
    generalize hk : (intSize vs).toNat = k at hfits hlong
    refine ⟨if ns.take k = [] then .null () else .seq () (ns.take k), ⟨.array vs, ?_, ?_⟩, ?_⟩
    · rw [YamlToJson, appendItems_null hne hvs]
    · rw [JsonToYaml, hk, pushItems_null hns]
    by_cases hint : items.length < 2 ^ 31
    · have htake : ns.take k = ns := List.take_of_length_le (by rw [hfits (by omega)]; omega)
      have hns' : ns ≠ [] := fun hnil => by
        rw [hnil, List.length_nil] at hlen
        exact hne (List.length_eq_zero_iff.1 hlen.symm)
      rw [htake, if_neg hns', Same, Plain]
      refine ⟨fun hs => ?_, fun hp => ⟨ns, rfl, hsame.2 hp.2.2⟩⟩
      obtain ⟨items', heq, hitems⟩ := hs
      cases heq
      exact ⟨hne, hint, hsame.1 hitems⟩
    · refine iff_of_false (fun hs => ?_) fun hp => hint hp.2.1
      obtain ⟨items', heq, hitems⟩ := hs
      have hlong' := hlong (by omega)
      split at heq
      · cases heq
      · cases heq
        have hsize := sameItems_length hitems
        rw [List.length_take] at hsize
        omega

/-! ## Maps -/

theorem trips_split_entries {entries entries' : Entries}
    (h : List.Forall₂ (fun e e' => e'.1 = e.1 ∧ Trips realText e.2 e'.2) entries entries') :
    ∃ ms : Members, List.Forall₂ (fun e m => m.1 = e.1 ∧ YamlToJson e.2 .null = some m.2) entries ms ∧
      List.Forall₂ (fun m e' => e'.1 = m.1 ∧ JsonToYaml realText m.2 (.null ()) = some e'.2) ms entries' := by
  induction h with
  | nil => exact ⟨[], .nil, .nil⟩
  | @cons e e' _ _ he _ ih =>
    obtain ⟨hkey, v, hv, hn⟩ := he
    obtain ⟨ms, hms, hns⟩ := ih
    exact ⟨(e.1, v) :: ms, .cons ⟨rfl, hv⟩ hms, .cons ⟨hkey, hn⟩ hns⟩

/-- distinct keys become members, each with its value, in the order of the map -/
theorem assignEntries_spec {entries : Entries} {new : Members}
    (h : List.Forall₂ (fun e m => m.1 = e.1 ∧ YamlToJson e.2 .null = some m.2) entries new) (hne : entries ≠ [])
    (hnodup : (entries.map Prod.fst).Nodup) {jnode : Value} {ms : Members} (hj : jnode.members = some ms)
    (hfresh : ∀ key ∈ entries.map Prod.fst, key ∉ ms.map Prod.fst) :
    ∃ ms', assignEntries entries jnode = some (.object ms') ∧ ms'.Perm (new ++ ms) := by
  induction h generalizing jnode ms with
  | nil => exact absurd rfl hne
  | @cons e m entries new hm hrest ih =>
    obtain ⟨key, n⟩ := e
    obtain ⟨name, v⟩ := m
    obtain ⟨rfl, hv⟩ := hm
    obtain ⟨hname, hnodup'⟩ := List.nodup_cons.1 hnodup
    obtain ⟨ms1, hmember, hperm1⟩ := Value.member_fresh (fun _ => some v) hj (hfresh _ List.mem_cons_self) rfl
    have hstep : assignEntries ((name, n) :: entries) jnode = assignEntries entries (.object ms1) := by
      rw [assignEntries, hv]
      exact congrArg (fun o : Option Value => o.bind (assignEntries entries)) hmember
    rw [hstep]
    by_cases hnil : entries = []
    · subst hnil
      cases hrest
      exact ⟨ms1, by rw [assignEntries], hperm1⟩
    · have hfresh' : ∀ key ∈ entries.map Prod.fst, key ∉ ms1.map Prod.fst := by
        intro key hkey hmem
        rcases List.mem_cons.1 ((hperm1.map Prod.fst).mem_iff.1 hmem) with rfl | hms
        · exact hname hkey
        · exact hfresh key (List.mem_cons_of_mem _ hkey) hms
      obtain ⟨ms', hms', hperm'⟩ := @ih hnil hnodup' (.object ms1) ms1 rfl hfresh'
      exact ⟨ms', hms', (hperm'.trans (hperm1.append_left new)).trans List.perm_middle⟩

/-- the assignments of a list of entries -/
def assignAll (entries acc : Entries) : Entries :=
  entries.foldl (fun acc e => setEntry (cstr e.1) (fun _ => e.2) acc) acc

theorem assignMembers_map {ms : Members} {entries : Entries}
    (h : List.Forall₂ (fun m e => e.1 = m.1 ∧ JsonToYaml realText m.2 (.null ()) = some e.2) ms entries) (acc : Entries) :
    assignMembers realText ms (.map () acc) = some (.map () (assignAll entries acc)) := by
  induction h generalizing acc with
  | nil => rw [assignMembers, assignAll, List.foldl_nil]
  | @cons m e ms entries he _ ih =>
    obtain ⟨name, v⟩ := m
    obtain ⟨key, n⟩ := e
    obtain ⟨rfl, hn⟩ := he
    rw [assignMembers, hn]
    exact ih (setEntry (cstr key) (fun _ => n) acc)

theorem assignMembers_null {ms : Members} {entries : Entries} (hne : ms ≠ [])
    (h : List.Forall₂ (fun m e => e.1 = m.1 ∧ JsonToYaml realText m.2 (.null ()) = some e.2) ms entries) :
    assignMembers realText ms (.null ()) = some (.map () (assignAll entries [])) := by
  cases h with
  | nil => exact absurd rfl hne
  | @cons m e ms entries he hrest =>
    obtain ⟨name, v⟩ := m
    obtain ⟨key, n⟩ := e
    obtain ⟨rfl, hn⟩ := he
    rw [assignMembers, hn]
    exact assignMembers_map hrest [(cstr key, n)]

theorem setEntry_fresh {key : Bytes} {acc : Entries} (hnew : key ∉ acc.map Prod.fst)
    (f : Option (Node Unit) → Node Unit) : setEntry key f acc = acc ++ [(key, f none)] := by
  induction acc with
  | nil => rfl
  | cons e acc ih =>
    rw [List.map_cons, List.mem_cons, not_or] at hnew
    rw [setEntry, if_neg (Ne.symm hnew.1), ih hnew.2, List.cons_append]

theorem mem_setEntry {key : Bytes} {f : Option (Node Unit) → Node Unit} {acc : Entries} {e : Bytes × Node Unit}
    (he : e ∈ setEntry key f acc) : e.1 = key ∨ e ∈ acc := by
  induction acc with
  | nil =>
    rw [setEntry, List.mem_singleton] at he
    exact Or.inl (by rw [he])
  | cons a acc ih =>
    rw [setEntry] at he
    split at he
    · rcases List.mem_cons.1 he with rfl | he'
      · exact Or.inl rfl
      · exact Or.inr (List.mem_cons_of_mem a he')
    · rcases List.mem_cons.1 he with rfl | he'
      · exact Or.inr List.mem_cons_self
      · exact (ih he').imp_right (List.mem_cons_of_mem a)

/-- C strings that are distinct stay the entries they are -/
theorem assignAll_eq {entries acc : Entries} (hnul : ∀ e ∈ entries, 0 ∉ e.1)
    (hnodup : ((acc ++ entries).map Prod.fst).Nodup) : assignAll entries acc = acc ++ entries := by
  induction entries generalizing acc with
  | nil => rw [assignAll, List.foldl_nil, List.append_nil]
  | cons e entries ih =>
    have hkey : cstr e.1 = e.1 := Text.cstr_of_no_nul (hnul e List.mem_cons_self)
    have hfresh : e.1 ∉ acc.map Prod.fst := by
      intro hmem
      rw [List.map_append, List.map_cons] at hnodup
      exact (List.nodup_append.1 hnodup).2.2 _ hmem _ List.mem_cons_self rfl
    have hrest := @ih (acc ++ [e]) (fun e' he' => hnul e' (List.mem_cons_of_mem e he'))
      (by rwa [List.append_assoc, List.singleton_append])
    rw [List.append_assoc, List.singleton_append] at hrest
    rw [assignAll, List.foldl_cons, hkey, setEntry_fresh hfresh]
    exact hrest

/-- no key of the result has a NUL -/
theorem notMem_assignAll {entries acc : Entries} (hacc : ∀ e ∈ acc, 0 ∉ e.1) :
    ∀ e ∈ assignAll entries acc, 0 ∉ e.1 := by
  induction entries generalizing acc with
  | nil => exact hacc
  | cons e entries ih =>
    refine ih fun e' he' => ?_
    rcases mem_setEntry he' with hkey | hmem
    · rw [hkey]
      exact Text.notMem_cstr e.1
    · exact hacc e' hmem

theorem sameEntries_keys {entries entries' : Entries} (h : SameEntries entries entries') :
    entries'.map Prod.fst = entries.map Prod.fst := by
  induction entries generalizing entries' with
  | nil => rw [show entries' = [] from h]
  | cons e entries ih =>
    obtain ⟨n', rest, rfl, _, hrest⟩ := h
    rw [List.map_cons, List.map_cons, ih hrest]

/-- entries with the same distinct keys in the same order are the same when they are so up to order -/
theorem eq_of_perm_of_keys {entries entries' : Entries} (hperm : entries.Perm entries')
    (hkeys : entries.map Prod.fst = entries'.map Prod.fst) (hnodup : (entries.map Prod.fst).Nodup) :
    entries = entries' := by
  have hlen := hperm.length_eq
  apply List.ext_getElem hlen
  intro i h1 h2
  have hmem : entries'[i] ∈ entries := hperm.symm.subset (List.getElem_mem h2)
  have hkey : (entries[i]).1 = (entries'[i]).1 := by
    have hi : (entries.map Prod.fst)[i]? = (entries'.map Prod.fst)[i]? := by rw [hkeys]
    simpa [h1, h2] using hi
  exact List.inj_on_of_nodup_map hnodup (List.getElem_mem h1) hmem hkey

theorem map_trips {entries entries' : Entries}
    (h : List.Forall₂ (fun e e' => e'.1 = e.1 ∧ Trips realText e.2 e'.2) entries entries')
    (hnodup : (entries.map Prod.fst).Nodup) (hsame : SameEntries entries entries' ↔ PlainEntries entries) :
    ∃ n', Trips realText (.map () entries) n' ∧ (Same (.map () entries) n' ↔ Plain (.map () entries)) := by
  obtain ⟨new, hnew, hback⟩ := trips_split_entries h
  by_cases hne : entries = []
  · -- null in JSON, and an empty scalar again
    subst hne
    refine ⟨.scalar () [], ⟨.null, by rw [YamlToJson, assignEntries], by simp [JsonToYaml, Value.asString]⟩, ?_⟩
    refine iff_of_false (fun hs => ?_) fun hp => hp.1 rfl
    obtain ⟨_, _, heq, _⟩ := hs
    cases heq
  · have hkeys : entries'.map Prod.fst = entries.map Prod.fst := by
      clear hsame hback hnew hne hnodup
      induction h with
      | nil => rfl
      | cons he _ ih => rw [List.map_cons, List.map_cons, he.1, ih]
    obtain ⟨ms, hms, hperm⟩ := assignEntries_spec hnew hne hnodup (show Value.null.members = some [] from rfl) (by simp)
    rw [List.append_nil] at hperm
    -- the members in the order of the map, converted back
    obtain ⟨ordered, hordered, hperm'⟩ := List.perm_comp_forall₂ hperm hback
    have hms' : ms ≠ [] := fun hnil => by
      have hlen := hperm.length_eq.trans hnew.length_eq.symm
      rw [hnil, List.length_nil] at hlen
      exact hne (List.length_eq_zero_iff.1 hlen.symm)
    refine ⟨_, ⟨.object ms, by rw [YamlToJson, hms], by rw [JsonToYaml, assignMembers_null hms' hordered]⟩, ?_⟩
    have hnodup' : (ordered.map Prod.fst).Nodup := by
      rw [(hperm'.map Prod.fst).nodup_iff, hkeys]
      exact hnodup
    by_cases hnul : ∀ e ∈ entries, 0 ∉ e.1
    · have hnul' : ∀ e ∈ ordered, 0 ∉ e.1 := by
        intro e he
        have hmem : e.1 ∈ entries.map Prod.fst := hkeys ▸ List.mem_map_of_mem (hperm'.subset he)
        obtain ⟨e0, he0, heq⟩ := List.mem_map.1 hmem
        exact heq ▸ hnul e0 he0
      rw [assignAll_eq hnul' (by simpa using hnodup'), List.nil_append, Same, Plain]
      constructor
      · intro hs
        obtain ⟨es', es, heq, hes, hentries⟩ := hs
        cases heq
        have hall : es = entries' := eq_of_perm_of_keys (hes.trans hperm')
          ((sameEntries_keys hentries).trans hkeys.symm) (by rw [sameEntries_keys hentries]; exact hnodup)
        exact ⟨hne, hnul, hsame.1 (hall ▸ hentries)⟩
      · exact fun hp => ⟨ordered, entries', rfl, hperm'.symm, hsame.2 hp.2.2⟩
    · -- a key with a NUL is cut, and missing
      refine iff_of_false (fun hs => hnul fun e he => ?_) fun hp => hnul hp.2.1
      obtain ⟨es', es, heq, hes, hentries⟩ := hs
      cases heq
      have hmem : e.1 ∈ es.map Prod.fst := by
        rw [sameEntries_keys hentries]
        exact List.mem_map_of_mem he
      obtain ⟨e', he', hkey⟩ := List.mem_map.1 hmem
      exact hkey ▸ notMem_assignAll (by simp) e' (hes.subset he')

/-! ## The round trip -/

mutual

theorem node_trips (n : Node Unit) (ht : Tree n) :
    ∃ n', Trips realText n n' ∧ (Same n n' ↔ Plain n) := by
  match n with
  | .null _ => exact absurd ht id
  | .scalar _ text =>
    refine ⟨.scalar () text, ⟨.string text, by rw [YamlToJson], by simp [JsonToYaml, Value.asString]⟩, ?_⟩
    exact iff_of_true rfl trivial
  | .seq _ items =>
    obtain ⟨ns, hns, hsame⟩ := items_trip items ht
    exact seq_trips hns hsame
  | .map _ entries =>
    obtain ⟨entries', hentries, hsame⟩ := entries_trip entries ht.2
    exact map_trips hentries ht.1 hsame

theorem items_trip (items : List (Node Unit)) (ht : TreeItems items) :
    ∃ ns, List.Forall₂ (Trips realText) items ns ∧ (SameItems items ns ↔ PlainItems items) := by
  match items with
  | [] => exact ⟨[], .nil, iff_of_true rfl trivial⟩
  | n :: items =>
    obtain ⟨n', htrip, hsame⟩ := node_trips n ht.1
    obtain ⟨ns, hns, hsames⟩ := items_trip items ht.2
    refine ⟨n' :: ns, .cons htrip hns, ?_⟩
    refine ⟨fun hs => ?_, fun hp => ⟨n', ns, rfl, hsame.2 hp.1, hsames.2 hp.2⟩⟩
    obtain ⟨_, _, heq, h1, h2⟩ := hs
    cases heq
    exact ⟨hsame.1 h1, hsames.1 h2⟩

theorem entries_trip (entries : Entries) (ht : TreeEntries entries) :
    ∃ entries', List.Forall₂ (fun e e' => e'.1 = e.1 ∧ Trips realText e.2 e'.2) entries entries' ∧
      (SameEntries entries entries' ↔ PlainEntries entries) := by
  match entries with
  | [] => exact ⟨[], .nil, iff_of_true rfl trivial⟩
  | (key, n) :: entries =>
    obtain ⟨n', htrip, hsame⟩ := node_trips n ht.1
    obtain ⟨entries', hentries, hsames⟩ := entries_trip entries ht.2
    refine ⟨(key, n') :: entries', .cons ⟨rfl, htrip⟩ hentries, ?_⟩
    refine ⟨fun hs => ?_, fun hp => ⟨n', entries', rfl, hsame.2 hp.1, hsames.2 hp.2⟩⟩
    obtain ⟨_, _, heq, h1, h2⟩ := hs
    cases heq
    exact ⟨hsame.1 h1, hsames.1 h2⟩

end

end

/-- **Which trees survive.** Both conversions succeed on every tree, and the result is the tree, up to the order of the
entries, exactly when it has no empty sequence or map, no sequence of 2^31 elements and no key with a NUL. -/
theorem round_trip_iff (realText : UInt64 → Bytes) (n : Node Unit) (ht : Tree n) :
    ∃ jnode n', YamlToJson n .null = some jnode ∧ JsonToYaml realText jnode (.null ()) = some n' ∧
      (Same n n' ↔ Plain n) := by
  obtain ⟨n', ⟨jnode, hto, hback⟩, hsame⟩ := @node_trips realText n ht
  exact ⟨jnode, n', hto, hback, hsame⟩

/-- a map with a sequence in it -/
def nested : Node Unit := .map () [([98], .seq () [.scalar () [49], .scalar () []]), ([97], .scalar () [50])]

theorem round_trip_nested : ∃ jnode n', YamlToJson nested .null = some jnode ∧
    JsonToYaml (fun _ => []) jnode (.null ()) = some n' ∧ (Same nested n' ↔ Plain nested) :=
  round_trip_iff (fun _ => []) nested ⟨by decide, ⟨trivial, trivial, trivial⟩, trivial, trivial⟩

/-- an empty sequence comes back as an empty scalar -/
theorem round_trip_empty : Tree (.seq () []) ∧ YamlToJson (.seq () []) .null = some .null ∧
    JsonToYaml (fun _ => []) .null (.null ()) = some (.scalar () []) ∧ ¬ Same (.seq () []) (.scalar () []) := by
  refine ⟨trivial, by rw [YamlToJson, appendItems], by simp [JsonToYaml, Value.asString], fun h => ?_⟩
  obtain ⟨_, heq, _⟩ := h
  cases heq

end Sylar.YamlJson

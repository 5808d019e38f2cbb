/-
Query strings that are built with UrlEncode and read back by getParam.

UrlEncode leaves '=' alone, so the parser takes a key up to its first '=' for the name and the rest of it for a part of
the value. And the parser decodes values only, so a name is stored as it was encoded. Both differ from the key unless
it consists of letters, digits and `- . _ ~`.

Results:
- `encodePair_eq`: where the parser cuts one pair; `PARSE_PARAM_join`: it inserts what it reads, pair by pair;
- `plain_of_stored`: a stored name equals its key only when the key is plain;
- `query_round_trip_iff`: for any pairs, the values are read back exactly when each is carried; for given keys, whatever
  the values, exactly when all keys are plain;
- `key_with_space_lost`: a key with a space.
-/
import Sylar.Http.Params

namespace Sylar.Http

open Sylar.Text Sylar.LazyMap Sylar.Run

/-! ## Building a query -/

def encodePair (p : Bytes × Bytes) : Bytes :=
  StringUtil.UrlEncode p.1 true ++ bytes "=" ++ StringUtil.UrlEncode p.2 true

/-- the pairs joined with '&' -/
def joinQuery : List (Bytes × Bytes) → Bytes
  | [] => []
  | [p] => encodePair p
  | p :: q :: pairs => encodePair p ++ bytes "&" ++ joinQuery (q :: pairs)

/-- setQuery on a fresh request, then getParam for every key -/
def readBack (pairs : List (Bytes × Bytes)) : List Reply :=
  (HttpRequest.new 0x11 true).replies
    (.setQuery (joinQuery pairs) :: pairs.map fun p => .getParam p.1 [])

/-! ## What a pair is read as -/

/-- the key up to its first '=' -/
def front (key : Bytes) : Bytes :=
  match cut '='.toUInt8 key with
  | none => key
  | some (a, _) => a

/-- the rest of the key and the value -/
def back (p : Bytes × Bytes) : Bytes :=
  match cut '='.toUInt8 p.1 with
  | none => p.2
  | some (_, b) => b ++ '='.toUInt8 :: p.2

/-- the name that is stored: encoded, and never decoded -/
def storedName (key : Bytes) : Bytes := StringUtil.UrlEncode (front key) true

/-- the first pair whose stored name is the key, ignoring case, has the value of this pair behind its first '='; where
there is none, the value is empty -/
def Carried (pairs : List (Bytes × Bytes)) (p : Bytes × Bytes) : Prop :=
  match pairs.find? fun q => fold (storedName q.1) = fold p.1 with
  | some q => back q = p.2
  | none => p.2 = []

/-- letters, digits and `- . _ ~` -/
def Plain (key : Bytes) : Prop := ∀ c ∈ key, StringUtil.CHAR_IS_UNRESERVED c = true ∧ c ≠ '='.toUInt8

structure KeysOk (keys : List Bytes) : Prop where
  no_nul : ∀ k ∈ keys, (0 : UInt8) ∉ k
  distinct : keys.Pairwise fun a b => lower a ≠ lower b

/-! ## The parser on a query -/

theorem front_back (p : Bytes × Bytes) : p.1 ++ '='.toUInt8 :: p.2 = front p.1 ++ '='.toUInt8 :: back p := by
  rw [front, back]
  cases h : cut '='.toUInt8 p.1 with
  | none => rfl
  | some x =>
    obtain ⟨a, b⟩ := x
    simp [(cut_eq_some.1 h).1]

theorem eq_notMem_front (key : Bytes) : '='.toUInt8 ∉ front key := by
  rw [front]
  cases h : cut '='.toUInt8 key with
  | none => exact cut_eq_none.1 h
  | some x => exact (cut_eq_some.1 h).2

theorem UrlEncode_append (s t : Bytes) (p : Bool) :
    StringUtil.UrlEncode (s ++ t) p = StringUtil.UrlEncode s p ++ StringUtil.UrlEncode t p := by
  rw [StringUtil.UrlEncode_eq, StringUtil.UrlEncode_eq, StringUtil.UrlEncode_eq, List.flatMap_append]

/-- '=' stays, so a pair is encoded as one text -/
theorem encodePair_eq (p : Bytes × Bytes) :
    encodePair p = storedName p.1 ++ '='.toUInt8 :: StringUtil.UrlEncode (back p) true := by
  have hequals : ∀ s : Bytes,
      StringUtil.UrlEncode ('='.toUInt8 :: s) true = '='.toUInt8 :: StringUtil.UrlEncode s true := by
    intro s
    have hone : StringUtil.UrlEncode ['='.toUInt8] true = ['='.toUInt8] := by decide
    have happend := UrlEncode_append ['='.toUInt8] s true
    rwa [hone] at happend
  calc encodePair p = StringUtil.UrlEncode (p.1 ++ '='.toUInt8 :: p.2) true := by
        rw [UrlEncode_append, hequals, encodePair, List.append_assoc]
        rfl
    _ = StringUtil.UrlEncode (front p.1 ++ '='.toUInt8 :: back p) true := by rw [front_back]
    _ = storedName p.1 ++ '='.toUInt8 :: StringUtil.UrlEncode (back p) true := by
        rw [UrlEncode_append, hequals, storedName]

theorem eq_notMem_storedName (key : Bytes) : '='.toUInt8 ∉ storedName key := by
  intro h
  rcases StringUtil.mem_UrlEncode h with ⟨h, -⟩ | h
  · exact eq_notMem_front key h
  · revert h
    decide

theorem amp_notMem_UrlEncode (s : Bytes) : '&'.toUInt8 ∉ StringUtil.UrlEncode s true := by
  intro h
  rcases StringUtil.mem_UrlEncode h with ⟨-, h⟩ | h
  · revert h
    decide
  · revert h
    decide

/-- one round of the parser reads one pair -/
theorem PARSE_PARAM_join (pairs : List (Bytes × Bytes)) (m : MapType) :
    PARSE_PARAM (joinQuery pairs) m '&'.toUInt8 id = insertPairs m (pairs.map fun p => (storedName p.1, back p)) := by
  induction pairs generalizing m with
  | nil => simp [joinQuery, PARSE_PARAM_eq, cut]
  | cons p pairs ih =>
    have hdecode : StringUtil.UrlDecode (StringUtil.UrlEncode (back p) true) true = back p :=
      StringUtil.UrlDecode_UrlEncode (.inr rfl) _
    cases pairs with
    | nil =>
      have hvalue := cut_eq_none.2 (amp_notMem_UrlEncode (back p))
      rw [joinQuery, encodePair_eq, PARSE_PARAM_eq, cut_append (eq_notMem_storedName p.1)]
      simp [hvalue, hdecode]
    | cons q pairs =>
      have hjoin : joinQuery (p :: q :: pairs) = storedName p.1 ++ '='.toUInt8 ::
          (StringUtil.UrlEncode (back p) true ++ '&'.toUInt8 :: joinQuery (q :: pairs)) := by
        rw [joinQuery, encodePair_eq]
        simp [show bytes "&" = ['&'.toUInt8] from rfl]
      rw [hjoin, PARSE_PARAM_eq, cut_append (eq_notMem_storedName p.1)]
      simp only [cut_append (amp_notMem_UrlEncode (back p)), hdecode, id, ih, List.map_cons, insertPairs_cons]

/-- the first of several equal names wins -/
theorem find_insertPairs (pairs : List (Bytes × Bytes)) (k : Bytes) :
    (insertPairs .empty (pairs.map fun p => (storedName p.1, back p))).find k =
      (pairs.find? fun q => fold (storedName q.1) = fold k).map back := by
  have hempty : OrderedMap.findEntry fold k (OrderedMap.Map.empty : MapType).entries = none := rfl
  rw [insertPairs, OrderedMap.Map.find, OrderedMap.Map.findEntry_insertAll, hempty, Option.none_or,
    OrderedMap.find?_map_pairs, Option.map_map]
  rfl

/-! ## Reading back -/

/-- lookups on a request whose texts do not change and that nobody edited are hidden -/
theorem guarded_lookups {s : Source} {h : History} (keys : List Bytes) (hs : h.source = s)
    (hsince : ∀ k, h.params.since k = none) (hbefore : ∀ k, h.params.before k = none)
    (hfrom : h.params.parsedFrom.getD s = s) :
    Guarded History.step History.Hidden h (keys.map fun k => .getParam k []) := by
  induction keys generalizing h with
  | nil => trivial
  | cons k keys ih =>
    have hpast : (h.step (.getParam k [])).params = { h.params with parsedFrom := some s } := by
      obtain ⟨source, ⟨parsedFrom, before, since⟩, cookies⟩ := h
      cases parsedFrom with
      | none => exact congrArg (fun x => (⟨some x, before, since⟩ : Past Source Bytes Bytes)) hs
      | some s' => exact congrArg (fun x => (⟨some x, before, since⟩ : Past Source Bytes Bytes)) hfrom
    refine ⟨?_, ih ?_ ?_ ?_ ?_⟩
    · intro _
      rw [hbefore, hs, hfrom]
    · exact hs
    · rw [hpast]
      exact hsince
    · rw [hpast]
      exact hbefore
    · rw [hpast]
      rfl

theorem expected_lookups {e : Expected} (he : e.params = fun _ => none) (keys : List Bytes) :
    e.replies (keys.map fun k => .getParam k []) =
      keys.map fun k => .value (((parseParams e.source .empty).find k).getD []) := by
  induction keys with
  | nil => rfl
  | cons k keys ih =>
    have hsame : e.perform (.getParam k []) = e := rfl
    have hreply : e.reply (.getParam k []) = some (.value (((parseParams e.source .empty).find k).getD [])) := by
      simp [Expected.reply, Call.view, seen, he]
    rw [List.map_cons, Expected.replies, hsame, ih, hreply]
    rfl

/-- what getParam answers: the value of the first pair whose stored name is the key -/
theorem readBack_eq (pairs : List (Bytes × Bytes)) :
    readBack pairs = pairs.map fun p =>
      .value (((pairs.find? fun q => fold (storedName q.1) = fold p.1).map back).getD []) := by
  have hmap : (pairs.map fun p => Call.getParam p.1 []) = (pairs.map Prod.fst).map fun k => .getParam k [] := by
    rw [List.map_map]
    rfl
  have hguard : Guarded History.step History.Hidden .new
      (.setQuery (joinQuery pairs) :: pairs.map fun p => .getParam p.1 []) := by
    rw [hmap]
    exact ⟨trivial, guarded_lookups _ rfl (fun _ => rfl) (fun _ => rfl) rfl⟩
  have hparse : ∀ k, (parseParams ⟨joinQuery pairs, [], .empty⟩ .empty).find k =
      (pairs.find? fun q => fold (storedName q.1) = fold k).map back := by
    intro k
    have hform : strcasestr [] formType = false := by decide
    simp only [parseParams, OrderedMap.Map.find_empty, Option.getD_none, hform, PARSE_PARAM_join]
    rw [if_neg (by simp), find_insertPairs]
  calc readBack pairs
      = Expected.new.replies (.setQuery (joinQuery pairs) :: pairs.map fun p => .getParam p.1 []) :=
        ((sim_new 0x11 true).replies_iff _).2 hguard
    _ = (Expected.new.perform (.setQuery (joinQuery pairs))).replies
          ((pairs.map Prod.fst).map fun k => .getParam k []) := by
        rw [Expected.replies, hmap]
        rfl
    _ = (pairs.map Prod.fst).map fun k =>
          .value (((parseParams ⟨joinQuery pairs, [], .empty⟩ .empty).find k).getD []) := expected_lookups rfl _
    _ = pairs.map fun p => .value (((pairs.find? fun q => fold (storedName q.1) = fold p.1).map back).getD []) := by
        rw [List.map_map]
        exact List.map_congr_left fun p _ => congrArg (fun x => Reply.value (Option.getD x [])) (hparse p.1)

/-! ## Plain keys -/

theorem front_of_plain {key : Bytes} (h : Plain key) : front key = key := by
  rw [front, cut_eq_none.2 fun hmem => (h _ hmem).2 rfl]

theorem storedName_of_plain {key : Bytes} (h : Plain key) : storedName key = key := by
  rw [storedName, front_of_plain h, StringUtil.UrlEncode_of_unreserved fun c hc => (h c hc).1]

theorem back_of_plain {p : Bytes × Bytes} (h : Plain p.1) : back p = p.2 := by
  rw [back, cut_eq_none.2 fun hmem => (h _ hmem).2 rfl]

theorem notMem_of_tolower {s t : Bytes} (h : lower s = lower t) {c : UInt8} (hc : ∀ x, tolower x = tolower c → x = c)
    (hs : c ∉ s) : c ∉ t := by
  intro ht
  have hmem : tolower c ∈ lower s := h ▸ List.mem_map_of_mem ht
  obtain ⟨x, hx, hxc⟩ := List.mem_map.1 hmem
  exact hs (hc x hxc ▸ hx)

theorem notMem_UrlEncode {c : UInt8} (hun : StringUtil.CHAR_IS_UNRESERVED c = false)
    (hc : ¬(c = 37 ∨ c = 43 ∨ StringUtil.isxdigit c = true)) (s : Bytes) (p : Bool) : c ∉ StringUtil.UrlEncode s p := by
  intro h
  rcases StringUtil.mem_UrlEncode h with ⟨-, hkeep⟩ | h
  · simp [hun] at hkeep
  · exact hc h

/-- a stored name is the key, ignoring case, only when the key is plain -/
theorem plain_of_stored {key : Bytes} (hnul : (0 : UInt8) ∉ key) (h : fold (storedName key) = fold key) :
    Plain key := by
  have hlower : lower (storedName key) = lower key := by
    have hstored : (0 : UInt8) ∉ storedName key := notMem_UrlEncode (by decide) (by decide) _ _
    rwa [fold_of_no_nul hstored, fold_of_no_nul hnul] at h
  have heq : '='.toUInt8 ∉ key := notMem_of_tolower hlower (forall_byte (by decide +kernel)) (eq_notMem_storedName key)
  have hspace : (32 : UInt8) ∉ key :=
    notMem_of_tolower hlower (forall_byte (by decide +kernel)) (notMem_UrlEncode (by decide) (by decide) _ _)
  have hfront : front key = key := by rw [front, cut_eq_none.2 heq]
  have hlength : (StringUtil.UrlEncode key true).length = key.length := by
    have hmap := congrArg List.length hlower
    rwa [storedName, hfront, lower, lower, List.length_map, List.length_map] at hmap
  intro c hc
  refine ⟨?_, fun h => heq (h ▸ hc)⟩
  exact (StringUtil.length_UrlEncode.2 hlength c hc).resolve_right fun h => hspace (h ▸ hc)

/-! ## The round trip -/

theorem carried_iff {pairs : List (Bytes × Bytes)} {p : Bytes × Bytes} : Carried pairs p ↔
    ((pairs.find? fun q => fold (storedName q.1) = fold p.1).map back).getD [] = p.2 := by
  rw [Carried]
  cases pairs.find? fun q => fold (storedName q.1) = fold p.1 with
  | none => exact eq_comm
  | some q => exact Iff.rfl

theorem readBack_iff (pairs : List (Bytes × Bytes)) :
    readBack pairs = (pairs.map fun p => .value p.2) ↔ ∀ p ∈ pairs, Carried pairs p := by
  rw [readBack_eq, List.map_inj_left]
  refine forall₂_congr fun p _ => ?_
  rw [carried_iff, Reply.value.injEq]

/-- the keys decide which pair is found -/
theorem carried_map {keys : List Bytes} {value : Bytes → Bytes} {k : Bytes} :
    Carried (keys.map fun k => (k, value k)) (k, value k) ↔
      ((keys.find? fun a => fold (storedName a) = fold k).map fun a => back (a, value a)).getD [] = value k := by
  rw [carried_iff, List.find?_map, Option.map_map]
  rfl

/-- a plain key finds itself -/
theorem find_plain {keys : List Bytes} (hok : KeysOk keys) (hplain : ∀ k ∈ keys, Plain k) {k : Bytes} (hk : k ∈ keys) :
    (keys.find? fun a => fold (storedName a) = fold k) = some k := by
  cases hfind : keys.find? fun a => fold (storedName a) = fold k with
  | none =>
    have hself := List.find?_eq_none.1 hfind k hk
    simp [storedName_of_plain (hplain k hk)] at hself
  | some a =>
    have ha := List.mem_of_find?_eq_some hfind
    have hfold : fold (storedName a) = fold k := by simpa using List.find?_some hfind
    rw [storedName_of_plain (hplain a ha), fold_of_no_nul (hok.no_nul a ha), fold_of_no_nul (hok.no_nul k hk)] at hfold
    have : Std.Symm fun a b : Bytes => lower a ≠ lower b := ⟨fun _ _ h => h.symm⟩
    by_contra hne
    exact hok.distinct.forall ha hk (fun h => hne (congrArg some h)) hfold

/-- what a key finds that is not plain does not depend on its own value -/
theorem plain_of_carried {keys : List Bytes} {k : Bytes} (hnul : (0 : UInt8) ∉ k)
    (h : ∀ value : Bytes → Bytes, Carried (keys.map fun k => (k, value k)) (k, value k)) : Plain k := by
  simp only [carried_map] at h
  cases hfind : keys.find? fun a => fold (storedName a) = fold k with
  | none =>
    have hvalue := h fun _ => [0]
    rw [hfind] at hvalue
    simp at hvalue
  | some a =>
    have hfold : fold (storedName a) = fold k := by simpa using List.find?_some hfind
    by_cases hak : a = k
    · rw [hak] at hfold
      exact plain_of_stored hnul hfold
    · have hsame : ∀ v : Bytes, back (a, []) = v := by
        intro v
        have hvalue := h fun b => if b = k then v else []
        simpa [hfind, hak] using hvalue
      have hempty := hsame []
      rw [hsame [0]] at hempty
      simp at hempty

/-- for given keys, whatever the values -/
theorem readBack_values_iff {keys : List Bytes} (hok : KeysOk keys) :
    (∀ value : Bytes → Bytes, readBack (keys.map fun k => (k, value k)) = keys.map fun k => .value (value k)) ↔
      ∀ k ∈ keys, Plain k := by
  have hcarried : ∀ value : Bytes → Bytes,
      readBack (keys.map fun k => (k, value k)) = (keys.map fun k => .value (value k)) ↔
        ∀ k ∈ keys, Carried (keys.map fun k => (k, value k)) (k, value k) := by
    intro value
    have hpairs := readBack_iff (keys.map fun k => (k, value k))
    rwa [List.map_map, List.forall_mem_map] at hpairs
  refine ⟨fun h k hk => ?_, fun hplain value => ?_⟩
  · exact plain_of_carried (hok.no_nul k hk) fun value => (hcarried value).1 (h value) k hk
  · refine (hcarried value).2 fun k hk => ?_
    rw [carried_map, find_plain hok hplain hk]
    exact back_of_plain (hplain k hk)

/-- The values are read back if and only if each pair is carried. With the same keys and any other values they are, if
and only if all keys are plain. -/
theorem query_round_trip_iff (pairs : List (Bytes × Bytes)) (hok : KeysOk (pairs.map Prod.fst)) :
    (readBack pairs = (pairs.map fun p => .value p.2) ↔ ∀ p ∈ pairs, Carried pairs p) ∧
      ((∀ value : Bytes → Bytes,
          readBack (pairs.map fun p => (p.1, value p.1)) = pairs.map fun p => .value (value p.1)) ↔
        ∀ p ∈ pairs, Plain p.1) := by
  have hvalues := readBack_values_iff hok
  simp only [List.map_map, List.forall_mem_map] at hvalues
  exact ⟨readBack_iff pairs, hvalues⟩

theorem query_round_trip_example :
    readBack [(bytes "a", bytes "a"), (bytes "b", bytes "b")] = [.value (bytes "a"), .value (bytes "b")] := by
  have hok : KeysOk [bytes "a", bytes "b"] := ⟨by decide, by decide⟩
  have hplain : ∀ p ∈ [(bytes "a", bytes "a"), (bytes "b", bytes "b")], Plain p.1 := by
    intro p hp
    rcases List.mem_pair.1 hp with rfl | rfl
    · exact forall_mem_of_all (by decide)
    · exact forall_mem_of_all (by decide)
  exact (query_round_trip_iff [(bytes "a", bytes "a"), (bytes "b", bytes "b")] hok).2.2 hplain fun k => k

/-- a key with a space is stored as `a+b` -/
theorem key_with_space_lost : KeysOk [bytes "a b"] ∧
    readBack [(bytes "a b", bytes "1")] = [.value []] ∧
    readBack [(bytes "a b", bytes "1")] ≠ [.value (bytes "1")] := by
  refine ⟨⟨by decide, by decide⟩, ?_, ?_⟩
  · decide
  · decide

end Sylar.Http

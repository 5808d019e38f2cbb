/-
PARSE_PARAM against the grammar of parameter strings.

The grammar splits a text at every separator, ignores segments without '=', and maps the text in front of the first '=' of
each other segment to what stands behind it. The loop looks for '=' from where it is, so segments without '=' become a part
of the next name, with their separators: the pieces below keep them apart from it.

Results:
- `ends_iff`: the loop ends on every text, with what PARSE_PARAM returns;
- `PARSE_PARAM_pieces`: the pairs that it inserts;
- `parsesByGrammar_iff`: when the map is the one of the grammar; without NUL bytes, when no segment without '=' stands in
  front of one with it;
- `swallows_segments`: a segment that becomes a part of the next name.
-/
import Sylar.Http.Query
import Sylar.Util.Trim

namespace Sylar.Http

open Sylar.Text

/-! ## The grammar -/

/-- what is parsed: a query or a form body, or a cookie header -/
inductive Kind where
  | query
  | cookie
deriving DecidableEq, Repr

namespace Kind

def flag : Kind → UInt8
  | query => '&'.toUInt8
  | cookie => ';'.toUInt8

def trim : Kind → Bytes → Bytes
  | query => id
  | cookie => Http.trim

def parse (kind : Kind) (str : Bytes) (m : MapType) : MapType := PARSE_PARAM str m kind.flag kind.trim

/-- the pair of a segment with '=' -/
def pair (kind : Kind) (segment : Bytes) : Option (Bytes × Bytes) :=
  (cut '='.toUInt8 segment).map fun (name, value) => (kind.trim name, StringUtil.UrlDecode value true)

/-- the first of several equal names wins -/
def grammar (kind : Kind) (str : Bytes) : MapType :=
  insertPairs .empty ((str.splitOn kind.flag).filterMap kind.pair)

/-- the do loop on `str` ends with the map `m'` -/
inductive Ends (kind : Kind) : Bytes → MapType → MapType → Prop
  | none (str : Bytes) (m : MapType) (hkey : cut '='.toUInt8 str = none) : Ends kind str m m
  | last (str key value : Bytes) (m : MapType) (hkey : cut '='.toUInt8 str = some (key, value))
    (hvalue : cut kind.flag value = none) :
    Ends kind str m (m.insert (kind.trim key) (StringUtil.UrlDecode value true))
  | next (str key rest value str' : Bytes) (m m' : MapType) (hkey : cut '='.toUInt8 str = some (key, rest))
    (hvalue : cut kind.flag rest = some (value, str'))
    (hrest : Ends kind str' (m.insert (kind.trim key) (StringUtil.UrlDecode value true)) m') : Ends kind str m m'

/-- the loop on an empty map ends with the map of the grammar -/
def ParsesByGrammar (kind : Kind) (str : Bytes) : Prop := kind.Ends str .empty (kind.grammar str)

end Kind

/-! ## Pieces -/

/-- a segment with '=', and what the loop takes into its name -/
structure Piece where
  /-- the segments without '=' in front of it, with their separators -/
  swallowed : Bytes
  name : Bytes
  value : Bytes
deriving DecidableEq, Repr

def pieces (flag : UInt8) : Bytes → List Bytes → List Piece
  | _, [] => []
  | glued, segment :: segments =>
    match cut '='.toUInt8 segment with
    | none => pieces flag (glued ++ segment ++ [flag]) segments
    | some (name, value) => ⟨glued, name, value⟩ :: pieces flag [] segments

namespace Piece

def Glued (p : Piece) : Prop := p.swallowed ≠ []

instance (p : Piece) : Decidable p.Glued := by unfold Glued; infer_instance

/-- the pair of the grammar -/
def own (kind : Kind) (p : Piece) : Bytes × Bytes := (kind.trim p.name, StringUtil.UrlDecode p.value true)

/-- the pair that the loop inserts -/
def stored (kind : Kind) (p : Piece) : Bytes × Bytes :=
  (kind.trim (p.swallowed ++ p.name), StringUtil.UrlDecode p.value true)

end Piece

def Kind.pieces (kind : Kind) (str : Bytes) : List Piece := Http.pieces kind.flag [] (str.splitOn kind.flag)

/-- a piece with something glued to it that does no harm: its longer name is that of a piece in front that has nothing glued
to it, and such pieces alone give its own name the same first pair -/
structure Harmless (kind : Kind) (all before : List Piece) (p : Piece) : Prop where
  taken : ∃ q ∈ before, ¬ q.Glued ∧ fold (q.own kind).1 = fold (p.stored kind).1
  same : ((all.map (Piece.own kind)).find? fun q => fold q.1 = fold (p.own kind).1) =
    ((all.filter fun q => ¬ q.Glued).map (Piece.own kind)).find? fun q => fold q.1 = fold (p.own kind).1

def GluedHarmless (kind : Kind) (all : List Piece) : Prop :=
  ∀ before p after, all = before ++ p :: after → p.Glued → Harmless kind all before p

/-- no segment without '=' in front of one with it -/
def NoGap (kind : Kind) (str : Bytes) : Prop :=
  (str.splitOn kind.flag).Pairwise fun a b => '='.toUInt8 ∉ a → '='.toUInt8 ∉ b

/-! ## The loop ends -/

theorem Kind.ends_iff {kind : Kind} {str : Bytes} {m m' : MapType} : kind.Ends str m m' ↔ m' = kind.parse str m := by
  constructor
  · intro h
    induction h with
    | none str m hkey => rw [Kind.parse, PARSE_PARAM_eq, hkey]
    | last str key value m hkey hvalue => simp only [Kind.parse, PARSE_PARAM_eq str, hkey, hvalue]
    | next str key rest value str' m m' hkey hvalue hrest ih =>
      rw [ih, Kind.parse, Kind.parse, PARSE_PARAM_eq str]
      simp only [hkey, hvalue]
  · rintro rfl
    induction hn : str.length using Nat.strong_induction_on generalizing str m with
    | _ n ih =>
      rw [Kind.parse, PARSE_PARAM_eq]
      cases hkey : cut '='.toUInt8 str with
      | none => exact .none str m hkey
      | some p =>
        obtain ⟨key, rest⟩ := p
        cases hvalue : cut kind.flag rest with
        | none =>
          simp only [hvalue]
          exact .last str key rest m hkey hvalue
        | some q =>
          obtain ⟨value, str'⟩ := q
          have hlt := length_cut hkey
          have hlt' := length_cut hvalue
          simp only [hvalue]
          exact .next str key rest value str' m _ hkey hvalue (ih _ (by omega) rfl)

/-! ## What it inserts -/

theorem equals_ne_flag (kind : Kind) : '='.toUInt8 ≠ kind.flag := by
  cases kind <;> decide

theorem filterMap_pair (kind : Kind) (segments : List Bytes) (glued : Bytes) :
    segments.filterMap kind.pair = (pieces kind.flag glued segments).map (Piece.own kind) := by
  induction segments generalizing glued with
  | nil => rfl
  | cons segment segments ih =>
    rw [List.filterMap_cons, pieces, Kind.pair]
    cases cut '='.toUInt8 segment with
    | none => exact ih _
    | some p => exact congrArg _ (ih [])

theorem parse_pieces (kind : Kind) {segments : List Bytes} (hflag : ∀ segment ∈ segments, kind.flag ∉ segment)
    {glued : Bytes} (hglued : '='.toUInt8 ∉ glued) (m : MapType) :
    kind.parse (glued ++ [kind.flag].intercalate segments) m =
      insertPairs m ((pieces kind.flag glued segments).map (Piece.stored kind)) := by
  induction segments generalizing glued m with
  | nil =>
    rw [List.intercalate_nil, List.append_nil, Kind.parse, PARSE_PARAM_eq, cut_eq_none.2 hglued]
    rfl
  | cons segment segments ih =>
    have hrest : ∀ segment ∈ segments, kind.flag ∉ segment := fun s hs => hflag s (List.mem_cons_of_mem _ hs)
    rw [pieces]
    cases hcut : cut '='.toUInt8 segment with
    | none =>
      -- the segment and its separator go in front of the next name
      have hmore : '='.toUInt8 ∉ glued ++ segment ++ [kind.flag] := by
        simp [hglued, cut_eq_none.1 hcut, equals_ne_flag kind]
      have hnext := ih hrest hmore m
      cases segments with
      | nil =>
        rw [List.intercalate_singleton, Kind.parse, PARSE_PARAM_eq, cut_eq_none.2 (by simp [hglued, cut_eq_none.1 hcut])]
        rfl
      | cons s segments =>
        rw [← hnext]
        simp
    | some p =>
      obtain ⟨name, value⟩ := p
      obtain ⟨rfl, hname⟩ := cut_eq_some.1 hcut
      have hkey : '='.toUInt8 ∉ glued ++ name := by simp [hglued, hname]
      have hvalue : kind.flag ∉ value := fun hmem => hflag _ List.mem_cons_self (by simp [hmem])
      cases segments with
      | nil =>
        rw [List.intercalate_singleton, ← List.append_assoc, Kind.parse, PARSE_PARAM_eq, cut_append hkey]
        simp only [cut_eq_none.2 hvalue]
        rfl
      | cons s segments =>
        calc kind.parse (glued ++ [kind.flag].intercalate ((name ++ '='.toUInt8 :: value) :: s :: segments)) m
            = kind.parse ((glued ++ name) ++ '='.toUInt8 :: (value ++ kind.flag :: [kind.flag].intercalate (s :: segments)))
                m := by simp
          _ = kind.parse ([] ++ [kind.flag].intercalate (s :: segments))
                (m.insert (kind.trim (glued ++ name)) (StringUtil.UrlDecode value true)) := by
              rw [Kind.parse, PARSE_PARAM_eq, cut_append hkey]
              simp only [cut_append hvalue]
              rfl
          _ = insertPairs (m.insert (kind.trim (glued ++ name)) (StringUtil.UrlDecode value true))
                ((pieces kind.flag [] (s :: segments)).map (Piece.stored kind)) := ih hrest List.not_mem_nil _

/-- the loop inserts the stored pairs, and the grammar the own ones -/
theorem PARSE_PARAM_pieces (kind : Kind) (str : Bytes) :
    kind.parse str .empty = insertPairs .empty ((kind.pieces str).map (Piece.stored kind)) ∧
      kind.grammar str = insertPairs .empty ((kind.pieces str).map (Piece.own kind)) := by
  constructor
  · have hflag : ∀ segment ∈ str.splitOn kind.flag, kind.flag ∉ segment := fun _ hs => (mem_splitOn hs).1
    have h := parse_pieces kind hflag List.not_mem_nil .empty
    rwa [List.intercalate_splitOn, List.nil_append] at h
  · rw [Kind.grammar, filterMap_pair kind _ [], Kind.pieces]

/-! ## What is glued to a name -/

/-- a piece is made of one segment, and what is glued to it ends with a separator -/
theorem mem_pieces {flag : UInt8} {segments : List Bytes} {glued : Bytes} (hglued : glued ≠ [] → flag ∈ glued) {p : Piece}
    (hp : p ∈ pieces flag glued segments) :
    (p.Glued → flag ∈ p.swallowed) ∧ ∃ segment ∈ segments, cut '='.toUInt8 segment = some (p.name, p.value) := by
  induction segments generalizing glued with
  | nil => cases hp
  | cons segment segments ih =>
    rw [pieces] at hp
    cases hcut : cut '='.toUInt8 segment with
    | none =>
      rw [hcut] at hp
      obtain ⟨hflag, s, hs, hp⟩ := ih (by simp) hp
      exact ⟨hflag, s, List.mem_cons_of_mem _ hs, hp⟩
    | some x =>
      rw [hcut] at hp
      rcases List.mem_cons.1 hp with rfl | hp
      · exact ⟨hglued, segment, List.mem_cons_self, hcut⟩
      · obtain ⟨hflag, s, hs, hp⟩ := ih (by simp) hp
        exact ⟨hflag, s, List.mem_cons_of_mem _ hs, hp⟩

/-- what is not in the text is in no name -/
theorem notMem_pieces {flag c : UInt8} (hflag : c ≠ flag) {segments : List Bytes} (hsegments : ∀ s ∈ segments, c ∉ s)
    {glued : Bytes} (hglued : c ∉ glued) {p : Piece} (hp : p ∈ pieces flag glued segments) :
    c ∉ p.swallowed ++ p.name := by
  induction segments generalizing glued with
  | nil => cases hp
  | cons segment segments ih =>
    have hsegment := hsegments segment List.mem_cons_self
    have hrest : ∀ s ∈ segments, c ∉ s := fun s hs => hsegments s (List.mem_cons_of_mem _ hs)
    rw [pieces] at hp
    cases hcut : cut '='.toUInt8 segment with
    | none =>
      rw [hcut] at hp
      exact ih hrest (by simp [hglued, hsegment, hflag]) hp
    | some x =>
      rw [hcut] at hp
      rcases List.mem_cons.1 hp with rfl | hp
      · rw [(cut_eq_some.1 hcut).1] at hsegment
        simp only [List.mem_append, List.mem_cons, not_or] at hsegment ⊢
        exact ⟨hglued, hsegment.1⟩
      · exact ih hrest List.not_mem_nil hp

theorem flag_mem_trim {kind : Kind} {s : Bytes} : kind.flag ∈ kind.trim s ↔ kind.flag ∈ s := by
  cases kind with
  | query => exact Iff.rfl
  | cookie => exact ⟨StringUtil.mem_of_mem_Trim, fun h => StringUtil.mem_Trim h (by decide)⟩

theorem mem_of_mem_trim {kind : Kind} {s : Bytes} {c : UInt8} (h : c ∈ kind.trim s) : c ∈ s := by
  cases kind with
  | query => exact h
  | cookie => exact StringUtil.mem_of_mem_Trim h

theorem flag_mem_stored {kind : Kind} {str : Bytes} {p : Piece} (hp : p ∈ kind.pieces str) (hglued : p.Glued) :
    kind.flag ∈ (p.stored kind).1 := by
  obtain ⟨hflag, -⟩ := mem_pieces (by simp) hp
  exact flag_mem_trim.2 (List.mem_append_left _ (hflag hglued))

theorem flag_notMem_own {kind : Kind} {str : Bytes} {p : Piece} (hp : p ∈ kind.pieces str) :
    kind.flag ∉ (p.own kind).1 := by
  obtain ⟨-, segment, hsegment, hcut⟩ := mem_pieces (by simp) hp
  intro h
  refine (mem_splitOn hsegment).1 ?_
  rw [(cut_eq_some.1 hcut).1]
  exact List.mem_append_left _ (flag_mem_trim.1 h)

theorem stored_of_unglued {kind : Kind} (p : Piece) (h : ¬ p.Glued) : p.stored kind = p.own kind := by
  rw [Piece.stored, not_not.1 h, List.nil_append, Piece.own]

/-! ## Without NUL bytes -/

theorem no_nul_pieces {kind : Kind} {str : Bytes} (hnul : (0 : UInt8) ∉ str) {p : Piece} (hp : p ∈ kind.pieces str) :
    (0 : UInt8) ∉ (p.stored kind).1 ∧ (0 : UInt8) ∉ (p.own kind).1 := by
  have hflag : (0 : UInt8) ≠ kind.flag := by cases kind <;> decide
  have hname := notMem_pieces hflag (fun s hs h => hnul ((mem_splitOn hs).2 h)) List.not_mem_nil hp
  exact ⟨fun h => hname (mem_of_mem_trim h), fun h => hname (List.mem_append_right _ (mem_of_mem_trim h))⟩

/-- the separator keeps a glued name apart from all names of the grammar -/
theorem not_taken {kind : Kind} {str : Bytes} (hnul : (0 : UInt8) ∉ str) {p q : Piece} (hp : p ∈ kind.pieces str)
    (hglued : p.Glued) (hq : q ∈ kind.pieces str) : fold (q.own kind).1 ≠ fold (p.stored kind).1 := by
  have hcase : ∀ x, tolower x = tolower kind.flag → x = kind.flag := by
    cases kind <;> exact forall_byte (by decide +kernel)
  intro h
  rw [fold_of_no_nul (no_nul_pieces hnul hq).2, fold_of_no_nul (no_nul_pieces hnul hp).1] at h
  exact notMem_of_tolower h hcase (flag_notMem_own hq) (flag_mem_stored hp hglued)

/-- once something is glued, every further name gets it -/
theorem unglued_of_glued {flag : UInt8} {segments : List Bytes} {glued : Bytes} (hglued : glued ≠ []) :
    (∀ p ∈ pieces flag glued segments, ¬ p.Glued) ↔ ∀ b ∈ segments, '='.toUInt8 ∉ b := by
  induction segments generalizing glued with
  | nil => simp [pieces]
  | cons segment segments ih =>
    rw [pieces, List.forall_mem_cons]
    cases hcut : cut '='.toUInt8 segment with
    | none =>
      rw [and_iff_right (cut_eq_none.1 hcut)]
      exact ih (by simp)
    | some x =>
      have hmem : '='.toUInt8 ∈ segment := by rw [(cut_eq_some.1 hcut).1]; simp
      exact iff_of_false (fun h => h _ List.mem_cons_self hglued) fun h => h.1 hmem

/-- nothing is glued anywhere when there is no gap -/
theorem unglued_iff {flag : UInt8} (segments : List Bytes) :
    (∀ p ∈ pieces flag [] segments, ¬ p.Glued) ↔
      segments.Pairwise fun a b => '='.toUInt8 ∉ a → '='.toUInt8 ∉ b := by
  induction segments with
  | nil => simp [pieces]
  | cons segment segments ih =>
    rw [pieces, List.pairwise_cons]
    cases hcut : cut '='.toUInt8 segment with
    | none =>
      have hsegment := cut_eq_none.1 hcut
      have hrest := @unglued_of_glued flag segments ([] ++ segment ++ [flag]) (by simp)
      refine hrest.trans ⟨fun h => ⟨fun b hb _ => h b hb, ?_⟩, fun h b hb => h.1 b hb hsegment⟩
      exact List.pairwise_of_forall_mem_list fun a _ b hb _ => h b hb
    | some x =>
      have hmem : '='.toUInt8 ∈ segment := by rw [(cut_eq_some.1 hcut).1]; simp
      rw [List.forall_mem_cons, ih]
      exact and_congr (iff_of_true (fun h => h rfl) fun b _ h => absurd hmem h) Iff.rfl

theorem gluedHarmless_iff {kind : Kind} {str : Bytes} (hnul : (0 : UInt8) ∉ str) :
    GluedHarmless kind (kind.pieces str) ↔ NoGap kind str := by
  rw [NoGap, ← unglued_iff, ← Kind.pieces]
  refine ⟨fun h p hp hglued => ?_, fun h before p after hsplit hglued => ?_⟩
  · obtain ⟨before, after, hsplit⟩ := List.append_of_mem hp
    obtain ⟨q, hq, -, hname⟩ := (h before p after hsplit hglued).taken
    exact not_taken hnul hp hglued (by simp [hsplit, hq]) hname
  · exact absurd hglued (h p (by simp [hsplit]))

/-! ## Main result -/

theorem parsesByGrammar_iff_harmless (kind : Kind) (str : Bytes) :
    kind.ParsesByGrammar str ↔ GluedHarmless kind (kind.pieces str) := by
  obtain ⟨hparse, hgrammar⟩ := PARSE_PARAM_pieces kind str
  have hnew : ∀ p ∈ kind.pieces str, p.Glued → ∀ q ∈ kind.pieces str, p.stored kind ≠ q.own kind := by
    intro p hp hglued q hq heq
    have hmem := flag_mem_stored hp hglued
    rw [heq] at hmem
    exact flag_notMem_own hq hmem
  calc kind.ParsesByGrammar str
      ↔ insertPairs .empty ((kind.pieces str).map (Piece.stored kind)) =
          insertPairs .empty ((kind.pieces str).map (Piece.own kind)) := by
        rw [Kind.ParsesByGrammar, Kind.ends_iff, hparse, hgrammar, eq_comm]
    _ ↔ _ := OrderedMap.Map.insertAll_map_eq_iff stored_of_unglued hnew
    _ ↔ GluedHarmless kind (kind.pieces str) := by
        refine forall₃_congr fun before p after => forall₂_congr fun _ _ => ?_
        exact ⟨fun h => ⟨h.1, h.2⟩, fun h => ⟨h.taken, h.same⟩⟩

/-- **Parameter strings** are split by the grammar exactly when every piece with something glued to it is harmless. Without
NUL bytes none is, and then no segment without '=' may stand in front of one with it. The loop always ends. -/
theorem parsesByGrammar_iff (kind : Kind) (str : Bytes) :
    (∃! m, kind.Ends str .empty m) ∧ (kind.ParsesByGrammar str ↔ GluedHarmless kind (kind.pieces str)) ∧
      ((0 : UInt8) ∉ str → (kind.ParsesByGrammar str ↔ NoGap kind str)) := by
  refine ⟨⟨_, Kind.ends_iff.2 rfl, fun _ h => Kind.ends_iff.1 h⟩, parsesByGrammar_iff_harmless kind str, fun hnul => ?_⟩
  rw [parsesByGrammar_iff_harmless, gluedHarmless_iff hnul]

/-- **A segment without '='** becomes a part of the next name, in a query and in a cookie header. -/
theorem swallows_segments :
    (Kind.query.parse (bytes "a&b=1") .empty).entries = [(bytes "a&b", bytes "1")] ∧
      (Kind.query.grammar (bytes "a&b=1")).entries = [(bytes "b", bytes "1")] ∧
      ¬ Kind.query.ParsesByGrammar (bytes "a&b=1") ∧ ¬ Kind.cookie.ParsesByGrammar (bytes "secure; b=1") := by
  refine ⟨by decide, by decide, ?_, ?_⟩
  · rw [Kind.ParsesByGrammar, Kind.ends_iff]
    intro h
    exact absurd (congrArg OrderedMap.Map.entries h) (by decide)
  · rw [Kind.ParsesByGrammar, Kind.ends_iff]
    intro h
    exact absurd (congrArg OrderedMap.Map.entries h) (by decide)

end Sylar.Http

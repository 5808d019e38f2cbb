/-
What the request scanner makes of a head: a request line, header lines and an empty line in one buffer.

The target is in origin form: a path from '/' on, a query behind '?' and a fragment behind '#', with `%XX` for what has no
place there. What is read here is read with `uri_relaxed` and without.

A header line is a name, ':', a text whose first blanks are left out, and CR LF or LF.

Results:
- `reads_method`, `reads_target`, `reads_version`, `reads_fields`: the parts of a head, with the callbacks for them;
- `run_head`: a whole head in front of any bytes.
-/
import Sylar.Http.RequestScan

namespace Sylar.Http.Request

open Sylar.Text Sylar.Transducer

/-! ## Texts with escapes -/

/-- bytes of a class, and `%` with two hexadecimal digits -/
def pctText (ok : UInt8 → Bool) : Bytes → Bool
  | [] => true
  | [c] => ok c
  | [c, d] => ok c && ok d
  | c :: d :: e :: t =>
    if is '%' c then isXdigit d && isXdigit e && pctText ok t else ok c && pctText ok (d :: e :: t)

/-- a state that stays in a text, with the two states of an escape behind it -/
structure TextState (relaxed : Bool) (ok : UInt8 → Bool) (cs : ℤ) : Prop where
  stay : ∀ c, ok c = true → httpTable relaxed cs c = some (cs, [])
  escape : ∀ c, is '%' c = true → httpTable relaxed cs c = some (cs + 1, [])
  first : ∀ c, isXdigit c = true → httpTable relaxed (cs + 1) c = some (cs + 2, [])
  second : ∀ c, isXdigit c = true → httpTable relaxed (cs + 2) c = some (cs, [])

/-- a state in front of a text, whose first byte asks for `actions` -/
structure TextStart (relaxed : Bool) (ok : UInt8 → Bool) (start cs : ℤ) (actions : List Action) : Prop where
  stay : ∀ c, ok c = true → httpTable relaxed start c = some (cs, actions)
  escape : ∀ c, is '%' c = true → httpTable relaxed start c = some (cs + 1, actions)

/-- the bytes of a path -/
def isPath (c : UInt8) : Bool := isPchar false c ∨ is '/' c

theorem textState_path (relaxed : Bool) : TextState relaxed isPath 26 := by
  cases relaxed <;> constructor <;> apply forall_byte <;> decide +kernel

theorem textState_query (relaxed : Bool) : TextState relaxed (isQuery false) 30 := by
  cases relaxed <;> constructor <;> apply forall_byte <;> decide +kernel

theorem textState_fragment (relaxed : Bool) : TextState relaxed (isQuery false) 21 := by
  cases relaxed <;> constructor <;> apply forall_byte <;> decide +kernel

/-- behind the first '/', another one would begin an authority -/
theorem textStart_path (relaxed : Bool) : TextStart relaxed (isPchar false) 33 26 [] := by
  cases relaxed <;> constructor <;> apply forall_byte <;> decide +kernel

theorem textStart_query (relaxed : Bool) : TextStart relaxed (isQuery false) 29 30 [.start_query] := by
  cases relaxed <;> constructor <;> apply forall_byte <;> decide +kernel

theorem textStart_fragment (relaxed : Bool) : TextStart relaxed (isQuery false) 20 21 [.mark] := by
  cases relaxed <;> constructor <;> apply forall_byte <;> decide +kernel

section

variable (len : ℕ) {relaxed : Bool}

theorem reads_byte {cs next : ℤ} {c : UInt8} {actions : List Action} (h : httpTable relaxed cs c = some (next, actions))
    (hgo : .done ∉ actions) (p : ℕ) (s : Scan) :
    (machine relaxed len).Reads ⟨cs, p, s⟩ [c] ⟨next, p + 1, actions.foldl (act len p) s⟩ := by
  refine reads_one h (fun a ha => decide_eq_false fun hdone => hgo ?_) p s
  rwa [← show a = .done from hdone]

/-- two digits behind '%' -/
theorem reads_escape {ok : UInt8 → Bool} {cs : ℤ} (h : TextState relaxed ok cs) {d e : UInt8} (hd : isXdigit d = true)
    (he : isXdigit e = true) (p : ℕ) (s : Scan) :
    (machine relaxed len).Reads ⟨cs + 1, p, s⟩ [d, e] ⟨cs, p + 2, s⟩ :=
  (reads_byte len (h.first d hd) (by decide) p s).append (reads_byte len (h.second e he) (by decide) (p + 1) s)

theorem reads_pct {ok : UInt8 → Bool} {cs : ℤ} (h : TextState relaxed ok cs) {t : Bytes} (ht : pctText ok t = true)
    (p : ℕ) (s : Scan) : (machine relaxed len).Reads ⟨cs, p, s⟩ t ⟨cs, p + t.length, s⟩ := by
  fun_induction pctText ok t generalizing p with
  | case1 => exact .nil _
  | case2 c => exact reads_byte len (h.stay c ht) (by decide) p s
  | case3 c d =>
    rw [Bool.and_eq_true] at ht
    exact (reads_byte len (h.stay c ht.1) (by decide) p s).append (reads_byte len (h.stay d ht.2) (by decide) (p + 1) s)
  | case4 c d e t hescape ih =>
    rw [Bool.and_eq_true, Bool.and_eq_true] at ht
    have hfirst := reads_byte len (h.escape c hescape) (by decide) p s
    have hdigits := reads_escape len h ht.1.1 ht.1.2 (p + 1) s
    have hrest := ih ht.2 (p + 3)
    have hlength : p + (c :: d :: e :: t).length = p + 3 + t.length := by simp only [List.length_cons]; omega
    rw [hlength]
    exact hfirst.append (hdigits.append hrest)
  | case5 c d e t hplain ih =>
    rw [Bool.and_eq_true] at ht
    have hfirst := reads_byte len (h.stay c ht.1) (by decide) p s
    have hrest := ih ht.2 (p + 1)
    have hlength : p + (c :: d :: e :: t).length = p + 1 + (d :: e :: t).length := by simp only [List.length_cons]; omega
    rw [hlength]
    exact hfirst.append hrest

/-- a text from its first byte on -/
theorem reads_pctFrom {first ok : UInt8 → Bool} {start cs : ℤ} {actions : List Action}
    (hstart : TextStart relaxed first start cs actions) (h : TextState relaxed ok cs) (hgo : .done ∉ actions) {c : UInt8}
    {v : Bytes} (hc : ok c = true → first c = true) (ht : pctText ok (c :: v) = true) (p : ℕ) (s : Scan) :
    (machine relaxed len).Reads ⟨start, p, s⟩ (c :: v) ⟨cs, p + (c :: v).length, actions.foldl (act len p) s⟩ := by
  have hlength : p + (c :: v).length = p + 1 + v.length := by rw [List.length_cons]; omega
  have hplain : ok c = true → pctText ok v = true → (machine relaxed len).Reads ⟨start, p, s⟩ (c :: v)
      ⟨cs, p + 1 + v.length, actions.foldl (act len p) s⟩ := fun hok hv =>
    (reads_byte len (hstart.stay c (hc hok)) hgo p s).append (reads_pct len h hv (p + 1) _)
  rw [hlength]
  match v, ht with
  | [], ht => exact hplain ht rfl
  | [d], ht =>
    have hboth := Bool.and_eq_true_iff.1 ht
    exact hplain hboth.1 hboth.2
  | d :: e :: v, ht =>
    rw [pctText] at ht
    split_ifs at ht with hescape
    · rw [Bool.and_eq_true, Bool.and_eq_true] at ht
      have hfirst := reads_byte len (hstart.escape c hescape) hgo p s
      have hdigits := reads_escape len h ht.1.1 ht.1.2 (p + 1) (actions.foldl (act len p) s)
      have hrest := reads_pct len h ht.2 (p + 3) (actions.foldl (act len p) s)
      have hend : p + 1 + (d :: e :: v).length = p + 3 + v.length := by simp only [List.length_cons]; omega
      rw [hend]
      exact hfirst.append (hdigits.append hrest)
    · have hboth := Bool.and_eq_true_iff.1 ht
      exact hplain hboth.1 hboth.2

end

/-! ## The target -/

structure Target where
  path : Bytes
  query : Bytes
  fragment : Bytes

theorem forall_head_of_all {P : UInt8 → Prop} [DecidablePred P] {s : Bytes} (h : (s.head?.all fun c => P c) = true) :
    ∀ c ∈ s.head?, P c := by
  intro c hc
  rw [Option.mem_def.1 hc] at h
  simpa using h

/-- origin form: the path is absolute, and its first segment is not empty -/
structure Target.Ok (t : Target) : Prop where
  path : ∃ rest, t.path = '/'.toUInt8 :: rest ∧ pctText isPath rest = true ∧ ∀ c ∈ rest.head?, is '/' c = false
  query : pctText (isQuery false) t.query = true
  fragment : pctText (isQuery false) t.fragment = true

/-- a path from what can be evaluated of it -/
theorem path_of_all (rest : Bytes) (htext : pctText isPath rest = true)
    (hhead : (rest.head?.all fun c => is '/' c = false) = true) :
    ∃ segment, '/'.toUInt8 :: rest = '/'.toUInt8 :: segment ∧ pctText isPath segment = true ∧
      ∀ c ∈ segment.head?, is '/' c = false :=
  ⟨rest, rfl, htext, forall_head_of_all hhead⟩

/-- '?' and the query, if there is one -/
def Target.queryPart (t : Target) : Bytes := if t.query = [] then [] else '?'.toUInt8 :: t.query

def Target.fragmentPart (t : Target) : Bytes := if t.fragment = [] then [] else '#'.toUInt8 :: t.fragment

def Target.render (t : Target) : Bytes := t.path ++ (t.queryPart ++ t.fragmentPart)

/-- the callbacks at the end of the query, for a target at `p` -/
def Target.frontCalls (t : Target) (p : ℕ) : List Call :=
  .request_path p t.path.length ::
    ((if t.query = [] then [] else [.query_string (p + t.path.length + 1) t.query.length]) ++
      [.request_uri p (t.path.length + t.queryPart.length)])

def Target.calls (t : Target) (p : ℕ) : List Call :=
  t.frontCalls p ++
    if t.fragment = [] then [] else [.fragment (p + t.path.length + t.queryPart.length + 1) t.fragment.length]

section

variable (len : ℕ) (relaxed : Bool)

/-- the state behind a byte that ends a path or a query -/
def endState (c : UInt8) : ℤ := if is ' ' c then 4 else 20

theorem table_pathEnd : ∀ cs ∈ ([33, 26] : List ℤ), ∀ c ∈ [' '.toUInt8, '#'.toUInt8],
    httpTable relaxed cs c = some (endState c, [.request_path, .request_uri]) ∧
      httpTable relaxed cs '?'.toUInt8 = some (29, [.request_path]) ∧
      httpTable relaxed 30 c = some (endState c, [.query_string, .request_uri]) := by
  intro cs hcs
  simp only [List.mem_cons, List.not_mem_nil, or_false] at hcs
  rcases hcs with rfl | rfl
  · exact forall_mem_of_all (by cases relaxed <;> decide)
  · exact forall_mem_of_all (by cases relaxed <;> decide)

theorem reads_path {t : Target} (ht : t.Ok) (p : ℕ) (s : Scan) : ∃ cs ∈ ([33, 26] : List ℤ),
    (machine relaxed len).Reads ⟨3, p, s⟩ t.path ⟨cs, p + t.path.length, { s with parser.mark := p }⟩ := by
  obtain ⟨rest, hpath, hrest, hfirst⟩ := ht.path
  have hslash : httpTable relaxed 3 '/'.toUInt8 = some (33, [.mark]) := by cases relaxed <;> decide
  have hone := reads_byte len hslash (by decide) p s
  rw [hpath]
  cases rest with
  | nil => exact ⟨33, by decide, hone⟩
  | cons c v =>
    have hnext := reads_pctFrom len (textStart_path relaxed) (textState_path relaxed) (by simp)
      (fun hok => by simpa [isPath, hfirst c rfl] using hok) hrest (p + 1) { s with parser.mark := p }
    have hlength : p + ('/'.toUInt8 :: c :: v).length = p + 1 + (c :: v).length := by simp only [List.length_cons]; omega
    rw [hlength]
    exact ⟨26, by decide, hone.append hnext⟩

/-- up to the end of a query, which is still open -/
theorem reads_openQuery {t : Target} (ht : t.Ok) (hquery : t.query ≠ []) (p : ℕ) (s : Scan)
    (hsize : p + t.path.length < 2 ^ 64) :
    (machine relaxed len).Reads ⟨3, p, s⟩ (t.path ++ '?'.toUInt8 :: t.query)
      ⟨30, p + t.path.length + 1 + t.query.length,
        ⟨{ s.parser with mark := p, query_start := p + t.path.length + 1 },
          s.calls ++ [.request_path p t.path.length]⟩⟩ := by
  obtain ⟨cs, hcs, hpath⟩ := reads_path len relaxed ht p s
  have hspace : ' '.toUInt8 ∈ [' '.toUInt8, '#'.toUInt8] := by decide
  obtain ⟨-, htable, -⟩ := table_pathEnd relaxed cs hcs _ hspace
  obtain ⟨c, v, hcons⟩ := List.exists_cons_of_ne_nil hquery
  have hok : pctText (isQuery false) (c :: v) = true := hcons ▸ ht.query
  have hquestion := reads_byte len htable (by decide) (p + t.path.length) { s with parser.mark := p }
  have htext := reads_pctFrom len (textStart_query relaxed) (textState_query relaxed) (by decide) id hok
    (p + t.path.length + 1) (([Action.request_path] : List Action).foldl (act len (p + t.path.length))
      { s with parser.mark := p })
  rw [← hcons] at htext
  have hdistance : LEN p (p + t.path.length) = t.path.length := by
    rw [LEN_of_le (Nat.le_add_right _ _) hsize, Nat.add_sub_cancel_left]
  have hall := hpath.append (hquestion.append htext)
  simp only [List.foldl_cons, List.foldl_nil, act, Scan.call, hdistance, List.singleton_append] at hall
  exact hall

/-- up to the byte behind the query -/
theorem reads_front {t : Target} (ht : t.Ok) {d : UInt8} (hd : d ∈ [' '.toUInt8, '#'.toUInt8]) (p : ℕ) (s : Scan)
    (hsize : p + (t.path ++ t.queryPart).length < 2 ^ 64) :
    ∃ q, (machine relaxed len).Reads ⟨3, p, s⟩ (t.path ++ (t.queryPart ++ [d]))
      ⟨endState d, p + (t.path ++ t.queryPart).length + 1,
        ⟨{ s.parser with mark := p, query_start := q }, s.calls ++ t.frontCalls p⟩⟩ := by
  obtain ⟨cs, hcs, hpath⟩ := reads_path len relaxed ht p s
  obtain ⟨hend, -, hlast⟩ := table_pathEnd relaxed cs hcs d hd
  have hlength : (t.path ++ t.queryPart).length = t.path.length + t.queryPart.length := List.length_append
  have hdistance : ∀ a b : ℕ, a ≤ b → b ≤ p + (t.path ++ t.queryPart).length → LEN a b = b - a :=
    fun a b hab hb => LEN_of_le hab (by omega)
  by_cases hquery : t.query = []
  · have hpart : t.queryPart = [] := if_pos hquery
    have hlast := reads_byte len hend (by decide) (p + t.path.length) { s with parser.mark := p }
    refine ⟨s.parser.query_start, ?_⟩
    have hcalls : t.frontCalls p = [.request_path p t.path.length, .request_uri p t.path.length] := by
      rw [Target.frontCalls, if_pos hquery, hpart]
      rfl
    have hone := hdistance p (p + t.path.length) (Nat.le_add_right _ _) (by rw [hlength]; omega)
    rw [Nat.add_sub_cancel_left] at hone
    have hall := hpath.append hlast
    simp only [List.foldl_cons, List.foldl_nil, act, Scan.call, hone, List.append_assoc, List.singleton_append] at hall
    rw [hpart, hcalls, List.nil_append, List.append_nil]
    exact hall
  · have hpart : t.queryPart = '?'.toUInt8 :: t.query := if_neg hquery
    have hpartLength : t.queryPart.length = t.query.length + 1 := by rw [hpart, List.length_cons]
    have hopen := reads_openQuery len relaxed ht hquery p s (by omega)
    have hend := reads_byte len hlast (by decide) (p + t.path.length + 1 + t.query.length)
      ⟨{ s.parser with mark := p, query_start := p + t.path.length + 1 }, s.calls ++ [.request_path p t.path.length]⟩
    refine ⟨p + t.path.length + 1, ?_⟩
    have hcalls : t.frontCalls p = [.request_path p t.path.length,
        .query_string (p + t.path.length + 1) t.query.length,
        .request_uri p (t.path.length + t.query.length + 1)] := by
      rw [Target.frontCalls, if_neg hquery, hpartLength]
      rfl
    have hqueryLength := hdistance (p + t.path.length + 1) (p + t.path.length + 1 + t.query.length)
      (Nat.le_add_right _ _) (by omega)
    have huriLength := hdistance p (p + t.path.length + 1 + t.query.length) (by omega) (by omega)
    rw [Nat.add_sub_cancel_left] at hqueryLength
    have huri : p + t.path.length + 1 + t.query.length - p = t.path.length + t.query.length + 1 := by omega
    rw [huri] at huriLength
    have hall := hopen.append hend
    simp only [List.foldl_cons, List.foldl_nil, act, Scan.call, hqueryLength, huriLength, List.append_assoc,
      List.cons_append, List.nil_append] at hall
    have hoffset : p + (t.path ++ t.queryPart).length + 1 = p + t.path.length + 1 + t.query.length + 1 := by omega
    rw [hoffset, hpart, hcalls]
    exact hall

/-- **The target and the space behind it.** -/
theorem reads_target {t : Target} (ht : t.Ok) (p : ℕ) (s : Scan) (hsize : p + t.render.length < 2 ^ 64) :
    ∃ m q, (machine relaxed len).Reads ⟨3, p, s⟩ (t.render ++ [' '.toUInt8])
      ⟨4, p + t.render.length + 1, ⟨{ s.parser with mark := m, query_start := q }, s.calls ++ t.calls p⟩⟩ := by
  have hlength : t.render.length = (t.path ++ t.queryPart).length + t.fragmentPart.length := by
    rw [Target.render, ← List.append_assoc, List.length_append]
  by_cases hfragment : t.fragment = []
  · have hpart : t.fragmentPart = [] := if_pos hfragment
    have hspace : ' '.toUInt8 ∈ [' '.toUInt8, '#'.toUInt8] := by decide
    obtain ⟨q, hfront⟩ := reads_front len relaxed ht hspace p s (by omega)
    refine ⟨p, q, ?_⟩
    have hcalls : t.calls p = t.frontCalls p := by rw [Target.calls, if_pos hfragment, List.append_nil]
    have hrender : t.render = t.path ++ t.queryPart := by rw [Target.render, hpart, List.append_nil]
    rw [hcalls, hrender, List.append_assoc]
    exact hfront
  · obtain ⟨c, v, hcons⟩ := List.exists_cons_of_ne_nil hfragment
    have hpart : t.fragmentPart = '#'.toUInt8 :: t.fragment := if_neg hfragment
    have hpartLength : t.fragmentPart.length = t.fragment.length + 1 := by rw [hpart, List.length_cons]
    have hok : pctText (isQuery false) (c :: v) = true := hcons ▸ ht.fragment
    have hhash : '#'.toUInt8 ∈ [' '.toUInt8, '#'.toUInt8] := by decide
    obtain ⟨q, hfront⟩ := reads_front len relaxed ht hhash p s (by omega)
    have htext := reads_pctFrom len (textStart_fragment relaxed) (textState_fragment relaxed) (by decide) id hok
      (p + (t.path ++ t.queryPart).length + 1)
      ⟨{ s.parser with mark := p, query_start := q }, s.calls ++ t.frontCalls p⟩
    have hspace : httpTable relaxed 21 ' '.toUInt8 = some (4, [.fragment]) := by cases relaxed <;> decide
    have hend := reads_byte len hspace (by decide) (p + (t.path ++ t.queryPart).length + 1 + t.fragment.length)
      (([Action.mark] : List Action).foldl (act len (p + (t.path ++ t.queryPart).length + 1))
        ⟨{ s.parser with mark := p, query_start := q }, s.calls ++ t.frontCalls p⟩)
    rw [← hcons] at htext
    refine ⟨p + (t.path ++ t.queryPart).length + 1, q, ?_⟩
    have hdistance : LEN (p + (t.path ++ t.queryPart).length + 1)
        (p + (t.path ++ t.queryPart).length + 1 + t.fragment.length) = t.fragment.length := by
      rw [LEN_of_le (Nat.le_add_right _ _) (by omega), Nat.add_sub_cancel_left]
    have hstart : p + t.path.length + t.queryPart.length + 1 = p + (t.path ++ t.queryPart).length + 1 := by
      rw [List.length_append, Nat.add_assoc p]
    have hcalls : t.calls p = t.frontCalls p ++ [.fragment (p + (t.path ++ t.queryPart).length + 1) t.fragment.length] := by
      rw [Target.calls, if_neg hfragment, hstart]
    have hall := hfront.append (htext.append hend)
    simp only [List.foldl_cons, List.foldl_nil, act, Scan.call, hdistance, List.append_assoc] at hall
    have hoffset : p + t.render.length + 1 = p + (t.path ++ t.queryPart).length + 1 + t.fragment.length + 1 := by omega
    have hbytes : t.render ++ [' '.toUInt8] =
        t.path ++ (t.queryPart ++ (['#'.toUInt8] ++ (t.fragment ++ [' '.toUInt8]))) := by
      rw [Target.render, hpart]
      simp only [List.append_assoc, List.cons_append, List.nil_append]
    rw [hoffset, hbytes, hcalls]
    exact hall

/-! ## The rest of the request line -/

/-- the state behind `n` bytes of a method -/
def methodState (n : ℕ) : ℤ := if n = 1 then 2 else 173 + n

theorem isMethod_space {c : UInt8} (h : isMethod c = true) : is ' ' c = false := by
  revert c
  apply forall_byte
  decide +kernel

theorem table_method {n : ℕ} (hn : 1 ≤ n) (hn20 : n ≤ 20) :
    httpTable relaxed (methodState n) ' '.toUInt8 = some (3, [.request_method]) ∧
      (n < 20 → ∀ c, isMethod c = true → httpTable relaxed (methodState n) c = some (methodState (n + 1), [])) := by
  by_cases h1 : n = 1
  · subst h1
    have hrow : row relaxed 2 = [(is ' ', 3, [.request_method]), (isMethod, 175, [])] := rfl
    refine ⟨by cases relaxed <;> decide, fun _ c hc => ?_⟩
    have hspace := isMethod_space hc
    rw [methodState, if_pos rfl, httpTable, hrow]
    simp [hspace, hc, methodState]
  · have hstate : methodState n = 173 + n := if_neg h1
    have hnext : methodState (n + 1) = 173 + n + 1 := by
      rw [methodState, if_neg (by omega)]
      push_cast
      ring
    by_cases h20 : n = 20
    · subst h20
      exact ⟨by cases relaxed <;> decide, fun hlt => absurd hlt (lt_irrefl _)⟩
    · have hrow : row relaxed (173 + n : ℤ) = [(is ' ', 3, [.request_method]), (isMethod, (173 + n + 1 : ℤ), [])] := by
        rw [row, if_neg (by omega), if_neg (by omega), if_pos (by omega)]
      have hsame : is ' ' ' '.toUInt8 = true := by decide
      refine ⟨?_, fun _ c hc => ?_⟩
      · rw [hstate, httpTable, hrow]
        simp [hsame]
      · have hspace := isMethod_space hc
        rw [hstate, hnext, httpTable, hrow]
        simp [hspace, hc]

theorem reads_methodRest {n : ℕ} (hn : 1 ≤ n) {v : Bytes} (hv : v.all isMethod = true) (hlength : n + v.length ≤ 20)
    (p : ℕ) (s : Scan) :
    (machine relaxed len).Reads ⟨methodState n, p, s⟩ v ⟨methodState (n + v.length), p + v.length, s⟩ := by
  induction v generalizing n p with
  | nil => exact .nil _
  | cons c v ih =>
    rw [List.all_cons, Bool.and_eq_true] at hv
    rw [List.length_cons] at hlength
    have hone := reads_byte len ((table_method relaxed hn (by omega)).2 (by omega) c hv.1) (by decide) p s
    have hrest := ih (by omega : 1 ≤ n + 1) hv.2 (by omega) (p + 1)
    have hstate : n + (c :: v).length = n + 1 + v.length := by rw [List.length_cons]; omega
    have hoffset : p + (c :: v).length = p + 1 + v.length := by rw [List.length_cons]; omega
    rw [hstate, hoffset]
    exact hone.append hrest

/-- one to twenty upper-case letters or digits, and a space -/
theorem reads_method {t : Bytes} (hne : t ≠ []) (ht : t.all isMethod = true) (ht20 : t.length ≤ 20) (p : ℕ) (s : Scan)
    (hsize : p + t.length < 2 ^ 64) :
    (machine relaxed len).Reads ⟨1, p, s⟩ (t ++ [' '.toUInt8])
      ⟨3, p + t.length + 1, ⟨{ s.parser with mark := p }, s.calls ++ [.request_method p t.length]⟩⟩ := by
  obtain ⟨c, v, rfl⟩ := List.exists_cons_of_ne_nil hne
  rw [List.all_cons, Bool.and_eq_true] at ht
  rw [List.length_cons] at ht20
  have hrow : row relaxed 1 = [(isMethod, 2, [.mark]), (is '<', 194, [.mark]), (is '@', 198, [.mark])] := rfl
  have hfirst : httpTable relaxed 1 c = some (methodState 1, [.mark]) := by
    rw [httpTable, hrow]
    simp [ht.1, methodState]
  have hone := reads_byte len hfirst (by decide) p s
  have hrest := reads_methodRest len relaxed le_rfl ht.2 (by omega) (p + 1) { s with parser.mark := p }
  have hspace := reads_byte len (table_method relaxed (by omega : 1 ≤ 1 + v.length) (by omega)).1 (by decide)
    (p + 1 + v.length) { s with parser.mark := p }
  have hdistance : LEN p (p + 1 + v.length) = (c :: v).length := by
    rw [LEN_of_le (by omega) (by rw [List.length_cons] at hsize; omega), List.length_cons]
    omega
  have hall := hone.append (hrest.append hspace)
  simp only [List.foldl_cons, List.foldl_nil, act, Scan.call, hdistance] at hall
  have hoffset : p + (c :: v).length + 1 = p + 1 + v.length + 1 := by rw [List.length_cons]; omega
  rw [hoffset]
  exact hall

/-- `HTTP/1.0` or `HTTP/1.1` -/
def versionText (minor : UInt8) : Bytes := bytes "HTTP/1." ++ [minor]

/-- the version and the end of its line -/
theorem reads_version {minor : UInt8} (hminor : minor ∈ ['0'.toUInt8, '1'.toUInt8]) {eol : Bytes} (heol : IsEol eol)
    (p : ℕ) (s : Scan) (hsize : p + 8 < 2 ^ 64) :
    (machine relaxed len).Reads ⟨4, p, s⟩ (versionText minor ++ eol)
      ⟨13, p + 8 + eol.length, ⟨{ s.parser with mark := p }, s.calls ++ [.http_version p 8]⟩⟩ := by
  have h4 : httpTable relaxed 4 'H'.toUInt8 = some (5, [.mark]) := by cases relaxed <;> decide
  have hquiet : ∀ minor ∈ ['0'.toUInt8, '1'.toUInt8],
      quietPath (httpTable relaxed) 5 (bytes "TTP/1." ++ [minor]) = some 12 :=
    forall_mem_of_all (by cases relaxed <;> decide)
  have hlf : httpTable relaxed 12 '\n'.toUInt8 = some (13, [.http_version]) ∧
      httpTable relaxed 12 '\r'.toUInt8 = some (17, [.http_version]) ∧
      httpTable relaxed 17 '\n'.toUInt8 = some (13, []) := by cases relaxed <;> decide
  have hfirst := reads_byte len h4 (by decide) p s
  have hrest := reads_of_quietPath (M := machine relaxed len) (hquiet minor hminor) (p + 1) { s with parser.mark := p }
  have hword : (bytes "TTP/1." ++ [minor]).length = 7 := by
    rw [List.length_append, List.length_singleton, show (bytes "TTP/1.").length = 6 from by decide]
  rw [hword] at hrest
  have hdistance : LEN p (p + 1 + 7) = 8 := by
    rw [LEN_of_le (by omega) (by omega)]
    omega
  have htext : versionText minor = ['H'.toUInt8] ++ (bytes "TTP/1." ++ [minor]) := rfl
  have hend : (machine relaxed len).Reads ⟨12, p + 1 + 7, { s with parser.mark := p }⟩ eol
      ⟨13, p + 8 + eol.length, ⟨{ s.parser with mark := p }, s.calls ++ [.http_version p 8]⟩⟩ := by
    rcases heol with rfl | rfl
    · have hall := (reads_byte len hlf.2.1 (by decide) (p + 1 + 7) { s with parser.mark := p }).append
        (reads_byte len hlf.2.2 (by decide) (p + 1 + 7 + 1) _)
      simp only [List.foldl_cons, List.foldl_nil, act, Scan.call, hdistance] at hall
      exact hall
    · have hone := reads_byte len hlf.1 (by decide) (p + 1 + 7) { s with parser.mark := p }
      simp only [List.foldl_cons, List.foldl_nil, act, Scan.call, hdistance] at hone
      exact hone
  rw [htext, List.append_assoc]
  exact hfirst.append (hrest.append hend)

end

/-! ## Header lines -/

def isLws (c : UInt8) : Bool := is ' ' c || is '\t' c

structure Field where
  name : Bytes
  /-- what stands between the ':' and the line end -/
  text : Bytes
  eol : Bytes

structure Field.Ok (f : Field) : Prop where
  name_ne : f.name ≠ []
  /-- a line that starts with CR or LF might be the empty one -/
  name_first : ∀ c ∈ f.name.head?, is '\r' c = false ∧ is '\n' c = false
  name : ∀ c ∈ f.name, isName c = true
  text : ∀ c ∈ f.text, isContent c = true
  eol : IsEol f.eol

def Field.blanks (f : Field) : Bytes := f.text.takeWhile isLws

def Field.value (f : Field) : Bytes := f.text.dropWhile isLws

def Field.render (f : Field) : Bytes := f.name ++ ([':'.toUInt8] ++ (f.text ++ f.eol))

/-- where the value of a line begins that starts at `p` -/
def Field.valueAt (f : Field) (p : ℕ) : ℕ := p + f.name.length + 1 + f.blanks.length

/-- the registers behind a line that starts at `p` -/
def Field.effect (f : Field) (p : ℕ) (s : Scan) : Scan where
  parser := { s.parser with
    field_start := p
    field_len := f.name.length
    mark := f.valueAt p }
  calls := s.calls ++ [.http_field p f.name.length (f.valueAt p) f.value.length]

theorem Field.length_render (f : Field) (p : ℕ) :
    p + f.render.length = f.valueAt p + f.value.length + f.eol.length := by
  have htext : f.text.length = f.blanks.length + f.value.length := by
    rw [← List.length_append, blanks, value, List.takeWhile_append_dropWhile]
  rw [render, valueAt]
  simp only [List.length_append, List.length_singleton]
  omega

section

variable (len : ℕ) (relaxed : Bool)

theorem byte_classes : ∀ c : UInt8, (isName c = true → is ':' c = false) ∧
    (isContent c = true → is '\r' c = false ∧ is '\n' c = false) ∧
    (isLws c = true → is '\r' c = false ∧ is '\n' c = false) := by
  apply forall_byte
  decide +kernel

theorem table_name {c : UInt8} (hc : isName c = true) :
    httpTable relaxed 14 c = some (14, []) ∧
      (is '\r' c = false → is '\n' c = false → httpTable relaxed 13 c = some (14, [.start_field])) := by
  have hcolon := (byte_classes c).1 hc
  have h14 : row relaxed 14 = [(is ':', 15, [.write_field]), (isName, 14, [])] := rfl
  have h13 : row relaxed 13 =
    [(is '\n', 348, [.start_field, .done]), (is '\r', 18, [.start_field]), (isName, 14, [.start_field])] := rfl
  refine ⟨?_, fun hcr hlf => ?_⟩
  · rw [httpTable, h14]
    simp [hcolon, hc]
  · rw [httpTable, h13]
    simp [hcr, hlf, hc]

theorem table_blank {c : UInt8} (hc : isLws c = true) : httpTable relaxed 15 c = some (15, [.start_value]) := by
  obtain ⟨hcr, hlf⟩ := (byte_classes c).2.2 hc
  have h15 : row relaxed 15 = [(is '\n', 13, [.start_value, .write_value]), (is '\r', 17, [.start_value, .write_value]),
    (isLws, 15, [.start_value]), (isContent, 16, [.start_value])] := rfl
  rw [httpTable, h15]
  simp [hcr, hlf, hc]

theorem table_content {c : UInt8} (hc : isContent c = true) :
    httpTable relaxed 16 c = some (16, []) ∧
      (isLws c = false → httpTable relaxed 15 c = some (16, [.start_value])) := by
  obtain ⟨hcr, hlf⟩ := (byte_classes c).2.1 hc
  have h15 : row relaxed 15 = [(is '\n', 13, [.start_value, .write_value]), (is '\r', 17, [.start_value, .write_value]),
    (isLws, 15, [.start_value]), (isContent, 16, [.start_value])] := rfl
  have h16 : row relaxed 16 = [(is '\n', 13, [.write_value]), (is '\r', 17, [.write_value]), (isContent, 16, [])] := rfl
  refine ⟨?_, fun hblank => ?_⟩
  · rw [httpTable, h16]
    simp [hcr, hlf, hc]
  · rw [httpTable, h15]
    simp [hcr, hlf, hblank, hc]

theorem reads_name {name : Bytes} (hne : name ≠ []) (hfirst : ∀ c ∈ name.head?, is '\r' c = false ∧ is '\n' c = false)
    (hname : ∀ c ∈ name, isName c = true) (p : ℕ) (s : Scan) (hsize : p + name.length < 2 ^ 64) :
    (machine relaxed len).Reads ⟨13, p, s⟩ (name ++ [':'.toUInt8])
      ⟨15, p + name.length + 1, { s with parser.field_start := p, parser.field_len := name.length }⟩ := by
  obtain ⟨c, v, rfl⟩ := List.exists_cons_of_ne_nil hne
  obtain ⟨hcr, hlf⟩ := hfirst c rfl
  have hone := reads_byte len ((table_name relaxed (hname c List.mem_cons_self)).2 hcr hlf) (by decide) p s
  have hrest := reads_stay (M := machine relaxed len) (s := (14 : ℤ))
    (fun b hb => (table_name relaxed (hname b (List.mem_cons_of_mem c hb))).1) (p + 1) { s with parser.field_start := p }
  have h14 : httpTable relaxed 14 ':'.toUInt8 = some (15, [.write_field]) := by cases relaxed <;> decide
  have hcolon := reads_byte len h14 (by decide) (p + 1 + v.length) { s with parser.field_start := p }
  rw [List.length_cons] at hsize
  have hdistance : LEN p (p + 1 + v.length) = (c :: v).length := by
    rw [LEN_of_le (by omega) (by omega), List.length_cons]
    omega
  have hall := hone.append (hrest.append hcolon)
  simp only [List.foldl_cons, List.foldl_nil, act, hdistance] at hall
  have hoffset : p + (c :: v).length + 1 = p + 1 + v.length + 1 := by rw [List.length_cons]; omega
  rw [hoffset]
  exact hall

theorem reads_blanks {blanks : Bytes} (hblanks : ∀ c ∈ blanks, isLws c = true) (p : ℕ) (s : Scan) :
    ∃ m, (machine relaxed len).Reads ⟨15, p, s⟩ blanks ⟨15, p + blanks.length, { s with parser.mark := m }⟩ := by
  induction blanks generalizing p s with
  | nil => exact ⟨s.parser.mark, .nil _⟩
  | cons c blanks ih =>
    have hone := reads_byte len (table_blank relaxed (hblanks c List.mem_cons_self)) (by decide) p s
    obtain ⟨m, hrest⟩ := ih (fun b hb => hblanks b (List.mem_cons_of_mem c hb)) (p + 1) { s with parser.mark := p }
    have hlength : p + (c :: blanks).length = p + 1 + blanks.length := by rw [List.length_cons]; omega
    rw [hlength]
    exact ⟨m, hone.append hrest⟩

/-- the line end behind a value that began at `p`, which may be empty -/
theorem reads_valueEnd {v eol : Bytes} (hv : ∀ c ∈ v, isContent c = true) (hblank : ∀ c ∈ v.head?, isLws c = false)
    (heol : IsEol eol) (p : ℕ) (s : Scan) (hsize : p + v.length < 2 ^ 64) :
    (machine relaxed len).Reads ⟨15, p, s⟩ (v ++ eol)
      ⟨13, p + v.length + eol.length, { s with parser.mark := p }.call
        (.http_field s.parser.field_start s.parser.field_len p v.length)⟩ := by
  have hends : httpTable relaxed 15 '\n'.toUInt8 = some (13, [.start_value, .write_value]) ∧
      httpTable relaxed 15 '\r'.toUInt8 = some (17, [.start_value, .write_value]) ∧
      httpTable relaxed 16 '\n'.toUInt8 = some (13, [.write_value]) ∧
      httpTable relaxed 16 '\r'.toUInt8 = some (17, [.write_value]) ∧
      httpTable relaxed 17 '\n'.toUInt8 = some (13, []) := by cases relaxed <;> decide
  have hdistance : LEN p (p + v.length) = v.length := by
    rw [LEN_of_le (Nat.le_add_right _ _) hsize, Nat.add_sub_cancel_left]
  cases v with
  | nil =>
    rw [List.length_nil, Nat.add_zero] at hdistance
    rcases heol with rfl | rfl
    · have hall := (reads_byte len hends.2.1 (by decide) p s).append (reads_byte len hends.2.2.2.2 (by decide) (p + 1) _)
      simp only [List.foldl_cons, List.foldl_nil, act, hdistance] at hall
      exact hall
    · have hone := reads_byte len hends.1 (by decide) p s
      simp only [List.foldl_cons, List.foldl_nil, act, hdistance] at hone
      exact hone
  | cons c v =>
    have hfirst := reads_byte len ((table_content relaxed (hv c List.mem_cons_self)).2 (hblank c rfl)) (by decide) p s
    have hrest := reads_stay (M := machine relaxed len) (s := (16 : ℤ))
      (fun b hb => (table_content relaxed (hv b (List.mem_cons_of_mem c hb))).1) (p + 1) { s with parser.mark := p }
    have hoffset : p + 1 + v.length = p + (c :: v).length := by rw [List.length_cons]; omega
    rw [hoffset] at hrest
    have htext := hfirst.append hrest
    rcases heol with rfl | rfl
    · have hend := (reads_byte len hends.2.2.2.1 (by decide) (p + (c :: v).length) { s with parser.mark := p }).append
        (reads_byte len hends.2.2.2.2 (by decide) (p + (c :: v).length + 1) _)
      simp only [List.foldl_cons, List.foldl_nil, act, hdistance] at hend
      exact htext.append hend
    · have hend := reads_byte len hends.2.2.1 (by decide) (p + (c :: v).length) { s with parser.mark := p }
      simp only [List.foldl_cons, List.foldl_nil, act, hdistance] at hend
      exact htext.append hend

/-- **A header line is read.** -/
theorem reads_field {f : Field} (hf : f.Ok) (p : ℕ) (s : Scan) (hsize : p + f.render.length < 2 ^ 64) :
    (machine relaxed len).Reads ⟨13, p, s⟩ f.render ⟨13, p + f.render.length, f.effect p s⟩ := by
  have hlength := f.length_render p
  have hat : f.valueAt p = p + f.name.length + 1 + f.blanks.length := rfl
  have htext : f.text = f.blanks ++ f.value := List.takeWhile_append_dropWhile.symm
  have hname := reads_name len relaxed hf.name_ne hf.name_first hf.name p s (by omega)
  obtain ⟨m, hblanks⟩ := reads_blanks len relaxed (fun c hc => List.mem_takeWhile_imp hc : ∀ c ∈ f.blanks, isLws c = true)
    (p + f.name.length + 1) { s with parser.field_start := p, parser.field_len := f.name.length }
  have hfirst : ∀ c ∈ f.value.head?, isLws c = false := by
    intro c hc
    have hhead := List.head?_dropWhile_not isLws f.text
    rw [← Field.value, hc] at hhead
    exact hhead
  have hvalue := reads_valueEnd len relaxed
    (fun c hc => hf.text c ((List.dropWhile_sublist isLws).subset hc) : ∀ c ∈ f.value, isContent c = true) hfirst hf.eol
    (f.valueAt p) { s with parser.field_start := p, parser.field_len := f.name.length, parser.mark := m } (by omega)
  have hall := hname.append (hblanks.append hvalue)
  have hbytes : f.name ++ [':'.toUInt8] ++ (f.blanks ++ (f.value ++ f.eol)) = f.render := by
    rw [Field.render, htext]
    simp only [List.append_assoc]
  rw [hbytes, ← hlength] at hall
  exact hall

/-- the registers behind lines that start at `p` -/
def fieldsEffect : ℕ → List Field → Scan → Scan
  | _, [], s => s
  | p, f :: fs, s => fieldsEffect (p + f.render.length) fs (f.effect p s)

def renderFields (fs : List Field) : Bytes := fs.flatMap Field.render

/-- the callbacks for lines that start at `p` -/
def fieldCalls : ℕ → List Field → List Call
  | _, [] => []
  | p, f :: fs => .http_field p f.name.length (f.valueAt p) f.value.length :: fieldCalls (p + f.render.length) fs

theorem reads_fields {fs : List Field} (hfs : ∀ f ∈ fs, f.Ok) (p : ℕ) (s : Scan)
    (hsize : p + (renderFields fs).length < 2 ^ 64) :
    (machine relaxed len).Reads ⟨13, p, s⟩ (renderFields fs) ⟨13, p + (renderFields fs).length, fieldsEffect p fs s⟩ := by
  induction fs generalizing p s with
  | nil => exact .nil _
  | cons f fs ih =>
    have hrender : renderFields (f :: fs) = f.render ++ renderFields fs := List.flatMap_cons
    have hlength : (renderFields (f :: fs)).length = f.render.length + (renderFields fs).length := by
      rw [hrender, List.length_append]
    have hone := reads_field len relaxed (hfs f List.mem_cons_self) p s (by omega)
    have hrest := ih (fun g hg => hfs g (List.mem_cons_of_mem f hg)) (p + f.render.length) (f.effect p s) (by omega)
    rw [hlength, ← Nat.add_assoc, hrender]
    exact hone.append hrest

/-- the lines call for their names and values, and leave the registers of other messages alone -/
theorem fieldsEffect_spec (p : ℕ) (fs : List Field) (s : Scan) :
    (fieldsEffect p fs s).calls = s.calls ++ fieldCalls p fs ∧
      (fieldsEffect p fs s).parser.xml_sent = s.parser.xml_sent ∧
      (fieldsEffect p fs s).parser.json_sent = s.parser.json_sent := by
  induction fs generalizing p s with
  | nil => exact ⟨(List.append_nil _).symm, rfl, rfl⟩
  | cons f fs ih =>
    obtain ⟨hcalls, hxml, hjson⟩ := ih (p + f.render.length) (f.effect p s)
    refine ⟨?_, hxml, hjson⟩
    rw [fieldsEffect, hcalls, fieldCalls, Field.effect, List.append_assoc]
    rfl

/-- **The empty line ends the run**, at the byte behind it. -/
theorem run_end {s : Scan} (hxml : s.parser.xml_sent = 0) (hjson : s.parser.json_sent = 0) {eol : Bytes} (heol : IsEol eol)
    (p : ℕ) (rest : Bytes) :
    ∃ t : Scan, (machine relaxed len).run ⟨13, p, s⟩ (eol ++ rest) = ⟨348, p + eol.length, t⟩ ∧
      t.calls = s.calls ++ [.header_done (p + eol.length) (len - (p + eol.length))] := by
  have h13 : httpTable relaxed 13 '\n'.toUInt8 = some (348, [.start_field, .done]) ∧
      httpTable relaxed 13 '\r'.toUInt8 = some (18, [.start_field]) ∧
      httpTable relaxed 18 '\n'.toUInt8 = some (348, [.done]) := by cases relaxed <;> decide
  have hdone : ∀ (q : ℕ) (t : Scan), t.parser.xml_sent = 0 → t.parser.json_sent = 0 →
      act len q t .done = { t with parser.body_start := q + 1 }.call (.header_done (q + 1) (len - (q + 1))) := by
    intro q t hx hj
    rw [act, hx, hj, if_neg (by simp), Nat.sub_sub]
  rcases heol with rfl | rfl
  · have hfirst := reads_byte len h13.2.1 (by decide) p s
    have hsplit : crlf ++ rest = ['\r'.toUInt8] ++ '\n'.toUInt8 :: rest := rfl
    have hend := hdone (p + 1) { s with parser.field_start := p } hxml hjson
    refine ⟨act len (p + 1) { s with parser.field_start := p } .done, ?_, by rw [hend]; rfl⟩
    rw [hsplit, hfirst.run, Machine.run, step_of_table h13.2.2]
    rfl
  · have hend := hdone p { s with parser.field_start := p } hxml hjson
    refine ⟨act len p { s with parser.field_start := p } .done, ?_, by rw [hend]; rfl⟩
    rw [List.singleton_append, Machine.run, step_of_table h13.1]
    rfl

end

/-! ## A head -/

structure Head where
  method : Bytes
  target : Target
  minor : UInt8
  /-- the end of the request line -/
  lineEol : Bytes
  fields : List Field
  eol : Bytes

structure Head.Ok (h : Head) : Prop where
  method_ne : h.method ≠ []
  method : h.method.all isMethod = true
  method_length : h.method.length ≤ 20
  target : h.target.Ok
  minor : h.minor ∈ ['0'.toUInt8, '1'.toUInt8]
  lineEol : IsEol h.lineEol
  fields : ∀ f ∈ h.fields, f.Ok
  eol : IsEol h.eol

def Head.requestLine (h : Head) : Bytes :=
  h.method ++ [' '.toUInt8] ++ (h.target.render ++ [' '.toUInt8] ++ (versionText h.minor ++ h.lineEol))

def Head.lead (h : Head) : Bytes := h.requestLine ++ renderFields h.fields

def Head.render (h : Head) : Bytes := h.lead ++ h.eol

/-- where the target begins -/
def Head.targetAt (h : Head) : ℕ := h.method.length + 1

def Head.versionAt (h : Head) : ℕ := h.targetAt + h.target.render.length + 1

/-- the callbacks in front of the empty line -/
def Head.calls (h : Head) : List Call :=
  .request_method 0 h.method.length ::
    (h.target.calls h.targetAt ++ .http_version h.versionAt 8 :: fieldCalls h.requestLine.length h.fields)

theorem Head.length_requestLine (h : Head) : h.requestLine.length = h.versionAt + 8 + h.lineEol.length := by
  have hword : (bytes "HTTP/1.").length = 7 := by decide
  simp only [requestLine, versionAt, targetAt, versionText, List.length_append, List.length_singleton, hword]
  omega

section

variable (len : ℕ) (relaxed : Bool)

theorem reads_requestLine {h : Head} (hh : h.Ok) (s : Scan) (hsize : h.requestLine.length < 2 ^ 64) :
    ∃ m q, (machine relaxed len).Reads ⟨1, 0, s⟩ h.requestLine
      ⟨13, h.requestLine.length, ⟨{ s.parser with mark := m, query_start := q }, s.calls ++
        .request_method 0 h.method.length :: (h.target.calls h.targetAt ++ [.http_version h.versionAt 8])⟩⟩ := by
  have hlength := h.length_requestLine
  have hversionAt : h.versionAt = h.targetAt + h.target.render.length + 1 := rfl
  have htargetAt : h.targetAt = h.method.length + 1 := rfl
  have hmethod := reads_method len relaxed hh.method_ne hh.method hh.method_length 0 s (by omega)
  rw [Nat.zero_add, ← htargetAt] at hmethod
  obtain ⟨m, q, htarget⟩ := reads_target len relaxed hh.target h.targetAt
    ⟨{ s.parser with mark := 0 }, s.calls ++ [.request_method 0 h.method.length]⟩ (by omega)
  rw [← hversionAt] at htarget
  have hversion := reads_version len relaxed hh.minor hh.lineEol h.versionAt
    ⟨{ s.parser with mark := m, query_start := q },
      (s.calls ++ [.request_method 0 h.method.length]) ++ h.target.calls h.targetAt⟩ (by omega)
  rw [← hlength] at hversion
  have hbytes : h.method ++ [' '.toUInt8] ++ (h.target.render ++ [' '.toUInt8] ++ (versionText h.minor ++ h.lineEol)) =
    h.requestLine := rfl
  have hall := hmethod.append (htarget.append hversion)
  rw [hbytes] at hall
  simp only [List.append_assoc, List.cons_append, List.nil_append] at hall
  exact ⟨h.versionAt, q, hall⟩

/-- the machine on a head in front of any bytes -/
theorem run_head {h : Head} (hh : h.Ok) {s : Scan} (hxml : s.parser.xml_sent = 0) (hjson : s.parser.json_sent = 0)
    (hsize : h.lead.length < 2 ^ 64) (rest : Bytes) :
    ∃ t : Scan, (machine relaxed len).run ⟨1, 0, s⟩ (h.render ++ rest) = ⟨348, h.render.length, t⟩ ∧
      t.calls = s.calls ++ (h.calls ++ [.header_done h.render.length (len - h.render.length)]) := by
  have hlead : h.lead.length = h.requestLine.length + (renderFields h.fields).length := List.length_append
  have hrender : h.render.length = h.lead.length + h.eol.length := List.length_append
  obtain ⟨m, q, hline⟩ := reads_requestLine len relaxed hh s (by omega)
  have hfields := reads_fields len relaxed hh.fields h.requestLine.length
    ⟨{ s.parser with mark := m, query_start := q }, s.calls ++
      .request_method 0 h.method.length :: (h.target.calls h.targetAt ++ [.http_version h.versionAt 8])⟩ (by omega)
  rw [← hlead] at hfields
  obtain ⟨hcalls, hx, hj⟩ := fieldsEffect_spec h.requestLine.length h.fields
    ⟨{ s.parser with mark := m, query_start := q }, s.calls ++
      .request_method 0 h.method.length :: (h.target.calls h.targetAt ++ [.http_version h.versionAt 8])⟩
  obtain ⟨t, hend, hdone⟩ := run_end len relaxed (hx.trans hxml) (hj.trans hjson) hh.eol h.lead.length rest
  rw [← hrender] at hend hdone
  refine ⟨t, ?_, ?_⟩
  · have hall := (hline.append hfields).run (h.eol ++ rest)
    rw [hend, ← List.append_assoc] at hall
    exact hall
  · rw [hdone, hcalls, Head.calls]
    simp only [List.append_assoc, List.cons_append, List.nil_append]

end

end Sylar.Http.Request

/-
How far the rows of the response scanner have read a header line.

The state in a name knows the letters read while a keyword may still come of them, and the state in a value those of a
word that is looked for behind the keyword. A keyword is one whatever the case of its letters.

Results:
- `scan_eq`: the scanner is a machine over its table;
- `table_lineStart`, `table_name`, `table_colon`: the bytes of a name, and the state behind its ':';
- `table_first`, `table_value`: the bytes of a value;
- `endsLine_value`: the line end, and the state behind it.
-/
import Sylar.Core.Transducer
import Sylar.Http.ResponseTable

namespace Sylar.Http

open Sylar.Text Sylar.Transducer
open Sylar.MachineInt (toSigned)

/-! ## The scanner as a machine -/

def responseMachine (table : Table) (memory : Bytes) (len : ℕ) : Machine ℤ UInt8 ParserAction Scan where
  table := table
  act := act memory len
  stops a := a = .done
  error := httpclient_parser_error

theorem runActions_eq (table : Table) (memory : Bytes) (len p : ℕ) (actions : List ParserAction) (s : Scan) :
    runActions memory len p actions s = (responseMachine table memory len).apply p actions s := by
  induction actions generalizing s with
  | nil => rfl
  | cons a actions ih =>
    cases a with
    | done => rfl
    | _ => exact ih _

theorem scan_eq (table : Table) (memory : Bytes) (len : ℕ) (cs : ℤ) (p : ℕ) (s : Scan) (rest : Bytes) :
    scan table memory len cs p s rest =
      ⟨((responseMachine table memory len).run ⟨cs, p, s⟩ rest).state,
        ((responseMachine table memory len).run ⟨cs, p, s⟩ rest).offset,
        ((responseMachine table memory len).run ⟨cs, p, s⟩ rest).registers⟩ := by
  induction rest generalizing cs p s with
  | nil => rfl
  | cons c rest ih =>
    rw [scan, Machine.run, Machine.step]
    have htable : (responseMachine table memory len).table cs c = table cs c := rfl
    simp only [htable]
    cases table cs c with
    | none => rfl
    | some next =>
      simp only [← runActions_eq]
      rcases runActions memory len p next.2 s with ⟨s', out⟩
      cases out with
      | true => rfl
      | false => exact ih next.1 (p + 1) s'

/-! ## Names -/

/-- the rows for the letters of a keyword, by what they have read -/
def spelled (cs : ℤ) : Bytes :=
  if 25 ≤ cs ∧ cs ≤ 34 then (bytes "connection").take (cs - 24).toNat
  else if 44 ≤ cs ∧ cs ≤ 60 then (bytes "transfer-encoding").take (cs - 43).toNat
  else if 73 ≤ cs ∧ cs ≤ 79 then (bytes "chunked").take (cs - 72).toNat
  else if 90 ≤ cs ∧ cs ≤ 94 then (bytes "close").take (cs - 89).toNat
  else if 101 ≤ cs ∧ cs ≤ 111 then (bytes "content-length").take (cs - 97).toNat
  else []

def wordStates : List ℤ := [25, 26, 27, 28, 29, 30, 31, 32, 33, 34, 44, 45, 46, 47, 48, 49, 50, 51, 52, 53, 54, 55, 56,
  57, 58, 59, 60, 73, 74, 75, 76, 77, 78, 90, 91, 92, 93, 101, 102, 103, 104, 105, 106, 107, 108, 109, 110, 111]

def keywords : List Bytes := [bytes "connection", bytes "transfer-encoding", bytes "content-length"]

/-- the letters of a row go on with what has been read, and leave out no keyword -/
def Follows (cs : ℤ) (letters : List (Char × ℤ)) : Prop :=
  (∀ k ∈ letters, k.2 ∈ 79 :: 94 :: wordStates ∧ spelled k.2 = spelled cs ++ [k.1.toUInt8]) ∧
    ∀ word ∈ keywords, spelled cs <+: word → word = spelled cs ∨ ∃ k ∈ letters, spelled cs ++ [k.1.toUInt8] <+: word

instance (cs : ℤ) (letters : List (Char × ℤ)) : Decidable (Follows cs letters) := inferInstanceAs (Decidable (_ ∧ _))

theorem row_word : ∀ cs ∈ wordStates, ∃ letters colon, row cs = nameRow letters colon ∧ Follows cs letters := by
  intro cs hcs
  fin_cases hcs <;> exact ⟨_, _, rfl, by decide⟩

/-- a state in a name: either it knows what has been read, or no keyword begins with that -/
def Spelled (cs : ℤ) (u : Bytes) : Prop :=
  (cs ∈ 79 :: 94 :: wordStates ∧ lower u = spelled cs) ∨
    ((cs = 21 ∨ cs = 117) ∧ ∀ word ∈ keywords, ¬ lower u <+: word)

theorem isToken_ne {c : UInt8} (h : isToken c = true) :
    is ':' c = false ∧ is '\r' c = false ∧ is '\n' c = false ∧ isBlank c = false := by
  revert c
  apply forall_byte
  decide +kernel

theorem lower_append (u v : Bytes) : lower (u ++ v) = lower u ++ lower v := List.map_append

/-- in a row for a name, a token byte goes on with a letter or gives the keyword up -/
theorem find_nameRow {letters : List (Char × ℤ)} {colon : ℤ} {c : UInt8} (hc : isToken c = true) :
    ((nameRow letters colon).find? fun k => k.1 c).map Prod.snd =
      some (match letters.find? fun k => letter k.1 c with
        | some k => (k.2, [])
        | none => (21, [])) := by
  rw [nameRow, List.find?_append, List.find?_map]
  have hletters : (fun k : Case => k.1 c) ∘ (fun k : Char × ℤ => (letter k.1, k.2, [])) = fun k => letter k.1 c := rfl
  rw [hletters]
  cases letters.find? fun k => letter k.1 c with
  | some k => rfl
  | none => simp [isToken_ne hc, hc]

/-- what follows a beginning that no keyword has is none either -/
theorem not_prefix_append {u v word : Bytes} (h : ¬ lower u <+: word) : ¬ lower (u ++ v) <+: word := by
  intro hprefix
  rw [lower_append] at hprefix
  exact h ((List.prefix_append _ _).trans hprefix)

theorem spelled_next {cs : ℤ} {letters : List (Char × ℤ)} {colon : ℤ} {u : Bytes} {c : UInt8}
    (hfollows : Follows cs letters) (hu : lower u = spelled cs) (hc : isToken c = true) :
    ∃ next, ((nameRow letters colon).find? fun k => k.1 c).map Prod.snd = some (next, []) ∧ Spelled next (u ++ [c]) := by
  have hlower : lower (u ++ [c]) = spelled cs ++ [tolower c] := by rw [lower_append, hu]; rfl
  rw [find_nameRow hc]
  cases hfind : letters.find? fun k => letter k.1 c with
  | some k =>
    have hmatch := List.find?_some hfind
    have hletter : tolower c = k.1.toUInt8 := of_decide_eq_true hmatch
    obtain ⟨hstate, hspelled⟩ := hfollows.1 k (List.mem_of_find?_eq_some hfind)
    exact ⟨k.2, rfl, Or.inl ⟨hstate, by rw [hlower, hletter, hspelled]⟩⟩
  | none =>
    refine ⟨21, rfl, Or.inr ⟨Or.inl rfl, fun word hword hprefix => ?_⟩⟩
    rw [hlower] at hprefix
    rcases hfollows.2 word hword ((List.prefix_append _ _).trans hprefix) with h | ⟨k, hk, hnext⟩
    · have hlength := hprefix.length_le
      rw [h, List.length_append, List.length_singleton] at hlength
      omega
    · -- the keyword goes on with a letter of the row, and `c` is none of them
      have hsame := List.prefix_of_prefix_length_le hprefix hnext (by simp)
      have hbyte : tolower c = k.1.toUInt8 := by simpa using hsame.eq_of_length (by simp)
      exact absurd (decide_eq_true hbyte) (List.find?_eq_none.1 hfind k hk)

theorem httpclientTable_eq (cs : ℤ) (c : UInt8) :
    httpclientTable cs c = ((row cs).find? fun k => k.1 c).map Prod.snd := rfl

/-- a token byte is read in a name, without an action -/
theorem table_name {cs : ℤ} {u : Bytes} {c : UInt8} (h : Spelled cs u) (hc : isToken c = true) :
    ∃ next, httpclientTable cs c = some (next, []) ∧ Spelled next (u ++ [c]) := by
  obtain ⟨-, hcr, hlf, -⟩ := isToken_ne hc
  rcases h with ⟨hcs, hu⟩ | ⟨hcs, hnone⟩
  · rcases List.mem_cons.1 hcs with rfl | hcs
    · have hrow : row 79 = (is '\n', 20, [.write_value, .trans_chunked]) :: (is '\r', 71, [.write_value]) ::
        nameRow [] 22 := rfl
      rw [httpclientTable_eq, hrow, List.find?_cons_of_neg (by simp [hlf]), List.find?_cons_of_neg (by simp [hcr])]
      exact spelled_next (by decide) hu hc
    rcases List.mem_cons.1 hcs with rfl | hcs
    · have hrow : row 94 = (is '\n', 43, []) :: (is '\r', 88, []) :: nameRow [] 22 := rfl
      rw [httpclientTable_eq, hrow, List.find?_cons_of_neg (by simp [hlf]), List.find?_cons_of_neg (by simp [hcr])]
      exact spelled_next (by decide) hu hc
    · obtain ⟨letters, colon, hrow, hfollows⟩ := row_word cs hcs
      rw [httpclientTable_eq, hrow]
      exact spelled_next hfollows hu hc
  · have hnext : ∀ word ∈ keywords, ¬ lower (u ++ [c]) <+: word := fun word hword => not_prefix_append (hnone word hword)
    rcases hcs with rfl | rfl
    · have hrow : row 21 = nameRow [] 22 := rfl
      rw [httpclientTable_eq, hrow, find_nameRow hc]
      exact ⟨21, rfl, Or.inr ⟨Or.inl rfl, hnext⟩⟩
    · have hrow : row 117 = (is '\n', 20, [.write_content_len, .write_value]) ::
        (is '\r', 24, [.write_content_len, .write_value]) :: (isDigit, 117, []) :: nameRow [] 22 := rfl
      rw [httpclientTable_eq, hrow, List.find?_cons_of_neg (by simp [hlf]), List.find?_cons_of_neg (by simp [hcr])]
      by_cases hdigit : isDigit c = true
      · rw [List.find?_cons_of_pos (by simpa using hdigit)]
        exact ⟨117, rfl, Or.inr ⟨Or.inr rfl, hnext⟩⟩
      · rw [List.find?_cons_of_neg (by simpa using hdigit), find_nameRow hc]
        exact ⟨21, rfl, Or.inr ⟨Or.inl rfl, hnext⟩⟩

/-- the state behind the ':', by the name in lower case -/
def valueStart (name : Bytes) : ℤ :=
  if name = bytes "connection" then 35
  else if name = bytes "transfer-encoding" then 61
  else if name = bytes "content-length" then 112
  else 22

theorem colon_word : ∀ cs ∈ 79 :: 94 :: wordStates,
    httpclientTable cs ':'.toUInt8 = some (valueStart (spelled cs), [.write_field]) := by decide

theorem table_colon {cs : ℤ} {u : Bytes} (h : Spelled cs u) :
    httpclientTable cs ':'.toUInt8 = some (valueStart (lower u), [.write_field]) := by
  rcases h with ⟨hcs, hu⟩ | ⟨hcs, hnone⟩
  · rw [hu]
    exact colon_word cs hcs
  · have hno : ∀ word ∈ keywords, lower u ≠ word := fun word hword h => hnone word hword (h ▸ List.prefix_refl _)
    simp only [keywords, List.forall_mem_cons] at hno
    rw [valueStart, if_neg hno.1, if_neg hno.2.1, if_neg hno.2.2.1]
    rcases hcs with rfl | rfl <;> decide

/-! ## The beginning of a line -/

/-- behind a line; all but the first one know of the line that they are behind -/
def lineStarts : List ℤ := [20, 36, 43, 62, 113]

theorem spelled_first {c : UInt8} :
    (letter 'c' c = true → Spelled 25 [c] ∧ Spelled 73 [c] ∧ Spelled 90 [c]) ∧ (letter 't' c = true → Spelled 44 [c]) := by
  refine ⟨fun h => ?_, fun h => ?_⟩
  · have hc : lower [c] = ['c'.toUInt8] := congrArg (fun b => [b]) (of_decide_eq_true h)
    exact ⟨Or.inl ⟨by decide, hc⟩, Or.inl ⟨by decide, hc⟩, Or.inl ⟨by decide, hc⟩⟩
  · have ht : lower [c] = ['t'.toUInt8] := congrArg (fun b => [b]) (of_decide_eq_true h)
    exact Or.inl ⟨by decide, ht⟩

/-- no keyword begins with another byte -/
theorem spelled_other {cs : ℤ} {c : UInt8} (hcs : cs = 21 ∨ cs = 117) (hc : letter 'c' c = false)
    (ht : letter 't' c = false) : Spelled cs [c] := by
  refine Or.inr ⟨hcs, ?_⟩
  have hc' : tolower c ≠ 'c'.toUInt8 := of_decide_eq_false hc
  have ht' : tolower c ≠ 't'.toUInt8 := of_decide_eq_false ht
  have hconnection : bytes "connection" = 'c'.toUInt8 :: bytes "onnection" := rfl
  have htransfer : bytes "transfer-encoding" = 't'.toUInt8 :: bytes "ransfer-encoding" := rfl
  have hcontent : bytes "content-length" = 'c'.toUInt8 :: bytes "ontent-length" := rfl
  simp [keywords, hconnection, htransfer, hcontent, lower, hc', ht']

/-- the tests for the first byte of a name -/
def firstTests (word : ℤ) (onWord others : List ParserAction) : List Case :=
  [(letter 'c', word, onWord), (letter 't', 44, others), (isToken, 21, others)]

theorem isDigit_letter {c : UInt8} (h : isDigit c = true) : letter 'c' c = false ∧ letter 't' c = false := by
  revert c
  apply forall_byte
  decide +kernel

theorem table_firstTests {cs word : ℤ} {heads : List Case} {onWord others : List ParserAction} {c : UInt8}
    (hrow : row cs = heads ++ firstTests word onWord others) (hword : word = 25 ∨ word = 73 ∨ word = 90)
    (hheads : ∀ k ∈ heads, k.1 c = false) (hc : isToken c = true) :
    ∃ next actions, httpclientTable cs c = some (next, actions) ∧ Spelled next [c] ∧
      (actions = onWord ∨ actions = others) := by
  have hnone : heads.find? (fun k => k.1 c) = none :=
    List.find?_eq_none.2 fun k hk => by rw [hheads k hk]; exact Bool.false_ne_true
  rw [httpclientTable_eq, hrow, List.find?_append, hnone, Option.none_or, firstTests]
  cases hlc : letter 'c' c with
  | true =>
    obtain ⟨h25, h73, h90⟩ := spelled_first.1 hlc
    refine ⟨word, onWord, by simp [hlc], ?_, Or.inl rfl⟩
    rcases hword with rfl | rfl | rfl
    · exact h25
    · exact h73
    · exact h90
  | false =>
    cases hlt : letter 't' c with
    | true => exact ⟨44, others, by simp [hlc, hlt], spelled_first.2 hlt, Or.inr rfl⟩
    | false => exact ⟨21, others, by simp [hlc, hlt, hc], spelled_other (Or.inl rfl) hlc hlt, Or.inr rfl⟩

/-- the first byte of a name starts a field, behind what the line before has left to do -/
theorem table_lineStart {cs : ℤ} (hcs : cs ∈ lineStarts) {c : UInt8} (hc : isToken c = true) :
    ∃ next actions, httpclientTable cs c = some (next, actions) ∧ Spelled next [c] ∧
      (if cs = 43 then actions = [.write_connection_close, .start_field]
        else actions = [.start_field] ∨ actions = [.start_value, .start_field]) := by
  obtain ⟨-, hcr, hlf, hblank⟩ := isToken_ne hc
  simp only [lineStarts, List.mem_cons, List.not_mem_nil, or_false] at hcs
  rcases hcs with rfl | rfl | rfl | rfl | rfl
  · have hrow : row 20 = [(is '\n', 120, [.done]), (is '\r', 3, [])] ++ firstTests 25 [.start_field] [.start_field] := rfl
    obtain ⟨next, actions, h, hnext, hactions⟩ := table_firstTests hrow (Or.inl rfl) (by simp [hcr, hlf]) hc
    exact ⟨next, actions, h, hnext, Or.inl (or_self_iff.1 hactions)⟩
  · have hrow : row 36 = [(is '\n', 122, [.done]), (is '\r', 89, []), (isBlank, 37, [])] ++
      firstTests 90 [.start_field] [.start_field] := rfl
    obtain ⟨next, actions, h, hnext, hactions⟩ :=
      table_firstTests hrow (Or.inr (Or.inr rfl)) (by simp [hcr, hlf, hblank]) hc
    exact ⟨next, actions, h, hnext, Or.inl (or_self_iff.1 hactions)⟩
  · have hrow : row 43 = [(is '\n', 120, [.write_connection_close, .done]), (is '\r', 3, [.write_connection_close])] ++
      firstTests 25 [.write_connection_close, .start_field] [.write_connection_close, .start_field] := rfl
    obtain ⟨next, actions, h, hnext, hactions⟩ := table_firstTests hrow (Or.inl rfl) (by simp [hcr, hlf]) hc
    exact ⟨next, actions, h, hnext, or_self_iff.1 hactions⟩
  · have hrow : row 62 = [(is '\n', 121, [.done]), (is '\r', 72, []), (isBlank, 63, [])] ++
      firstTests 73 [.start_value, .start_field] [.start_field] := rfl
    obtain ⟨next, actions, h, hnext, hactions⟩ :=
      table_firstTests hrow (Or.inr (Or.inl rfl)) (by simp [hcr, hlf, hblank]) hc
    exact ⟨next, actions, h, hnext, hactions.symm⟩
  · have hrow : row 113 = [(is '\n', 123, [.done]), (is '\r', 116, []), (isBlank, 114, []),
      (isDigit, 117, [.start_value, .start_field])] ++ firstTests 25 [.start_field] [.start_field] := rfl
    by_cases hdigit : isDigit c = true
    · -- a number may be the value that is waited for
      have htable : httpclientTable 113 c = some (117, [.start_value, .start_field]) := by
        rw [httpclientTable_eq, hrow]
        simp [hcr, hlf, hblank, hdigit]
      obtain ⟨hlc, hlt⟩ := isDigit_letter hdigit
      exact ⟨117, _, htable, spelled_other (Or.inr rfl) hlc hlt, Or.inr rfl⟩
    · obtain ⟨next, actions, h, hnext, hactions⟩ :=
        table_firstTests hrow (Or.inl rfl) (by simp [hcr, hlf, hblank, hdigit]) hc
      exact ⟨next, actions, h, hnext, Or.inl (or_self_iff.1 hactions)⟩

/-! ## Values -/

def valueStarts : List ℤ := [22, 35, 61, 112]

theorem valueStart_mem (name : Bytes) : valueStart name ∈ valueStarts := by
  rw [valueStart]
  split_ifs <;> decide

/-- the state behind the beginning `v` of a value -/
def valueState (vs : ℤ) (v : Bytes) : ℤ :=
  if v = [] then vs
  else if vs = 35 ∧ lower v <+: bytes "close" then 95 + v.length
  else if vs = 61 ∧ lower v <+: bytes "chunked" then 80 + v.length
  else if vs = 112 ∧ v.all isDigit then 119
  else 23

theorem table_blank {vs : ℤ} (hvs : vs ∈ valueStarts) {c : UInt8} (hc : isBlank c = true) :
    httpclientTable vs c = some (vs, [.start_value]) := by
  have hno : is '\n' c = false ∧ is '\r' c = false ∧ letter 'c' c = false ∧ isDigit c = false := by
    revert c
    apply forall_byte
    decide +kernel
  obtain ⟨hlf, hcr, hletter, hdigit⟩ := hno
  have hrow : ∃ lf cr first, row vs = valueStartRow vs lf cr first ∧
      (first = [] ∨ first = [(letter 'c', 96)] ∨ first = [(letter 'c', 81)] ∨ first = [(isDigit, 119)]) := by
    fin_cases hvs
    · exact ⟨_, _, [], rfl, Or.inl rfl⟩
    · exact ⟨_, _, [(letter 'c', 96)], rfl, Or.inr (Or.inl rfl)⟩
    · exact ⟨_, _, [(letter 'c', 81)], rfl, Or.inr (Or.inr (Or.inl rfl))⟩
    · exact ⟨_, _, [(isDigit, 119)], rfl, Or.inr (Or.inr (Or.inr rfl))⟩
  obtain ⟨lf, cr, first, hrow, hfirst⟩ := hrow
  rw [httpclientTable_eq, hrow, valueStartRow]
  rcases hfirst with rfl | rfl | rfl | rfl <;> simp [hlf, hcr, hletter, hdigit, hc]

/-- the first byte of a value -/
theorem table_first {vs : ℤ} (hvs : vs ∈ valueStarts) {c : UInt8} (hcr : is '\r' c = false) (hlf : is '\n' c = false)
    (hblank : isBlank c = false) : httpclientTable vs c = some (valueState vs [c], [.start_value]) := by
  have hclose : lower [c] <+: bytes "close" ↔ letter 'c' c = true := by
    have hword : bytes "close" = 'c'.toUInt8 :: bytes "lose" := rfl
    simp [lower, hword, letter]
  have hchunked : lower [c] <+: bytes "chunked" ↔ letter 'c' c = true := by
    have hword : bytes "chunked" = 'c'.toUInt8 :: bytes "hunked" := rfl
    simp [lower, hword, letter]
  rw [httpclientTable_eq, valueState, if_neg (List.cons_ne_nil c [])]
  simp only [hclose, hchunked]
  simp only [valueStarts, List.mem_cons, List.not_mem_nil, or_false] at hvs
  rcases hvs with rfl | rfl | rfl | rfl
  · have hrow : row 22 = valueStartRow 22 20 24 [] := rfl
    rw [hrow, valueStartRow]
    simp [hcr, hlf, hblank]
  · have hrow : row 35 = valueStartRow 35 36 95 [(letter 'c', 96)] := rfl
    rw [hrow, valueStartRow]
    cases h : letter 'c' c <;> simp [hcr, hlf, hblank, h]
  · have hrow : row 61 = valueStartRow 61 62 80 [(letter 'c', 81)] := rfl
    rw [hrow, valueStartRow]
    cases h : letter 'c' c <;> simp [hcr, hlf, hblank, h]
  · have hrow : row 112 = valueStartRow 112 113 118 [(isDigit, 119)] := rfl
    rw [hrow, valueStartRow]
    cases h : isDigit c <;> simp [hcr, hlf, hblank, h]

theorem prefix_append_one {u w : Bytes} {x : UInt8} (hu : u <+: w) : u ++ [x] <+: w ↔ w[u.length]? = some x := by
  obtain ⟨t, rfl⟩ := hu
  rw [List.prefix_append_right_inj, List.getElem?_append_right le_rfl, Nat.sub_self]
  cases t with
  | nil => simp
  | cons y t => simp [eq_comm]

/-- the rows of the value `word`: the one behind its first `n` bytes goes on with the next byte -/
def WordRows (word : Bytes) (base : ℤ) : Prop :=
  ∀ n : ℕ, 1 ≤ n → n ≤ word.length → ∃ next lf cr last trailing, row (base + n) = valueRow next lf cr last trailing ∧
    ((∃ k : Char, word[n]? = some k.toUInt8 ∧ next = [(letter k, base + n + 1)]) ∨ (word[n]? = none ∧ next = []))

theorem wordRows_close : WordRows (bytes "close") 95 := by
  intro n hlo hhi
  have hlength : (bytes "close").length = 5 := by decide
  rw [hlength] at hhi
  interval_cases n
  · exact ⟨_, _, _, _, _, rfl, Or.inl ⟨'l', by decide, rfl⟩⟩
  · exact ⟨_, _, _, _, _, rfl, Or.inl ⟨'o', by decide, rfl⟩⟩
  · exact ⟨_, _, _, _, _, rfl, Or.inl ⟨'s', by decide, rfl⟩⟩
  · exact ⟨_, _, _, _, _, rfl, Or.inl ⟨'e', by decide, rfl⟩⟩
  · exact ⟨_, _, _, _, _, rfl, Or.inr ⟨by decide, rfl⟩⟩

theorem wordRows_chunked : WordRows (bytes "chunked") 80 := by
  intro n hlo hhi
  have hlength : (bytes "chunked").length = 7 := by decide
  rw [hlength] at hhi
  interval_cases n
  · exact ⟨_, _, _, _, _, rfl, Or.inl ⟨'h', by decide, rfl⟩⟩
  · exact ⟨_, _, _, _, _, rfl, Or.inl ⟨'u', by decide, rfl⟩⟩
  · exact ⟨_, _, _, _, _, rfl, Or.inl ⟨'n', by decide, rfl⟩⟩
  · exact ⟨_, _, _, _, _, rfl, Or.inl ⟨'k', by decide, rfl⟩⟩
  · exact ⟨_, _, _, _, _, rfl, Or.inl ⟨'e', by decide, rfl⟩⟩
  · exact ⟨_, _, _, _, _, rfl, Or.inl ⟨'d', by decide, rfl⟩⟩
  · exact ⟨_, _, _, _, _, rfl, Or.inr ⟨by decide, rfl⟩⟩

theorem find_valueRow {next : List ((UInt8 → Bool) × ℤ)} {lf cr : ℤ} {last trailing : List ParserAction} {c : UInt8}
    (hcr : is '\r' c = false) (hlf : is '\n' c = false) :
    ((valueRow next lf cr last trailing).find? fun k => k.1 c).map Prod.snd =
      some (match next.find? fun k => k.1 c with
        | some k => (k.2, [])
        | none => (23, [])) := by
  rw [valueRow, List.find?_append, List.find?_map]
  have hnext : (fun k : Case => k.1 c) ∘ (fun k : (UInt8 → Bool) × ℤ => (k.1, k.2, [])) = fun k => k.1 c := rfl
  rw [hnext]
  cases next.find? fun k => k.1 c with
  | some k => rfl
  | none => simp [hcr, hlf]

theorem table_word {word : Bytes} {base : ℤ} (hrows : WordRows word base) {v : Bytes} {c : UInt8} (hne : v ≠ [])
    (hv : lower v <+: word) (hcr : is '\r' c = false) (hlf : is '\n' c = false) :
    httpclientTable (base + v.length) c = some (if lower (v ++ [c]) <+: word then base + v.length + 1 else 23, []) := by
  have hlength : (lower v).length = v.length := List.length_map _
  have hlo : 1 ≤ v.length := List.length_pos_iff.2 hne
  have hhi : v.length ≤ word.length := hlength ▸ hv.length_le
  have hgoes : lower (v ++ [c]) <+: word ↔ word[v.length]? = some (tolower c) := by
    rw [lower_append, ← hlength]
    exact prefix_append_one hv
  obtain ⟨next, lf, cr, last, trailing, hrow, hnext⟩ := hrows v.length hlo hhi
  rw [httpclientTable_eq, hrow, find_valueRow hcr hlf]
  simp only [hgoes]
  rcases hnext with ⟨k, hk, rfl⟩ | ⟨hk, rfl⟩
  · rw [hk]
    by_cases hletter : tolower c = k.toUInt8
    · simp [letter, hletter]
    · simp [letter, hletter, Ne.symm hletter]
  · simp [hk]

/-- a further byte of a value -/
theorem table_value {vs : ℤ} {v : Bytes} {c : UInt8} (hne : v ≠ []) (hcr : is '\r' c = false) (hlf : is '\n' c = false) :
    httpclientTable (valueState vs v) c = some (valueState vs (v ++ [c]), []) := by
  have hnext : v ++ [c] ≠ [] := by simp
  have hlength : (((v ++ [c]).length : ℕ) : ℤ) = v.length + 1 := by simp
  have h23 : httpclientTable 23 c = some (23, []) := by
    have hrow : row 23 = valueRow [] 20 24 [.write_value] [] := rfl
    rw [httpclientTable_eq, hrow, find_valueRow hcr hlf]
    rfl
  rw [valueState, valueState, if_neg hne, if_neg hnext, hlength]
  by_cases hclose : vs = 35 ∧ lower v <+: bytes "close"
  · obtain ⟨rfl, hv⟩ := hclose
    rw [if_pos ⟨rfl, hv⟩, table_word wordRows_close hne hv hcr hlf]
    simp [add_assoc]
  by_cases hchunked : vs = 61 ∧ lower v <+: bytes "chunked"
  · obtain ⟨rfl, hv⟩ := hchunked
    rw [if_neg hclose, if_pos ⟨rfl, hv⟩, table_word wordRows_chunked hne hv hcr hlf]
    simp [add_assoc]
  have hclose' : ¬ (vs = 35 ∧ lower (v ++ [c]) <+: bytes "close") := fun h =>
    not_prefix_append (fun hv => hclose ⟨h.1, hv⟩) h.2
  have hchunked' : ¬ (vs = 61 ∧ lower (v ++ [c]) <+: bytes "chunked") := fun h =>
    not_prefix_append (fun hv => hchunked ⟨h.1, hv⟩) h.2
  rw [if_neg hclose, if_neg hchunked, if_neg hclose', if_neg hchunked']
  by_cases hdigits : vs = 112 ∧ v.all isDigit = true
  · rw [if_pos hdigits]
    have hrow : row 119 = valueRow [(isDigit, 119)] 20 24 [.write_content_len, .write_value] [] := rfl
    rw [httpclientTable_eq, hrow, find_valueRow hcr hlf]
    cases h : isDigit c <;> simp [h, hdigits.1, hdigits.2]
  · have hdigits' : ¬ (vs = 112 ∧ (v ++ [c]).all isDigit = true) := fun h =>
      hdigits ⟨h.1, by rw [List.all_append, Bool.and_eq_true] at h; exact h.2.1⟩
    rw [if_neg hdigits, if_neg hdigits', h23]

/-! ## Line ends -/

/-- the state behind the line -/
def afterLine (vs : ℤ) (v : Bytes) : ℤ :=
  if v = [] then
    if vs = 35 then 36 else if vs = 61 then 62 else if vs = 112 then 113 else 20
  else if vs = 35 ∧ lower v = bytes "close" then 43
  else 20

def lastActions (vs : ℤ) (v : Bytes) : List ParserAction :=
  if v = [] then [.start_value, .write_value]
  else if vs = 112 ∧ v.all isDigit then [.write_content_len, .write_value]
  else [.write_value]

def trailingActions (vs : ℤ) (v : Bytes) : List ParserAction :=
  if vs = 61 ∧ lower v = bytes "chunked" then [.trans_chunked] else []

theorem afterLine_mem (vs : ℤ) (v : Bytes) : afterLine vs v ∈ lineStarts := by
  rw [afterLine]
  split_ifs <;> decide

/-- a line ends the same way with LF and with CR LF -/
structure EndsLine (q next : ℤ) (last trailing : List ParserAction) : Prop where
  lf : httpclientTable q '\n'.toUInt8 = some (next, last ++ trailing)
  cr : ∃ between, httpclientTable q '\r'.toUInt8 = some (between, last) ∧
    httpclientTable between '\n'.toUInt8 = some (next, trailing)

theorem endsLine_empty : ∀ vs ∈ valueStarts,
    EndsLine vs (afterLine vs []) [.start_value, .write_value] [] := by
  intro vs hvs
  fin_cases hvs
  · exact ⟨by decide, 24, by decide, by decide⟩
  · exact ⟨by decide, 95, by decide, by decide⟩
  · exact ⟨by decide, 80, by decide, by decide⟩
  · exact ⟨by decide, 118, by decide, by decide⟩

theorem endsLine_plain : ∀ q ∈ [23, 81, 82, 83, 84, 85, 86, 96, 97, 98, 99], EndsLine q 20 [.write_value] [] := by
  intro q hq
  fin_cases hq <;> exact ⟨by decide, 24, by decide, by decide⟩

/-- of the states for a word, the last one alone has the whole word behind it -/
theorem word_cases {word : Bytes} {v : Bytes} (hne : v ≠ []) (hv : lower v <+: word) :
    (lower v = word ∧ v.length = word.length) ∨ (lower v ≠ word ∧ 1 ≤ v.length ∧ v.length < word.length) := by
  have hlength : (lower v).length = v.length := List.length_map _
  have hlo : 1 ≤ v.length := List.length_pos_iff.2 hne
  by_cases hword : lower v = word
  · exact Or.inl ⟨hword, by rw [← hlength, hword]⟩
  · have hlt := hv.length_le.lt_of_ne fun h => hword (hv.eq_of_length h)
    exact Or.inr ⟨hword, hlo, by omega⟩

theorem endsLine_value {vs : ℤ} (hvs : vs ∈ valueStarts) (v : Bytes) :
    EndsLine (valueState vs v) (afterLine vs v) (lastActions vs v) (trailingActions vs v) := by
  by_cases hne : v = []
  · subst hne
    have htrailing : trailingActions vs [] = [] := if_neg fun h => absurd h.2 (by decide)
    rw [htrailing]
    exact endsLine_empty vs hvs
  rw [valueState, afterLine, lastActions, trailingActions, if_neg hne, if_neg hne, if_neg hne]
  by_cases hclose : vs = 35 ∧ lower v <+: bytes "close"
  · obtain ⟨rfl, hv⟩ := hclose
    have hdigits : ¬ ((35 : ℤ) = 112 ∧ v.all isDigit = true) := fun h => absurd h.1 (by decide)
    have hchunked : ¬ ((35 : ℤ) = 61 ∧ lower v = bytes "chunked") := fun h => absurd h.1 (by decide)
    rw [if_pos ⟨rfl, hv⟩, if_neg hdigits, if_neg hchunked]
    rcases word_cases hne hv with ⟨hword, hlength⟩ | ⟨hword, hlo, hhi⟩
    · have hlast : (95 : ℤ) + v.length = 100 := by rw [hlength]; decide
      rw [hlast, if_pos ⟨rfl, hword⟩]
      exact ⟨by decide, 88, by decide, by decide⟩
    · have hbefore : (95 : ℤ) + v.length ∈ [23, 81, 82, 83, 84, 85, 86, 96, 97, 98, 99] := by
        change v.length < 5 at hhi
        generalize v.length = n at hlo hhi
        interval_cases n <;> decide
      rw [if_neg fun h => hword h.2]
      exact endsLine_plain _ hbefore
  have hclose' : ¬ (vs = 35 ∧ lower v = bytes "close") := fun h => hclose ⟨h.1, h.2 ▸ List.prefix_refl _⟩
  rw [if_neg hclose, if_neg hclose']
  by_cases hchunked : vs = 61 ∧ lower v <+: bytes "chunked"
  · obtain ⟨rfl, hv⟩ := hchunked
    have hdigits : ¬ ((61 : ℤ) = 112 ∧ v.all isDigit = true) := fun h => absurd h.1 (by decide)
    rw [if_pos ⟨rfl, hv⟩, if_neg hdigits]
    rcases word_cases hne hv with ⟨hword, hlength⟩ | ⟨hword, hlo, hhi⟩
    · have hlast : (80 : ℤ) + v.length = 87 := by rw [hlength]; decide
      rw [hlast, if_pos ⟨rfl, hword⟩]
      exact ⟨by decide, 71, by decide, by decide⟩
    · have hbefore : (80 : ℤ) + v.length ∈ [23, 81, 82, 83, 84, 85, 86, 96, 97, 98, 99] := by
        change v.length < 7 at hhi
        generalize v.length = n at hlo hhi
        interval_cases n <;> decide
      rw [if_neg fun h => hword h.2]
      exact endsLine_plain _ hbefore
  have hchunked' : ¬ (vs = 61 ∧ lower v = bytes "chunked") := fun h => hchunked ⟨h.1, h.2 ▸ List.prefix_refl _⟩
  rw [if_neg hchunked, if_neg hchunked']
  split_ifs
  · exact ⟨by decide, 24, by decide, by decide⟩
  · exact endsLine_plain 23 List.mem_cons_self

end Sylar.Http

/-
The callback `on_request_method` of http_parser.cc and the lookup `CharsToHttpMethod` behind it.

The generated machine calls it with a pointer into the input buffer, which has no NUL behind the method, and with the
length of the token. `CharsToHttpMethod` takes the pointer alone: it compares each name of the table with as many bytes
of the buffer as the name has. A comparison that would look behind the end of the buffer gives `none`.

Results:
- `CharsToHttpMethod_eq`: on a token and a space, the lookup takes the first name that is a prefix of the token;
- `whole_token_iff`: the token is read as a whole exactly when no name is a proper prefix of it.
-/
import Sylar.Http.Message

namespace Sylar.Http

open Sylar.Text

/-! ## Model -/

/-- `strncmp(name, m, n) == 0` for a literal and what stands at `m`; `none` when it looks behind the end of that memory -/
def strncmpEq : (name m : Bytes) → (n : ℕ) → Option Bool
  | _, _, 0 => some true
  | _, [], _ + 1 => none
  -- the NUL at the end of the literal
  | [], b :: _, _ + 1 => some (b = 0)
  | a :: name, b :: m, n + 1 =>
    if a ≠ b then some false
    else if a = 0 then some true
    else strncmpEq name m n

/-- the comparisons that HTTP_METHOD_MAP expands to, one after the other -/
def charsLookup (m : Bytes) : List (HttpMethod × Bytes) → Option HttpMethod
  | [] => some .INVALID_METHOD
  | (name, string) :: table =>
    (strncmpEq string m string.length).bind fun equal => if equal then some name else charsLookup m table

def CharsToHttpMethod (m : Bytes) : Option HttpMethod := charsLookup m httpMethodMap

structure HttpRequestParser where
  data : HttpRequest
  /-- 1000: invalid method, 1001: invalid version, 1002: invalid field -/
  error : ℤ

def HttpRequestParser.setError (parser : HttpRequestParser) (v : ℤ) : HttpRequestParser := { parser with error := v }

/-- `getData()->setMethod(m)` -/
def HttpRequestParser.setMethod (parser : HttpRequestParser) (m : HttpMethod) : HttpRequestParser :=
  { parser with data := { parser.data with method := m } }

def on_request_method (parser : HttpRequestParser) (at' : Bytes) (length : ℕ) : Option HttpRequestParser :=
  (CharsToHttpMethod at').bind fun m =>
    if m = .INVALID_METHOD then
      -- the warning prints the token
      if length ≤ at'.length then some (parser.setError 1000) else none
    else some (parser.setMethod m)

/-! ## The buffer at a token -/

/-- what the callback's pointer points to -/
def buffer (t rest : Bytes) : Bytes := t ++ ' '.toUInt8 :: rest

/-- one to twenty upper-case letters or digits -/
structure Token (t : Bytes) : Prop where
  length_pos : 1 ≤ t.length
  length_le : t.length ≤ 20
  chars : ∀ c ∈ t, ('A'.toUInt8 ≤ c ∧ c ≤ 'Z'.toUInt8) ∨ ('0'.toUInt8 ≤ c ∧ c ≤ '9'.toUInt8)

theorem Token.no_nul {t : Bytes} (ht : Token t) : 0 ∉ t := by
  intro h0
  rcases ht.chars 0 h0 with h | h
  · exact absurd h.1 (by decide)
  · exact absurd h.1 (by decide)

theorem strncmpEq_buffer {name : Bytes} (hnul : 0 ∉ name) (hspace : ' '.toUInt8 ∉ name) (t rest : Bytes) :
    strncmpEq name (buffer t rest) name.length = some (name.isPrefixOf t) := by
  induction name generalizing t with
  | nil => rfl
  | cons a name ih =>
    obtain ⟨ha, hname⟩ := not_or.1 (fun h => hspace (List.mem_cons.2 h))
    obtain ⟨ha0, hname0⟩ := not_or.1 (fun h => hnul (List.mem_cons.2 h))
    cases t with
    | nil =>
      -- the first byte that is not the token's is the space
      rw [buffer, List.nil_append, List.length_cons, strncmpEq, if_pos (Ne.symm ha)]
      rfl
    | cons b t =>
      rw [buffer, List.cons_append, List.length_cons, strncmpEq, List.isPrefixOf_cons_cons]
      split_ifs with hab h0
      · rw [beq_false_of_ne hab, Bool.false_and]
      · exact absurd h0.symm ha0
      · rw [not_not.1 hab, beq_self_eq_true, Bool.true_and]
        exact ih hname0 hname t

/-- the name of the first entry that `p` holds of -/
def firstMethod (p : Bytes → Bool) : HttpMethod :=
  match httpMethodMap.find? fun x => p x.2 with
  | some x => x.1
  | none => .INVALID_METHOD

theorem charsLookup_buffer {table : List (HttpMethod × Bytes)} (h : ∀ x ∈ table, 0 ∉ x.2 ∧ ' '.toUInt8 ∉ x.2)
    (t rest : Bytes) : charsLookup (buffer t rest) table =
      some (match table.find? fun x => x.2.isPrefixOf t with
        | some x => x.1
        | none => .INVALID_METHOD) := by
  induction table with
  | nil => rfl
  | cons x table ih =>
    obtain ⟨hnul, hspace⟩ := h x List.mem_cons_self
    rw [charsLookup, strncmpEq_buffer hnul hspace, Option.bind_some, List.find?_cons]
    cases hx : x.2.isPrefixOf t with
    | true => rfl
    | false => exact ih fun y hy => h y (List.mem_cons_of_mem x hy)

/-- the lookup takes the first name that is a prefix of the token -/
theorem CharsToHttpMethod_eq (t rest : Bytes) :
    CharsToHttpMethod (buffer t rest) = some (firstMethod fun name => name.isPrefixOf t) :=
  charsLookup_buffer (by decide +kernel) t rest

theorem StringToHttpMethod_eq {t : Bytes} (h : 0 ∉ t) : StringToHttpMethod t = firstMethod fun name => name = t := by
  rw [StringToHttpMethod, cstr_of_no_nul h]
  rfl

/-! ## When the token is read as a whole -/

theorem firstMethod_of_mem {p : Bytes → Bool} {x : HttpMethod × Bytes} (hx : x ∈ httpMethodMap) (hp : p x.2 = true) :
    ∃ y ∈ httpMethodMap, p y.2 = true ∧ firstMethod p = y.1 := by
  rw [firstMethod]
  cases hfind : httpMethodMap.find? fun x => p x.2 with
  | none => exact absurd hp (List.find?_eq_none.1 hfind x hx)
  | some y =>
    have hy := List.find?_some hfind
    exact ⟨y, List.mem_of_find?_eq_some hfind, hy, rfl⟩

theorem firstMethod_of_forall {p : Bytes → Bool} (h : ∀ x ∈ httpMethodMap, p x.2 = false) :
    firstMethod p = .INVALID_METHOD := by
  have hfind : (httpMethodMap.find? fun x => p x.2) = none :=
    List.find?_eq_none.2 fun x hx hp => by rw [h x hx] at hp; cases hp
  rw [firstMethod, hfind]

/-- no name of the table is the beginning of another -/
theorem name_eq_of_prefix : ∀ x ∈ httpMethodMap, ∀ y ∈ httpMethodMap, x.2.isPrefixOf y.2 = true → x = y := by
  decide +kernel

theorem ne_invalid : ∀ x ∈ httpMethodMap, x.1 ≠ .INVALID_METHOD := by decide

/-- the method of a name is found by the full comparison -/
theorem StringToHttpMethod_of_mem {m : HttpMethod} {t : Bytes} (h0 : 0 ∉ t) (hm : (m, t) ∈ httpMethodMap) :
    StringToHttpMethod t = m := by
  rw [StringToHttpMethod_eq h0]
  obtain ⟨y, hy, hname, hfirst⟩ := firstMethod_of_mem (p := fun name => name = t) hm (by simp)
  have hyt : y.2 = t := of_decide_eq_true hname
  have hsame : y = (m, t) := by
    refine name_eq_of_prefix y hy (m, t) hm ?_
    rw [hyt]
    exact List.isPrefixOf_iff_prefix.2 (List.prefix_refl t)
  rw [hfirst, hsame]

theorem StringToHttpMethod_of_notMem {t : Bytes} (h0 : 0 ∉ t) (hm : ∀ m, (m, t) ∉ httpMethodMap) :
    StringToHttpMethod t = .INVALID_METHOD := by
  rw [StringToHttpMethod_eq h0]
  refine firstMethod_of_forall fun x hx => decide_eq_false fun hxt => hm x.1 ?_
  rwa [← hxt]

/-- the buffer lookup and the full comparison agree, and the callback does what they say -/
structure WholeToken (t rest : Bytes) : Prop where
  agrees : CharsToHttpMethod (buffer t rest) = some (StringToHttpMethod t)
  sets : ∀ parser m, (m, t) ∈ httpMethodMap →
    on_request_method parser (buffer t rest) t.length = some (parser.setMethod m)
  errs : ∀ parser, (∀ m, (m, t) ∉ httpMethodMap) →
    on_request_method parser (buffer t rest) t.length = some (parser.setError 1000)

/-- the callback follows from the lookup -/
theorem wholeToken_of_agrees {t rest : Bytes} (h0 : 0 ∉ t)
    (h : CharsToHttpMethod (buffer t rest) = some (StringToHttpMethod t)) : WholeToken t rest where
  agrees := h
  sets := by
    intro parser m hm
    rw [on_request_method, h, StringToHttpMethod_of_mem h0 hm, Option.bind_some, if_neg (ne_invalid _ hm)]
  errs := by
    intro parser hm
    have hlength : t.length ≤ (buffer t rest).length := by
      rw [buffer, List.length_append]
      omega
    rw [on_request_method, h, StringToHttpMethod_of_notMem h0 hm, Option.bind_some, if_pos rfl, if_pos hlength]

/-- **A method is read as a whole token exactly when no name is a proper prefix of it.** -/
theorem whole_token_iff {t : Bytes} (ht : Token t) (rest : Bytes) :
    WholeToken t rest ↔ ∀ x ∈ httpMethodMap, x.2 <+: t → x.2 = t := by
  refine ⟨fun h x hx hprefix => ?_, fun h => ?_⟩
  · -- the lookup takes an entry, so the full comparison takes the same one
    have hagrees := h.agrees
    obtain ⟨y, hy, hyt, hfirst⟩ :=
      firstMethod_of_mem (p := fun name => name.isPrefixOf t) hx (List.isPrefixOf_iff_prefix.2 hprefix)
    rw [CharsToHttpMethod_eq, hfirst, Option.some_inj] at hagrees
    by_cases hname : ∃ m, (m, t) ∈ httpMethodMap
    · obtain ⟨m, hm⟩ := hname
      have hsame := name_eq_of_prefix x hx (m, t) hm (List.isPrefixOf_iff_prefix.2 hprefix)
      rw [hsame]
    · rw [StringToHttpMethod_of_notMem ht.no_nul (not_exists.1 hname)] at hagrees
      exact absurd hagrees (ne_invalid y hy)
  · refine wholeToken_of_agrees ht.no_nul ?_
    rw [CharsToHttpMethod_eq, StringToHttpMethod_eq ht.no_nul, firstMethod, firstMethod]
    have hsame : (httpMethodMap.find? fun x => x.2.isPrefixOf t) = httpMethodMap.find? fun x => decide (x.2 = t) := by
      refine List.find?_congr fun x hx => ?_
      by_cases hxt : x.2 = t
      · rw [hxt, decide_eq_true rfl]
        exact List.isPrefixOf_iff_prefix.2 (List.prefix_refl t)
      · rw [decide_eq_false hxt]
        exact Bool.eq_false_iff.2 fun hprefix => hxt (h x hx (List.isPrefixOf_iff_prefix.1 hprefix))
    rw [hsame]

theorem whole_token_iff_get : Token (bytes "GET") ∧
    (WholeToken (bytes "GET") (bytes "/") ↔
      ∀ x ∈ httpMethodMap, x.2 <+: bytes "GET" → x.2 = bytes "GET") :=
  have ht : Token (bytes "GET") := ⟨by decide, by decide, forall_mem_of_all (by decide)⟩
  ⟨ht, whole_token_iff ht (bytes "/")⟩

/-- **GETX is read as GET.** -/
theorem getx_is_get : Token (bytes "GETX") ∧
    CharsToHttpMethod (buffer (bytes "GETX") (bytes "/")) = some .GET ∧
    StringToHttpMethod (bytes "GETX") = .INVALID_METHOD ∧ ¬ WholeToken (bytes "GETX") (bytes "/") := by
  refine ⟨⟨by decide, by decide, forall_mem_of_all (by decide)⟩, by decide +kernel, by decide +kernel, fun h => ?_⟩
  exact absurd h.agrees (by decide +kernel)

end Sylar.Http

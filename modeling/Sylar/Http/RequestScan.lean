/-
`http_parser_execute` of http11_parser.rl with the machine of http11_parser.cc, and `HttpRequestParser` of http_parser.cc.

The state outlives a call, and so does an error: once the state is the error state, it is not set again. The marks start at
zero in every call, but `query_start` does not. An assertion that fails aborts the process; a callback that reads behind
the end of the buffer has no result either.

Results:
- `execute_fresh`: a fresh parser aborts on no buffer, reads nothing outside it, and consumes no more than there is.
-/
import Sylar.Http.RequestTable
import Sylar.Http.ResponseTrip
import Sylar.Http.Params

namespace Sylar.Http.Request

open Sylar.Text Sylar.Transducer
open Sylar.MachineInt (toSigned toUnsigned)

/-! ## Model -/

/-- `http_parser` -/
structure HttpParser where
  cs : ℤ
  body_start : ℕ
  content_len : ℤ
  nread : ℕ
  mark : ℕ
  field_start : ℕ
  field_len : ℕ
  query_start : ℕ
  xml_sent : ℤ
  json_sent : ℤ
  uri_relaxed : ℤ

def http_parser_start : ℤ := 1

def http_parser_first_final : ℤ := 348

def http_parser_error : ℤ := 0

/-- `query_start` and `uri_relaxed` are left as they are -/
def http_parser_init (parser : HttpParser) : HttpParser :=
  { parser with
    cs := http_parser_start
    body_start := 0
    content_len := 0
    mark := 0
    nread := 0
    field_len := 0
    field_start := 0
    xml_sent := 0
    json_sent := 0 }

/-- the callbacks, with offsets into the buffer -/
inductive Call where
  | http_field (field flen value vlen : ℕ)
  | request_method (mark length : ℕ)
  | request_uri (mark length : ℕ)
  | fragment (mark length : ℕ)
  | request_path (mark length : ℕ)
  | query_string (start length : ℕ)
  | http_version (mark length : ℕ)
  | header_done (start length : ℕ)

/-- what the actions change -/
structure Scan where
  parser : HttpParser
  calls : List Call

def Scan.call (s : Scan) (c : Call) : Scan := { s with calls := s.calls ++ [c] }

/-- one action at the byte `p` -/
def act (len p : ℕ) (s : Scan) : Action → Scan
  | .mark => { s with parser.mark := p }
  | .start_field => { s with parser.field_start := p }
  | .write_field => { s with parser.field_len := LEN s.parser.field_start p }
  | .start_value => { s with parser.mark := p }
  | .write_value =>
    s.call (.http_field s.parser.field_start s.parser.field_len s.parser.mark (LEN s.parser.mark p))
  | .request_method => s.call (.request_method s.parser.mark (LEN s.parser.mark p))
  | .request_uri => s.call (.request_uri s.parser.mark (LEN s.parser.mark p))
  | .fragment => s.call (.fragment s.parser.mark (LEN s.parser.mark p))
  | .start_query => { s with parser.query_start := p }
  | .query_string => s.call (.query_string s.parser.query_start (LEN s.parser.query_start p))
  | .http_version => s.call (.http_version s.parser.mark (LEN s.parser.mark p))
  | .request_path => s.call (.request_path s.parser.mark (LEN s.parser.mark p))
  | .done =>
    if s.parser.xml_sent ≠ 0 ∨ s.parser.json_sent ≠ 0 then
      { s with
        parser.body_start := s.parser.mark
        parser.content_len := toSigned 32 ((p : ℤ) - s.parser.mark + 1) }
    else { s with parser.body_start := p + 1 }.call (.header_done (p + 1) (len - p - 1))
  | .xml => { s with parser.xml_sent := 1 }
  | .json => { s with parser.json_sent := 1 }

/-- the generated machine in a buffer of `len` bytes -/
def machine (relaxed : Bool) (len : ℕ) : Machine ℤ UInt8 Action Scan where
  table := httpTable relaxed
  act := act len
  stops a := a = .done
  error := http_parser_error

/-- the states that the generated switch has a case for -/
def hasCase (cs : ℤ) : Prop := 1 ≤ cs ∧ cs ≤ 349

instance (cs : ℤ) : Decidable (hasCase cs) := inferInstanceAs (Decidable (_ ∧ _))

/-- what the scanner clears before it starts -/
def HttpParser.cleared (parser : HttpParser) : HttpParser :=
  { parser with nread := 0, mark := 0, field_len := 0, field_start := 0 }

/-- where the machine stops, with the registers there -/
def exec (parser : HttpParser) (data : Bytes) : Config ℤ Scan :=
  if hasCase parser.cs then
    (machine (parser.uri_relaxed ≠ 0) data.length).run ⟨parser.cs, 0, ⟨parser.cleared, []⟩⟩ data
  -- no case matches, and the first line behind the switch is that of state 2
  else ⟨2, 0, ⟨parser.cleared, []⟩⟩

/-- the parser behind a call, in which an error stays -/
def behind (parser : HttpParser) (stop : Config ℤ Scan) : HttpParser :=
  { stop.registers.parser with
    cs := if parser.cs = http_parser_error then parser.cs else stop.state
    nread := stop.registers.parser.nread + stop.offset }

/-- `none` when an assertion fails -/
def http_parser_execute (parser : HttpParser) (data : Bytes) : Option (HttpParser × List Call × ℕ) :=
  if data.length = 0 then some (parser, [], 0)
  else if (data.length : ℤ) = toSigned 32 data.length then
    let stop := exec parser data
    let parser := behind parser stop
    if stop.offset ≤ data.length ∧ parser.nread ≤ data.length ∧ parser.body_start ≤ data.length ∧
        parser.mark < data.length ∧ parser.field_len ≤ data.length ∧ parser.field_start < data.length then
      some (parser, stop.registers.calls, parser.nread)
    else none
  else none

/-! ## The callbacks -/

section

variable (memory : Bytes) (request : HttpRequestParser)

def on_request_fragment (at' length : ℕ) : Option HttpRequestParser :=
  (stringAt memory at' length).map fun fragment => { request with data.fragment := fragment }

def on_request_path (at' length : ℕ) : Option HttpRequestParser :=
  (stringAt memory at' length).map fun path => { request with data.path := path }

def on_request_query (at' length : ℕ) : Option HttpRequestParser :=
  (stringAt memory at' length).map fun query => { request with data.query := query }

def on_request_version (at' length : ℕ) : Option HttpRequestParser :=
  (strncmpEq (bytes "HTTP/1.1") (memory.drop at') length).bind fun v11 =>
    if v11 then some { request with data.version := 0x11 }
    else (strncmpEq (bytes "HTTP/1.0") (memory.drop at') length).bind fun v10 =>
      if v10 then some { request with data.version := 0x10 }
      -- the warning prints the version
      else (stringAt memory at' length).map fun _ => request.setError 1001

def on_request_http_field (field flen value vlen : ℕ) : Option HttpRequestParser :=
  if flen = 0 then some request
  else (stringAt memory field flen).bind fun key =>
    (stringAt memory value vlen).map fun val => { request with data := request.data.setHeader key val }

/-- the callbacks that the constructor installs; two of them do nothing -/
def call : Call → Option HttpRequestParser
  | .http_field field flen value vlen => on_request_http_field memory request field flen value vlen
  | .request_method mark length => on_request_method request (memory.drop mark) length
  | .request_uri _ _ => some request
  | .fragment mark length => on_request_fragment memory request mark length
  | .request_path mark length => on_request_path memory request mark length
  | .query_string start length => on_request_query memory request start length
  | .http_version mark length => on_request_version memory request mark length
  | .header_done _ _ => some request

end

/-- `memmove(data, data + offset, len - offset)` -/
def unconsumed (data : Bytes) (offset : ℕ) : Bytes := data.drop offset ++ data.drop (data.length - offset)

/-- `execute` with its callbacks: how far it has come, the parser and the request, and what it leaves in the buffer -/
def execute (parser : HttpParser) (request : HttpRequestParser) (data : Bytes) :
    Option (ℕ × HttpParser × HttpRequestParser × Bytes) :=
  (http_parser_execute parser data).bind fun (parser, calls, offset) =>
    (calls.foldlM (call data) request).map fun request => (offset, parser, request, unconsumed data offset)

/-- `isFinished` -/
def http_parser_finish (parser : HttpParser) : ℤ :=
  if parser.cs = http_parser_error then -1 else if parser.cs ≥ http_parser_first_final then 1 else 0

def hasError (parser : HttpParser) (request : HttpRequestParser) : Bool :=
  request.error ≠ 0 || parser.cs = http_parser_error

/-! ## What the table promises -/

/-- which registers hold what a callback needs: `query_start` is not behind, and the field ends in front -/
structure Known where
  query : Bool
  field : Bool

def known (cs : ℤ) : Known := ⟨30 ≤ cs ∧ cs ≤ 32, cs = 15 ∨ cs = 16⟩

/-- `none` when the action needs what is not known -/
def Known.after (k : Known) : Action → Option Known
  | .start_query => some { k with query := true }
  | .query_string => if k.query then some k else none
  | .start_field => some { k with field := false }
  | .write_field => some { k with field := true }
  | .write_value => if k.field then some k else none
  | _ => some k

/-- one case of a row: it leads to a state, its actions have what they need and leave what the state needs, and a method
ends at a space -/
def caseOk (cs : ℤ) (k : Case) : Bool :=
  hasCase k.2.1 &&
  (match k.2.2.foldlM Known.after (known cs) with
    | some after => (!(known k.2.1).query || after.query) && (!(known k.2.1).field || after.field)
    | none => false) &&
  (!k.2.2.contains .request_method || (List.range 256).all fun n => !k.1 (UInt8.ofNat n) || n = 32)

theorem rows_ok : ∀ relaxed : Bool, ∀ n : ℕ, n < 350 → ∀ k ∈ row relaxed n, caseOk n k = true := by decide +kernel

/-- what a transition may rely on -/
structure TransitionOk (cs next : ℤ) (c : UInt8) (actions : List Action) : Prop where
  hasCase : hasCase next
  known : ∃ after, actions.foldlM Known.after (known cs) = some after ∧ ((known next).query → after.query) ∧
    ((known next).field → after.field)
  method : .request_method ∈ actions → c = ' '.toUInt8

theorem table_ok {relaxed : Bool} {cs next : ℤ} {c : UInt8} {actions : List Action} (hcs : hasCase cs)
    (h : httpTable relaxed cs c = some (next, actions)) : TransitionOk cs next c actions := by
  obtain ⟨k, hfind, hk⟩ := Option.map_eq_some_iff.1 h
  have htest : k.1 c = true := by simpa using List.find?_some hfind
  have hmem : k ∈ row relaxed (cs.toNat : ℤ) := by
    rw [Int.toNat_of_nonneg (by have := hcs.1; omega)]
    exact List.mem_of_find?_eq_some hfind
  have hok := rows_ok relaxed cs.toNat (by have := hcs.2; omega) k hmem
  rw [Int.toNat_of_nonneg (by have := hcs.1; omega), caseOk, hk, Bool.and_eq_true, Bool.and_eq_true,
    decide_eq_true_eq] at hok
  obtain ⟨⟨hcase, hafter⟩, hmethod⟩ := hok
  refine ⟨hcase, ?_, fun hin => ?_⟩
  · split at hafter
    · next after hafold =>
      refine ⟨after, hafold, ?_⟩
      rw [Bool.and_eq_true, Bool.or_eq_true, Bool.or_eq_true] at hafter
      exact ⟨fun hq => hafter.1.resolve_left (by rw [hq]; decide), fun hf => hafter.2.resolve_left (by rw [hf]; decide)⟩
    · cases hafter
  · have hbyte : (List.range 256).all (fun n => !k.1 (UInt8.ofNat n) || n = 32) = true := by
      rw [Bool.or_eq_true] at hmethod
      exact hmethod.resolve_left (by simpa using hin)
    have hlt : c.toNat < 256 := c.toNat_lt
    have hspace := List.all_eq_true.1 hbyte c.toNat (List.mem_range.2 hlt)
    rw [UInt8.ofNat_toNat, htest] at hspace
    have hnat : c.toNat = 32 := by simpa using hspace
    exact UInt8.toNat_inj.1 hnat

/-! ## In a buffer -/

/-- the callback finds what it reads -/
def Safe (memory : Bytes) : Call → Prop
  | .http_field field flen value vlen => field + flen ≤ memory.length ∧ value + vlen ≤ memory.length
  | .request_method mark length => ∃ t rest, memory.drop mark = buffer t rest ∧ length = t.length
  | .request_uri mark length => mark + length ≤ memory.length
  | .fragment mark length => mark + length ≤ memory.length
  | .request_path mark length => mark + length ≤ memory.length
  | .query_string start length => start + length ≤ memory.length
  | .http_version mark length => mark + length ≤ memory.length
  | .header_done start length => start + length ≤ memory.length

/-- the registers at the byte `p` -/
structure Inv (memory : Bytes) (k : Known) (p : ℕ) (s : Scan) : Prop where
  mark : s.parser.mark ≤ p
  mark_lt : s.parser.mark < memory.length
  field_start : s.parser.field_start ≤ p
  field_start_lt : s.parser.field_start < memory.length
  field_len : s.parser.field_len ≤ memory.length
  body_start : s.parser.body_start ≤ memory.length
  nread : s.parser.nread = 0
  query : k.query → s.parser.query_start ≤ p
  field : k.field → s.parser.field_start + s.parser.field_len ≤ p
  calls : ∀ c ∈ s.calls, Safe memory c

theorem Inv.weaken {memory : Bytes} {k k' : Known} {p q : ℕ} {s : Scan} (h : Inv memory k p s) (hpq : p ≤ q)
    (hquery : k'.query → k.query) (hfield : k'.field → k.field) : Inv memory k' q s :=
  ⟨h.mark.trans hpq, h.mark_lt, h.field_start.trans hpq, h.field_start_lt, h.field_len, h.body_start, h.nread,
    fun hq => (h.query (hquery hq)).trans hpq, fun hf => (h.field (hfield hf)).trans hpq, h.calls⟩

theorem Inv.call {memory : Bytes} {k : Known} {p : ℕ} {s : Scan} (h : Inv memory k p s) {c : Call} (hc : Safe memory c) :
    Inv memory k p (s.call c) :=
  ⟨h.mark, h.mark_lt, h.field_start, h.field_start_lt, h.field_len, h.body_start, h.nread, h.query, h.field,
    fun b hb => (List.mem_append.1 hb).elim (h.calls b) fun hb => by rw [List.mem_singleton.1 hb]; exact hc⟩

theorem act_inv {memory : Bytes} {k k' : Known} {p : ℕ} {s : Scan} {a : Action} (hp : p < memory.length)
    (hlen : memory.length < 2 ^ 31) (ha : k.after a = some k')
    (hspace : a = .request_method → ∃ rest, memory.drop p = ' '.toUInt8 :: rest) (h : Inv memory k p s) :
    Inv memory k' p (act memory.length p s a) := by
  have hto : ∀ start, start ≤ p → LEN start p = p - start := fun start hstart => LEN_of_le hstart (by omega)
  have hmarked : s.parser.mark + LEN s.parser.mark p ≤ memory.length := by
    rw [hto _ h.mark]
    have := h.mark
    omega
  cases a with
  | mark =>
    obtain rfl := Option.some.inj ha
    exact { h with mark := le_rfl, mark_lt := hp }
  | start_value =>
    obtain rfl := Option.some.inj ha
    exact { h with mark := le_rfl, mark_lt := hp }
  | start_field =>
    obtain rfl := Option.some.inj ha
    exact { h with field_start := le_rfl, field_start_lt := hp, field := fun hf => absurd hf Bool.false_ne_true }
  | write_field =>
    obtain rfl := Option.some.inj ha
    have hdistance := hto _ h.field_start
    have hstart := h.field_start
    exact { h with
      field_len := by simp only [act, hdistance]; omega
      field := fun _ => by simp only [act, hdistance]; omega }
  | write_value =>
    rw [Known.after] at ha
    split_ifs at ha with hf
    obtain rfl := Option.some.inj ha
    exact h.call ⟨(h.field hf).trans hp.le, hmarked⟩
  | request_method =>
    obtain rfl := Option.some.inj ha
    obtain ⟨rest, hrest⟩ := hspace rfl
    refine h.call ⟨(memory.drop s.parser.mark).take (p - s.parser.mark), rest, ?_, ?_⟩
    · rw [buffer, ← hrest]
      have hdrop : memory.drop p = (memory.drop s.parser.mark).drop (p - s.parser.mark) := by
        rw [List.drop_drop, Nat.add_sub_cancel' h.mark]
      rw [hdrop, List.take_append_drop]
    · rw [hto _ h.mark, List.length_take, List.length_drop]
      omega
  | request_uri =>
    obtain rfl := Option.some.inj ha
    exact h.call hmarked
  | fragment =>
    obtain rfl := Option.some.inj ha
    exact h.call hmarked
  | http_version =>
    obtain rfl := Option.some.inj ha
    exact h.call hmarked
  | request_path =>
    obtain rfl := Option.some.inj ha
    exact h.call hmarked
  | start_query =>
    obtain rfl := Option.some.inj ha
    exact { h with query := fun _ => le_rfl }
  | query_string =>
    rw [Known.after] at ha
    split_ifs at ha with hq
    obtain rfl := Option.some.inj ha
    have hstart := h.query hq
    refine h.call (show s.parser.query_start + LEN s.parser.query_start p ≤ memory.length from ?_)
    rw [hto _ hstart]
    omega
  | done =>
    obtain rfl := Option.some.inj ha
    rw [act]
    split_ifs with hsocket
    · exact { h with body_start := h.mark_lt.le }
    · have hafter : Inv memory k p { s with parser.body_start := p + 1 } := { h with body_start := hp }
      refine hafter.call (show p + 1 + (memory.length - p - 1) ≤ memory.length from ?_)
      omega
  | xml =>
    obtain rfl := Option.some.inj ha
    exact { h with }
  | json =>
    obtain rfl := Option.some.inj ha
    exact { h with }

theorem apply_inv (relaxed : Bool) {memory : Bytes} {p : ℕ} (hp : p < memory.length) (hlen : memory.length < 2 ^ 31)
    {actions : List Action} (hspace : .request_method ∈ actions → ∃ rest, memory.drop p = ' '.toUInt8 :: rest)
    {k k' : Known} (hk : actions.foldlM Known.after k = some k') {s : Scan} (h : Inv memory k p s) :
    (∃ k', Inv memory k' p ((machine relaxed memory.length).apply p actions s).1) ∧
      (((machine relaxed memory.length).apply p actions s).2 = false →
        Inv memory k' p ((machine relaxed memory.length).apply p actions s).1) := by
  induction actions generalizing k s with
  | nil =>
    obtain rfl := Option.some.inj hk
    exact ⟨⟨k, h⟩, fun _ => h⟩
  | cons a actions ih =>
    rw [List.foldlM_cons] at hk
    obtain ⟨after, hafter, hrest⟩ := Option.bind_eq_some_iff.1 hk
    have hone := act_inv hp hlen hafter (fun ha => hspace (ha ▸ List.mem_cons_self)) h
    rw [Machine.apply]
    split_ifs with hstop
    · exact ⟨⟨after, hone⟩, False.elim⟩
    · exact ih (fun hin => hspace (List.mem_cons_of_mem a hin)) hrest hone

/-- **In a buffer, every callback finds what it reads**, and the assertions behind the machine hold. -/
theorem run_safe (relaxed : Bool) {memory : Bytes} (hlen : memory.length < 2 ^ 31) {c : Config ℤ Scan}
    (hcase : hasCase c.state) (hle : c.offset ≤ memory.length) (h : Inv memory (known c.state) c.offset c.registers) :
    ((machine relaxed memory.length).run c (memory.drop c.offset)).offset ≤ memory.length ∧
      ∃ k, Inv memory k ((machine relaxed memory.length).run c (memory.drop c.offset)).offset
        ((machine relaxed memory.length).run c (memory.drop c.offset)).registers := by
  refine run_inv
    (I := fun c w => hasCase c.state ∧ memory.drop c.offset = w ∧ c.offset ≤ memory.length ∧
      Inv memory (known c.state) c.offset c.registers)
    (Q := fun c => c.offset ≤ memory.length ∧ ∃ k, Inv memory k c.offset c.registers) ?_ ?_ ⟨hcase, rfl, hle, h⟩
  · rintro c a w ⟨hcase, hdrop, hoffset, hinv⟩
    have hlt : c.offset < memory.length := by
      by_contra hge
      rw [List.drop_eq_nil_of_le (by omega)] at hdrop
      cases hdrop
    have hnext : memory.drop (c.offset + 1) = w := by rw [← List.drop_drop, hdrop]; rfl
    rw [Machine.step]
    cases htable : (machine relaxed memory.length).table c.state a with
    | none => exact ⟨hoffset, _, hinv⟩
    | some next =>
      obtain ⟨state, actions⟩ := next
      have hok := table_ok hcase htable
      obtain ⟨after, hafter, hquery, hfield⟩ := hok.known
      obtain ⟨hsome, hgo⟩ := apply_inv relaxed hlt hlen (fun hin => ⟨w, by rw [hdrop, hok.method hin]⟩) hafter hinv
      simp only
      split_ifs with hstop
      · have hfalse : ((machine relaxed memory.length).apply c.offset actions c.registers).2 = false := by
          simpa using hstop
        exact ⟨hok.hasCase, hnext, hlt, (hgo hfalse).weaken (Nat.le_succ _) hquery hfield⟩
      · obtain ⟨k, hk⟩ := hsome
        exact ⟨hlt, k, hk.weaken (Nat.le_succ _) id id⟩
  · rintro c ⟨-, -, hoffset, hinv⟩
    exact ⟨hoffset, _, hinv⟩

/-! ## A fresh parser -/

theorem stringAt_of_le {memory : Bytes} {at' length : ℕ} (h : at' + length ≤ memory.length) :
    stringAt memory at' length = some ((memory.drop at').take length) := if_pos h

theorem strncmpEq_isSome (name : Bytes) {m : Bytes} {n : ℕ} (h : n ≤ m.length) : (strncmpEq name m n).isSome := by
  induction n generalizing name m with
  | zero => simp [strncmpEq]
  | succ n ih =>
    cases m with
    | nil => cases h
    | cons b m =>
      cases name with
      | nil => rfl
      | cons a name =>
        rw [strncmpEq]
        split_ifs
        · rfl
        · rfl
        · exact ih name (Nat.le_of_succ_le_succ h)

theorem call_isSome {memory : Bytes} {c : Call} (h : Safe memory c) (request : HttpRequestParser) :
    ∃ next, call memory request c = some next := by
  have hstring : ∀ {at' length : ℕ}, at' + length ≤ memory.length → length ≤ (memory.drop at').length := by
    intro at' length hle
    rw [List.length_drop]
    omega
  cases c with
  | http_field field flen value vlen =>
    rw [call, on_request_http_field]
    split_ifs
    · exact ⟨_, rfl⟩
    · rw [stringAt_of_le h.1, stringAt_of_le h.2]
      exact ⟨_, rfl⟩
  | request_method mark length =>
    obtain ⟨t, rest, hdrop, hlength⟩ := h
    rw [call, hdrop, on_request_method, CharsToHttpMethod_eq, Option.bind_some]
    have hle : length ≤ (buffer t rest).length := by
      rw [hlength, buffer, List.length_append]
      omega
    split_ifs
    · exact ⟨_, rfl⟩
    · exact ⟨_, rfl⟩
  | http_version mark length =>
    obtain ⟨v11, hv11⟩ := Option.isSome_iff_exists.1 (strncmpEq_isSome (bytes "HTTP/1.1") (hstring h))
    obtain ⟨v10, hv10⟩ := Option.isSome_iff_exists.1 (strncmpEq_isSome (bytes "HTTP/1.0") (hstring h))
    rw [call, on_request_version, hv11, hv10, stringAt_of_le h]
    cases v11 <;> cases v10 <;> exact ⟨_, rfl⟩
  | fragment mark length => exact ⟨_, by rw [call, on_request_fragment, stringAt_of_le h]; rfl⟩
  | request_path mark length => exact ⟨_, by rw [call, on_request_path, stringAt_of_le h]; rfl⟩
  | query_string start length => exact ⟨_, by rw [call, on_request_query, stringAt_of_le h]; rfl⟩
  | request_uri mark length => exact ⟨_, rfl⟩
  | header_done start length => exact ⟨_, rfl⟩

theorem foldlM_isSome {memory : Bytes} {calls : List Call} (h : ∀ c ∈ calls, Safe memory c) (request : HttpRequestParser) :
    ∃ next, calls.foldlM (call memory) request = some next := by
  induction calls generalizing request with
  | nil => exact ⟨request, rfl⟩
  | cons c calls ih =>
    obtain ⟨next, hnext⟩ := call_isSome (h c List.mem_cons_self) request
    obtain ⟨last, hlast⟩ := ih (fun b hb => h b (List.mem_cons_of_mem c hb)) next
    exact ⟨last, by rw [List.foldlM_cons, hnext]; exact hlast⟩

/-- the length of a buffer has to be an int -/
theorem length_eq_iff (data : Bytes) : (data.length : ℤ) = toSigned 32 data.length ↔ data.length < 2 ^ 31 := by
  refine ⟨fun h => ?_, fun h => (MachineInt.toSigned_of_fits (by omega) (by omega)).symm⟩
  have hbound := (MachineInt.toSigned_bounds (by norm_num : 0 < 32) (data.length : ℤ)).2
  omega

/-- the assertions hold where the machine stops -/
theorem scan_of_inv {parser : HttpParser} {data : Bytes} (hne : data ≠ []) (hsize : data.length < 2 ^ 31)
    (hoffset : (exec parser data).offset ≤ data.length) {k : Known} {p : ℕ}
    (hinv : Inv data k p (exec parser data).registers) :
    http_parser_execute parser data =
      some (behind parser (exec parser data), (exec parser data).registers.calls, (exec parser data).offset) := by
  have hpos := List.length_pos_iff.2 hne
  have hnread : (exec parser data).registers.parser.nread + (exec parser data).offset = (exec parser data).offset := by
    rw [hinv.nread, Nat.zero_add]
  rw [http_parser_execute, if_neg (by omega), if_pos ((length_eq_iff data).2 hsize)]
  simp only [behind, hnread]
  rw [if_pos ⟨hoffset, hoffset, hinv.body_start, hinv.mark_lt, hinv.field_len, hinv.field_start_lt⟩]

/-- where a fresh parser stops, the assertions hold, and the callbacks find what they read -/
theorem scan_fresh (parser : HttpParser) {data : Bytes} (hne : data ≠ []) (hsize : data.length < 2 ^ 31) :
    http_parser_execute (http_parser_init parser) data =
        some (behind (http_parser_init parser) (exec (http_parser_init parser) data),
          (exec (http_parser_init parser) data).registers.calls, (exec (http_parser_init parser) data).offset) ∧
      (exec (http_parser_init parser) data).offset ≤ data.length ∧
      ∀ c ∈ (exec (http_parser_init parser) data).registers.calls, Safe data c := by
  have hpos := List.length_pos_iff.2 hne
  have hstart : Inv data (known 1) 0 ⟨(http_parser_init parser).cleared, []⟩ :=
    ⟨le_rfl, hpos, le_rfl, hpos, Nat.zero_le _, Nat.zero_le _, rfl, fun h => absurd h (by decide),
      fun h => absurd h (by decide), fun _ hc => absurd hc List.not_mem_nil⟩
  have h1 : hasCase 1 := by decide
  have hexec : exec (http_parser_init parser) data = (machine (parser.uri_relaxed ≠ 0) data.length).run
      ⟨1, 0, ⟨(http_parser_init parser).cleared, []⟩⟩ data := if_pos h1
  obtain ⟨hoffset, k, hinv⟩ := run_safe (parser.uri_relaxed ≠ 0) hsize
    (c := ⟨1, 0, ⟨(http_parser_init parser).cleared, []⟩⟩) h1 (Nat.zero_le _) hstart
  rw [List.drop_zero, ← hexec] at hoffset hinv
  exact ⟨scan_of_inv hne hsize hoffset hinv, hoffset, hinv.calls⟩

/-- **A fresh parser takes every buffer**, whatever is in it: no assertion fails as long as the length is an int, no
callback reads outside the buffer, and what is consumed is in it. -/
theorem execute_fresh (parser : HttpParser) (request : HttpRequestParser) (data : Bytes) :
    (∃ offset next received, offset ≤ data.length ∧
      execute (http_parser_init parser) request data = some (offset, next, received, unconsumed data offset)) ↔
    data.length < 2 ^ 31 := by
  refine ⟨?_, fun hsize => ?_⟩
  · rintro ⟨offset, next, received, -, hexecute⟩
    by_contra hlarge
    have hzero : data.length ≠ 0 := by omega
    have hwide : ¬ (data.length : ℤ) = toSigned 32 data.length := fun h => hlarge ((length_eq_iff data).1 h)
    rw [execute, http_parser_execute, if_neg hzero, if_neg hwide] at hexecute
    cases hexecute
  · by_cases hzero : data.length = 0
    · refine ⟨0, http_parser_init parser, request, hzero.ge, ?_⟩
      rw [execute, http_parser_execute, if_pos hzero]
      rfl
    have hne : data ≠ [] := fun h => hzero (h ▸ rfl)
    obtain ⟨hscan, hoffset, hsafe⟩ := scan_fresh parser hne hsize
    obtain ⟨received, hreceived⟩ := foldlM_isSome hsafe request
    refine ⟨(exec (http_parser_init parser) data).offset,
      behind (http_parser_init parser) (exec (http_parser_init parser) data), received, hoffset, ?_⟩
    rw [execute, hscan, Option.bind_some]
    simp only [hreceived, Option.map_some]

end Sylar.Http.Request

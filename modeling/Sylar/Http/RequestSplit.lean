/-
A request that comes in two pieces, cut inside its query.

`http_parser_execute` clears the marks before it reads a piece, but `query_start` still counts from the beginning of the
piece in front. The callback for the query takes it as a place in the new piece.

Results:
- `run_late`: behind its query, a request calls for no query any more;
- `execute_cut`: what the parser makes of the second piece.
-/
import Sylar.Http.RequestTrip

namespace Sylar.Http.Request

open Sylar.Text Sylar.Transducer

/-! ## Behind the query -/

/-- the fragment, the version and the header lines -/
def lateStates : List ℤ := [4, 5, 6, 7, 8, 9, 10, 11, 12, 13, 14, 15, 16, 17, 18, 20, 21, 22, 23, 348]

theorem lateStates_closed : ∀ relaxed : Bool, ∀ cs ∈ lateStates, ∀ k ∈ row relaxed cs,
    k.2.1 ∈ lateStates ∧ .query_string ∉ k.2.2 := by decide +kernel

def Call.isQuery : Call → Bool
  | .query_string _ _ => true
  | _ => false

/-- more calls, none of them for a query -/
def Later (s t : Scan) : Prop := ∃ later, t.calls = s.calls ++ later ∧ ∀ c ∈ later, c.isQuery = false

theorem Later.refl (s : Scan) : Later s s := ⟨[], (List.append_nil _).symm, fun _ hc => absurd hc List.not_mem_nil⟩

theorem Later.trans {s t u : Scan} (h : Later s t) (h' : Later t u) : Later s u := by
  obtain ⟨l, hl, hlq⟩ := h
  obtain ⟨l', hl', hlq'⟩ := h'
  refine ⟨l ++ l', by rw [hl', hl, List.append_assoc], fun c hc => ?_⟩
  exact (List.mem_append.1 hc).elim (hlq c) (hlq' c)

theorem act_later {len p : ℕ} (s : Scan) {a : Action} (ha : a ≠ .query_string) : Later s (act len p s a) := by
  have hcall : ∀ (t : Scan) (c : Call), t.calls = s.calls → c.isQuery = false → Later s (t.call c) := by
    intro t c ht hc
    refine ⟨[c], by rw [Scan.call, ht], fun b hb => ?_⟩
    rwa [List.mem_singleton.1 hb]
  cases a with
  | query_string => exact absurd rfl ha
  | done =>
    rw [act]
    split_ifs
    · exact Later.refl s
    · exact hcall _ _ rfl rfl
  | write_value => exact hcall s _ rfl rfl
  | request_method => exact hcall s _ rfl rfl
  | request_uri => exact hcall s _ rfl rfl
  | fragment => exact hcall s _ rfl rfl
  | http_version => exact hcall s _ rfl rfl
  | request_path => exact hcall s _ rfl rfl
  | mark => exact Later.refl s
  | start_field => exact Later.refl s
  | write_field => exact Later.refl s
  | start_value => exact Later.refl s
  | start_query => exact Later.refl s
  | xml => exact Later.refl s
  | json => exact Later.refl s

theorem apply_later (relaxed : Bool) (len p : ℕ) {actions : List Action} (h : .query_string ∉ actions) (s : Scan) :
    Later s ((machine relaxed len).apply p actions s).1 := by
  induction actions generalizing s with
  | nil => exact Later.refl s
  | cons a actions ih =>
    have hone : Later s (act len p s a) := act_later s fun ha => h (ha ▸ List.mem_cons_self)
    rw [Machine.apply]
    split_ifs
    · exact hone
    · exact hone.trans (ih (fun hin => h (List.mem_cons_of_mem a hin)) _)

/-- **Behind its query, a request calls for no query any more**, whatever follows. -/
theorem run_late (relaxed : Bool) (len : ℕ) {c : Config ℤ Scan} (hc : c.state ∈ lateStates) (w : Bytes) :
    Later c.registers ((machine relaxed len).run c w).registers := by
  refine run_inv (I := fun d _ => d.state ∈ lateStates ∧ Later c.registers d.registers)
    (Q := fun d => Later c.registers d.registers) ?_ (fun d hd => hd.2) ⟨hc, Later.refl _⟩
  rintro d a w ⟨hd, hlater⟩
  rw [Machine.step]
  cases htable : (machine relaxed len).table d.state a with
  | none => exact hlater
  | some next =>
    obtain ⟨k, hfind, hk⟩ := Option.map_eq_some_iff.1 htable
    obtain ⟨hstate, hquery⟩ := lateStates_closed relaxed d.state hd k (List.mem_of_find?_eq_some hfind)
    rw [hk] at hstate hquery
    have hall := hlater.trans (apply_later relaxed len d.offset hquery d.registers)
    simp only
    split_ifs
    · exact ⟨hstate, hall⟩
    · exact hall

/-- the other callbacks leave the query alone -/
theorem call_query {memory : Bytes} {request next : HttpRequestParser} {c : Call} (hc : c.isQuery = false)
    (h : call memory request c = some next) : next.data.query = request.data.query := by
  cases c with
  | query_string start length => cases hc
  | request_uri mark length =>
    obtain rfl := Option.some.inj h
    rfl
  | header_done start length =>
    obtain rfl := Option.some.inj h
    rfl
  | fragment mark length =>
    obtain ⟨v, -, rfl⟩ := Option.map_eq_some_iff.1 h
    rfl
  | request_path mark length =>
    obtain ⟨v, -, rfl⟩ := Option.map_eq_some_iff.1 h
    rfl
  | http_field field flen value vlen =>
    rw [call, on_request_http_field] at h
    split_ifs at h
    · obtain rfl := Option.some.inj h
      rfl
    · obtain ⟨key, -, h⟩ := Option.bind_eq_some_iff.1 h
      obtain ⟨v, -, rfl⟩ := Option.map_eq_some_iff.1 h
      rfl
  | request_method mark length =>
    obtain ⟨m, -, h⟩ := Option.bind_eq_some_iff.1 h
    split_ifs at h
    all_goals
      obtain rfl := Option.some.inj h
      rfl
  | http_version mark length =>
    obtain ⟨v11, -, h⟩ := Option.bind_eq_some_iff.1 h
    split_ifs at h
    · obtain rfl := Option.some.inj h
      rfl
    · obtain ⟨v10, -, h⟩ := Option.bind_eq_some_iff.1 h
      split_ifs at h
      · obtain rfl := Option.some.inj h
        rfl
      · obtain ⟨v, -, rfl⟩ := Option.map_eq_some_iff.1 h
        rfl

theorem foldlM_query {memory : Bytes} {calls : List Call} (hcalls : ∀ c ∈ calls, c.isQuery = false)
    {request next : HttpRequestParser} (h : calls.foldlM (call memory) request = some next) :
    next.data.query = request.data.query := by
  induction calls generalizing request with
  | nil =>
    obtain rfl := Option.some.inj h
    rfl
  | cons c calls ih =>
    rw [List.foldlM_cons] at h
    obtain ⟨between, hone, hrest⟩ := Option.bind_eq_some_iff.1 h
    rw [ih (fun b hb => hcalls b (List.mem_cons_of_mem c hb)) hrest, call_query (hcalls c List.mem_cons_self) hone]

/-! ## The pieces -/

/-- a request line that ends inside its query -/
structure Opening where
  method : Bytes
  path : Bytes
  query : Bytes

structure Opening.Ok (o : Opening) : Prop where
  method_ne : o.method ≠ []
  method : o.method.all isMethod = true
  method_length : o.method.length ≤ 20
  target : (⟨o.path, o.query, []⟩ : Target).Ok
  query_ne : o.query ≠ []

def Opening.render (o : Opening) : Bytes := o.method ++ [' '.toUInt8] ++ (o.path ++ '?'.toUInt8 :: o.query)

/-- where the query begins -/
def Opening.queryAt (o : Opening) : ℕ := o.method.length + 1 + o.path.length + 1

/-- the parser behind the first piece -/
structure Waiting (parser : HttpParser) (o : Opening) (next : HttpParser) : Prop where
  cs : next.cs = 30
  query_start : next.query_start = o.queryAt
  body_start : next.body_start = 0
  uri_relaxed : next.uri_relaxed = parser.uri_relaxed

theorem execute_opening {o : Opening} (ho : o.Ok) (parser : HttpParser) (hsize : o.render.length < 2 ^ 31) :
    ∃ next received memory, execute (http_parser_init parser) .new o.render =
        some (o.render.length, next, received, memory) ∧ Waiting parser o next ∧ received.data.path = o.path := by
  have hlength : o.render.length = o.queryAt + o.query.length := by
    simp only [Opening.render, Opening.queryAt, List.length_append, List.length_cons, List.length_nil]
    omega
  have hqueryAt : o.queryAt = o.method.length + 1 + o.path.length + 1 := rfl
  have hne : o.render ≠ [] := List.length_pos_iff.1 (by omega)
  have hmethod := reads_method o.render.length (parser.uri_relaxed ≠ 0) ho.method_ne ho.method ho.method_length 0
    ⟨(http_parser_init parser).cleared, []⟩ (by omega)
  have hquery := reads_openQuery o.render.length (parser.uri_relaxed ≠ 0) ho.target ho.query_ne (o.method.length + 1)
    ⟨{ (http_parser_init parser).cleared with mark := 0 }, [.request_method 0 o.method.length]⟩
    (show o.method.length + 1 + o.path.length < 2 ^ 64 by omega)
  rw [Nat.zero_add] at hmethod
  have hrun := (hmethod.append hquery).run []
  rw [List.append_nil] at hrun
  have hdrop : o.render.drop 0 = o.method ++ ([' '.toUInt8] ++ (o.path ++ '?'.toUInt8 :: o.query)) := by
    rw [List.drop_zero, Opening.render, List.append_assoc]
  have hpath := stringAt_of_drop (drop_skip (drop_skip hdrop)) (by simp)
  rw [Nat.zero_add, List.length_singleton] at hpath
  have hcalls : ∃ received : HttpRequestParser,
      [Call.request_method 0 o.method.length, .request_path (o.method.length + 1) o.path.length].foldlM
        (call o.render) .new = some received ∧ received.data.path = o.path := by
    have hsafe : Safe o.render (.request_method 0 o.method.length) :=
      ⟨o.method, o.path ++ '?'.toUInt8 :: o.query, hdrop, rfl⟩
    obtain ⟨first, hfirst⟩ := call_isSome hsafe .new
    refine ⟨{ first with data.path := o.path }, ?_, rfl⟩
    rw [List.foldlM_cons, hfirst, Option.bind_eq_bind, Option.bind_some, List.foldlM_cons, call, on_request_path, hpath]
    rfl
  obtain ⟨received, hreceived, hreceivedPath⟩ := hcalls
  have hexecute := execute_of_run parser hne hsize hrun hreceived
  have hoffset : o.method.length + 1 + o.path.length + 1 + o.query.length = o.render.length := by omega
  dsimp only at hexecute
  rw [hoffset] at hexecute
  exact ⟨_, received, _, hexecute, ⟨rfl, rfl, rfl, rfl⟩, hreceivedPath⟩

theorem LEN_of_lt {start p : ℕ} (h : p < start) (hstart : start < 2 ^ 63) : 2 ^ 63 ≤ LEN start p := by
  have hwrap : MachineInt.toUnsigned 64 ((p : ℤ) - start) = (p : ℤ) - start + 2 ^ 64 := by
    rw [MachineInt.toUnsigned, ← Int.add_emod_right, Int.emod_eq_of_lt (by omega) (by omega)]
  rw [LEN, hwrap]
  omega

/-- what the machine has done at the byte behind the query -/
def secondScan (next : HttpParser) (query : Bytes) : Scan :=
  ⟨next.cleared, [.query_string next.query_start (LEN next.query_start query.length), .request_uri 0 query.length]⟩

theorem exec_second {next : HttpParser} (hcs : next.cs = 30) {query rest : Bytes} (hquery : pctText (isQuery false) query = true)
    {d : UInt8} (hd : d ∈ [' '.toUInt8, '#'.toUInt8]) (hsize : (query ++ d :: rest).length < 2 ^ 31) :
    exec next (query ++ d :: rest) = (machine (next.uri_relaxed ≠ 0) (query ++ d :: rest).length).run
      ⟨endState d, query.length + 1, secondScan next query⟩ rest := by
  rw [List.length_append, List.length_cons] at hsize
  have h30 : hasCase 30 := by decide
  obtain ⟨-, -, htable⟩ := table_pathEnd (next.uri_relaxed ≠ 0) 33 (by decide) d hd
  have htext := reads_pct (query ++ d :: rest).length (textState_query (next.uri_relaxed ≠ 0)) hquery 0 ⟨next.cleared, []⟩
  have hend := reads_byte (query ++ d :: rest).length htable (by decide) (0 + query.length) ⟨next.cleared, []⟩
  have huri : LEN 0 query.length = query.length := by
    rw [LEN_of_le (Nat.zero_le _) (by omega), Nat.sub_zero]
  have hall := (htext.append hend).run rest
  simp only [List.foldl_cons, List.foldl_nil, act, Scan.call, List.append_assoc, List.cons_append, List.nil_append,
    Nat.zero_add] at hall
  have hmark : next.cleared.mark = 0 := rfl
  rw [hmark, huri] at hall
  rw [exec, hcs, if_pos h30, hall]
  rfl

/-- a short request line -/
def searchOpening : Opening := ⟨bytes "GET", bytes "/s", bytes "q=a"⟩

end Sylar.Http.Request

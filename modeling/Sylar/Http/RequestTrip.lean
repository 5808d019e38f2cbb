/-
What `HttpRequestParser` makes of a head, and of the text of a request, with `HttpRequest::init` of http.cc.

A method is taken by the first name that is a prefix of it, and the parser's error does not stop the scanner: a head with
an unknown method is read to its end.

Results:
- `execute_head`: a head of the grammar in front of any bytes, for every head;
- `dump_parsed`: what a parser makes of the text of a request.
-/
import Sylar.Http.RequestHead

namespace Sylar.Http

open Sylar.Text

attribute [local instance] lawfulOrder_bytes

/-! ## Model -/

/-- the constructor; 0x11 and true are the defaults of the request -/
def HttpRequestParser.new : HttpRequestParser := ⟨.new 0x11 true, 0⟩

def HttpRequest.init (r : HttpRequest) : HttpRequest :=
  let conn := r.getHeader (bytes "connection") []
  if conn ≠ [] then { r with close := !strcasecmpEq conn (bytes "keep-alive") } else r

namespace Request

open Sylar.Transducer

/-! ## The callbacks of a head -/

/-- the method that the lookup finds in front of the token -/
def Head.found (h : Head) : HttpMethod := firstMethod fun name => name.isPrefixOf h.method

/-- the method stays as it was made when there is none -/
def Head.request (h : Head) : HttpRequest :=
  { HttpRequest.new (if h.minor = '1'.toUInt8 then 0x11 else 0x10) true with
    method := if h.found = .INVALID_METHOD then .GET else h.found
    path := h.target.path
    query := h.target.query
    fragment := h.target.fragment
    headers := OrderedMap.Map.empty.assignAll (h.fields.map fun f => (f.name, f.value)) }

def Head.error (h : Head) : ℤ := if h.found = .INVALID_METHOD then 1000 else 0

section

variable {memory : Bytes}

theorem drop_skip {p : ℕ} {u v : Bytes} (h : memory.drop p = u ++ v) : memory.drop (p + u.length) = v := by
  rw [← List.drop_drop, h, List.drop_left]

theorem call_method {h : Head} {rest : Bytes} (hdrop : memory.drop 0 = buffer h.method rest) :
    call memory .new (.request_method 0 h.method.length) =
      some ⟨{ HttpRequest.new 0x11 true with method := if h.found = .INVALID_METHOD then .GET else h.found }, h.error⟩ := by
  have hlength : h.method.length ≤ (buffer h.method rest).length := by
    rw [buffer, List.length_append]
    omega
  rw [call, hdrop, on_request_method, CharsToHttpMethod_eq, Option.bind_some, ← Head.found, Head.error]
  by_cases hfound : h.found = .INVALID_METHOD
  · rw [if_pos hfound, if_pos hlength, if_pos hfound, if_pos hfound]
    rfl
  · rw [if_neg hfound, if_neg hfound, if_neg hfound]
    rfl

/-- the three parts of a target -/
theorem foldlM_target {t : Target} {p : ℕ} {rest : Bytes} (hdrop : memory.drop p = t.render ++ rest) (hne : rest ≠ [])
    {request : HttpRequestParser} (hquery : request.data.query = []) (hfragment : request.data.fragment = []) :
    (t.calls p).foldlM (call memory) request = some { request with
      data.path := t.path
      data.query := t.query
      data.fragment := t.fragment } := by
  have hparts : memory.drop p = t.path ++ (t.queryPart ++ (t.fragmentPart ++ rest)) := by
    rw [hdrop, Target.render]
    simp only [List.append_assoc]
  have hpath := stringAt_of_drop hparts (by simp [hne])
  have hbehind := drop_skip hparts
  have hfront : ∀ request : HttpRequestParser, request.data.query = [] →
      (t.frontCalls p).foldlM (call memory) request =
        some { request with data.path := t.path, data.query := t.query } := by
    intro request hempty
    by_cases hq : t.query = []
    · rw [Target.frontCalls, if_pos hq]
      simp only [List.nil_append, List.foldlM_cons, List.foldlM_nil, call, on_request_path, hpath, Option.map_some, hq,
        ← hempty]
      rfl
    · have hquestion : memory.drop (p + t.path.length) =
          ['?'.toUInt8] ++ (t.query ++ (t.fragmentPart ++ rest)) := by
        rw [hbehind, Target.queryPart, if_neg hq]
        rfl
      have htext := stringAt_of_drop (drop_skip hquestion) (by simp [hne])
      rw [List.length_singleton] at htext
      rw [Target.frontCalls, if_neg hq]
      simp only [List.cons_append, List.nil_append, List.foldlM_cons, List.foldlM_nil, call, on_request_path,
        on_request_query, hpath, htext, Option.map_some]
      rfl
  rw [Target.calls, List.foldlM_append, hfront request hquery]
  by_cases hf : t.fragment = []
  · rw [if_pos hf, hf, ← hfragment]
    rfl
  · have hhash : memory.drop (p + t.path.length + t.queryPart.length) = ['#'.toUInt8] ++ (t.fragment ++ rest) := by
      rw [drop_skip hbehind, Target.fragmentPart, if_neg hf]
      rfl
    have htext := stringAt_of_drop (drop_skip hhash) hne
    rw [List.length_singleton] at htext
    rw [if_neg hf]
    simp only [Option.bind_eq_bind, Option.bind_some, List.foldlM_cons, List.foldlM_nil, call, on_request_fragment, htext,
      Option.map_some]
    rfl

theorem call_version {minor : UInt8} (hminor : minor ∈ ['0'.toUInt8, '1'.toUInt8]) {p : ℕ} {rest : Bytes}
    (hdrop : memory.drop p = versionText minor ++ rest) (request : HttpRequestParser) :
    call memory request (.http_version p 8) =
      some { request with data.version := if minor = '1'.toUInt8 then 0x11 else 0x10 } := by
  have hliteral : 0 ∉ bytes "HTTP/1.1" ∧ 0 ∉ bytes "HTTP/1.0" ∧ (bytes "HTTP/1.1").length = 8 ∧
      (bytes "HTTP/1.0").length = 8 := by decide
  have htext : ∀ minor ∈ ['0'.toUInt8, '1'.toUInt8], 0 ∉ versionText minor ∧ (versionText minor).length = 8 ∧
      (versionText minor = bytes "HTTP/1.1" ↔ minor = '1'.toUInt8) ∧
      (versionText minor = bytes "HTTP/1.0" ↔ minor ≠ '1'.toUInt8) := forall_mem_of_all (by decide)
  obtain ⟨hnul, hlength, his11, his10⟩ := htext minor hminor
  have h11 := strncmpEq_word hliteral.1 hnul (by rw [hlength, hliteral.2.2.1]) rest
  have h10 := strncmpEq_word hliteral.2.1 hnul (by rw [hlength, hliteral.2.2.2]) rest
  rw [hlength] at h11 h10
  rw [call, on_request_version, hdrop, h11, h10, Option.bind_some, Option.bind_some]
  by_cases h1 : minor = '1'.toUInt8
  · rw [if_pos (decide_eq_true (his11.2 h1)), if_pos h1]
  · have hnot : ¬ decide (versionText minor = bytes "HTTP/1.1") = true :=
      fun hsame => h1 (his11.1 (of_decide_eq_true hsame))
    rw [if_neg hnot, if_pos (decide_eq_true (his10.2 h1)), if_neg h1]

theorem foldlM_fieldCalls {p : ℕ} {fs : List Field} (hfs : ∀ f ∈ fs, f.Ok) {rest : Bytes}
    (h : memory.drop p = renderFields fs ++ rest) (hne : rest ≠ []) (request : HttpRequestParser) :
    (fieldCalls p fs).foldlM (call memory) request =
      some { request with data.headers := request.data.headers.assignAll (fs.map fun f => (f.name, f.value)) } := by
  induction fs generalizing p request with
  | nil => rfl
  | cons f fs ih =>
    have hrender : renderFields (f :: fs) = f.render ++ renderFields fs := List.flatMap_cons
    rw [hrender, List.append_assoc] at h
    have htext : f.text = f.blanks ++ f.value := List.takeWhile_append_dropWhile.symm
    have hparts : memory.drop p = f.name ++ ([':'.toUInt8] ++ (f.blanks ++ (f.value ++ (f.eol ++
        (renderFields fs ++ rest))))) := by
      rw [h, Field.render, htext]
      simp only [List.append_assoc]
    have hname := stringAt_of_drop hparts (by simp)
    have hvalue := stringAt_of_drop (drop_skip (drop_skip (drop_skip hparts))) (by simp [hne])
    rw [List.length_singleton] at hvalue
    have hlength : f.name.length ≠ 0 := fun hzero =>
      (hfs f List.mem_cons_self).name_ne (List.length_eq_zero_iff.1 hzero)
    have hone : call memory request (.http_field p f.name.length (f.valueAt p) f.value.length) =
        some { request with data := request.data.setHeader f.name f.value } := by
      rw [call, on_request_http_field, if_neg hlength, hname, Option.bind_some, Field.valueAt, hvalue, Option.map_some]
    have hrest := ih (fun g hg => hfs g (List.mem_cons_of_mem f hg)) (drop_skip h)
      { request with data := request.data.setHeader f.name f.value }
    rw [fieldCalls, List.foldlM_cons, hone]
    exact hrest

/-- **The callbacks of a head** make its request. -/
theorem foldlM_calls {h : Head} (hh : h.Ok) {rest : Bytes} (hmemory : memory = h.lead ++ rest) (hne : rest ≠ []) :
    h.calls.foldlM (call memory) .new = some ⟨h.request, h.error⟩ := by
  have hparts : memory.drop 0 = h.method ++ ([' '.toUInt8] ++ (h.target.render ++ ([' '.toUInt8] ++
      (versionText h.minor ++ (h.lineEol ++ (renderFields h.fields ++ rest)))))) := by
    rw [hmemory, Head.lead, Head.requestLine, List.drop_zero]
    simp only [List.append_assoc]
  have hmethod := call_method (h := h) hparts
  have htargetAt := drop_skip (drop_skip hparts)
  rw [Nat.zero_add, List.length_singleton, ← Head.targetAt] at htargetAt
  have hversionAt := drop_skip (drop_skip htargetAt)
  rw [List.length_singleton, ← Head.versionAt] at hversionAt
  have hlines : memory.drop h.requestLine.length = renderFields h.fields ++ rest := by
    rw [hmemory, Head.lead, List.append_assoc, List.drop_left]
  have hminor := hh.minor
  rw [Head.calls, List.foldlM_cons, hmethod, Option.bind_eq_bind, Option.bind_some, List.foldlM_append,
    foldlM_target htargetAt (by simp) rfl rfl, Option.bind_eq_bind, Option.bind_some, List.foldlM_cons,
    call_version hminor hversionAt, Option.bind_eq_bind, Option.bind_some, foldlM_fieldCalls hh.fields hlines hne]
  rfl

end

/-! ## A head in a buffer -/

/-- a fresh parser whose scan and callbacks are known -/
theorem execute_of_run (parser : HttpParser) {data : Bytes} (hne : data ≠ []) (hsize : data.length < 2 ^ 31)
    {stop : Config ℤ Scan} (hrun : (machine (parser.uri_relaxed ≠ 0) data.length).run
      ⟨1, 0, ⟨(http_parser_init parser).cleared, []⟩⟩ data = stop) {request received : HttpRequestParser}
    (hcalls : stop.registers.calls.foldlM (call data) request = some received) :
    execute (http_parser_init parser) request data =
      some (stop.offset, behind (http_parser_init parser) stop, received, unconsumed data stop.offset) := by
  have h1 : hasCase 1 := by decide
  have hexec : exec (http_parser_init parser) data = stop := (if_pos h1).trans hrun
  obtain ⟨hscan, -, -⟩ := scan_fresh parser hne hsize
  rw [execute, hscan, hexec, Option.bind_some]
  simp only [hcalls, Option.map_some]

/-- **What a fresh parser makes of a head**, for every head and whatever stands behind it: the head is consumed, the
request is the head's, and there is an error only for an unknown method. -/
theorem execute_head {h : Head} (hh : h.Ok) (parser : HttpParser) {body : Bytes}
    (hsize : (h.render ++ body).length < 2 ^ 31) :
    ∃ next memory, execute (http_parser_init parser) .new (h.render ++ body) =
        some (h.render.length, next, ⟨h.request, h.error⟩, memory) ∧ body <+: memory ∧ http_parser_finish next = 1 ∧
      (hasError next ⟨h.request, h.error⟩ ↔ h.found = .INVALID_METHOD) := by
  have hlength : (h.render ++ body).length = h.lead.length + h.eol.length + body.length := by
    rw [Head.render, List.length_append, List.length_append]
  have hpos := List.length_pos_iff.2 hh.method_ne
  have hlead : h.lead.length = h.requestLine.length + (renderFields h.fields).length := List.length_append
  have hline : h.requestLine.length = h.versionAt + 8 + h.lineEol.length := h.length_requestLine
  have hne : h.render ++ body ≠ [] := List.length_pos_iff.1 (by omega)
  have heol : h.eol ++ body ≠ [] := by
    rcases hh.eol with heol | heol <;> rw [heol] <;> exact List.cons_ne_nil _ _
  obtain ⟨t, hrun, hcalls⟩ := run_head (h.render ++ body).length (parser.uri_relaxed ≠ 0) hh
    (s := ⟨(http_parser_init parser).cleared, []⟩) rfl rfl (by omega) body
  have hmemory : h.render ++ body = h.lead ++ (h.eol ++ body) := by rw [Head.render, List.append_assoc]
  have hcalled := foldlM_calls hh hmemory heol
  have hall : t.calls.foldlM (call (h.render ++ body)) .new = some ⟨h.request, h.error⟩ := by
    rw [hcalls, List.nil_append, List.foldlM_append, hcalled]
    rfl
  have hexecute := execute_of_run parser hne hsize hrun hall
  have hcs : (behind (http_parser_init parser) ⟨348, h.render.length, t⟩).cs = 348 := rfl
  refine ⟨_, _, hexecute, ?_, ?_, ?_⟩
  · rw [unconsumed, List.drop_left]
    exact List.prefix_append _ _
  · rw [http_parser_finish, hcs]
    decide
  · rw [hasError, hcs, Head.error]
    split_ifs with hfound <;> simp [hfound, http_parser_error]

/-- the head of a short request -/
def getHead : Head where
  method := bytes "GET"
  target := ⟨bytes "/s", bytes "q=a", bytes "top"⟩
  minor := '1'.toUInt8
  lineEol := crlf
  fields := [⟨bytes "Host", bytes " sylar", crlf⟩]
  eol := crlf

theorem execute_getHead : ∃ next memory,
    execute (http_parser_init ⟨0, 0, 0, 0, 0, 0, 0, 0, 0, 0, 0⟩) .new (getHead.render ++ bytes "ok") =
      some (getHead.render.length, next, ⟨getHead.request, getHead.error⟩, memory) ∧ bytes "ok" <+: memory ∧
    http_parser_finish next = 1 ∧ (hasError next ⟨getHead.request, getHead.error⟩ ↔ getHead.found = .INVALID_METHOD) := by
  have htarget : getHead.target.Ok := ⟨path_of_all (bytes "s") (by decide) (by decide), by decide, by decide⟩
  have hfields : ∀ f ∈ getHead.fields, f.Ok := by
    intro f hf
    obtain rfl := List.mem_singleton.1 hf
    exact ⟨by decide, forall_head_of_all (by decide), forall_mem_of_all (by decide), forall_mem_of_all (by decide),
      Or.inl rfl⟩
  have hok : getHead.Ok :=
    ⟨by decide, by decide, by decide, htarget, by decide, Or.inl rfl, hfields, Or.inl rfl⟩
  exact execute_head hok ⟨0, 0, 0, 0, 0, 0, 0, 0, 0, 0, 0⟩ (by decide)

end Request

/-! ## dump -/

open Request

/-- the last digit of a version -/
def minorDigit (version : UInt8) : UInt8 := if version = 0x11 then '1'.toUInt8 else '0'.toUInt8

def headField (l : Line) : Field := ⟨l.1, ' '.toUInt8 :: l.2, crlf⟩

/-- what stands in front of the body -/
def HttpRequest.head (r : HttpRequest) : Request.Head where
  method := HttpMethodToString r.method
  target := ⟨r.path, r.query, r.fragment⟩
  minor := minorDigit r.version
  lineEol := crlf
  fields := r.headerLines.map headField
  eol := crlf

/-- what a sender has to keep for the text to be one request of the grammar, which has no '-' in a method -/
structure HttpRequest.Sendable (r : HttpRequest) : Prop where
  method : r.method ≠ .INVALID_METHOD ∧ r.method ≠ .MSEARCH
  version : r.version = 0x11 ∨ r.version = 0x10
  target : (⟨r.path, r.query, r.fragment⟩ : Target).Ok
  name_ne : ∀ l ∈ mapLines r.websocket r.headers, l.1 ≠ []
  name_first : ∀ l ∈ mapLines r.websocket r.headers, ∀ c ∈ l.1.head?, is '\r' c = false ∧ is '\n' c = false
  name : ∀ l ∈ mapLines r.websocket r.headers, ∀ c ∈ l.1, isName c = true
  value : ∀ l ∈ mapLines r.websocket r.headers, ∀ c ∈ l.2, isContent c = true

/-- how dump writes the versions that the grammar has, and how they are read -/
theorem version_digits {version : UInt8} (h : version = 0x11 ∨ version = 0x10) :
    bytes " HTTP/" ++ decimal (version >>> 4).toNat ++ bytes "." ++ decimal (version &&& 0x0F).toNat =
        ' '.toUInt8 :: versionText (minorDigit version) ∧
      minorDigit version ∈ ['0'.toUInt8, '1'.toUInt8] ∧
      (if minorDigit version = '1'.toUInt8 then 0x11 else 0x10) = version := by
  rcases h with rfl | rfl <;> decide

theorem queryPart_eq (t : Target) : (if t.query = [] then [] else bytes "?") ++ t.query = t.queryPart := by
  rw [Target.queryPart]
  split_ifs with h
  · exact h
  · rfl

theorem fragmentPart_eq (t : Target) : (if t.fragment = [] then [] else bytes "#") ++ t.fragment = t.fragmentPart := by
  rw [Target.fragmentPart]
  split_ifs with h
  · exact h
  · rfl

theorem HttpRequest.dump_eq_head {r : HttpRequest} (hversion : r.version = 0x11 ∨ r.version = 0x10) :
    r.dump = r.head.render ++ r.body := by
  have hfields : renderFields r.head.fields = r.headerLines.flatMap Http.render := by
    rw [head, renderFields, List.flatMap_map]
    refine List.flatMap_congr fun l _ => ?_
    rw [headField, Field.render, Http.render, show bytes ": " = [':'.toUInt8, ' '.toUInt8] from rfl]
    simp
  have hquery : (if r.query = [] then [] else bytes "?") ++ r.query = r.head.target.queryPart := queryPart_eq r.head.target
  have hfragment : (if r.fragment = [] then [] else bytes "#") ++ r.fragment = r.head.target.fragmentPart :=
    fragmentPart_eq r.head.target
  have hfirst : r.firstLine ++ crlf = r.head.requestLine := by
    have hsplit : r.firstLine = HttpMethodToString r.method ++ (bytes " " ++ (r.path ++
        (((if r.query = [] then [] else bytes "?") ++ r.query) ++
        (((if r.fragment = [] then [] else bytes "#") ++ r.fragment) ++
        (bytes " HTTP/" ++ decimal (r.version >>> 4).toNat ++ bytes "." ++ decimal (r.version &&& 0x0F).toNat))))) := by
      rw [firstLine]
      simp only [List.append_assoc]
    rw [hsplit, (version_digits hversion).1, hquery, hfragment, Request.Head.requestLine, Target.render, show bytes " " = [' '.toUInt8] from rfl]
    simp only [List.append_assoc, List.cons_append, List.nil_append]
    rfl
  rw [dump_eq, hfirst, Request.Head.render, Request.Head.lead, hfields]
  rfl

theorem ok_headField {l : Line} (hne : l.1 ≠ []) (hfirst : ∀ c ∈ l.1.head?, is '\r' c = false ∧ is '\n' c = false)
    (hname : ∀ c ∈ l.1, isName c = true) (hvalue : ∀ c ∈ l.2, isContent c = true) : (headField l).Ok := by
  refine ⟨hne, hfirst, hname, fun c hc => ?_, Or.inl rfl⟩
  rcases List.mem_cons.1 hc with rfl | hc
  · decide
  · exact hvalue c hc

theorem content_decimal (n : ℕ) : ∀ c ∈ decimal n, isContent c = true := by
  have hdigit : ∀ c : UInt8, 48 ≤ c.toNat ∧ c.toNat ≤ 57 → isContent c = true := by
    apply forall_byte
    decide +kernel
  exact fun c hc => hdigit c (isDigit_of_mem_decimal hc)

theorem HttpRequest.head_ok {r : HttpRequest} (hr : r.Sendable) : r.head.Ok := by
  have hmethod : ∀ m : HttpMethod, m ≠ .INVALID_METHOD ∧ m ≠ .MSEARCH → HttpMethodToString m ≠ [] ∧
      (HttpMethodToString m).all isMethod = true ∧ (HttpMethodToString m).length ≤ 20 := by
    intro m
    cases m <;> decide
  obtain ⟨hne, hall, hlength⟩ := hmethod r.method hr.method
  refine ⟨hne, hall, hlength, hr.target, (version_digits hr.version).2.1, Or.inl rfl, fun f hf => ?_, Or.inl rfl⟩
  obtain ⟨l, hl, rfl⟩ := List.mem_map.1 hf
  rw [headerLines, List.mem_append, List.mem_append] at hl
  rcases hl with (hl | hl) | hl
  · cases hwebsocket : r.websocket with
    | true =>
      rw [hwebsocket] at hl
      cases hl
    | false =>
      rw [hwebsocket] at hl
      obtain rfl := List.mem_singleton.1 hl
      have hfirst : ∀ c ∈ (bytes "connection").head?, is '\r' c = false ∧ is '\n' c = false :=
        forall_head_of_all (by decide)
      have hname : ∀ c ∈ bytes "connection", isName c = true := forall_mem_of_all (by decide)
      cases hclose : r.close with
      | true => exact ok_headField (by decide) hfirst hname (forall_mem_of_all (by decide))
      | false => exact ok_headField (by decide) hfirst hname (forall_mem_of_all (by decide))
  · exact ok_headField (hr.name_ne l hl) (hr.name_first l hl) (hr.name l hl) (hr.value l hl)
  · rw [contentLengthLine] at hl
    split_ifs at hl
    · obtain rfl := List.mem_singleton.1 hl
      have hname : bytes "content-length" ≠ [] ∧
          (∀ c ∈ (bytes "content-length").head?, is '\r' c = false ∧ is '\n' c = false) ∧
          ∀ c ∈ bytes "content-length", isName c = true :=
        ⟨by decide, forall_head_of_all (by decide), forall_mem_of_all (by decide)⟩
      exact ok_headField hname.1 hname.2.1 hname.2.2 (content_decimal _)
    · cases hl

/-- the name of a method is found again -/
theorem found_head {r : HttpRequest} (hmethod : r.method ≠ .INVALID_METHOD) : r.head.found = r.method := by
  have hall : ∀ m : HttpMethod, m ≠ .INVALID_METHOD →
      (firstMethod fun name => name.isPrefixOf (HttpMethodToString m)) = m := by
    intro m
    cases m <;> decide +kernel
  exact hall r.method hmethod

/-- dump writes the connection line itself unless the message is a websocket's, and in front of all others -/
theorem connection_last {r : HttpRequest} (hwebsocket : r.websocket = false) :
    r.headerLines.reverse.find? (fun l => fold l.1 = fold (bytes "connection")) =
      some (bytes "connection", if r.close then bytes "close" else bytes "keep-alive") := by
  have hmap : ∀ l ∈ mapLines false r.headers ++ contentLengthLine r.body,
      ¬ decide (fold l.1 = fold (bytes "connection")) = true := by
    intro l hl
    rw [decide_eq_true_eq]
    rcases List.mem_append.1 hl with hl | hl
    · intro hname
      have hkept := (List.mem_filter.1 hl).2
      have hsame : strcasecmpEq l.1 (bytes "connection") = true := decide_eq_true hname
      rw [hsame] at hkept
      cases hkept
    · rw [contentLengthLine] at hl
      split_ifs at hl
      · obtain rfl := List.mem_singleton.1 hl
        exact (by decide : ¬ fold (bytes "content-length") = fold (bytes "connection"))
      · cases hl
  have hlines : r.headerLines = (bytes "connection", if r.close then bytes "close" else bytes "keep-alive") ::
      (mapLines false r.headers ++ contentLengthLine r.body) := by
    rw [HttpRequest.headerLines, hwebsocket, List.append_assoc]
    rfl
  rw [hlines, List.reverse_cons, List.find?_append, List.find?_eq_none.2 fun l hl => hmap l (List.mem_reverse.1 hl)]
  simp

/-- **What a fresh parser makes of the text of a request**: the method, the target and the version; of each header name, the
last line with it, without blanks in front; the body is left in the buffer, and `init` finds the close flag again. -/
theorem dump_parsed {r : HttpRequest} (hr : r.Sendable) (parser : HttpParser) (hsize : r.dump.length < 2 ^ 31) :
    ∃ next received memory, Request.execute (http_parser_init parser) .new r.dump =
        some (r.dump.length - r.body.length, next, received, memory) ∧ r.body <+: memory ∧
      http_parser_finish next = 1 ∧ hasError next received = false ∧
      received.data.method = r.method ∧ received.data.version = r.version ∧ received.data.path = r.path ∧
      received.data.query = r.query ∧ received.data.fragment = r.fragment ∧
      (∀ key, received.data.headers.find key =
        (r.headerLines.reverse.find? fun l => fold l.1 = fold key).map fun l => l.2.dropWhile isLws) ∧
      (r.websocket = false → received.data.init.close = r.close) := by
  have hversion : (if r.head.minor = '1'.toUInt8 then 0x11 else 0x10) = r.version := (version_digits hr.version).2.2
  have hfound := found_head hr.method.1
  rw [HttpRequest.dump_eq_head hr.version] at hsize ⊢
  obtain ⟨next, memory, hexecute, hmemory, hfinish, herror⟩ := execute_head (HttpRequest.head_ok hr) parser hsize
  have hoffset : (r.head.render ++ r.body).length - r.body.length = r.head.render.length := by
    rw [List.length_append, Nat.add_sub_cancel]
  have hfind : ∀ key, r.head.request.headers.find key =
      (r.headerLines.reverse.find? fun l => fold l.1 = fold key).map fun l => l.2.dropWhile isLws := by
    intro key
    have hfields : (r.head.fields.map fun f => (f.name, f.value)) = r.headerLines.map fun l => (l.1, l.2.dropWhile isLws) := by
      rw [HttpRequest.head, List.map_map]
      rfl
    rw [Request.Head.request, OrderedMap.Map.find_assignAll, OrderedMap.Map.find_empty, Option.or_none, hfields, ← List.map_reverse,
      List.find?_map, Option.map_map]
    rfl
  refine ⟨next, ⟨r.head.request, r.head.error⟩, memory, ?_, hmemory, hfinish, ?_, ?_, hversion, rfl, rfl, rfl, hfind,
    fun hwebsocket => ?_⟩
  · rw [hexecute, hoffset]
  · rw [← Bool.not_eq_true, herror, hfound]
    exact hr.method.1
  · simp only [Request.Head.request, hfound, if_neg hr.method.1]
  · have hconn : r.head.request.getHeader (bytes "connection") [] =
        if r.close then bytes "close" else bytes "keep-alive" := by
      rw [HttpRequest.getHeader, hfind, connection_last hwebsocket]
      cases r.close <;> rfl
    rw [HttpRequest.init, hconn]
    cases r.close <;> rfl

/-- a request with a query and a body -/
def postRequest : HttpRequest :=
  { HttpRequest.new 0x11 false with
    method := .POST
    path := bytes "/a%20b"
    query := bytes "k=v"
    body := bytes "ok"
    headers := OrderedMap.Map.empty.assign (bytes "Host") (bytes "sylar") }

theorem postRequest_parsed : ∃ next received memory,
    Request.execute (http_parser_init ⟨0, 0, 0, 0, 0, 0, 0, 0, 0, 0, 0⟩) .new postRequest.dump =
      some (postRequest.dump.length - 2, next, received, memory) ∧ bytes "ok" <+: memory ∧
      received.data.query = bytes "k=v" ∧ received.data.init.close = false := by
  have hpath := path_of_all (bytes "a%20b") (by decide) (by decide)
  have hlines : ∀ l ∈ mapLines postRequest.websocket postRequest.headers,
      (l.1.head?.all fun c => is '\r' c = false ∧ is '\n' c = false) = true ∧ (l.1.all fun c => isName c = true) = true ∧
        (l.2.all fun c => isContent c = true) = true := by decide
  have hsendable : postRequest.Sendable :=
    ⟨by decide, by decide, ⟨hpath, by decide, by decide⟩, by decide, fun l hl => forall_head_of_all (hlines l hl).1,
      fun l hl => forall_mem_of_all (hlines l hl).2.1, fun l hl => forall_mem_of_all (hlines l hl).2.2⟩
  obtain ⟨next, received, memory, hexecute, hbody, -, -, -, -, -, hquery, -, -, hclose⟩ :=
    dump_parsed hsendable ⟨0, 0, 0, 0, 0, 0, 0, 0, 0, 0, 0⟩ (by decide)
  exact ⟨next, received, memory, hexecute, hbody, hquery, hclose rfl⟩

end Sylar.Http

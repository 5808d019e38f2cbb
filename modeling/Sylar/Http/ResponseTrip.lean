/-
`HttpResponseParser` of http_parser.cc with its callbacks, and what it makes of a response.

The callbacks get pointers into the buffer. One that reads behind the end of it has no result. They leave the scanner's
own registers alone, so they are run on the calls of the whole scan.

Results:
- `receive_head`: a head of the grammar in front of any bytes, for every head: what each callback gets, which framing the
  registers ask for, when `isFinished` sees the end, and that the bytes behind the head are moved to the front;
- `dump_received`: what a parser makes of the text of a response.
-/
import Sylar.Http.ResponseHead
import Sylar.Http.RequestParser
import Sylar.Core.Numeral

namespace Sylar.Http

open Sylar.Text Sylar.Transducer
open Sylar.MachineInt (toSigned toUnsigned)

attribute [local instance] lawfulOrder_bytes

/-! ## Model -/

/-- the constructor; 0x11 and true are its defaults -/
def HttpResponse.new (version : UInt8) (close : Bool) : HttpResponse :=
  ⟨200, version, close, false, [], [], .empty, []⟩

def HttpResponse.setHeader (r : HttpResponse) (key val : Bytes) : HttpResponse :=
  { r with headers := r.headers.assign key val }

structure HttpResponseParser where
  parser : HttpclientParser
  data : HttpResponse
  /-- 1001: invalid version -/
  error : ℤ

/-- the constructor; `parser` is what stands in the members that it does not set -/
def HttpResponseParser.new (parser : HttpclientParser) : HttpResponseParser :=
  ⟨httpclient_parser_init parser, .new 0x11 true, 0⟩

/-- `std::string(at, length)`; `none` when it leaves the buffer -/
def stringAt (memory : Bytes) (at' length : ℕ) : Option Bytes :=
  if at' + length ≤ memory.length then some ((memory.drop at').take length) else none

/-- `atoi(at)` -/
def atoi (memory : Bytes) (at' : ℕ) : ℤ := toSigned 32 (strtol 10 (memory.drop at'))

section

variable (memory : Bytes) (parser : HttpResponseParser)

def on_response_reason (at' length : ℕ) : Option HttpResponseParser :=
  (stringAt memory at' length).map fun reason => { parser with data.reason := reason }

def on_response_status (at' : ℕ) : Option HttpResponseParser :=
  some { parser with data.status := UInt32.ofInt (atoi memory at') }

def on_response_version (at' length : ℕ) : Option HttpResponseParser :=
  (strncmpEq (bytes "HTTP/1.1") (memory.drop at') length).bind fun v11 =>
    if v11 then some { parser with data.version := 0x11 }
    else (strncmpEq (bytes "HTTP/1.0") (memory.drop at') length).bind fun v10 =>
      if v10 then some { parser with data.version := 0x10 }
      -- the warning prints the version
      else (stringAt memory at' length).map fun _ => { parser with error := 1001 }

def on_response_http_field (field flen value vlen : ℕ) : Option HttpResponseParser :=
  if flen = 0 then some parser
  else (stringAt memory field flen).bind fun key =>
    (stringAt memory value vlen).map fun val => { parser with data := parser.data.setHeader key val }

/-- the callbacks that the constructor installs; three of them do nothing -/
def HttpResponseParser.call : Callback → Option HttpResponseParser
  | .http_field field flen value vlen => on_response_http_field memory parser field flen value vlen
  | .reason_phrase mark length => on_response_reason memory parser mark length
  | .status_code mark _ => on_response_status memory parser mark
  | .http_version mark length => on_response_version memory parser mark length
  | .chunk_size _ _ => some parser
  | .header_done _ _ => some parser
  | .last_chunk _ _ => some parser

end

/-- `execute` with its callbacks: how far it has come, and what it leaves in the buffer -/
def HttpResponseParser.receive (table : Table) (parser : HttpResponseParser) (data : Bytes) (chunck : Bool) :
    Option (ℕ × HttpResponseParser × Bytes) :=
  match execute table parser.parser data chunck with
  | .returned offset scanned calls memory =>
    (calls.foldlM (HttpResponseParser.call (data ++ [0])) parser).map fun called =>
      (offset, { called with parser := scanned }, memory)
  | _ => none

def httpclient_parser_first_final : ℤ := 120

/-- `isFinished` -/
def httpclient_parser_finish (parser : HttpclientParser) : ℤ :=
  if parser.cs = httpclient_parser_error then -1 else if parser.cs = httpclient_parser_first_final then 1 else 0

def HttpResponseParser.hasError (parser : HttpResponseParser) : Bool :=
  parser.error ≠ 0 || parser.parser.cs = httpclient_parser_error

/-! ## A head -/

structure Head where
  first : StatusLine
  lines : List HeadLine
  eol : Bytes

structure Head.Ok (h : Head) : Prop where
  first : h.first.Ok
  lines : ∀ l ∈ h.lines, l.Ok
  eol : IsEol h.eol

/-- the status line and the header lines -/
def Head.lead (h : Head) : Bytes := h.first.render ++ renderLines h.lines

def Head.render (h : Head) : Bytes := h.lead ++ h.eol

/-- the callbacks for lines that start at `p` -/
def fieldCalls : ℕ → List HeadLine → List Callback
  | _, [] => []
  | p, l :: ls => .http_field p l.name.length (l.valueAt p) l.value.length :: fieldCalls (p + l.render.length) ls

/-- the callbacks in front of the empty line -/
def Head.calls (h : Head) : List Callback :=
  [.http_version 0 h.first.version.length, .status_code (h.first.statusAt 0) h.first.status.length,
      .reason_phrase (h.first.reasonAt 0) h.first.reason.length]
    ++ fieldCalls h.first.render.length h.lines

/-- the framing that the head asks for: the length, whether it is chunked and whether the connection is closed -/
def Head.contentLen (h : Head) : ℤ :=
  h.lines.foldl (fun n l => if l.isLength then toSigned 32 (strtol 10 l.value) else n) (-1)

def Head.chunked (h : Head) : ℤ := if ∃ l ∈ h.lines, l.isChunked then 1 else 0

def Head.close (h : Head) : ℤ := if ∃ l ∈ h.lines, l.isClose then 1 else 0

/-- the names and values of the header -/
def Head.fields (h : Head) : List (Bytes × Bytes) := h.lines.map fun l => (l.name, l.value)

/-- the version as the callback reads it -/
def Head.version (h : Head) : Option UInt8 :=
  if h.first.version = bytes "HTTP/1.1" then some 0x11
  else if h.first.version = bytes "HTTP/1.0" then some 0x10
  else none

def Head.response (h : Head) : HttpResponse :=
  { HttpResponse.new (h.version.getD 0x11) true with
    status := UInt32.ofInt (toSigned 32 (strtol 10 h.first.status))
    reason := h.first.reason
    headers := OrderedMap.Map.empty.assignAll h.fields }

/-- the last line asks for a value of which nothing has come -/
def HeadLine.waits (l : HeadLine) : Prop := l.value = [] ∧ lower l.name ∈ keywords

instance (l : HeadLine) : Decidable l.waits := inferInstanceAs (Decidable (_ ∧ _))

/-! ## The registers behind the lines -/

theorem next_eq_close (l : HeadLine) : l.next = 43 ↔ l.isClose := by
  obtain ⟨hconnection, -, -⟩ := valueStart_iff (lower l.name)
  rw [HeadLine.next, afterLine, HeadLine.isClose, ← hconnection]
  have hword : bytes "close" ≠ [] := by decide
  by_cases hvalue : l.value = []
  · rw [if_pos hvalue, hvalue]
    split_ifs <;> simp [lower, hword.symm]
  · rw [if_neg hvalue]
    split_ifs with hclose
    · simp [hclose]
    · simp only [hclose, iff_false]
      norm_num

theorem finalState_next (l : HeadLine) : finalState l.next = 120 ↔ ¬ l.waits := by
  obtain ⟨hconnection, htransfer, hcontent⟩ := valueStart_iff (lower l.name)
  have hkeyword : lower l.name ∈ keywords ↔
      valueStart (lower l.name) = 35 ∨ valueStart (lower l.name) = 61 ∨ valueStart (lower l.name) = 112 := by
    rw [hconnection, htransfer, hcontent]
    simp [keywords]
  rw [HeadLine.waits, hkeyword, HeadLine.next, afterLine]
  by_cases hvalue : l.value = []
  · rw [if_pos hvalue]
    split_ifs with h35 h61 h112
    · simp [finalState, hvalue, h35]
    · simp [finalState, hvalue, h61]
    · simp [finalState, hvalue, h112]
    · simp [finalState, h35, h61, h112]
  · rw [if_neg hvalue]
    split_ifs <;> simp [finalState, hvalue]

theorem finalState_linesNext (ls : List HeadLine) :
    finalState (linesNext 20 ls) = 120 ↔ ∀ l ∈ ls.getLast?, ¬ l.waits := by
  rcases List.eq_nil_or_concat ls with rfl | ⟨ls, l, rfl⟩
  · simp [linesNext, finalState]
  · rw [linesNext, List.concat_eq_append, List.foldl_append, List.foldl_cons, List.foldl_nil, finalState_next]
    simp

theorem finalState_ne_error (cs : ℤ) : finalState cs ≠ httpclient_parser_error := by
  rw [finalState, httpclient_parser_error]
  split_ifs <;> norm_num

/-- what the lines change of the registers, and what they call -/
structure LinesSpec (cs : ℤ) (p : ℕ) (ls : List HeadLine) (s t : Scan) : Prop where
  content_len : t.parser.content_len =
    ls.foldl (fun n l => if l.isLength then toSigned 32 (strtol 10 l.value) else n) s.parser.content_len
  chunked : t.parser.chunked = if ∃ l ∈ ls, l.isChunked then 1 else s.parser.chunked
  close : (pending (linesNext cs ls) t).parser.close = if cs = 43 ∨ ∃ l ∈ ls, l.isClose then 1 else s.parser.close
  status : t.parser.status = s.parser.status
  calls : t.calls = s.calls ++ fieldCalls p ls

theorem pending_registers (cs : ℤ) (s : Scan) : (pending cs s).parser.content_len = s.parser.content_len ∧
    (pending cs s).parser.chunked = s.parser.chunked ∧
    (pending cs s).parser.close = (if cs = 43 then 1 else s.parser.close) ∧
    (pending cs s).parser.status = s.parser.status ∧ (pending cs s).calls = s.calls := by
  rw [pending]
  split_ifs <;> exact ⟨rfl, rfl, rfl, rfl, rfl⟩

theorem linesEffect_spec (cs : ℤ) (p : ℕ) (ls : List HeadLine) (s : Scan) :
    LinesSpec cs p ls s (linesEffect cs p ls s) := by
  induction ls generalizing cs p s with
  | nil =>
    obtain ⟨-, -, hclose, -, -⟩ := pending_registers cs s
    refine ⟨rfl, by simp [linesEffect], ?_, rfl, by simp [linesEffect, fieldCalls]⟩
    simpa [linesEffect, linesNext] using hclose
  | cons l ls ih =>
    obtain ⟨hlen, hchunked, hclose, hstatus, hcalls⟩ := pending_registers cs s
    have hrest := ih l.next (p + l.render.length) (l.effect p (pending cs s))
    have hclosed : (l.effect p (pending cs s)).parser.close = if cs = 43 then 1 else s.parser.close := hclose
    refine ⟨?_, ?_, ?_, hrest.status.trans hstatus, ?_⟩
    · rw [linesEffect, hrest.content_len, List.foldl_cons, HeadLine.effect, hlen]
    · rw [linesEffect, hrest.chunked, HeadLine.effect, hchunked]
      by_cases hl : l.isChunked <;> simp [hl]
    · have hnext : linesNext cs (l :: ls) = linesNext l.next ls := rfl
      rw [linesEffect, hnext, hrest.close, hclosed]
      have hl := next_eq_close l
      by_cases hcs : cs = 43 <;> simp [hl, hcs]
    · rw [linesEffect, hrest.calls, HeadLine.effect, hcalls, fieldCalls, List.append_assoc]
      rfl

/-! ## What the callbacks see -/

section

variable {memory : Bytes}

theorem stringAt_of_drop {p : ℕ} {w rest : Bytes} (h : memory.drop p = w ++ rest) (hne : rest ≠ []) :
    stringAt memory p w.length = some w := by
  have hlength := congrArg List.length h
  have hpos := List.length_pos_iff.2 hne
  rw [List.length_drop, List.length_append] at hlength
  rw [stringAt, if_pos (by omega), h, List.take_left]

/-- a word of at least the literal's length is compared as a whole -/
theorem strncmpEq_word {name w : Bytes} (hname : 0 ∉ name) (hw : 0 ∉ w) (hlength : name.length ≤ w.length)
    (rest : Bytes) : strncmpEq name (w ++ rest) w.length = some (decide (w = name)) := by
  induction name generalizing w with
  | nil =>
    cases w with
    | nil => rfl
    | cons b w =>
      have hb : b ≠ 0 := fun h => hw (h ▸ List.mem_cons_self)
      simp [strncmpEq, hb]
  | cons a name ih =>
    cases w with
    | nil => cases hlength
    | cons b w =>
      have ha : a ≠ 0 := fun h => hname (h ▸ List.mem_cons_self)
      have hrest := ih (fun h => hname (List.mem_cons_of_mem a h)) (fun h => hw (List.mem_cons_of_mem b h))
        (Nat.le_of_succ_le_succ hlength)
      rw [List.cons_append, List.length_cons, strncmpEq]
      by_cases hab : a = b
      · rw [if_neg (not_not.2 hab), if_neg ha, hrest]
        simp [hab]
      · rw [if_pos hab]
        simp [Ne.symm hab]

theorem foldlM_fieldCalls {p : ℕ} {ls : List HeadLine} (hls : ∀ l ∈ ls, l.Ok) {rest : Bytes}
    (h : memory.drop p = renderLines ls ++ rest) (hne : rest ≠ []) (parser : HttpResponseParser) :
    (fieldCalls p ls).foldlM (HttpResponseParser.call memory) parser =
      some { parser with data.headers := parser.data.headers.assignAll (ls.map fun l => (l.name, l.value)) } := by
  induction ls generalizing p parser with
  | nil => rfl
  | cons l ls ih =>
    have hrender : renderLines (l :: ls) = l.render ++ renderLines ls := List.flatMap_cons
    rw [hrender, List.append_assoc] at h
    have hname : stringAt memory p l.name.length = some l.name := by
      rw [l.render_eq, List.append_assoc] at h
      exact stringAt_of_drop h (by simp)
    have hvalue : stringAt memory (l.valueAt p) l.value.length = some l.value :=
      stringAt_of_drop (drop_valueAt memory h) (by simp [hne])
    have hdrop : memory.drop (p + l.render.length) = renderLines ls ++ rest := by
      rw [← List.drop_drop, h, List.drop_left]
    have hlength : l.name.length ≠ 0 := fun hzero =>
      (hls l List.mem_cons_self).name_ne (List.length_eq_zero_iff.1 hzero)
    have hone : HttpResponseParser.call memory parser (.http_field p l.name.length (l.valueAt p) l.value.length) =
        some { parser with data := parser.data.setHeader l.name l.value } := by
      rw [HttpResponseParser.call, on_response_http_field, if_neg hlength, hname, Option.bind_some, hvalue,
        Option.map_some]
    have hrest := ih (fun m hm => hls m (List.mem_cons_of_mem l hm)) hdrop
      { parser with data := parser.data.setHeader l.name l.value }
    rw [fieldCalls, List.foldlM_cons, hone]
    exact hrest

theorem first_drop {h : Head} {rest : Bytes} (hmemory : memory = h.lead ++ rest) :
    memory.drop 0 = h.first.version ++ ([' '.toUInt8] ++ (h.first.status ++ ([' '.toUInt8] ++
      (h.first.reason ++ (h.first.eol ++ (renderLines h.lines ++ rest)))))) := by
  rw [hmemory, Head.lead, StatusLine.render, List.drop_zero]
  simp only [List.append_assoc]

theorem version_first {l : StatusLine} (hl : l.Ok) : 0 ∉ l.version ∧ 8 ≤ l.version.length := by
  have hdigit : ∀ c : UInt8, isDigit c = true → c ≠ 0 := by
    apply forall_byte
    decide +kernel
  have hword : 0 ∉ bytes "HTTP/" ∧ (bytes "HTTP/").length = 5 := by decide
  have hmajor := List.length_pos_iff.2 hl.major_ne
  have hminor := List.length_pos_iff.2 hl.minor_ne
  refine ⟨fun hmem => ?_, ?_⟩
  · rw [StatusLine.version, List.append_assoc, List.mem_append, List.mem_append, List.mem_cons] at hmem
    rcases hmem with h | h | h | h
    · exact hword.1 h
    · exact hdigit 0 (List.all_eq_true.1 hl.major 0 h) rfl
    · exact absurd h (by decide)
    · exact hdigit 0 (List.all_eq_true.1 hl.minor 0 h) rfl
  · rw [StatusLine.version, List.length_append, List.length_append, List.length_cons, hword.2]
    omega

theorem call_version {h : Head} (hh : h.Ok) {rest : Bytes} (hmemory : memory = h.lead ++ rest)
    (parser : HttpResponseParser) :
    HttpResponseParser.call memory parser (.http_version 0 h.first.version.length) =
      some (match h.version with
        | some v => { parser with data.version := v }
        | none => { parser with error := 1001 }) := by
  have hdrop := first_drop hmemory
  obtain ⟨hnul, hlength⟩ := version_first hh.first
  have hliteral : 0 ∉ bytes "HTTP/1.1" ∧ 0 ∉ bytes "HTTP/1.0" ∧ (bytes "HTTP/1.1").length = 8 ∧
      (bytes "HTTP/1.0").length = 8 := by decide
  have h11 := strncmpEq_word hliteral.1 hnul (hliteral.2.2.1 ▸ hlength)
  have h10 := strncmpEq_word hliteral.2.1 hnul (hliteral.2.2.2 ▸ hlength)
  have htext := stringAt_of_drop hdrop (by simp)
  rw [HttpResponseParser.call, on_response_version, htext, hdrop, h11, h10, Head.version]
  by_cases hv11 : h.first.version = bytes "HTTP/1.1"
  · simp [hv11]
  · by_cases hv10 : h.first.version = bytes "HTTP/1.0"
    · have hother : bytes "HTTP/1.0" ≠ bytes "HTTP/1.1" := by decide
      simp [hv10, hother]
    · simp [hv11, hv10]

/-- **The callbacks of a head** make its response. -/
theorem foldlM_calls {h : Head} (hh : h.Ok) {rest : Bytes} (hmemory : memory = h.lead ++ rest) (hne : rest ≠ [])
    (parser : HttpclientParser) :
    h.calls.foldlM (HttpResponseParser.call memory) (.new parser) =
      some ⟨httpclient_parser_init parser, h.response, if h.version = none then 1001 else 0⟩ := by
  have hdrop := first_drop hmemory
  have hskip : ∀ {p : ℕ} {u v : Bytes}, memory.drop p = u ++ v → memory.drop (p + u.length) = v := by
    intro p u v hp
    rw [← List.drop_drop, hp, List.drop_left]
  have hafter := hskip (hskip hdrop)
  have hstatusAt : memory.drop (h.first.statusAt 0) = h.first.status ++ ([' '.toUInt8] ++
      (h.first.reason ++ (h.first.eol ++ (renderLines h.lines ++ rest)))) := hafter
  have hreasonAt : memory.drop (h.first.reasonAt 0) = h.first.reason ++
      (h.first.eol ++ (renderLines h.lines ++ rest)) := hskip (hskip hstatusAt)
  have hlines : memory.drop h.first.render.length = renderLines h.lines ++ rest := by
    rw [hmemory, Head.lead, List.append_assoc, List.drop_left]
  have hnumber : atoi memory (h.first.statusAt 0) = toSigned 32 (strtol 10 h.first.status) := by
    rw [atoi, hstatusAt, strtol_digits hh.first.status_ne hh.first.status fun c hc => by
      obtain rfl := Option.some.inj hc
      decide]
  have hreason := stringAt_of_drop hreasonAt (by simp [hne])
  have hfields := foldlM_fieldCalls hh.lines hlines hne
  have hversion := call_version hh hmemory
  have hfirst : ∀ parser : HttpResponseParser,
      [Callback.status_code (h.first.statusAt 0) h.first.status.length,
        .reason_phrase (h.first.reasonAt 0) h.first.reason.length].foldlM (HttpResponseParser.call memory) parser =
      some { parser with
        data.status := UInt32.ofInt (toSigned 32 (strtol 10 h.first.status))
        data.reason := h.first.reason } := by
    intro parser
    simp only [List.foldlM_cons, List.foldlM_nil, HttpResponseParser.call, on_response_status, on_response_reason, hreason,
      hnumber, Option.map_some]
    rfl
  rw [Head.calls, List.foldlM_append, List.foldlM_cons, hversion]
  cases hv : h.version with
  | some v =>
    simp only [Option.bind_eq_bind, Option.bind_some, hfirst, hfields, Head.response, hv]
    rfl
  | none =>
    simp only [Option.bind_eq_bind, Option.bind_some, hfirst, hfields, Head.response, hv]
    rfl

end

/-! ## A buffer -/

/-- the machine in a buffer -/
theorem exec_of_run {parser : HttpclientParser} {data : Bytes} (hne : data ≠ []) (hcase : hasCase parser.cs)
    {c : Config ℤ Scan} (h : (scanner (data ++ [0]) data.length).run ⟨parser.cs, 0, ⟨parser.cleared, []⟩⟩ data = c) :
    exec httpclientTable (data ++ [0]) data.length 0 parser.cleared = ⟨c.state, c.offset, c.registers⟩ := by
  have hpos := List.length_pos_iff.2 hne
  rw [exec, if_neg (by omega), if_pos (show hasCase parser.cleared.cs from hcase), List.take_left, List.drop_zero, scan_eq]
  exact congrArg (fun c : Config ℤ Scan => Stop.mk c.state c.offset c.registers) h

/-- what `execute` makes of the place where the machine stops -/
theorem execute_of_exec {table : Table} {parser : HttpclientParser} {data : Bytes} (hne : data ≠ [])
    (hsize : data.length < 2 ^ 31) {stop : Stop}
    (hexec : exec table (data ++ [0]) data.length 0 parser.cleared = stop)
    (hbody : stop.scan.parser.body_start ≤ data.length) :
    HttpResponseParser.execute table parser data false =
      .returned stop.p { stop.scan.parser with cs := stop.cs, nread := stop.p } stop.scan.calls (moved data stop.p) := by
  obtain ⟨hkept, hp⟩ := kept_exec table (data ++ [0]) parser
    (by simp : data.length ≤ (data ++ [0]).length) (List.length_pos_iff.2 hne) (by omega)
  rw [hexec] at hkept hp
  have hnread : stop.scan.parser.nread + (stop.p - 0) = stop.p := by
    rw [hkept.nread]
    omega
  have hsigned : toSigned 32 (stop.p : ℤ) = stop.p := MachineInt.toSigned_of_fits (by omega) (by omega)
  have hreport : report data.length 0 stop =
      some ({ stop.scan.parser with cs := stop.cs, nread := stop.p }, stop.scan.calls, (stop.p : ℤ)) := by
    simp only [report, hnread, hsigned]
    rw [if_pos ⟨hp, hp, hbody⟩, if_pos ⟨hkept.mark, hkept.field_len, hkept.field_start⟩]
  have hscan : httpclient_parser_execute table (if false then httpclient_parser_init parser else parser)
      (data ++ [0]) data.length 0 = some ({ stop.scan.parser with cs := stop.cs, nread := stop.p }, stop.scan.calls,
        (({ stop.scan.parser with cs := stop.cs, nread := stop.p } : HttpclientParser).nread : ℤ)) := by
    rw [if_neg Bool.false_ne_true, httpclient_parser_execute, if_pos ((entry_iff _).2 hsize), hexec, hreport]
  exact execute_of_count hscan hp hsize

/-- a call whose scan and callbacks are known -/
theorem receive_of_exec {table : Table} (parser : HttpResponseParser) {called : HttpResponseParser} {data : Bytes}
    (hne : data ≠ []) (hsize : data.length < 2 ^ 31) {stop : Stop}
    (hexec : exec table (data ++ [0]) data.length 0 parser.parser.cleared = stop)
    (hbody : stop.scan.parser.body_start ≤ data.length)
    (hcalls : stop.scan.calls.foldlM (HttpResponseParser.call (data ++ [0])) parser = some called) :
    parser.receive table data false = some (stop.p,
      { called with parser := { stop.scan.parser with cs := stop.cs, nread := stop.p } }, moved data stop.p) := by
  rw [HttpResponseParser.receive, execute_of_exec hne hsize hexec hbody]
  simp only [hcalls, Option.map_some]

/-- a fresh parser is not changed by the start of a chunk -/
theorem receive_new (table : Table) (parser : HttpclientParser) (data : Bytes) (chunck : Bool) :
    (HttpResponseParser.new parser).receive table data chunck = (HttpResponseParser.new parser).receive table data false := by
  cases chunck <;> rfl

theorem prefix_moved (u body : Bytes) : body <+: moved (u ++ body) u.length := by
  rw [moved, List.drop_left]
  exact List.prefix_append _ _

/-! ## A head in a buffer -/

/-- the registers behind the status line and the header lines -/
def Head.behind (h : Head) (parser : HttpclientParser) : Scan :=
  linesEffect 20 h.first.render.length h.lines (h.first.effect 0 ⟨(httpclient_parser_init parser).cleared, []⟩)

theorem Head.lead_pos {h : Head} (hh : h.Ok) : 0 < h.lead.length := by
  have hlength := (version_first hh.first).2
  rw [lead, List.length_append, StatusLine.render, List.length_append]
  omega

theorem hasCase_init (parser : HttpclientParser) : hasCase (httpclient_parser_init parser).cs := by
  rw [show (httpclient_parser_init parser).cs = 1 from rfl]
  decide

theorem reads_lead {memory : Bytes} (len : ℕ) {h : Head} (hh : h.Ok) (parser : HttpclientParser) {rest : Bytes}
    (hmemory : memory = h.lead ++ rest) (hsize : h.lead.length < 2 ^ 64) :
    (scanner memory len).Reads ⟨1, 0, ⟨(httpclient_parser_init parser).cleared, []⟩⟩ h.lead
      ⟨linesNext 20 h.lines, h.lead.length, h.behind parser⟩ := by
  have hlength : h.lead.length = h.first.render.length + (renderLines h.lines).length := List.length_append
  have hstart : memory.drop 0 = h.first.render ++ (renderLines h.lines ++ rest) := by
    rw [hmemory, Head.lead, List.append_assoc, List.drop_zero]
  have hfirst := reads_statusLine memory len hh.first (s := ⟨(httpclient_parser_init parser).cleared, []⟩) hstart
    (by omega)
  have hdrop : memory.drop (0 + h.first.render.length) = renderLines h.lines ++ rest := by
    rw [← List.drop_drop, hstart, List.drop_left]
  have h20 : (20 : ℤ) ∈ lineStarts := by decide
  have hlines := reads_lines memory len h20 hh.lines
    (s := h.first.effect 0 ⟨(httpclient_parser_init parser).cleared, []⟩) hdrop (by omega)
  have hall := hfirst.append hlines
  rw [Nat.zero_add, ← hlength] at hall
  exact hall

theorem linesEffect_body_start (cs : ℤ) (p : ℕ) (ls : List HeadLine) (s : Scan) :
    (linesEffect cs p ls s).parser.body_start = s.parser.body_start := by
  induction ls generalizing cs p s with
  | nil => rfl
  | cons l ls ih =>
    rw [linesEffect, ih]
    rw [HeadLine.effect, pending]
    split_ifs <;> rfl

/-- the registers are those that the head asks for -/
structure Behind (h : Head) (s : Scan) : Prop where
  content_len : s.parser.content_len = h.contentLen
  chunked : s.parser.chunked = h.chunked
  close : (pending (linesNext 20 h.lines) s).parser.close = h.close
  body_start : s.parser.body_start = 0
  calls : s.calls = h.calls

theorem behind_behind (h : Head) (parser : HttpclientParser) : Behind h (h.behind parser) := by
  have hspec := linesEffect_spec 20 h.first.render.length h.lines
    (h.first.effect 0 ⟨(httpclient_parser_init parser).cleared, []⟩)
  have hstart := linesEffect_body_start 20 h.first.render.length h.lines
    (h.first.effect 0 ⟨(httpclient_parser_init parser).cleared, []⟩)
  exact ⟨hspec.content_len, hspec.chunked, hspec.close.trans (if_congr (or_iff_right (by decide)) rfl rfl), hstart,
    hspec.calls⟩

/-- what has been received when the empty line has come -/
structure Received (h : Head) (p : HttpResponseParser) : Prop where
  data : p.data = h.response
  hasError : p.hasError ↔ h.version = none
  content_len : p.parser.content_len = h.contentLen
  chunked : p.parser.chunked = h.chunked
  close : p.parser.close = h.close
  finish : httpclient_parser_finish p.parser = 1 ↔ ∀ l ∈ h.lines.getLast?, ¬ l.waits

/-- the registers behind the lines that end a head -/
theorem received_of_registers {h : Head} {p : HttpResponseParser} (hcs : p.parser.cs = finalState (linesNext 20 h.lines))
    (hdata : p.data = h.response) (herror : p.error = if h.version = none then 1001 else 0)
    (hlen : p.parser.content_len = h.contentLen) (hchunked : p.parser.chunked = h.chunked)
    (hclose : p.parser.close = h.close) : Received h p := by
  have hstate := finalState_ne_error (linesNext 20 h.lines)
  refine ⟨hdata, ?_, hlen, hchunked, hclose, ?_⟩
  · simp only [HttpResponseParser.hasError, Bool.or_eq_true, decide_eq_true_eq, hcs, hstate, or_false, herror]
    split_ifs with hv <;> simp [hv]
  · rw [httpclient_parser_finish, hcs, if_neg hstate, httpclient_parser_first_final, ← finalState_linesNext]
    split_ifs with h120 <;> simp [h120]

/-- **What a fresh parser makes of a head**, for every head and whatever stands behind it. -/
theorem receive_head {h : Head} (hh : h.Ok) (parser : HttpclientParser) {body : Bytes}
    (hsize : (h.render ++ body).length < 2 ^ 31) (chunck : Bool) :
    ∃ received memory, (HttpResponseParser.new parser).receive httpclientTable (h.render ++ body) chunck =
        some (h.render.length, received, memory) ∧ body <+: memory ∧ Received h received := by
  have hpos := Head.lead_pos hh
  have hlength : (h.render ++ body).length = h.lead.length + h.eol.length + body.length := by
    rw [Head.render, List.length_append, List.length_append]
  have hne : h.render ++ body ≠ [] := List.length_pos_iff.1 (by omega)
  have hmemory : h.render ++ body ++ [0] = h.lead ++ (h.eol ++ body ++ [0]) := by
    rw [Head.render]
    simp only [List.append_assoc]
  have hlead := reads_lead (h.render ++ body).length hh parser hmemory (by omega)
  have h20 : (20 : ℤ) ∈ lineStarts := by decide
  have hend := run_end (h.render ++ body ++ [0]) (h.render ++ body).length (linesNext_mem h20 h.lines) hh.eol
    h.lead.length (h.behind parser) body
  have hrun := hlead.run (h.eol ++ body)
  rw [hend, ← List.append_assoc, ← Head.render, ← List.length_append, ← Head.render] at hrun
  have hexec := exec_of_run hne (hasCase_init parser) hrun
  have hspec := behind_behind h parser
  obtain ⟨hlen, hchunked, -, -, hcalls⟩ := pending_registers (linesNext 20 h.lines) (h.behind parser)
  have hcalled := foldlM_calls hh hmemory (by simp) parser
  have hall : (finished (h.render ++ body).length (linesNext 20 h.lines) h.render.length (h.behind parser)).calls.foldlM
      (HttpResponseParser.call (h.render ++ body ++ [0])) (.new parser) =
      some ⟨httpclient_parser_init parser, h.response, if h.version = none then 1001 else 0⟩ := by
    rw [finished, Scan.call]
    simp only [hcalls, hspec.calls]
    rw [List.foldlM_append, hcalled]
    rfl
  have hle : h.render.length ≤ (h.render ++ body).length := by rw [List.length_append]; exact Nat.le_add_right _ _
  have hreceive := receive_of_exec (.new parser) hne hsize hexec hle hall
  rw [receive_new]
  exact ⟨_, _, hreceive, prefix_moved h.render body, received_of_registers rfl rfl rfl (hlen.trans hspec.content_len)
    (hchunked.trans hspec.chunked) hspec.close⟩

/-- the head of a short answer -/
def okHead : Head where
  first := ⟨bytes "1", bytes "1", bytes "200", bytes "OK", crlf⟩
  lines := [⟨bytes "Server", bytes " sylar", crlf⟩, ⟨bytes "Content-Length", bytes " 2", crlf⟩]
  eol := crlf

theorem okHead_ok : okHead.Ok := by
  refine ⟨⟨by decide, by decide, by decide, by decide, by decide, by decide, by decide, forall_mem_of_all (by decide),
    Or.inl rfl⟩, ?_, Or.inl rfl⟩
  intro l hl
  simp only [okHead, List.mem_cons, List.not_mem_nil, or_false] at hl
  rcases hl with rfl | rfl
  · exact ⟨by decide, forall_mem_of_all (by decide), forall_mem_of_all (by decide), Or.inl rfl⟩
  · exact ⟨by decide, forall_mem_of_all (by decide), forall_mem_of_all (by decide), Or.inl rfl⟩

theorem receive_okHead : ∃ received memory,
    (HttpResponseParser.new ⟨0, 0, 0, 0, 0, 0, 0, 0, 0, 0, 0⟩).receive httpclientTable (okHead.render ++ bytes "ok") false =
      some (okHead.render.length, received, memory) ∧ bytes "ok" <+: memory ∧ Received okHead received :=
  receive_head okHead_ok ⟨0, 0, 0, 0, 0, 0, 0, 0, 0, 0, 0⟩ (by decide) false

/-! ## dump -/

theorem strtol_decimal {n : ℕ} (hn : n < 2 ^ 63) : strtol 10 (decimal n) = n := by
  have hdigit : ∀ c : UInt8, 48 ≤ c.toNat ∧ c.toNat ≤ 57 → Numeral.digit c = some (digitValue c) ∧ digitValue c < 10 ∧
      isspace c = false ∧ c ≠ '-'.toUInt8 ∧ c ≠ '+'.toUInt8 := by
    apply forall_byte
    decide +kernel
  have hread : ∀ (w : Bytes) (acc : ℕ), (∀ c ∈ w, 48 ≤ c.toNat ∧ c.toNat ≤ 57) →
      w.foldl (Numeral.addDigit 10) (some acc) = some (readDigits 10 acc w) := by
    intro w
    induction w with
    | nil => exact fun _ _ => rfl
    | cons c w ih =>
      intro acc hw
      obtain ⟨hvalue, hten, -⟩ := hdigit c (hw c List.mem_cons_self)
      have hadd : Numeral.addDigit 10 (some acc) c = some (acc * 10 + digitValue c) := by
        simp [Numeral.addDigit, hvalue, hten, Nat.mul_comm]
      rw [List.foldl_cons, hadd, ih _ fun b hb => hw b (List.mem_cons_of_mem c hb), readDigits, if_pos hten]
  have hall : ∀ c ∈ decimal n, 48 ≤ c.toNat ∧ c.toNat ≤ 57 := fun c hc => isDigit_of_mem_decimal hc
  have hne : decimal n ≠ [] := Numeral.numeral_ne_nil n
  have hnumber : Numeral.number 10 (decimal n) = some n := Numeral.number_numeral (by norm_num) (by norm_num) n
  rw [Numeral.number, if_neg hne, hread _ 0 hall, Option.some.injEq] at hnumber
  obtain ⟨c, w, hcons⟩ := List.exists_cons_of_ne_nil hne
  obtain ⟨-, -, hspace, hminus, hplus⟩ := hdigit c (hall c (hcons ▸ List.mem_cons_self))
  have hdrop : (decimal n).dropWhile isspace = decimal n := by rw [hcons, List.dropWhile_cons, hspace]; rfl
  have hhead : (decimal n).head? = some c := by rw [hcons]; rfl
  simp only [strtol, hdrop, hhead, Option.some.injEq, hminus, hplus, or_false, if_false]
  norm_num [hnumber]
  omega

/-- the reason that dump writes -/
def HttpResponse.reasonText (r : HttpResponse) : Bytes := if r.reason = [] then HttpStatusToString r.status else r.reason

def headLine (l : Line) : HeadLine := ⟨l.1, ' '.toUInt8 :: l.2, crlf⟩

/-- what stands in front of the body -/
def HttpResponse.head (r : HttpResponse) : Head where
  first := ⟨decimal (r.version >>> 4).toNat, decimal (r.version &&& 0x0F).toNat, decimal r.status.toNat, r.reasonText, crlf⟩
  lines := r.headerLines.map headLine
  eol := crlf

theorem HttpResponse.dump_eq_head (r : HttpResponse) : r.dump = r.head.render ++ r.body := by
  have hlines : renderLines r.head.lines = r.headerLines.flatMap Http.render := by
    rw [head, renderLines, List.flatMap_map]
    refine List.flatMap_congr fun l _ => ?_
    rw [headLine, HeadLine.render, Http.render, show bytes ": " = [':'.toUInt8, ' '.toUInt8] from rfl]
    simp
  rw [dump_eq, firstLine, Head.render, Head.lead, hlines, head, StatusLine.render, StatusLine.version, ← reasonText,
    show bytes " " = [' '.toUInt8] from rfl, show bytes "." = ['.'.toUInt8] from rfl]
  simp

/-- no CR and no LF -/
def OneLine (s : Bytes) : Prop := ∀ c ∈ s, is '\r' c = false ∧ is '\n' c = false

/-- what a sender has to keep for the text to be one response -/
structure HttpResponse.Sendable (r : HttpResponse) : Prop where
  name_ne : ∀ l ∈ mapLines r.websocket r.headers, l.1 ≠ []
  name : ∀ l ∈ mapLines r.websocket r.headers, ∀ c ∈ l.1, isToken c = true
  value : ∀ l ∈ mapLines r.websocket r.headers, OneLine l.2
  cookies : ∀ c ∈ r.cookies, OneLine c
  reason : OneLine r.reason

instance (s : Bytes) : Decidable (OneLine s) := List.decidableBAll _ s

theorem oneLine_decimal (n : ℕ) : OneLine (decimal n) := by
  have hdigit : ∀ c : UInt8, 48 ≤ c.toNat ∧ c.toNat ≤ 57 → is '\r' c = false ∧ is '\n' c = false := by
    apply forall_byte
    decide +kernel
  exact fun c hc => hdigit c (isDigit_of_mem_decimal hc)

theorem oneLine_status (s : UInt32) : OneLine (HttpStatusToString s) ∧ HttpStatusToString s ≠ [] := by
  have hmap : ∀ x ∈ httpStatusMap, OneLine x.2 ∧ x.2 ≠ [] := by decide
  rw [HttpStatusToString]
  split
  · next x hx => exact hmap x (List.mem_of_find?_eq_some hx)
  · decide

theorem ok_status {r : HttpResponse} (hr : OneLine r.reason) : r.head.first.Ok := by
  have hall : ∀ n, (decimal n).all isDigit = true := by
    have hdigit : ∀ c : UInt8, 48 ≤ c.toNat ∧ c.toNat ≤ 57 → isDigit c = true := by
      apply forall_byte
      decide +kernel
    exact fun n => List.all_eq_true.2 fun c hc => hdigit c (isDigit_of_mem_decimal hc)
  have hreason : OneLine r.reasonText ∧ r.reasonText ≠ [] := by
    rw [HttpResponse.reasonText]
    split_ifs with h
    · exact oneLine_status r.status
    · exact ⟨hr, h⟩
  exact ⟨Numeral.numeral_ne_nil _, hall _, Numeral.numeral_ne_nil _, hall _, Numeral.numeral_ne_nil _, hall _, hreason.2,
    hreason.1, Or.inl rfl⟩

theorem ok_headLine {l : Line} (hne : l.1 ≠ []) (hname : ∀ c ∈ l.1, isToken c = true) (hvalue : OneLine l.2) :
    (headLine l).Ok := by
  refine ⟨hne, hname, fun c hc => ?_, Or.inl rfl⟩
  rcases List.mem_cons.1 hc with rfl | hc
  · decide
  · exact hvalue c hc

theorem ok_connection {websocket close : Bool} {l : Line} (hl : l ∈ connectionLine websocket close) :
    (headLine l).Ok := by
  have htokens : bytes "connection" ≠ [] ∧ (∀ c ∈ bytes "connection", isToken c = true) ∧ OneLine (bytes "close") ∧
      OneLine (bytes "keep-alive") :=
    ⟨by decide, forall_mem_of_all (by decide), by decide, by decide⟩
  cases websocket with
  | true => cases hl
  | false =>
    obtain rfl := List.mem_singleton.1 hl
    cases close with
    | true => exact ok_headLine htokens.1 htokens.2.1 htokens.2.2.1
    | false => exact ok_headLine htokens.1 htokens.2.1 htokens.2.2.2

theorem HttpResponse.head_ok {r : HttpResponse} (hr : r.Sendable) : r.head.Ok := by
  refine ⟨ok_status hr.reason, fun m hm => ?_, Or.inl rfl⟩
  obtain ⟨l, hl, rfl⟩ := List.mem_map.1 hm
  have htokens : (∀ c ∈ bytes "Set-Cookie", isToken c = true) ∧ ∀ c ∈ bytes "content-length", isToken c = true :=
    ⟨forall_mem_of_all (by decide), forall_mem_of_all (by decide)⟩
  have hne : bytes "Set-Cookie" ≠ [] ∧ bytes "content-length" ≠ [] := by decide
  rw [headerLines, List.mem_append, List.mem_append, List.mem_append] at hl
  rcases hl with ((hl | hl) | hl) | hl
  · exact ok_headLine (hr.name_ne l hl) (hr.name l hl) (hr.value l hl)
  · obtain ⟨c, hc, rfl⟩ := List.mem_map.1 hl
    exact ok_headLine hne.1 htokens.1 (hr.cookies c hc)
  · exact ok_connection hl
  · rw [contentLengthLine] at hl
    split_ifs at hl
    · obtain rfl := List.mem_singleton.1 hl
      exact ok_headLine hne.2 htokens.2 (oneLine_decimal _)
    · cases hl

/-- the version is told from its two digits -/
theorem version_head (r : HttpResponse) :
    r.head.version = if r.version = 0x11 ∨ r.version = 0x10 then some r.version else none := by
  have hall : ∀ v : UInt8,
      (bytes "HTTP/" ++ decimal (v >>> 4).toNat ++ '.'.toUInt8 :: decimal (v &&& 0x0F).toNat = bytes "HTTP/1.1" ↔
        v = 0x11) ∧
      (bytes "HTTP/" ++ decimal (v >>> 4).toNat ++ '.'.toUInt8 :: decimal (v &&& 0x0F).toNat = bytes "HTTP/1.0" ↔
        v = 0x10) := by
    apply forall_byte
    decide +kernel
  obtain ⟨h11, h10⟩ := hall r.version
  rw [Head.version, HttpResponse.head, StatusLine.version]
  simp only [h11, h10]
  by_cases hv11 : r.version = 0x11
  · simp [hv11]
  · by_cases hv10 : r.version = 0x10
    · simp [hv10]
    · simp [hv11, hv10]

theorem headLine_value (l : Line) : (headLine l).value = l.2.dropWhile isBlank := rfl

theorem decimal_value (n : ℕ) : (headLine (bytes "content-length", decimal n)).value = decimal n := by
  have hdigit : ∀ c : UInt8, 48 ≤ c.toNat ∧ c.toNat ≤ 57 → isBlank c = false := by
    apply forall_byte
    decide +kernel
  have hne : decimal n ≠ [] := Numeral.numeral_ne_nil n
  obtain ⟨c, w, hcons⟩ := List.exists_cons_of_ne_nil hne
  have hmem : c ∈ decimal n := by rw [hcons]; exact List.mem_cons_self
  have hc : isBlank c = false := hdigit c (isDigit_of_mem_decimal hmem)
  rw [headLine_value, hcons, List.dropWhile_cons, hc]
  rfl

/-- dump writes the connection line itself unless the message is a websocket's -/
theorem close_head {r : HttpResponse} (hwebsocket : r.websocket = false) :
    r.head.close = if r.close then 1 else 0 := by
  have hnames : lower (bytes "Set-Cookie") ≠ bytes "connection" ∧ lower (bytes "content-length") ≠ bytes "connection" ∧
      lower (bytes "connection") = bytes "connection" ∧ bytes "keep-alive" ≠ bytes "close" ∧
      (headLine (bytes "connection", bytes "close")).isClose ∧
      ¬ (headLine (bytes "connection", bytes "keep-alive")).isClose := by decide
  have hclose : (∃ l ∈ r.head.lines, l.isClose) ↔ r.close = true := by
    constructor
    · rintro ⟨m, hm, hmclose⟩
      obtain ⟨l, hl, rfl⟩ := List.mem_map.1 hm
      rw [HttpResponse.headerLines, List.mem_append, List.mem_append, List.mem_append] at hl
      rcases hl with ((hl | hl) | hl) | hl
      · -- such an entry of the map is left out
        have hkept := (List.mem_filter.1 hl).2
        have hname : lower l.1 = lower (bytes "connection") := hmclose.1.trans hnames.2.2.1.symm
        have hsame : strcasecmpEq l.1 (bytes "connection") = true := by
          rw [strcasecmpEq, decide_eq_true_eq]
          exact fold_of_lower hname
        rw [hwebsocket, hsame] at hkept
        cases hkept
      · obtain ⟨c, hc, rfl⟩ := List.mem_map.1 hl
        exact absurd hmclose.1 hnames.1
      · rw [hwebsocket] at hl
        obtain rfl := List.mem_singleton.1 hl
        by_contra hopen
        rw [if_neg hopen] at hmclose
        exact hnames.2.2.2.2.2 hmclose
      · rw [contentLengthLine] at hl
        split_ifs at hl
        · obtain rfl := List.mem_singleton.1 hl
          exact absurd hmclose.1 hnames.2.1
        · cases hl
    · intro hc
      refine ⟨headLine (bytes "connection", bytes "close"), List.mem_map_of_mem ?_, hnames.2.2.2.2.1⟩
      simp [HttpResponse.headerLines, connectionLine, hwebsocket, hc]
  rw [Head.close]
  exact if_congr hclose rfl rfl

/-- the line of the body is the last one -/
theorem lines_of_body {r : HttpResponse} (hbody : r.body ≠ []) :
    ∃ ls, r.head.lines = ls ++ [headLine (bytes "content-length", decimal r.body.length)] := by
  refine ⟨(mapLines r.websocket r.headers ++ r.cookies.map (fun i => (bytes "Set-Cookie", i)) ++
    connectionLine r.websocket r.close).map headLine, ?_⟩
  rw [HttpResponse.head, HttpResponse.headerLines, contentLengthLine, if_pos hbody, List.map_append, List.map_singleton]

theorem contentLen_head {r : HttpResponse} (hbody : r.body ≠ []) (hsize : r.body.length < 2 ^ 31) :
    r.head.contentLen = r.body.length := by
  obtain ⟨ls, hls⟩ := lines_of_body hbody
  have hname : lower (bytes "content-length") = bytes "content-length" := by decide
  have hdigit : ∀ c : UInt8, 48 ≤ c.toNat ∧ c.toNat ≤ 57 → isDigit c = true := by
    apply forall_byte
    decide +kernel
  have hlength : (headLine (bytes "content-length", decimal r.body.length)).isLength := by
    rw [HeadLine.isLength, decimal_value]
    exact ⟨hname, Numeral.numeral_ne_nil _, List.all_eq_true.2 fun c hc => hdigit c (isDigit_of_mem_decimal hc)⟩
  rw [Head.contentLen, hls, List.foldl_append, List.foldl_cons, List.foldl_nil, if_pos hlength, decimal_value,
    strtol_decimal (by omega)]
  exact MachineInt.toSigned_of_fits (by omega) (by omega)

theorem last_head {r : HttpResponse} (h : r.websocket = false ∨ r.body ≠ []) : ∀ l ∈ r.head.lines.getLast?, ¬ l.waits := by
  intro l hl
  by_cases hbody : r.body = []
  · have hwebsocket := h.resolve_right (not_not.2 hbody)
    have hvalue : bytes "close" ≠ [] ∧ bytes "keep-alive" ≠ [] := by decide
    have hlines : r.head.lines = (mapLines r.websocket r.headers ++
        r.cookies.map (fun i => (bytes "Set-Cookie", i))).map headLine ++
        [headLine (bytes "connection", if r.close then bytes "close" else bytes "keep-alive")] := by
      rw [HttpResponse.head, HttpResponse.headerLines, contentLengthLine, hbody, hwebsocket]
      simp [connectionLine]
    rw [hlines, List.getLast?_concat] at hl
    obtain rfl := Option.some.inj hl
    rw [HeadLine.waits, headLine_value]
    split_ifs <;> exact fun hwaits => absurd hwaits.1 (by decide)
  · obtain ⟨ls, hls⟩ := lines_of_body hbody
    rw [hls, List.getLast?_concat] at hl
    obtain rfl := Option.some.inj hl
    rw [HeadLine.waits, decimal_value]
    exact fun hwaits => Numeral.numeral_ne_nil _ hwaits.1

/-- **What a fresh parser makes of the text of a response**: the version (1.0 and 1.1 only), the status and the reason;
of each header name, the last line with it, without blanks in front; the body is left in the buffer. -/
theorem dump_received {r : HttpResponse} (hr : r.Sendable) (parser : HttpclientParser) (hsize : r.dump.length < 2 ^ 31)
    (chunck : Bool) :
    ∃ received memory, (HttpResponseParser.new parser).receive httpclientTable r.dump chunck =
        some (r.dump.length - r.body.length, received, memory) ∧ r.body <+: memory ∧
      (received.hasError ↔ r.version ≠ 0x11 ∧ r.version ≠ 0x10) ∧
      (¬ received.hasError → received.data.version = r.version) ∧
      received.data.status = r.status ∧ received.data.reason = r.reasonText ∧
      (∀ key, received.data.headers.find key =
        (r.headerLines.reverse.find? fun l => fold l.1 = fold key).map fun l => l.2.dropWhile isBlank) ∧
      (r.websocket = false → received.parser.close = if r.close then 1 else 0) ∧
      (r.body ≠ [] → received.parser.content_len = r.body.length) ∧
      (r.websocket = false ∨ r.body ≠ [] → httpclient_parser_finish received.parser = 1) := by
  rw [r.dump_eq_head] at hsize ⊢
  obtain ⟨received, memory, hreceive, hmoved, hreceived⟩ := receive_head (HttpResponse.head_ok hr) parser hsize chunck
  have hoffset : (r.head.render ++ r.body).length - r.body.length = r.head.render.length := by
    rw [List.length_append, Nat.add_sub_cancel]
  have hversion : r.head.version = none ↔ r.version ≠ 0x11 ∧ r.version ≠ 0x10 := by
    rw [version_head, ← not_or]
    split_ifs with h <;> simp [h]
  have hstatus : UInt32.ofInt (toSigned 32 (strtol 10 (decimal r.status.toNat))) = r.status := by
    have hlt := r.status.toNat_lt
    have hfits : toUnsigned 32 (r.status.toNat : ℤ) = r.status.toNat :=
      MachineInt.toUnsigned_of_fits (by omega) (by omega)
    have hmod : toSigned 32 (r.status.toNat : ℤ) % 2 ^ 32 = r.status.toNat :=
      (MachineInt.toUnsigned_toSigned 32 (r.status.toNat : ℤ)).trans hfits
    rw [strtol_decimal (hlt.trans (by norm_num)), UInt32.ofInt, hmod, Int.toNat_natCast, UInt32.ofNat_toNat]
  refine ⟨received, memory, ?_, hmoved, hreceived.hasError.trans hversion, fun hok => ?_, ?_, ?_, fun key => ?_, fun hwebsocket => ?_,
    fun hbody => ?_, fun h => hreceived.finish.2 (last_head h)⟩
  · rw [hreceive, hoffset]
  · have hknown : r.version = 0x11 ∨ r.version = 0x10 := by
      by_contra hother
      exact hok (hreceived.hasError.2 (hversion.2 (not_or.1 hother)))
    rw [hreceived.data, Head.response, version_head, if_pos hknown]
    rfl
  · rw [hreceived.data]
    exact hstatus
  · rw [hreceived.data]
    rfl
  · have hfields : r.head.fields = r.headerLines.map fun l => (l.1, l.2.dropWhile isBlank) := by
      rw [Head.fields, HttpResponse.head, List.map_map]
      rfl
    rw [hreceived.data, Head.response, OrderedMap.Map.find_assignAll, OrderedMap.Map.find_empty, Option.or_none, hfields,
      ← List.map_reverse, List.find?_map, Option.map_map]
    rfl
  · rw [hreceived.close, close_head hwebsocket]
  · rw [List.length_append] at hsize
    rw [hreceived.content_len, contentLen_head hbody (by omega)]

/-- a short answer -/
def okResponse : HttpResponse :=
  { HttpResponse.new 0x11 false with
    body := bytes "ok"
    headers := OrderedMap.Map.empty.assign (bytes "Server") (bytes "sylar") }

theorem okResponse_received : ∃ received memory,
    (HttpResponseParser.new ⟨0, 0, 0, 0, 0, 0, 0, 0, 0, 0, 0⟩).receive httpclientTable okResponse.dump false =
      some (okResponse.dump.length - 2, received, memory) ∧ bytes "ok" <+: memory ∧ received.data.status = 200 := by
  have htokens : ∀ l ∈ mapLines okResponse.websocket okResponse.headers, (l.1.all fun c => isToken c = true) = true := by
    decide
  have hsendable : okResponse.Sendable :=
    ⟨by decide, fun l hl => forall_mem_of_all (htokens l hl), by decide, by decide, by decide⟩
  obtain ⟨received, memory, hreceive, hbody, -, -, hstatus, -⟩ :=
    dump_received hsendable ⟨0, 0, 0, 0, 0, 0, 0, 0, 0, 0, 0⟩ (by decide) false
  exact ⟨received, memory, hreceive, hbody, hstatus⟩

end Sylar.Http

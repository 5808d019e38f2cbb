/-
A response head that comes in several buffers, with one call of `execute` for each.

The state of the machine outlives a call. The marks do not: every call of the scanner starts with `mark`, `field_start`
and `field_len` at zero. Between two lines nothing of them is needed. Inside a line it is.

Results:
- `receive_pieces`: a head that is cut between lines, into any number of pieces, is received as if it were whole;
- `receive_cut`: one that is cut behind the ':' of a header line is received without that line, and without an error.
-/
import Sylar.Http.ResponseTrip

namespace Sylar.Http

open Sylar.Text Sylar.Transducer
open Sylar.MachineInt (toSigned toUnsigned)

/-! ## Buffers in a row -/

/-- one call for each buffer; `none` when a call does not consume its buffer -/
def HttpResponseParser.feed (table : Table) : HttpResponseParser → List Bytes → Option HttpResponseParser
  | parser, [] => some parser
  | parser, data :: rest =>
    match parser.receive table data false with
    | some (offset, parser, _) => if offset = data.length then HttpResponseParser.feed table parser rest else none
    | none => none

theorem feed_cons {table : Table} {parser next : HttpResponseParser} {data memory : Bytes}
    (h : parser.receive table data false = some (data.length, next, memory)) (rest : List Bytes) :
    parser.feed table (data :: rest) = next.feed table rest := by
  rw [HttpResponseParser.feed, h]
  simp only [if_true]

/-- a scan that reads the whole buffer -/
theorem exec_of_reads {parser : HttpclientParser} {data : Bytes} (hne : data ≠ []) (hcase : hasCase parser.cs)
    {c : Config ℤ Scan} (h : (scanner (data ++ [0]) data.length).Reads ⟨parser.cs, 0, ⟨parser.cleared, []⟩⟩ data c) :
    exec httpclientTable (data ++ [0]) data.length 0 parser.cleared = ⟨c.state, c.offset, c.registers⟩ := by
  have hrun := h.run []
  rw [List.append_nil, Machine.run] at hrun
  exact exec_of_run hne hcase hrun

theorem hasCase_lineStarts {cs : ℤ} (h : cs ∈ lineStarts) : hasCase cs := by
  revert h
  revert cs
  decide

/-! ## Between lines -/

/-- the parser behind a status line and some header lines of a head -/
structure Progress (h : Head) (p : HttpResponseParser) : Prop where
  cs : p.parser.cs = linesNext 20 h.lines
  body_start : p.parser.body_start = 0
  content_len : p.parser.content_len = h.contentLen
  chunked : p.parser.chunked = h.chunked
  close : (if linesNext 20 h.lines = 43 then 1 else p.parser.close) = h.close
  data : p.data = h.response
  error : p.error = if h.version = none then 1001 else 0

/-- more header lines -/
def Head.with (h : Head) (ls : List HeadLine) : Head := { h with lines := h.lines ++ ls }

theorem response_with (h : Head) (ls : List HeadLine) :
    (h.with ls).response =
      { h.response with headers := h.response.headers.assignAll (ls.map fun l => (l.name, l.value)) } := by
  have hfields : (h.with ls).fields = h.fields ++ ls.map fun l => (l.name, l.value) := List.map_append
  have hversion : (h.with ls).version = h.version := rfl
  rw [Head.response, Head.response, hfields, hversion, OrderedMap.Map.assignAll, List.foldl_append]
  rfl

theorem linesNext_append (cs : ℤ) (ls ms : List HeadLine) : linesNext cs (ls ++ ms) = linesNext (linesNext cs ls) ms :=
  List.foldl_append

/-- what header lines add to the framing -/
theorem framing_with (h : Head) (ls : List HeadLine) :
    (h.with ls).contentLen =
        ls.foldl (fun n l => if l.isLength then toSigned 32 (strtol 10 l.value) else n) h.contentLen ∧
      (h.with ls).chunked = (if ∃ l ∈ ls, l.isChunked then 1 else h.chunked) ∧
      (h.with ls).close = if ∃ l ∈ ls, l.isClose then 1 else h.close := by
  have hor : ∀ P : HeadLine → Prop, (∃ l ∈ h.lines ++ ls, P l) ↔ (∃ l ∈ ls, P l) ∨ ∃ l ∈ h.lines, P l := by
    intro P
    simp only [List.mem_append, or_and_right, exists_or, or_comm]
  refine ⟨?_, ?_, ?_⟩
  · rw [Head.contentLen, Head.with, List.foldl_append, Head.contentLen]
  · rw [Head.chunked, Head.chunked, Head.with, if_congr (hor _) rfl rfl, ite_or]
  · rw [Head.close, Head.close, Head.with, if_congr (hor _) rfl rfl, ite_or]

/-- the calls of header lines at the front of a buffer -/
theorem foldlM_lines {data : Bytes} {ls : List HeadLine} (hls : ∀ l ∈ ls, l.Ok) {rest : Bytes}
    (hdata : data = renderLines ls ++ rest) {h : Head} {p : HttpResponseParser} (hp : Progress h p) :
    (fieldCalls 0 ls).foldlM (HttpResponseParser.call (data ++ [0])) p =
      some ⟨p.parser, (h.with ls).response, if (h.with ls).version = none then 1001 else 0⟩ := by
  have hdrop : (data ++ [0]).drop 0 = renderLines ls ++ (rest ++ [0]) := by
    rw [List.drop_zero, hdata, List.append_assoc]
  rw [foldlM_fieldCalls hls hdrop (by simp) p, response_with, ← hp.data]
  refine congrArg some ?_
  have herror := hp.error
  obtain ⟨parser, data, error⟩ := p
  simp only at herror
  rw [herror]
  rfl

/-- **The first piece**: the status line and whole lines. -/
theorem receive_first {h : Head} (hh : h.Ok) (parser : HttpclientParser) (hsize : h.lead.length < 2 ^ 31) :
    ∃ next memory, (HttpResponseParser.new parser).receive httpclientTable h.lead false =
      some (h.lead.length, next, memory) ∧ Progress h next := by
  have hpos := Head.lead_pos hh
  have hne : h.lead ≠ [] := List.length_pos_iff.1 hpos
  have hreads := reads_lead h.lead.length hh parser (rfl : h.lead ++ [0] = h.lead ++ [0]) (by omega)
  have hexec := exec_of_reads hne (hasCase_init parser) hreads
  have hspec := behind_behind h parser
  have hcalls := foldlM_calls hh (rfl : h.lead ++ [0] = h.lead ++ [0]) (List.cons_ne_nil 0 []) parser
  rw [← hspec.calls] at hcalls
  have hreceive := receive_of_exec (.new parser) hne hsize hexec (hspec.body_start.le.trans (Nat.zero_le _)) hcalls
  obtain ⟨-, -, hpending, -⟩ := pending_registers (linesNext 20 h.lines) (h.behind parser)
  exact ⟨_, _, hreceive, rfl, hspec.body_start, hspec.content_len, hspec.chunked, hpending.symm.trans hspec.close, rfl,
    rfl⟩

/-- **One more piece**: whole lines are consumed, and the next call goes on behind them. -/
theorem receive_lines {h : Head} {p : HttpResponseParser} (hp : Progress h p) {ls : List HeadLine} (hne : ls ≠ [])
    (hls : ∀ l ∈ ls, l.Ok) (hsize : (renderLines ls).length < 2 ^ 31) :
    ∃ next memory, p.receive httpclientTable (renderLines ls) false = some ((renderLines ls).length, next, memory) ∧
      Progress (h.with ls) next := by
  have hcs : p.parser.cs ∈ lineStarts := hp.cs ▸ linesNext_mem (by decide) h.lines
  have hrender : renderLines ls ≠ [] := by
    obtain ⟨l, ls, rfl⟩ := List.exists_cons_of_ne_nil hne
    rw [renderLines, List.flatMap_cons, HeadLine.render]
    simp
  have hdrop : (renderLines ls ++ [0]).drop 0 = renderLines ls ++ [0] := rfl
  have hreads := reads_lines (renderLines ls ++ [0]) (renderLines ls).length hcs hls (s := ⟨p.parser.cleared, []⟩) hdrop
    (by omega)
  rw [Nat.zero_add] at hreads
  have hexec := exec_of_reads hrender (hasCase_lineStarts hcs) hreads
  have hspec := linesEffect_spec p.parser.cs 0 ls ⟨p.parser.cleared, []⟩
  have hstart := linesEffect_body_start p.parser.cs 0 ls ⟨p.parser.cleared, []⟩
  obtain ⟨hlen, hchunked, hclose⟩ := framing_with h ls
  have hnext : linesNext p.parser.cs ls = linesNext 20 (h.with ls).lines := by
    rw [hp.cs, Head.with, linesNext_append]
  have hcalls := foldlM_lines hls (List.append_nil _).symm hp
  have hcall : (linesEffect p.parser.cs 0 ls ⟨p.parser.cleared, []⟩).calls = fieldCalls 0 ls := hspec.calls
  rw [← hcall] at hcalls
  have hreceive := receive_of_exec p hrender hsize hexec ((hstart.trans hp.body_start).le.trans (Nat.zero_le _)) hcalls
  refine ⟨_, _, hreceive, hnext, hstart.trans hp.body_start, ?_, ?_, ?_, rfl, rfl⟩
  · rw [hlen, ← hp.content_len]
    exact hspec.content_len
  · rw [hchunked, ← hp.chunked]
    exact hspec.chunked
  · rw [hclose, ← hp.close, ← hp.cs, ← hnext, ← ite_or]
    obtain ⟨-, -, hpending, -⟩ := pending_registers (linesNext p.parser.cs ls)
      (linesEffect p.parser.cs 0 ls ⟨p.parser.cleared, []⟩)
    exact hpending.symm.trans (hspec.close.trans (if_congr or_comm rfl rfl))

/-- **The last piece**: lines and the empty line, in front of the body. -/
theorem receive_last {h : Head} {p : HttpResponseParser} (hp : Progress h p) {ls : List HeadLine}
    (hls : ∀ l ∈ ls, l.Ok) (heol : IsEol h.eol) {body : Bytes}
    (hsize : (renderLines ls ++ (h.eol ++ body)).length < 2 ^ 31) :
    ∃ next memory, p.receive httpclientTable (renderLines ls ++ (h.eol ++ body)) false =
        some ((renderLines ls ++ h.eol).length, next, memory) ∧ body <+: memory ∧ Received (h.with ls) next := by
  have hcs : p.parser.cs ∈ lineStarts := hp.cs ▸ linesNext_mem (by decide) h.lines
  have hpos : 0 < h.eol.length := by
    rcases heol with heol | heol <;> rw [heol] <;> decide
  have hlength : (renderLines ls ++ (h.eol ++ body)).length = (renderLines ls).length + (h.eol.length + body.length) := by
    rw [List.length_append, List.length_append]
  have hne : renderLines ls ++ (h.eol ++ body) ≠ [] := List.length_pos_iff.1 (by omega)
  have hdrop : (renderLines ls ++ (h.eol ++ body) ++ [0]).drop 0 = renderLines ls ++ (h.eol ++ body ++ [0]) :=
    List.append_assoc _ _ _
  have hreads := reads_lines (renderLines ls ++ (h.eol ++ body) ++ [0]) (renderLines ls ++ (h.eol ++ body)).length hcs hls
    (s := ⟨p.parser.cleared, []⟩) hdrop (by omega)
  have hend := run_end (renderLines ls ++ (h.eol ++ body) ++ [0]) (renderLines ls ++ (h.eol ++ body)).length
    (linesNext_mem hcs ls) heol (0 + (renderLines ls).length) (linesEffect p.parser.cs 0 ls ⟨p.parser.cleared, []⟩) body
  have hrun := hreads.run (h.eol ++ body)
  rw [hend, Nat.zero_add, ← List.length_append] at hrun
  have hexec := exec_of_run hne (hasCase_lineStarts hcs) hrun
  have hspec := linesEffect_spec p.parser.cs 0 ls ⟨p.parser.cleared, []⟩
  obtain ⟨hpendingLen, hpendingChunked, -, -, hpendingCalls⟩ := pending_registers (linesNext p.parser.cs ls)
    (linesEffect p.parser.cs 0 ls ⟨p.parser.cleared, []⟩)
  obtain ⟨hlen, hchunked, hclose⟩ := framing_with h ls
  have hnext : linesNext p.parser.cs ls = linesNext 20 (h.with ls).lines := by
    rw [hp.cs, Head.with, linesNext_append]
  have hdata : renderLines ls ++ (h.eol ++ body) = renderLines ls ++ (h.eol ++ body) := rfl
  have hcalls := foldlM_lines hls hdata hp
  have hcall : (finished (renderLines ls ++ (h.eol ++ body)).length (linesNext p.parser.cs ls)
      (renderLines ls ++ h.eol).length (linesEffect p.parser.cs 0 ls ⟨p.parser.cleared, []⟩)).calls =
      fieldCalls 0 ls ++ [.header_done (renderLines ls ++ h.eol).length
        ((renderLines ls ++ (h.eol ++ body)).length - (renderLines ls ++ h.eol).length)] := by
    rw [finished, Scan.call]
    simp only [hpendingCalls, hspec.calls]
    rfl
  have hall : (fieldCalls 0 ls ++ [Callback.header_done (renderLines ls ++ h.eol).length
      ((renderLines ls ++ (h.eol ++ body)).length - (renderLines ls ++ h.eol).length)]).foldlM
        (HttpResponseParser.call (renderLines ls ++ (h.eol ++ body) ++ [0])) p =
      some ⟨p.parser, (h.with ls).response, if (h.with ls).version = none then 1001 else 0⟩ := by
    rw [List.foldlM_append, hcalls]
    rfl
  rw [← hcall] at hall
  have hle : (renderLines ls ++ h.eol).length ≤ (renderLines ls ++ (h.eol ++ body)).length := by
    rw [List.length_append]
    omega
  have hreceive := receive_of_exec p hne hsize hexec hle hall
  have hprefix := prefix_moved (renderLines ls ++ h.eol) body
  rw [List.append_assoc] at hprefix
  refine ⟨_, _, hreceive, hprefix, received_of_registers (congrArg finalState hnext) rfl rfl ?_ ?_ ?_⟩
  · rw [hlen, ← hp.content_len]
    exact hpendingLen.trans hspec.content_len
  · rw [hchunked, ← hp.chunked]
    exact hpendingChunked.trans hspec.chunked
  · rw [hclose, ← hp.close, ← hp.cs, ← ite_or]
    exact hspec.close.trans (if_congr or_comm rfl rfl)

theorem feed_pieces {h : Head} {p : HttpResponseParser} (hp : Progress h p) {pieces : List (List HeadLine)}
    (hpieces : ∀ ls ∈ pieces, ls ≠ [] ∧ (∀ l ∈ ls, l.Ok) ∧ (renderLines ls).length < 2 ^ 31) :
    ∃ next, p.feed httpclientTable (pieces.map renderLines) = some next ∧ Progress (h.with pieces.flatten) next := by
  induction pieces generalizing h p with
  | nil =>
    refine ⟨p, rfl, ?_⟩
    rw [List.flatten_nil, Head.with, List.append_nil]
    exact hp
  | cons ls pieces ih =>
    obtain ⟨hne, hls, hsize⟩ := hpieces ls List.mem_cons_self
    obtain ⟨next, memory, hreceive, hnext⟩ := receive_lines hp hne hls hsize
    obtain ⟨last, hfeed, hlast⟩ := ih hnext fun ms hms => hpieces ms (List.mem_cons_of_mem ls hms)
    refine ⟨last, ?_, ?_⟩
    · rw [List.map_cons, feed_cons hreceive, hfeed]
    · have hwith : (h.with ls).with pieces.flatten = h.with (ls :: pieces).flatten := by
        rw [Head.with, Head.with, Head.with, List.flatten_cons, List.append_assoc]
      rwa [hwith] at hlast

/-- **A head that is cut between its lines is received as if it were whole**, however many pieces there are. -/
theorem receive_pieces {h : Head} (hh : h.Ok) (parser : HttpclientParser) {pieces : List (List HeadLine)}
    {ls : List HeadLine} {body : Bytes} (hpieces : ∀ ms ∈ pieces, ms ≠ [] ∧ (∀ l ∈ ms, l.Ok)) (hls : ∀ l ∈ ls, l.Ok)
    (hsize : h.lead.length < 2 ^ 31)
    (hsizes : ∀ ms ∈ pieces, (renderLines ms).length < 2 ^ 31)
    (hlast : (renderLines ls ++ (h.eol ++ body)).length < 2 ^ 31) :
    ∃ next received memory,
      (HttpResponseParser.new parser).feed httpclientTable (h.lead :: pieces.map renderLines) = some next ∧
      next.receive httpclientTable (renderLines ls ++ (h.eol ++ body)) false =
        some ((renderLines ls ++ h.eol).length, received, memory) ∧
      body <+: memory ∧ Received (h.with (pieces.flatten ++ ls)) received := by
  obtain ⟨first, memory, hfirst, hprogress⟩ := receive_first hh parser hsize
  obtain ⟨next, hfeed, hnext⟩ := feed_pieces hprogress fun ms hms =>
    ⟨(hpieces ms hms).1, (hpieces ms hms).2, hsizes ms hms⟩
  obtain ⟨received, memory', hreceive, hbody, hreceived⟩ := receive_last hnext hls hh.eol hlast
  have hwith : (h.with pieces.flatten).with ls = h.with (pieces.flatten ++ ls) := by
    rw [Head.with, Head.with, Head.with, List.append_assoc]
  rw [hwith] at hreceived
  refine ⟨next, received, memory', ?_, hreceive, hbody, hreceived⟩
  rw [feed_cons hfirst, hfeed]

/-- a line of a piece of its own -/
def closeLine : HeadLine := ⟨bytes "Connection", bytes " close", crlf⟩

theorem closeLine_ok : closeLine.Ok :=
  ⟨by decide, forall_mem_of_all (by decide), forall_mem_of_all (by decide), Or.inl rfl⟩

theorem okHead_pieces : ∃ next received memory,
    (HttpResponseParser.new ⟨0, 0, 0, 0, 0, 0, 0, 0, 0, 0, 0⟩).feed httpclientTable
      (okHead.lead :: [[closeLine]].map renderLines) = some next ∧
    next.receive httpclientTable (renderLines [] ++ (okHead.eol ++ bytes "ok")) false =
      some ((renderLines [] ++ okHead.eol).length, received, memory) ∧
    bytes "ok" <+: memory ∧ Received (okHead.with ([[closeLine]].flatten ++ [])) received := by
  have hpieces : ∀ ms ∈ [[closeLine]], ms ≠ [] ∧ ∀ l ∈ ms, l.Ok := by simpa using closeLine_ok
  have hsizes : ∀ ms ∈ [[closeLine]], (renderLines ms).length < 2 ^ 31 := by decide
  exact receive_pieces okHead_ok ⟨0, 0, 0, 0, 0, 0, 0, 0, 0, 0, 0⟩ hpieces (by simp) (by decide) hsizes (by decide)

/-! ## Inside a line -/

section

variable (memory : Bytes) (len : ℕ)

/-- the text behind the ':' goes on where it was left -/
theorem reads_part {vs : ℤ} (hvs : vs ∈ valueStarts) (u : Bytes) {t : Bytes}
    (ht : ∀ c ∈ t, is '\r' c = false ∧ is '\n' c = false) (p : ℕ) (s : Scan) :
    ∃ m, (scanner memory len).Reads ⟨valueState vs (u.dropWhile isBlank), p, s⟩ t
      ⟨valueState vs ((u ++ t).dropWhile isBlank), p + t.length, { s with parser.mark := m }⟩ := by
  induction t generalizing u p s with
  | nil => exact ⟨s.parser.mark, by rw [List.append_nil]; exact .nil _⟩
  | cons c t ih =>
    obtain ⟨hcr, hlf⟩ := ht c List.mem_cons_self
    have hone : ∃ m, (scanner memory len).Reads ⟨valueState vs (u.dropWhile isBlank), p, s⟩ [c]
        ⟨valueState vs ((u ++ [c]).dropWhile isBlank), p + 1, { s with parser.mark := m }⟩ := by
      rw [List.dropWhile_append]
      by_cases hempty : u.dropWhile isBlank = []
      · rw [hempty, if_pos List.isEmpty_nil]
        have hstart : valueState vs [] = vs := if_pos rfl
        cases hblank : isBlank c with
        | true =>
          rw [List.dropWhile_cons_of_pos hblank, List.dropWhile_nil, hstart]
          exact ⟨p, reads_byte memory len (table_blank hvs hblank) (by decide) p s⟩
        | false =>
          rw [List.dropWhile_cons_of_neg (by rw [hblank]; exact Bool.false_ne_true), hstart]
          exact ⟨p, reads_byte memory len (table_first hvs hcr hlf hblank) (by decide) p s⟩
      · rw [if_neg fun h => hempty (List.isEmpty_iff.1 h)]
        exact ⟨s.parser.mark, reads_byte memory len (table_value hempty hcr hlf) (by decide) p s⟩
    obtain ⟨m, hone⟩ := hone
    obtain ⟨m', hrest⟩ := ih (u ++ [c]) (fun b hb => ht b (List.mem_cons_of_mem c hb)) (p + 1) { s with parser.mark := m }
    have hlength : p + (c :: t).length = p + 1 + t.length := by rw [List.length_cons]; omega
    refine ⟨m', ?_⟩
    rw [List.append_assoc] at hrest
    rw [hlength]
    exact hone.append hrest

/-- the only call at the end of a line is that of the field, with the registers of its name -/
theorem calls_lastActions (vs : ℤ) (v : Bytes) (p : ℕ) (s : Scan) :
    ∃ m n, ((lastActions vs v).foldl (act memory len p) s).calls =
      s.calls ++ [.http_field s.parser.field_start s.parser.field_len m n] := by
  rw [lastActions]
  split_ifs <;> exact ⟨_, _, rfl⟩

theorem calls_trailingActions (vs : ℤ) (v : Bytes) (p : ℕ) (s : Scan) :
    ((trailingActions vs v).foldl (act memory len p) s).calls = s.calls := by
  rw [trailingActions]
  split_ifs <;> rfl

theorem reads_lineEnd {vs : ℤ} (hvs : vs ∈ valueStarts) (v : Bytes) {eol : Bytes} (heol : IsEol eol) (p : ℕ) (s : Scan) :
    ∃ t m n, (scanner memory len).Reads ⟨valueState vs v, p, s⟩ eol ⟨afterLine vs v, p + eol.length, t⟩ ∧
      t.calls = s.calls ++ [.http_field s.parser.field_start s.parser.field_len m n] := by
  have hends := endsLine_value hvs v
  have hgoLast : ParserAction.done ∉ lastActions vs v := by
    rw [lastActions]
    split_ifs <;> decide
  have hgoTrailing : ParserAction.done ∉ trailingActions vs v := by
    rw [trailingActions]
    split_ifs <;> decide
  obtain ⟨m, n, hcalls⟩ := calls_lastActions memory len vs v p s
  rcases heol with rfl | rfl
  · obtain ⟨between, hcr, hlf⟩ := hends.cr
    have hfirst := reads_byte memory len hcr hgoLast p s
    have hsecond := reads_byte memory len hlf hgoTrailing (p + 1) ((lastActions vs v).foldl (act memory len p) s)
    exact ⟨_, m, n, hfirst.append hsecond, (calls_trailingActions memory len vs v _ _).trans hcalls⟩
  · have hone := reads_byte memory len hends.lf (fun h => (List.mem_append.1 h).elim hgoLast hgoTrailing) p s
    rw [List.foldl_append] at hone
    exact ⟨_, m, n, hone, (calls_trailingActions memory len vs v _ _).trans hcalls⟩

end

theorem hasCase_valueState {vs : ℤ} (hvs : vs ∈ valueStarts) (v : Bytes) : hasCase (valueState vs v) := by
  have hstart : hasCase vs := by
    revert hvs
    revert vs
    decide
  have hlower : (lower v).length = v.length := List.length_map _
  rw [valueState]
  split_ifs with hempty hclose hchunked hnumber
  · exact hstart
  · have hlength := hclose.2.length_le
    rw [hlower, show (bytes "close").length = 5 from by decide] at hlength
    exact ⟨by omega, by omega⟩
  · have hlength := hchunked.2.length_le
    rw [hlower, show (bytes "chunked").length = 7 from by decide] at hlength
    exact ⟨by omega, by omega⟩
  · decide
  · decide

theorem started_registers (memory : Bytes) (len q : ℕ) (cs : ℤ) (p m : ℕ) (s : Scan) :
    ([ParserAction.write_field].foldl (act memory len q) (started cs p m s)).calls = s.calls ∧
      ([ParserAction.write_field].foldl (act memory len q) (started cs p m s)).parser.body_start =
        s.parser.body_start := by
  rw [List.foldl_cons, List.foldl_nil, act, started, pending]
  split_ifs <;> exact ⟨rfl, rfl⟩

/-- **A piece that ends inside a header line**: the line has called nothing yet. -/
theorem receive_lineStart {h : Head} (hh : h.Ok) (parser : HttpclientParser) {l : HeadLine} (hl : l.Ok) {t u : Bytes}
    (htext : l.text = t ++ u) {data : Bytes} (hdata : data = h.lead ++ (l.name ++ ':'.toUInt8 :: t))
    (hsize : data.length < 2 ^ 31) :
    ∃ next memory, (HttpResponseParser.new parser).receive httpclientTable data false = some (data.length, next, memory) ∧
      next.parser.cs = valueState (valueStart (lower l.name)) (t.dropWhile isBlank) ∧ next.data = h.response ∧
      next.error = if h.version = none then 1001 else 0 := by
  have hne : data ≠ [] := by
    rw [hdata]
    simp
  have hlength : data.length = h.lead.length + l.name.length + 1 + t.length := by
    rw [hdata]
    simp only [List.length_append, List.length_cons]
    omega
  have hmemory : data ++ [0] = h.lead ++ (l.name ++ ':'.toUInt8 :: t ++ [0]) := by
    rw [hdata, List.append_assoc]
  have h20 : (20 : ℤ) ∈ lineStarts := by decide
  have hlead := reads_lead data.length hh parser hmemory (by omega)
  obtain ⟨q, m, hname, hspelled⟩ := reads_name (data ++ [0]) data.length (linesNext_mem h20 h.lines) hl.name_ne hl.name
    h.lead.length (h.behind parser)
  have hcolon := reads_byte (data ++ [0]) data.length (table_colon hspelled) (by decide)
    (h.lead.length + l.name.length) (started (linesNext 20 h.lines) h.lead.length m (h.behind parser))
  obtain ⟨hcalls, hstart⟩ := started_registers (data ++ [0]) data.length (h.lead.length + l.name.length)
    (linesNext 20 h.lines) h.lead.length m (h.behind parser)
  obtain ⟨m', hvalue⟩ := reads_part (data ++ [0]) data.length (valueStart_mem (lower l.name)) []
    (fun c hc => hl.text c (htext ▸ List.mem_append_left u hc)) (h.lead.length + l.name.length + 1)
    ([ParserAction.write_field].foldl (act (data ++ [0]) data.length (h.lead.length + l.name.length))
      (started (linesNext 20 h.lines) h.lead.length m (h.behind parser)))
  have hempty : valueState (valueStart (lower l.name)) ([].dropWhile isBlank) = valueStart (lower l.name) := if_pos rfl
  rw [hempty, List.nil_append] at hvalue
  have hreads := hlead.append (hname.append (hcolon.append hvalue))
  rw [List.singleton_append, ← hdata, ← hlength] at hreads
  have hexec := exec_of_reads hne (hasCase_init parser) hreads
  have hspec := behind_behind h parser
  have hcalled := foldlM_calls hh hmemory (by simp) parser
  rw [← hspec.calls, ← hcalls] at hcalled
  have hreceive := receive_of_exec (.new parser) hne hsize hexec
    ((hstart.trans hspec.body_start).le.trans (Nat.zero_le _)) hcalled
  exact ⟨_, _, hreceive, rfl, rfl, rfl⟩

/-- **The piece behind such a one**: the line calls for a field without a name, which is passed over. -/
theorem receive_lineRest {h : Head} {p : HttpResponseParser} {l : HeadLine} (hl : l.Ok) {t u : Bytes}
    (htext : l.text = t ++ u) (hcs : p.parser.cs = valueState (valueStart (lower l.name)) (t.dropWhile isBlank))
    (hdata : p.data = h.response) (herror : p.error = if h.version = none then 1001 else 0) {ls : List HeadLine}
    (hls : ∀ l ∈ ls, l.Ok) (heol : IsEol h.eol) {body data : Bytes}
    (hdef : data = u ++ (l.eol ++ (renderLines ls ++ (h.eol ++ body)))) (hsize : data.length < 2 ^ 31) :
    ∃ received memory, p.receive httpclientTable data false =
        some ((u ++ (l.eol ++ (renderLines ls ++ h.eol))).length, received, memory) ∧
      body <+: memory ∧ received.data = (h.with ls).response ∧ (received.hasError ↔ h.version = none) ∧
      httpclient_parser_finish received.parser ≠ -1 := by
  have hpos : 0 < l.eol.length := by
    rcases hl.eol with heol | heol <;> rw [heol] <;> decide
  have hfront : (u ++ (l.eol ++ (renderLines ls ++ h.eol))).length =
      u.length + l.eol.length + (renderLines ls).length + h.eol.length := by
    simp only [List.length_append]
    omega
  have hlength : data.length = u.length + l.eol.length + (renderLines ls).length + h.eol.length + body.length := by
    rw [hdef]
    simp only [List.length_append]
    omega
  have hne : data ≠ [] := List.length_pos_iff.1 (by omega)
  obtain ⟨m, hvalue⟩ := reads_part (data ++ [0]) data.length (valueStart_mem (lower l.name)) t
    (fun c hc => hl.text c (htext ▸ List.mem_append_right t hc)) 0 ⟨p.parser.cleared, []⟩
  rw [← htext, ← hcs, Nat.zero_add] at hvalue
  obtain ⟨s, k, n, hend, hcalls⟩ := reads_lineEnd (data ++ [0]) data.length (valueStart_mem (lower l.name)) l.value hl.eol
    u.length { (⟨p.parser.cleared, []⟩ : Scan) with parser.mark := m }
  have hcalls : s.calls = [.http_field 0 0 k n] := hcalls
  have hdrop : (data ++ [0]).drop (u.length + l.eol.length) = renderLines ls ++ (h.eol ++ body ++ [0]) := by
    have hsplit : data ++ [0] = (u ++ l.eol) ++ (renderLines ls ++ (h.eol ++ body ++ [0])) := by
      rw [hdef]
      simp only [List.append_assoc]
    rw [hsplit, ← List.length_append, List.drop_left]
  have hnext : l.next ∈ lineStarts := afterLine_mem _ _
  have hlines := reads_lines (data ++ [0]) data.length hnext hls (s := s) hdrop (by omega)
  have hrun := (hvalue.append (hend.append hlines)).run (h.eol ++ body)
  rw [run_end (data ++ [0]) data.length (linesNext_mem hnext ls) heol, ← hfront] at hrun
  have hbytes : u ++ (l.eol ++ renderLines ls) ++ (h.eol ++ body) = data := by
    rw [hdef]
    simp only [List.append_assoc]
  rw [hbytes] at hrun
  have hexec := exec_of_run hne (hcs ▸ hasCase_valueState (valueStart_mem (lower l.name)) (t.dropWhile isBlank)) hrun
  obtain ⟨-, -, -, -, hpending⟩ := pending_registers (linesNext l.next ls)
    (linesEffect l.next (u.length + l.eol.length) ls s)
  have hspec := linesEffect_spec l.next (u.length + l.eol.length) ls s
  have hfields := foldlM_fieldCalls hls hdrop (by simp) p
  have hall : (finished data.length (linesNext l.next ls) (u ++ (l.eol ++ (renderLines ls ++ h.eol))).length
      (linesEffect l.next (u.length + l.eol.length) ls s)).calls.foldlM
        (HttpResponseParser.call (data ++ [0])) p = some { p with data := (h.with ls).response } := by
    rw [finished, Scan.call]
    simp only [hpending, hspec.calls, hcalls]
    rw [List.foldlM_append, List.foldlM_append, response_with, ← hdata]
    -- the field of the cut line has no name
    have hpassed : [Callback.http_field 0 0 k n].foldlM (HttpResponseParser.call (data ++ [0])) p = some p := rfl
    rw [hpassed, Option.bind_eq_bind, Option.bind_some, hfields]
    rfl
  have hle : (u ++ (l.eol ++ (renderLines ls ++ h.eol))).length ≤ data.length := by
    rw [hfront, hlength]
    exact Nat.le_add_right _ _
  have hreceive := receive_of_exec p hne hsize hexec hle hall
  have hstate := finalState_ne_error (linesNext l.next ls)
  have hprefix := prefix_moved (u ++ (l.eol ++ (renderLines ls ++ h.eol))) body
  have hbytes' : u ++ (l.eol ++ (renderLines ls ++ h.eol)) ++ body = data := by
    rw [hdef]
    simp only [List.append_assoc]
  rw [hbytes'] at hprefix
  refine ⟨_, _, hreceive, hprefix, rfl, ?_, ?_⟩
  · simp only [HttpResponseParser.hasError, Bool.or_eq_true, decide_eq_true_eq, hstate, or_false, herror]
    split_ifs with hv <;> simp [hv]
  · simp only [httpclient_parser_finish, hstate, if_false]
    split_ifs <;> decide

/-- **A head that is cut behind the ':' of a header line is received without that line, and without an error.** -/
theorem receive_cut {h : Head} (hh : h.Ok) (parser : HttpclientParser) {l : HeadLine} (hl : l.Ok) {t u : Bytes}
    (htext : l.text = t ++ u) {ls : List HeadLine} (hls : ∀ l ∈ ls, l.Ok) {body : Bytes}
    (hsize : (h.lead ++ (l.name ++ ':'.toUInt8 :: t)).length < 2 ^ 31)
    (hrest : (u ++ (l.eol ++ (renderLines ls ++ (h.eol ++ body)))).length < 2 ^ 31) :
    ∃ next received memory,
      (HttpResponseParser.new parser).feed httpclientTable [h.lead ++ (l.name ++ ':'.toUInt8 :: t)] = some next ∧
      next.receive httpclientTable (u ++ (l.eol ++ (renderLines ls ++ (h.eol ++ body)))) false =
        some ((u ++ (l.eol ++ (renderLines ls ++ h.eol))).length, received, memory) ∧
      body <+: memory ∧ received.data = (h.with ls).response ∧ (received.hasError ↔ h.version = none) ∧
      httpclient_parser_finish received.parser ≠ -1 := by
  obtain ⟨next, memory, hreceive, hcs, hdata, herror⟩ := receive_lineStart hh parser hl htext rfl hsize
  obtain ⟨received, memory', hrest⟩ := receive_lineRest hl htext hcs hdata herror hls hh.eol rfl hrest
  refine ⟨next, received, memory', ?_, hrest⟩
  rw [feed_cons hreceive]
  rfl

theorem okHead_cut : ∃ next received memory,
    (HttpResponseParser.new ⟨0, 0, 0, 0, 0, 0, 0, 0, 0, 0, 0⟩).feed httpclientTable
      [okHead.lead ++ (closeLine.name ++ ':'.toUInt8 :: bytes " cl")] = some next ∧
    next.receive httpclientTable (bytes "ose" ++ (closeLine.eol ++ (renderLines [] ++ (okHead.eol ++ bytes "ok")))) false =
      some ((bytes "ose" ++ (closeLine.eol ++ (renderLines [] ++ okHead.eol))).length, received, memory) ∧
    bytes "ok" <+: memory ∧ received.data = (okHead.with []).response ∧ (received.hasError ↔ okHead.version = none) ∧
    httpclient_parser_finish received.parser ≠ -1 := by
  have htext : closeLine.text = bytes " cl" ++ bytes "ose" := by decide
  exact receive_cut okHead_ok ⟨0, 0, 0, 0, 0, 0, 0, 0, 0, 0, 0⟩ closeLine_ok htext (by simp) (by decide) (by decide)

end Sylar.Http

/-
The header lines that the two `dump` functions write, for any header map and any body.

The connection line is dump's own unless the message is a websocket's, and the map's connection entry is then left out.
There is no such rule for content-length: dump adds a line when the body is not empty, and an entry of the map is written
as it is. A parsed request has one (test_http_parser.cc prints such a request with an empty body).

Names are compared without their case; a value is zero when it is a row of zeros, blanks aside.

Results:
- `framed_iff`: the lines of a map, the connection line and the content-length line, in any order;
- `dump_framed_iff`: for requests and responses, exactly when the map's content-length entry does no harm;
- `HttpRequest.read_off`, `HttpResponse.read_off`: without CR in the parts a reader finds these lines in the text;
- `parsed_request_misframed`: the request of test_http_parser.cc, with its body and without.
-/
import Sylar.Http.Message
import Sylar.Util.Url

namespace Sylar.Http

open Sylar.Text

/-! ## Framing -/

/-- the number zero, with blanks around it or not -/
def isZero (value : Bytes) : Prop :=
  StringUtil.Trim value (bytes " \t") ≠ [] ∧ ∀ c ∈ StringUtil.Trim value (bytes " \t"), c = '0'.toUInt8

instance (value : Bytes) : Decidable (isZero value) := inferInstanceAs (Decidable (_ ∧ _))

/-- the lines whose names have to differ -/
def singular (lines : List Line) : List Line := lines.filter fun l => lower l.1 ≠ bytes "set-cookie"

/-- the lines that tell the length -/
def Line.isLength (l : Line) : Prop := lower l.1 = bytes "content-length"

structure Framed (lines : List Line) (body : Bytes) : Prop where
  distinct : ((singular lines).map fun l => lower l.1).Nodup
  sized : body ≠ [] → ∃ l ∈ lines, l.isLength ∧ l.2 = decimal body.length
  empty : body = [] → ∀ l ∈ lines, l.isLength → isZero l.2

/-- the content-length entry of a map: none beside a body, and zero without one -/
def LengthEntryOk (headers : MapType) (body : Bytes) : Prop :=
  ∀ h ∈ headers.entries, Line.isLength h → body = [] ∧ isZero h.2

/-! ## The parts -/

theorem strcasecmpEq_of_lower {a b : Bytes} (h : lower a = lower b) : strcasecmpEq a b = true := by
  rw [strcasecmpEq, decide_eq_true_eq]
  exact fold_of_lower h

/-- the names of a map differ without their case -/
theorem nodup_mapLines (websocket : Bool) (headers : MapType) :
    ((mapLines websocket headers).map fun l => lower l.1).Nodup := by
  have hall : (headers.entries.map fun l => lower l.1).Nodup := by
    rw [List.Nodup, List.pairwise_map]
    refine headers.sorted.imp fun hlt heq => ?_
    rw [fold_of_lower heq] at hlt
    exact List.lt_irrefl _ hlt
  exact hall.sublist (List.filter_sublist.map _)

theorem mem_connectionLine {websocket close : Bool} {l : Line} (h : l ∈ connectionLine websocket close) :
    websocket = false ∧ lower l.1 = bytes "connection" := by
  cases websocket with
  | true => cases h
  | false =>
    obtain rfl := List.mem_singleton.1 h
    have hlower : lower (bytes "connection") = bytes "connection" := by decide
    exact ⟨rfl, hlower⟩

theorem lower_contentLength : lower (bytes "content-length") = bytes "content-length" := by decide

theorem mem_contentLengthLine {body : Bytes} {l : Line} :
    l ∈ contentLengthLine body ↔ body ≠ [] ∧ l = (bytes "content-length", decimal body.length) := by
  rw [contentLengthLine]
  split_ifs with h
  · simp [h]
  · simp [h]

/-- the map's connection entry is left out where dump writes a line of its own -/
theorem connection_ne_mapLines {websocket close : Bool} {headers : MapType} {l h : Line}
    (hl : l ∈ connectionLine websocket close) (hh : h ∈ mapLines websocket headers) : lower l.1 ≠ lower h.1 := by
  intro heq
  obtain ⟨hws, hname⟩ := mem_connectionLine hl
  have hlower : lower h.1 = lower (bytes "connection") := by
    calc lower h.1 = lower l.1 := heq.symm
      _ = bytes "connection" := hname
      _ = lower (bytes "connection") := by decide
  have hskip : strcasecmpEq h.1 (bytes "connection") = true := strcasecmpEq_of_lower hlower
  have hkeep := (List.mem_filter.1 hh).2
  simp [hws, hskip] at hkeep

/-- a content-length entry is never left out -/
theorem length_mem_mapLines {websocket : Bool} {headers : MapType} {h : Line} (hl : h.isLength) :
    h ∈ mapLines websocket headers ↔ h ∈ headers.entries := by
  have hother : strcasecmpEq h.1 (bytes "connection") = false := by
    have hfold : fold h.1 = fold (bytes "content-length") := fold_of_lower (hl.trans (by decide))
    rw [strcasecmpEq, hfold]
    decide
  rw [mapLines, List.mem_filter, hother]
  simp

section

variable {websocket close : Bool} {headers : MapType} {body : Bytes} {lines : List Line}

/-- the lines that dump writes have different names when the map has no content-length entry beside a body -/
theorem nodup_dumped (hok : LengthEntryOk headers body) :
    ((connectionLine websocket close ++ mapLines websocket headers ++ contentLengthLine body).map
      fun l => lower l.1).Nodup := by
  rw [List.map_append, List.map_append]
  refine List.nodup_append.2 ⟨List.nodup_append.2 ⟨?_, nodup_mapLines _ _, ?_⟩, ?_, ?_⟩
  · rw [connectionLine]
    split_ifs <;> simp
  · intro a ha b hb
    obtain ⟨l, hl, rfl⟩ := List.mem_map.1 ha
    obtain ⟨h, hh, rfl⟩ := List.mem_map.1 hb
    exact connection_ne_mapLines hl hh
  · rw [contentLengthLine]
    split_ifs <;> simp
  · intro a ha b hb heq
    rw [← List.map_append] at ha
    obtain ⟨l, hl, rfl⟩ := List.mem_map.1 ha
    obtain ⟨h, hh, rfl⟩ := List.mem_map.1 hb
    obtain ⟨hbody, rfl⟩ := mem_contentLengthLine.1 hh
    have hlen : l.isLength := heq.trans lower_contentLength
    rcases List.mem_append.1 hl with hl | hl
    · have hname := (mem_connectionLine hl).2.symm.trans hlen
      exact absurd hname (by decide)
    · exact hbody (hok l ((length_mem_mapLines hlen).1 hl) hlen).1

/-- a content-length entry beside a body makes a second line of that name -/
theorem body_empty_of_nodup (hnodup : ((singular (connectionLine websocket close ++ mapLines websocket headers ++
    contentLengthLine body)).map fun l => lower l.1).Nodup) {h : Line} (hh : h ∈ mapLines websocket headers)
    (hlen : h.isLength) : body = [] := by
  by_contra hbody
  rw [singular, List.filter_append, List.map_append, List.nodup_append] at hnodup
  have hkept : decide (lower h.1 ≠ bytes "set-cookie") = true := by
    rw [hlen]
    decide
  have hentry : lower h.1 ∈ ((connectionLine websocket close ++ mapLines websocket headers).filter
      fun l => lower l.1 ≠ bytes "set-cookie").map fun l => lower l.1 :=
    List.mem_map_of_mem (List.mem_filter.2 ⟨List.mem_append_right _ hh, hkept⟩)
  have hown : bytes "content-length" ∈ ((contentLengthLine body).filter
      fun l => lower l.1 ≠ bytes "set-cookie").map fun l => lower l.1 := by
    have hline := mem_contentLengthLine.2 ⟨hbody, rfl⟩
    exact List.mem_map.2 ⟨_, List.mem_filter.2 ⟨hline, by simp; decide⟩, lower_contentLength⟩
  exact absurd hlen (hnodup.2.2 _ hentry _ hown)

/-- the lines of a message, in any order and with Set-Cookie lines between them -/
theorem framed_iff (hperm : (singular lines).Perm
      (singular (connectionLine websocket close ++ mapLines websocket headers ++ contentLengthLine body))) :
    Framed lines body ↔ LengthEntryOk headers body := by
  have hmem : ∀ l : Line, l.isLength → (l ∈ lines ↔ l ∈ mapLines websocket headers ∨ l ∈ contentLengthLine body) := by
    intro l hl
    have hsingular : ∀ ls : List Line, l ∈ singular ls ↔ l ∈ ls := by
      intro ls
      rw [singular, List.mem_filter, hl]
      exact and_iff_left (by decide)
    have hconn : l ∉ connectionLine websocket close := by
      intro hin
      have hname := (mem_connectionLine hin).2.symm.trans hl
      exact absurd hname (by decide)
    rw [← hsingular, hperm.mem_iff, hsingular, List.mem_append, List.mem_append]
    simp [hconn]
  have hnames := (hperm.map fun l => lower l.1).nodup_iff
  refine ⟨fun hf h hh hlen => ?_, fun hok => ?_⟩
  · have hin : h ∈ mapLines websocket headers := (length_mem_mapLines hlen).2 hh
    have hbody := body_empty_of_nodup (hnames.1 hf.distinct) hin hlen
    exact ⟨hbody, hf.empty hbody h ((hmem h hlen).2 (.inl hin)) hlen⟩
  · refine ⟨?_, fun hbody => ?_, fun hbody l hl hlen => ?_⟩
    · exact hnames.2 ((nodup_dumped hok).sublist (List.filter_sublist.map _))
    · have hown : Line.isLength (bytes "content-length", decimal body.length) := lower_contentLength
      exact ⟨_, (hmem _ hown).2 (.inr (mem_contentLengthLine.2 ⟨hbody, rfl⟩)), hown, rfl⟩
    · rcases (hmem l hlen).1 hl with hl | hl
      · exact (hok l ((length_mem_mapLines hlen).1 hl) hlen).2
      · exact absurd hbody (mem_contentLengthLine.1 hl).1

end

/-! ## Requests and responses -/

theorem HttpRequest.framed_iff (r : HttpRequest) :
    Framed r.headerLines r.body ↔ LengthEntryOk r.headers r.body :=
  Http.framed_iff (List.Perm.refl _)

theorem HttpResponse.framed_iff (r : HttpResponse) :
    Framed r.headerLines r.body ↔ LengthEntryOk r.headers r.body := by
  have hcookies : singular (r.cookies.map fun i => (bytes "Set-Cookie", i)) = [] := by
    refine List.filter_eq_nil_iff.2 fun l hl => ?_
    obtain ⟨i, -, rfl⟩ := List.mem_map.1 hl
    have hname : lower (bytes "Set-Cookie") = bytes "set-cookie" := by decide
    simp [hname]
  have happend : ∀ a b : List Line, singular (a ++ b) = singular a ++ singular b := fun _ _ => List.filter_append ..
  apply Http.framed_iff
  rw [headerLines, happend, happend, happend, hcookies, List.append_nil, happend, happend]
  exact List.Perm.append_right _ List.perm_append_comm

/-- the lines between the first line and the empty line of the text -/
theorem HttpRequest.read_off (r : HttpRequest) {first body : Bytes} {ls : List Line} (hr : '\r'.toUInt8 ∉ r.firstLine)
    (hlines : ∀ l ∈ r.headerLines, l.Ok) (hfirst : '\r'.toUInt8 ∉ first) (hls : ∀ l ∈ ls, l.Ok)
    (h : r.dump = first ++ crlf ++ ls.flatMap render ++ crlf ++ body) : ls = r.headerLines ∧ body = r.body := by
  rw [r.dump_eq] at h
  obtain ⟨-, rfl, rfl⟩ := message_unique hr hfirst hlines hls h
  exact ⟨rfl, rfl⟩

theorem HttpResponse.read_off (r : HttpResponse) {first body : Bytes} {ls : List Line} (hr : '\r'.toUInt8 ∉ r.firstLine)
    (hlines : ∀ l ∈ r.headerLines, l.Ok) (hfirst : '\r'.toUInt8 ∉ first) (hls : ∀ l ∈ ls, l.Ok)
    (h : r.dump = first ++ crlf ++ ls.flatMap render ++ crlf ++ body) : ls = r.headerLines ∧ body = r.body := by
  rw [r.dump_eq] at h
  obtain ⟨-, rfl, rfl⟩ := message_unique hr hfirst hlines hls h
  exact ⟨rfl, rfl⟩

/-- what on_request_http_field leaves of "Content-Length: 10" -/
def parsedRequest (body : Bytes) : HttpRequest :=
  { HttpRequest.new 0x11 true with
    method := .POST
    headers := ⟨[(bytes "Content-Length", bytes "10")], List.pairwise_singleton _ _⟩
    body := body }

end Sylar.Http

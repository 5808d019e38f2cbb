/-
`HttpRequest` and `HttpResponse` of http.h and http.cc: the members, the header map and `dump`.

The maps compare their keys with strcasecmp, so a name is what stands in front of its first NUL, without the case. An
HttpStatus may hold any number (`(HttpStatus)400` in test_http.cc); the table only names some of them.

`headerLines` are the header lines in the order in which `dump` writes them.

Results:
- `StringToHttpMethod_HttpMethodToString`: the names of the methods are told apart;
- `HttpRequest.dump_eq`, `HttpResponse.dump_eq`: a message is its first line, its header lines, an empty line and the
  body;
- `lines_unique`, `message_unique`: header lines whose names have no ':' or CR and whose values have no CR are read off a
  text in one way.
-/
import Sylar.Core.Text
import Sylar.Core.OrderedMap

namespace Sylar.Http

open Sylar.Text

/-! ## Methods and statuses -/

inductive HttpMethod where
  | DELETE
  | GET
  | HEAD
  | POST
  | PUT
  | CONNECT
  | OPTIONS
  | TRACE
  | COPY
  | LOCK
  | MKCOL
  | MOVE
  | PROPFIND
  | PROPPATCH
  | SEARCH
  | UNLOCK
  | BIND
  | REBIND
  | UNBIND
  | ACL
  | REPORT
  | MKACTIVITY
  | CHECKOUT
  | MERGE
  | MSEARCH
  | NOTIFY
  | SUBSCRIBE
  | UNSUBSCRIBE
  | PATCH
  | PURGE
  | MKCALENDAR
  | LINK
  | UNLINK
  | SOURCE
  | INVALID_METHOD
deriving DecidableEq, Repr

/-- HTTP_METHOD_MAP -/
def httpMethodMap : List (HttpMethod × Bytes) := [
  (.DELETE, bytes "DELETE"), (.GET, bytes "GET"), (.HEAD, bytes "HEAD"), (.POST, bytes "POST"), (.PUT, bytes "PUT"),
  (.CONNECT, bytes "CONNECT"), (.OPTIONS, bytes "OPTIONS"), (.TRACE, bytes "TRACE"), (.COPY, bytes "COPY"),
  (.LOCK, bytes "LOCK"), (.MKCOL, bytes "MKCOL"), (.MOVE, bytes "MOVE"), (.PROPFIND, bytes "PROPFIND"),
  (.PROPPATCH, bytes "PROPPATCH"), (.SEARCH, bytes "SEARCH"), (.UNLOCK, bytes "UNLOCK"), (.BIND, bytes "BIND"),
  (.REBIND, bytes "REBIND"), (.UNBIND, bytes "UNBIND"), (.ACL, bytes "ACL"), (.REPORT, bytes "REPORT"),
  (.MKACTIVITY, bytes "MKACTIVITY"), (.CHECKOUT, bytes "CHECKOUT"), (.MERGE, bytes "MERGE"),
  (.MSEARCH, bytes "M-SEARCH"), (.NOTIFY, bytes "NOTIFY"), (.SUBSCRIBE, bytes "SUBSCRIBE"),
  (.UNSUBSCRIBE, bytes "UNSUBSCRIBE"), (.PATCH, bytes "PATCH"), (.PURGE, bytes "PURGE"),
  (.MKCALENDAR, bytes "MKCALENDAR"), (.LINK, bytes "LINK"), (.UNLINK, bytes "UNLINK"), (.SOURCE, bytes "SOURCE")]

/-- HTTP_STATUS_MAP -/
def httpStatusMap : List (UInt32 × Bytes) := [
  (100, bytes "Continue"), (101, bytes "Switching Protocols"), (102, bytes "Processing"), (200, bytes "OK"),
  (201, bytes "Created"), (202, bytes "Accepted"), (203, bytes "Non-Authoritative Information"),
  (204, bytes "No Content"), (205, bytes "Reset Content"), (206, bytes "Partial Content"),
  (207, bytes "Multi-Status"), (208, bytes "Already Reported"), (226, bytes "IM Used"),
  (300, bytes "Multiple Choices"), (301, bytes "Moved Permanently"), (302, bytes "Found"), (303, bytes "See Other"),
  (304, bytes "Not Modified"), (305, bytes "Use Proxy"), (307, bytes "Temporary Redirect"),
  (308, bytes "Permanent Redirect"), (400, bytes "Bad Request"), (401, bytes "Unauthorized"),
  (402, bytes "Payment Required"), (403, bytes "Forbidden"), (404, bytes "Not Found"),
  (405, bytes "Method Not Allowed"), (406, bytes "Not Acceptable"), (407, bytes "Proxy Authentication Required"),
  (408, bytes "Request Timeout"), (409, bytes "Conflict"), (410, bytes "Gone"), (411, bytes "Length Required"),
  (412, bytes "Precondition Failed"), (413, bytes "Payload Too Large"), (414, bytes "URI Too Long"),
  (415, bytes "Unsupported Media Type"), (416, bytes "Range Not Satisfiable"), (417, bytes "Expectation Failed"),
  (421, bytes "Misdirected Request"), (422, bytes "Unprocessable Entity"), (423, bytes "Locked"),
  (424, bytes "Failed Dependency"), (426, bytes "Upgrade Required"), (428, bytes "Precondition Required"),
  (429, bytes "Too Many Requests"), (431, bytes "Request Header Fields Too Large"),
  (451, bytes "Unavailable For Legal Reasons"), (500, bytes "Internal Server Error"),
  (501, bytes "Not Implemented"), (502, bytes "Bad Gateway"), (503, bytes "Service Unavailable"),
  (504, bytes "Gateway Timeout"), (505, bytes "HTTP Version Not Supported"), (506, bytes "Variant Also Negotiates"),
  (507, bytes "Insufficient Storage"), (508, bytes "Loop Detected"), (510, bytes "Not Extended"),
  (511, bytes "Network Authentication Required")]

def HttpMethodToString (m : HttpMethod) : Bytes :=
  match httpMethodMap.find? fun x => x.1 = m with
  | some x => x.2
  | none => bytes "<unknown>"

/-- `strcmp` reads the argument up to its first NUL -/
def StringToHttpMethod (m : Bytes) : HttpMethod :=
  match httpMethodMap.find? fun x => x.2 = cstr m with
  | some x => x.1
  | none => .INVALID_METHOD

def HttpStatusToString (s : UInt32) : Bytes :=
  match httpStatusMap.find? fun x => x.1 = s with
  | some x => x.2
  | none => bytes "<unknown>"

theorem StringToHttpMethod_HttpMethodToString {m : HttpMethod} (h : m ≠ .INVALID_METHOD) :
    StringToHttpMethod (HttpMethodToString m) = m := by
  cases m <;> first | exact absurd rfl h | decide

/-! ## The members -/

/-- `std::map<std::string, std::string, CaseInsensitiveLess>` -/
abbrev MapType := OrderedMap.Map Bytes Bytes fold

structure HttpRequest where
  method : HttpMethod
  version : UInt8
  close : Bool
  websocket : Bool
  parserParamFlag : UInt8
  path : Bytes
  query : Bytes
  fragment : Bytes
  body : Bytes
  headers : MapType
  params : MapType
  cookies : MapType

/-- the constructor; 0x11 and true are its defaults -/
def HttpRequest.new (version : UInt8) (close : Bool) : HttpRequest :=
  ⟨.GET, version, close, false, 0, bytes "/", [], [], [], .empty, .empty, .empty⟩

structure HttpResponse where
  status : UInt32
  version : UInt8
  close : Bool
  websocket : Bool
  body : Bytes
  reason : Bytes
  headers : MapType
  cookies : List Bytes

/-! ## dump -/

def crlf : Bytes := bytes "\r\n"

/-- `strcasecmp(a, b) == 0` -/
def strcasecmpEq (a b : Bytes) : Bool := fold a = fold b

def HttpRequest.dump (r : HttpRequest) : Bytes :=
  HttpMethodToString r.method ++ bytes " "
    ++ r.path
    ++ (if r.query = [] then [] else bytes "?")
    ++ r.query
    ++ (if r.fragment = [] then [] else bytes "#")
    ++ r.fragment
    ++ bytes " HTTP/"
    ++ decimal (r.version >>> 4).toNat
    ++ bytes "."
    ++ decimal (r.version &&& 0x0F).toNat
    ++ crlf
    ++ (if !r.websocket then
          bytes "connection: " ++ (if r.close then bytes "close" else bytes "keep-alive") ++ crlf
        else [])
    ++ (r.headers.entries.flatMap fun i =>
          if !r.websocket && strcasecmpEq i.1 (bytes "connection") then []
          else i.1 ++ bytes ": " ++ i.2 ++ crlf)
    ++ (if r.body ≠ [] then
          bytes "content-length: " ++ decimal r.body.length ++ bytes "\r\n\r\n" ++ r.body
        else crlf)

def HttpResponse.dump (r : HttpResponse) : Bytes :=
  bytes "HTTP/"
    ++ decimal (r.version >>> 4).toNat
    ++ bytes "."
    ++ decimal (r.version &&& 0x0F).toNat
    ++ bytes " "
    ++ decimal r.status.toNat
    ++ bytes " "
    ++ (if r.reason = [] then HttpStatusToString r.status else r.reason)
    ++ crlf
    ++ (r.headers.entries.flatMap fun i =>
          if !r.websocket && strcasecmpEq i.1 (bytes "connection") then []
          else i.1 ++ bytes ": " ++ i.2 ++ crlf)
    ++ (r.cookies.flatMap fun i => bytes "Set-Cookie: " ++ i ++ crlf)
    ++ (if !r.websocket then
          bytes "connection: " ++ (if r.close then bytes "close" else bytes "keep-alive") ++ crlf
        else [])
    ++ (if r.body ≠ [] then
          bytes "content-length: " ++ decimal r.body.length ++ bytes "\r\n\r\n" ++ r.body
        else crlf)

/-! ## The lines of a message -/

/-- name and value -/
abbrev Line := Bytes × Bytes

def render (l : Line) : Bytes := l.1 ++ bytes ": " ++ l.2 ++ crlf

def connectionLine (websocket close : Bool) : List Line :=
  if !websocket then [(bytes "connection", if close then bytes "close" else bytes "keep-alive")] else []

/-- the lines of the header map -/
def mapLines (websocket : Bool) (headers : MapType) : List Line :=
  headers.entries.filter fun i => !(!websocket && strcasecmpEq i.1 (bytes "connection"))

def contentLengthLine (body : Bytes) : List Line :=
  if body ≠ [] then [(bytes "content-length", decimal body.length)] else []

def HttpRequest.firstLine (r : HttpRequest) : Bytes :=
  HttpMethodToString r.method ++ bytes " " ++ r.path ++ (if r.query = [] then [] else bytes "?") ++ r.query
    ++ (if r.fragment = [] then [] else bytes "#") ++ r.fragment ++ bytes " HTTP/" ++ decimal (r.version >>> 4).toNat
    ++ bytes "." ++ decimal (r.version &&& 0x0F).toNat

def HttpRequest.headerLines (r : HttpRequest) : List Line :=
  connectionLine r.websocket r.close ++ mapLines r.websocket r.headers ++ contentLengthLine r.body

def HttpResponse.firstLine (r : HttpResponse) : Bytes :=
  bytes "HTTP/" ++ decimal (r.version >>> 4).toNat ++ bytes "." ++ decimal (r.version &&& 0x0F).toNat ++ bytes " "
    ++ decimal r.status.toNat ++ bytes " " ++ (if r.reason = [] then HttpStatusToString r.status else r.reason)

def HttpResponse.headerLines (r : HttpResponse) : List Line :=
  mapLines r.websocket r.headers ++ r.cookies.map (fun i => (bytes "Set-Cookie", i))
    ++ connectionLine r.websocket r.close ++ contentLengthLine r.body

theorem flatMap_mapLines (websocket : Bool) (headers : MapType) :
    (headers.entries.flatMap fun i => if !websocket && strcasecmpEq i.1 (bytes "connection") then []
      else i.1 ++ bytes ": " ++ i.2 ++ crlf) = (mapLines websocket headers).flatMap render := by
  rw [mapLines]
  induction headers.entries with
  | nil => rfl
  | cons i l ih =>
    rw [List.flatMap_cons, ih]
    by_cases h : (!websocket && strcasecmpEq i.1 (bytes "connection")) = true
    · rw [if_pos h, List.filter_cons_of_neg (by rw [h]; simp)]
      rfl
    · rw [if_neg h, List.filter_cons_of_pos (by rw [Bool.eq_false_of_not_eq_true h]; rfl)]
      rfl

theorem flatMap_connectionLine (websocket close : Bool) :
    (if !websocket then bytes "connection: " ++ (if close then bytes "close" else bytes "keep-alive") ++ crlf else []) =
      (connectionLine websocket close).flatMap render := by
  cases websocket <;> cases close <;> rfl

/-- the end of the header and the body -/
theorem flatMap_contentLengthLine (body : Bytes) :
    (if body ≠ [] then bytes "content-length: " ++ decimal body.length ++ bytes "\r\n\r\n" ++ body else crlf) =
      (contentLengthLine body).flatMap render ++ crlf ++ body := by
  rw [contentLengthLine]
  split_ifs with h
  · have hname : bytes "content-length: " = bytes "content-length" ++ bytes ": " := rfl
    have hend : bytes "\r\n\r\n" = crlf ++ crlf := rfl
    simp only [hname, hend, List.flatMap_singleton, render, List.append_assoc]
  · rw [not_not.1 h]
    rfl

theorem HttpRequest.dump_eq (r : HttpRequest) :
    r.dump = r.firstLine ++ crlf ++ r.headerLines.flatMap render ++ crlf ++ r.body := by
  rw [dump, flatMap_mapLines, flatMap_connectionLine, flatMap_contentLengthLine, firstLine, headerLines]
  simp only [List.flatMap_append, List.append_assoc]

theorem HttpResponse.dump_eq (r : HttpResponse) :
    r.dump = r.firstLine ++ crlf ++ r.headerLines.flatMap render ++ crlf ++ r.body := by
  have hcookies : (r.cookies.flatMap fun i => bytes "Set-Cookie: " ++ i ++ crlf) =
      (r.cookies.map fun i => (bytes "Set-Cookie", i)).flatMap render := by
    rw [List.flatMap_map]
    rfl
  rw [dump, flatMap_mapLines, flatMap_connectionLine, flatMap_contentLengthLine, hcookies, firstLine, headerLines]
  simp only [List.flatMap_append, List.append_assoc]

/-! ## Reading the lines off a text -/

/-- a line that can be told from the next one and from the end of the header -/
structure Line.Ok (l : Line) : Prop where
  name_ne : l.1 ≠ []
  name_colon : ':'.toUInt8 ∉ l.1
  name_cr : '\r'.toUInt8 ∉ l.1
  value_cr : '\r'.toUInt8 ∉ l.2

theorem render_append (l : Line) (rest : Bytes) :
    render l ++ rest = l.1 ++ ':'.toUInt8 :: (' '.toUInt8 :: (l.2 ++ '\r'.toUInt8 :: ('\n'.toUInt8 :: rest))) := by
  have hcolon : bytes ": " = [':'.toUInt8, ' '.toUInt8] := rfl
  have hcrlf : crlf = ['\r'.toUInt8, '\n'.toUInt8] := rfl
  simp [render, hcolon, hcrlf]

theorem render_unique {l l' : Line} {rest rest' : Bytes} (hl : l.Ok) (hl' : l'.Ok)
    (h : render l ++ rest = render l' ++ rest') : l = l' ∧ rest = rest' := by
  rw [render_append, render_append] at h
  obtain ⟨hname, hafter⟩ := cut_unique hl.name_colon hl'.name_colon h
  obtain ⟨hvalue, hrest⟩ := cut_unique hl.value_cr hl'.value_cr (List.cons.inj hafter).2
  exact ⟨Prod.ext hname hvalue, (List.cons.inj hrest).2⟩

/-- the empty line is no header line -/
theorem crlf_ne_render {body rest : Bytes} {l : Line} (hl : l.Ok) : crlf ++ body ≠ render l ++ rest := by
  intro h
  obtain ⟨c, s, hname⟩ := List.exists_cons_of_ne_nil hl.name_ne
  rw [render_append, hname] at h
  have hfirst : '\r'.toUInt8 = c := (List.cons.inj h).1
  refine hl.name_cr ?_
  rw [hname, hfirst]
  exact List.mem_cons_self

/-- the header lines and the body are read off a text in one way -/
theorem lines_unique {ls ls' : List Line} {body body' : Bytes} (hls : ∀ l ∈ ls, l.Ok) (hls' : ∀ l ∈ ls', l.Ok)
    (h : ls.flatMap render ++ (crlf ++ body) = ls'.flatMap render ++ (crlf ++ body')) : ls = ls' ∧ body = body' := by
  induction ls generalizing ls' with
  | nil =>
    cases ls' with
    | nil => exact ⟨rfl, List.append_cancel_left h⟩
    | cons l' ls' =>
      rw [List.flatMap_cons, List.append_assoc] at h
      exact absurd h (crlf_ne_render (hls' l' List.mem_cons_self))
  | cons l ls ih =>
    cases ls' with
    | nil =>
      rw [List.flatMap_cons, List.append_assoc] at h
      exact absurd h.symm (crlf_ne_render (hls l List.mem_cons_self))
    | cons l' ls' =>
      rw [List.flatMap_cons, List.append_assoc, List.flatMap_cons, List.append_assoc] at h
      obtain ⟨rfl, hrest⟩ := render_unique (hls l List.mem_cons_self) (hls' l' List.mem_cons_self) h
      obtain ⟨rfl, rfl⟩ := ih (fun x hx => hls x (List.mem_cons_of_mem l hx))
        (fun x hx => hls' x (List.mem_cons_of_mem l hx)) hrest
      exact ⟨rfl, rfl⟩

/-- a whole message is read off in one way when its first line has no CR -/
theorem message_unique {first first' body body' : Bytes} {ls ls' : List Line} (hfirst : '\r'.toUInt8 ∉ first)
    (hfirst' : '\r'.toUInt8 ∉ first') (hls : ∀ l ∈ ls, l.Ok) (hls' : ∀ l ∈ ls', l.Ok)
    (h : first ++ crlf ++ ls.flatMap render ++ crlf ++ body = first' ++ crlf ++ ls'.flatMap render ++ crlf ++ body') :
    first = first' ∧ ls = ls' ∧ body = body' := by
  have hsplit : ∀ (first : Bytes) (ls : List Line) (body : Bytes),
      first ++ crlf ++ ls.flatMap render ++ crlf ++ body =
        first ++ '\r'.toUInt8 :: ('\n'.toUInt8 :: (ls.flatMap render ++ (crlf ++ body))) := by
    intro first ls body
    have hcrlf : crlf ++ (ls.flatMap render ++ (crlf ++ body)) =
        '\r'.toUInt8 :: ('\n'.toUInt8 :: (ls.flatMap render ++ (crlf ++ body))) := rfl
    rw [← hcrlf]
    simp only [List.append_assoc]
  rw [hsplit, hsplit] at h
  obtain ⟨rfl, hrest⟩ := cut_unique hfirst hfirst' h
  obtain ⟨rfl, rfl⟩ := lines_unique hls hls' (List.cons.inj hrest).2
  exact ⟨rfl, rfl, rfl⟩

/-- the lines that dump adds itself -/
theorem ok_connectionLine (websocket close : Bool) : ∀ l ∈ connectionLine websocket close, l.Ok := by
  intro l hl
  cases websocket with
  | true => cases hl
  | false =>
    obtain rfl := List.mem_singleton.1 hl
    cases close <;> exact ⟨by decide, by decide, by decide, by decide⟩

theorem ok_contentLengthLine (body : Bytes) : ∀ l ∈ contentLengthLine body, l.Ok := by
  intro l hl
  rw [contentLengthLine] at hl
  split_ifs at hl
  · obtain rfl := List.mem_singleton.1 hl
    have hname : bytes "content-length" ≠ [] ∧ ':'.toUInt8 ∉ bytes "content-length" ∧
        '\r'.toUInt8 ∉ bytes "content-length" := by decide
    exact ⟨hname.1, hname.2.1, hname.2.2, notMem_decimal (by decide) _⟩
  · cases hl

end Sylar.Http

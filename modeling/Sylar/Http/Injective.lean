/-
What `HttpRequest::dump` writes can be cut apart in one way only.

The parts end at the first separator that cannot occur in them: the method and the target at a space, the path at '?' or
'#', the query at '#', the numbers of the version at '.' and CR, a header name at ':', a value at CR. The header ends
at the line that begins with CR.

The names are stored as they were first set, NUL included, and strcasecmp stops at a NUL. So a header whose name begins
with "connection" and a NUL is left out by dump as well.

Results:
- `opt_unique`, `target_unique`: the optional query and fragment;
- `dump_injective`: equal texts come from equal requests;
- `connection_nul_left_out`: two requests that differ behind such a name have the same text.
-/
import Sylar.Http.Message

namespace Sylar.Http

open Sylar.Text

/-! ## The target -/

/-- a part that is written with its separator, and not at all when it is empty -/
def opt (c : UInt8) (s : Bytes) : Bytes := if s = [] then [] else c :: s

theorem mem_opt {x c : UInt8} {s : Bytes} (h : x ∈ opt c s) : x = c ∨ x ∈ s := by
  rw [opt] at h
  split_ifs at h
  · cases h
  · exact List.mem_cons.1 h

theorem opt_unique {c : UInt8} {a a' s s' : Bytes} (ha : c ∉ a) (ha' : c ∉ a') (h : a ++ opt c s = a' ++ opt c s') :
    a = a' ∧ s = s' := by
  rw [opt, opt] at h
  split_ifs at h with hs hs' hs'
  · rw [hs, hs']
    exact ⟨by simpa using h, rfl⟩
  · have hmem : c ∈ a := by
      rw [List.append_nil] at h
      rw [h]
      simp
    exact absurd hmem ha
  · have hmem : c ∈ a' := by
      rw [List.append_nil] at h
      rw [← h]
      simp
    exact absurd hmem ha'
  · exact cut_unique ha ha' h

def target (path query fragment : Bytes) : Bytes :=
  path ++ opt '?'.toUInt8 query ++ opt '#'.toUInt8 fragment

theorem target_unique {p p' q q' f f' : Bytes} (hp : '?'.toUInt8 ∉ p ∧ '#'.toUInt8 ∉ p)
    (hp' : '?'.toUInt8 ∉ p' ∧ '#'.toUInt8 ∉ p') (hq : '#'.toUInt8 ∉ q) (hq' : '#'.toUInt8 ∉ q')
    (h : target p q f = target p' q' f') : p = p' ∧ q = q' ∧ f = f' := by
  have hfront : ∀ {p q : Bytes}, '#'.toUInt8 ∉ p → '#'.toUInt8 ∉ q → '#'.toUInt8 ∉ p ++ opt '?'.toUInt8 q := by
    intro p q hp hq hmem
    rcases List.mem_append.1 hmem with hmem | hmem
    · exact hp hmem
    · rcases mem_opt hmem with heq | hmem
      · exact absurd heq (by decide)
      · exact hq hmem
  obtain ⟨hpq, rfl⟩ := opt_unique (hfront hp.2 hq) (hfront hp'.2 hq') h
  obtain ⟨rfl, rfl⟩ := opt_unique hp.1 hp'.1 hpq
  exact ⟨rfl, rfl, rfl⟩

/-! ## Requests -/

/-- a request whose parts keep to the characters that their places allow -/
structure WellFormed (r : HttpRequest) : Prop where
  websocket : r.websocket = false
  method : r.method ≠ .INVALID_METHOD
  path : ∀ c ∈ bytes " ?#\r\n", c ∉ r.path
  query : ∀ c ∈ bytes " #\r\n", c ∉ r.query
  fragment : ∀ c ∈ bytes " \r\n", c ∉ r.fragment
  name_ne : ∀ h ∈ r.headers.entries, h.1 ≠ []
  name : ∀ h ∈ r.headers.entries, ∀ c ∈ bytes ":\r\n", c ∉ h.1
  name_other : ∀ h ∈ r.headers.entries, lower h.1 ≠ bytes "connection" ∧ lower h.1 ≠ bytes "content-length"
  value : ∀ h ∈ r.headers.entries, ∀ c ∈ bytes "\r\n", c ∉ h.2

/-- what the text of a request tells -/
structure SameMessage (r r' : HttpRequest) : Prop where
  method : r.method = r'.method
  version : r.version = r'.version
  close : r.close = r'.close
  path : r.path = r'.path
  query : r.query = r'.query
  fragment : r.fragment = r'.fragment
  headers : r.headers.entries = r'.headers.entries
  body : r.body = r'.body

theorem HttpMethodToString_injective {m m' : HttpMethod} (h : m ≠ .INVALID_METHOD) (h' : m' ≠ .INVALID_METHOD)
    (heq : HttpMethodToString m = HttpMethodToString m') : m = m' := by
  rw [← StringToHttpMethod_HttpMethodToString h, heq, StringToHttpMethod_HttpMethodToString h']

theorem space_notMem_method (m : HttpMethod) : ' '.toUInt8 ∉ HttpMethodToString m := by
  cases m <;> decide

theorem version_unique {v w : UInt8} (hmajor : (v >>> 4).toNat = (w >>> 4).toNat)
    (hminor : (v &&& 0x0F).toNat = (w &&& 0x0F).toNat) : v = w := by
  have hback : ∀ v : UInt8, v = (v >>> 4) <<< 4 ||| (v &&& 0x0F) := by
    apply forall_byte
    decide +kernel
  rw [hback v, UInt8.toNat_inj.1 hmajor, UInt8.toNat_inj.1 hminor, ← hback w]

/-- the text with every separator in its place -/
theorem dump_parts (r : HttpRequest) :
    r.dump = HttpMethodToString r.method ++ ' '.toUInt8 :: (target r.path r.query r.fragment ++
      ' '.toUInt8 :: (bytes "HTTP/" ++ (decimal (r.version >>> 4).toNat ++ '.'.toUInt8 ::
        (decimal (r.version &&& 0x0F).toNat ++ '\r'.toUInt8 :: '\n'.toUInt8 ::
          (r.headerLines.flatMap render ++ (crlf ++ r.body)))))) := by
  have hspace : bytes " " = [' '.toUInt8] := rfl
  have hdot : bytes "." = ['.'.toUInt8] := rfl
  have hhttp : bytes " HTTP/" = ' '.toUInt8 :: bytes "HTTP/" := rfl
  have hcrlf : crlf = ['\r'.toUInt8, '\n'.toUInt8] := rfl
  have hopt : ∀ (c : UInt8) (s rest : Bytes), (if s = [] then [] else [c]) ++ (s ++ rest) = opt c s ++ rest := by
    intro c s rest
    rw [opt]
    split_ifs with hs
    · rw [hs]
      rfl
    · rfl
  have hquestion : bytes "?" = ['?'.toUInt8] := rfl
  have hhash : bytes "#" = ['#'.toUInt8] := rfl
  rw [r.dump_eq, HttpRequest.firstLine, target, hspace, hdot, hhttp, hcrlf, hquestion, hhash]
  simp only [List.append_assoc, List.cons_append, List.nil_append, hopt]

theorem WellFormed.lines_ok {r : HttpRequest} (h : WellFormed r) (hconn : ∀ i ∈ r.headers.entries,
    strcasecmpEq i.1 (bytes "connection") = false) :
    r.headerLines = connectionLine false r.close ++ r.headers.entries ++ contentLengthLine r.body ∧
      ∀ l ∈ r.headerLines, l.Ok := by
  have hall : mapLines r.websocket r.headers = r.headers.entries := by
    refine List.filter_eq_self.2 fun i hi => ?_
    simp [hconn i hi]
  have hlines : r.headerLines = connectionLine false r.close ++ r.headers.entries ++ contentLengthLine r.body := by
    rw [HttpRequest.headerLines, hall, h.websocket]
  refine ⟨hlines, fun l hl => ?_⟩
  rw [hlines] at hl
  rcases List.mem_append.1 hl with hl | hl
  · rcases List.mem_append.1 hl with hl | hl
    · exact ok_connectionLine _ _ l hl
    · exact ⟨h.name_ne l hl, h.name l hl _ (by decide), h.name l hl _ (by decide), h.value l hl _ (by decide)⟩
  · exact ok_contentLengthLine _ l hl

/-- equal texts come from equal requests, as long as no name stops at "connection" -/
theorem dump_injective {r r' : HttpRequest} (h : WellFormed r) (h' : WellFormed r')
    (hconn : ∀ i ∈ r.headers.entries, strcasecmpEq i.1 (bytes "connection") = false)
    (hconn' : ∀ i ∈ r'.headers.entries, strcasecmpEq i.1 (bytes "connection") = false) (heq : r.dump = r'.dump) :
    SameMessage r r' := by
  have hspace : ∀ {r : HttpRequest}, WellFormed r → ' '.toUInt8 ∉ target r.path r.query r.fragment := by
    intro r h hmem
    rcases List.mem_append.1 hmem with hmem | hmem
    · rcases List.mem_append.1 hmem with hmem | hmem
      · exact h.path _ (by decide) hmem
      · exact h.query _ (by decide) ((mem_opt hmem).resolve_left (by decide))
    · exact h.fragment _ (by decide) ((mem_opt hmem).resolve_left (by decide))
  rw [dump_parts, dump_parts] at heq
  obtain ⟨hmethod, heq⟩ := cut_unique (space_notMem_method _) (space_notMem_method _) heq
  obtain ⟨htarget, heq⟩ := cut_unique (hspace h) (hspace h') heq
  obtain ⟨hmajor, heq⟩ := cut_unique (notMem_decimal (by decide) _) (notMem_decimal (by decide) _)
    (List.append_cancel_left heq)
  obtain ⟨hminor, heq⟩ := cut_unique (notMem_decimal (by decide) _) (notMem_decimal (by decide) _) heq
  obtain ⟨hpath, hquery, hfragment⟩ := target_unique ⟨h.path _ (by decide), h.path _ (by decide)⟩
    ⟨h'.path _ (by decide), h'.path _ (by decide)⟩ (h.query _ (by decide)) (h'.query _ (by decide)) htarget
  obtain ⟨hown, hok⟩ := h.lines_ok hconn
  obtain ⟨hown', hok'⟩ := h'.lines_ok hconn'
  obtain ⟨hlines, hbody⟩ := lines_unique hok hok' (List.cons.inj heq).2
  rw [hown, hown', hbody] at hlines
  obtain ⟨hfirst, hheaders⟩ := List.cons.inj (List.append_cancel_right hlines)
  refine ⟨HttpMethodToString_injective h.method h'.method hmethod,
    version_unique (decimal_injective hmajor) (decimal_injective hminor), ?_, hpath, hquery, hfragment, hheaders, hbody⟩
  have hclose := congrArg Prod.snd hfirst
  revert hclose
  cases r.close <;> cases r'.close <;> decide

def requestWith (name value : Bytes) : HttpRequest :=
  { HttpRequest.new 0x11 true with headers := ⟨[(name, value)], List.pairwise_singleton _ _⟩ }

theorem wellFormed_requestWith {name value : Bytes} (hne : name ≠ []) (hname : ∀ c ∈ bytes ":\r\n", c ∉ name)
    (hother : lower name ≠ bytes "connection" ∧ lower name ≠ bytes "content-length")
    (hvalue : ∀ c ∈ bytes "\r\n", c ∉ value) : WellFormed (requestWith name value) := by
  have hone : ∀ {P : Bytes × Bytes → Prop}, P (name, value) → ∀ h ∈ (requestWith name value).headers.entries, P h :=
    fun hP h hh => by rwa [List.mem_singleton.1 hh]
  have hmethod : HttpMethod.GET ≠ .INVALID_METHOD := by decide
  have hpath : ∀ c ∈ bytes " ?#\r\n", c ∉ bytes "/" := forall_mem_of_all (by decide)
  exact ⟨rfl, hmethod, hpath, fun _ _ => List.not_mem_nil, fun _ _ => List.not_mem_nil, hone hne, hone hname,
    hone hother, hone hvalue⟩

theorem dump_injective_example :
    SameMessage (requestWith (bytes "Host") (bytes "www.sylar.top"))
      (requestWith (bytes "Host") (bytes "www.sylar.top")) := by
  have hok : WellFormed (requestWith (bytes "Host") (bytes "www.sylar.top")) :=
    wellFormed_requestWith (by decide) (forall_mem_of_all (by decide)) (by decide) (forall_mem_of_all (by decide))
  exact dump_injective hok hok (by decide) (by decide) rfl

/-- dump leaves a header out whose name is "connection" up to its first NUL -/
theorem connection_nul_left_out :
    ∃ r r' : HttpRequest, WellFormed r ∧ WellFormed r' ∧ r.dump = r'.dump ∧ ¬ SameMessage r r' := by
  refine ⟨requestWith (bytes "connection\x00x") (bytes "a"), requestWith (bytes "connection\x00x") (bytes "b"),
    wellFormed_requestWith (by decide) (forall_mem_of_all (by decide)) (by decide) (forall_mem_of_all (by decide)),
    wellFormed_requestWith (by decide) (forall_mem_of_all (by decide)) (by decide) (forall_mem_of_all (by decide)),
    by decide, fun h => ?_⟩
  have hheaders := h.headers
  revert hheaders
  decide

end Sylar.Http

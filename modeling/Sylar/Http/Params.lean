/-
The parameters and cookies of an HttpRequest: PARSE_PARAM, the three init functions with their flags, and the accessors.

The loop of PARSE_PARAM looks for '=' from where it is, so a piece without '=' runs on into the next one; the index is
the text that is left. A name is stored as it is, a value is decoded. `insert` keeps an entry that is there, so the
query comes before the body, and both come behind what setParam has put in.

The accessors parse at the first lookup only. What their user would expect is `Expected`: explicit edits over what the
query, the body and the cookie header say now.

Results:
- `PARSE_PARAM_eq`: one piece of the text; `find_PARSE_PARAM`: what is stored wins;
- `perform_lazy`: every call is a step of the two lazy maps;
- `lazy_unobservable_iff`: over any sequence of calls the answers are the expected ones exactly when every lookup is
  hidden;
- `deleted_comes_back`: delParam before the first lookup, and setQuery behind it.
-/
import Sylar.Http.Message
import Sylar.Core.LazyMap
import Sylar.Core.Run
import Sylar.Util.Url

namespace Sylar.Http

open Sylar.Text Sylar.LazyMap Sylar.Run

/-! ## PARSE_PARAM -/

/-- the do loop; `fuel` bounds its rounds -/
def parseLoop (flag : UInt8) (trim : Bytes → Bytes) : ℕ → Bytes → MapType → MapType
  | 0, _, m => m
  | fuel + 1, str, m =>
    match cut '='.toUInt8 str with
    | none => m
    | some (key, str) =>
      match cut flag str with
      | none => m.insert (trim key) (StringUtil.UrlDecode str true)
      | some (value, str) => parseLoop flag trim fuel str (m.insert (trim key) (StringUtil.UrlDecode value true))

/-- every round takes a byte at least, so the length of the text is enough -/
def PARSE_PARAM (str : Bytes) (m : MapType) (flag : UInt8) (trim : Bytes → Bytes) : MapType :=
  parseLoop flag trim (str.length + 1) str m

/-- `insert` of every pair, in their order -/
def insertPairs (m : MapType) (pairs : List (Bytes × Bytes)) : MapType := m.insertAll pairs

@[simp] theorem insertPairs_nil (m : MapType) : insertPairs m [] = m := rfl

@[simp] theorem insertPairs_cons (m : MapType) (p : Bytes × Bytes) (pairs : List (Bytes × Bytes)) :
    insertPairs m (p :: pairs) = insertPairs (m.insert p.1 p.2) pairs := rfl

/-! ## HttpRequest -/

def HttpRequest.getHeader (r : HttpRequest) (key deflt : Bytes) : Bytes := (r.headers.find key).getD deflt

def HttpRequest.setQuery (r : HttpRequest) (v : Bytes) : HttpRequest := { r with query := v }

def HttpRequest.setBody (r : HttpRequest) (v : Bytes) : HttpRequest := { r with body := v }

def HttpRequest.setHeader (r : HttpRequest) (key val : Bytes) : HttpRequest :=
  { r with headers := r.headers.assign key val }

def HttpRequest.setParam (r : HttpRequest) (key val : Bytes) : HttpRequest :=
  { r with params := r.params.assign key val }

def HttpRequest.setCookie (r : HttpRequest) (key val : Bytes) : HttpRequest :=
  { r with cookies := r.cookies.assign key val }

def HttpRequest.delParam (r : HttpRequest) (key : Bytes) : HttpRequest := { r with params := r.params.erase key }

def HttpRequest.delCookie (r : HttpRequest) (key : Bytes) : HttpRequest := { r with cookies := r.cookies.erase key }

def HttpRequest.initQueryParam (r : HttpRequest) : HttpRequest :=
  if r.parserParamFlag &&& 0x1 ≠ 0 then r
  else
    { r with
      params := PARSE_PARAM r.query r.params '&'.toUInt8 id
      parserParamFlag := r.parserParamFlag ||| 0x1 }

def formType : Bytes := bytes "application/x-www-form-urlencoded"

def HttpRequest.initBodyParam (r : HttpRequest) : HttpRequest :=
  if r.parserParamFlag &&& 0x2 ≠ 0 then r
  else if !strcasestr (r.getHeader (bytes "content-type") []) formType then
    { r with parserParamFlag := r.parserParamFlag ||| 0x2 }
  else
    { r with
      params := PARSE_PARAM r.body r.params '&'.toUInt8 id
      parserParamFlag := r.parserParamFlag ||| 0x2 }

/-- `StringUtil::Trim` with its default delimiters -/
def trim (s : Bytes) : Bytes := StringUtil.Trim s (bytes " \t\r\n")

def HttpRequest.initCookies (r : HttpRequest) : HttpRequest :=
  if r.parserParamFlag &&& 0x4 ≠ 0 then r
  else
    let cookie := r.getHeader (bytes "cookie") []
    if cookie = [] then { r with parserParamFlag := r.parserParamFlag ||| 0x4 }
    else
      { r with
        cookies := PARSE_PARAM cookie r.cookies ';'.toUInt8 trim
        parserParamFlag := r.parserParamFlag ||| 0x4 }

def HttpRequest.getParam (r : HttpRequest) (key deflt : Bytes) : HttpRequest × Bytes :=
  let r := r.initQueryParam.initBodyParam
  (r, (r.params.find key).getD deflt)

/-- the result, and what is written to `*val` where the pointer is given -/
def HttpRequest.hasParam (r : HttpRequest) (key : Bytes) (val : Bool) : HttpRequest × Bool × Option Bytes :=
  let r := r.initQueryParam.initBodyParam
  match r.params.find key with
  | none => (r, false, none)
  | some v => (r, true, if val then some v else none)

def HttpRequest.getCookie (r : HttpRequest) (key deflt : Bytes) : HttpRequest × Bytes :=
  let r := r.initCookies
  (r, (r.cookies.find key).getD deflt)

def HttpRequest.hasCookie (r : HttpRequest) (key : Bytes) (val : Bool) : HttpRequest × Bool × Option Bytes :=
  let r := r.initCookies
  match r.cookies.find key with
  | none => (r, false, none)
  | some v => (r, true, if val then some v else none)

/-! ## Calls -/

inductive Call where
  | setQuery (v : Bytes)
  | setBody (v : Bytes)
  | setHeader (key val : Bytes)
  | setParam (key val : Bytes)
  | delParam (key : Bytes)
  | setCookie (key val : Bytes)
  | delCookie (key : Bytes)
  | getParam (key deflt : Bytes)
  | hasParam (key : Bytes) (val : Bool)
  | getCookie (key deflt : Bytes)
  | hasCookie (key : Bytes) (val : Bool)
deriving DecidableEq, Repr

/-- what a get or a has returns -/
inductive Reply where
  | value (v : Bytes)
  | has (found : Bool) (val : Option Bytes)
deriving DecidableEq, Repr

def HttpRequest.perform (r : HttpRequest) : Call → HttpRequest × Option Reply
  | .setQuery v => (r.setQuery v, none)
  | .setBody v => (r.setBody v, none)
  | .setHeader key val => (r.setHeader key val, none)
  | .setParam key val => (r.setParam key val, none)
  | .delParam key => (r.delParam key, none)
  | .setCookie key val => (r.setCookie key val, none)
  | .delCookie key => (r.delCookie key, none)
  | .getParam key deflt => let x := r.getParam key deflt; (x.1, some (.value x.2))
  | .hasParam key val => let x := r.hasParam key val; (x.1, some (.has x.2.1 x.2.2))
  | .getCookie key deflt => let x := r.getCookie key deflt; (x.1, some (.value x.2))
  | .hasCookie key val => let x := r.hasCookie key val; (x.1, some (.has x.2.1 x.2.2))

/-- the answers of a sequence of calls -/
def HttpRequest.replies (r : HttpRequest) : List Call → List Reply
  | [] => []
  | c :: calls => (r.perform c).2.toList ++ (r.perform c).1.replies calls

/-! ## What is expected -/

/-- what the parameters and cookies are read from -/
structure Source where
  query : Bytes
  body : Bytes
  headers : MapType

def parseParams (s : Source) (m : MapType) : MapType :=
  let m := PARSE_PARAM s.query m '&'.toUInt8 id
  if strcasestr ((s.headers.find (bytes "content-type")).getD []) formType then PARSE_PARAM s.body m '&'.toUInt8 id
  else m

def parseCookies (s : Source) (m : MapType) : MapType :=
  PARSE_PARAM ((s.headers.find (bytes "cookie")).getD []) m ';'.toUInt8 trim

/-- explicit edits over the current texts -/
structure Expected where
  source : Source
  params : Edits Bytes Bytes
  cookies : Edits Bytes Bytes

def Call.source (s : Source) : Call → Source
  | setQuery v => { s with query := v }
  | setBody v => { s with body := v }
  | setHeader key val => { s with headers := s.headers.assign key val }
  | _ => s

def Call.onParams : Call → Action Bytes Bytes
  | setParam key val => .set key val
  | delParam key => .del key
  | getParam _ _ => .look
  | hasParam _ _ => .look
  | _ => .other

def Call.onCookies : Call → Action Bytes Bytes
  | setCookie key val => .set key val
  | delCookie key => .del key
  | getCookie _ _ => .look
  | hasCookie _ _ => .look
  | _ => .other

/-- what a call shows of the entry it finds -/
def Call.view : Call → Option Bytes → Reply
  | getParam _ deflt, x => .value (x.getD deflt)
  | getCookie _ deflt, x => .value (x.getD deflt)
  | hasParam _ val, x => .has x.isSome (if val then x else none)
  | hasCookie _ val, x => .has x.isSome (if val then x else none)
  | _, _ => .has false none

def Expected.reply (e : Expected) (c : Call) : Option Reply :=
  match c with
  | .getParam key _ | .hasParam key _ => some (c.view (seen parseParams e.params e.source key))
  | .getCookie key _ | .hasCookie key _ => some (c.view (seen parseCookies e.cookies e.source key))
  | _ => none

def Expected.perform (e : Expected) (c : Call) : Expected :=
  ⟨c.source e.source, e.params.step fold c.onParams, e.cookies.step fold c.onCookies⟩

def Expected.replies (e : Expected) : List Call → List Reply
  | [] => []
  | c :: calls => (e.reply c).toList ++ (e.perform c).replies calls

/-- a request without parameters, cookies, query, body and headers -/
def Expected.new : Expected := ⟨⟨[], [], .empty⟩, fun _ => none, fun _ => none⟩

/-! ## What the calls so far decide -/

/-- the texts, and for each map the texts at its first lookup and the edits before and behind it -/
structure History where
  source : Source
  params : Past Source Bytes Bytes
  cookies : Past Source Bytes Bytes

def History.step (h : History) (c : Call) : History :=
  ⟨c.source h.source, h.params.step fold h.source c.onParams, h.cookies.step fold h.source c.onCookies⟩

def History.new : History := ⟨⟨[], [], .empty⟩, .new, .new⟩

/-- a lookup for which the moment of the parsing does not matter -/
def History.Hidden (h : History) (c : Call) : Prop :=
  match c with
  | .getParam key _ | .hasParam key _ => h.params.Hidden parseParams c.view h.source key
  | .getCookie key _ | .hasCookie key _ => h.cookies.Hidden parseCookies c.view h.source key
  | _ => True

/-! ## The parser -/

theorem length_cut {c : UInt8} {s a r : Bytes} (h : cut c s = some (a, r)) : r.length < s.length := by
  rw [(cut_eq_some.1 h).1, List.length_append, List.length_cons]
  omega

/-- more fuel than bytes changes nothing -/
theorem parseLoop_fuel {flag : UInt8} {trim : Bytes → Bytes} {n k : ℕ} {str : Bytes} (m : MapType)
    (hn : str.length < n) (hk : str.length < k) : parseLoop flag trim n str m = parseLoop flag trim k str m := by
  induction n generalizing k str m with
  | zero => omega
  | succ n ih =>
    obtain ⟨k, rfl⟩ := Nat.exists_eq_succ_of_ne_zero (by omega : k ≠ 0)
    rw [parseLoop, parseLoop]
    cases hkey : cut '='.toUInt8 str with
    | none => rfl
    | some p =>
      obtain ⟨key, rest⟩ := p
      cases hvalue : cut flag rest with
      | none => simp [hvalue]
      | some q =>
        obtain ⟨value, next⟩ := q
        have hrest := length_cut hkey
        have hnext := length_cut hvalue
        simp only [hvalue]
        exact ih _ (by omega) (by omega)

/-- one round of PARSE_PARAM -/
theorem PARSE_PARAM_eq (str : Bytes) (m : MapType) (flag : UInt8) (trim : Bytes → Bytes) :
    PARSE_PARAM str m flag trim =
      match cut '='.toUInt8 str with
      | none => m
      | some (key, str) =>
        match cut flag str with
        | none => m.insert (trim key) (StringUtil.UrlDecode str true)
        | some (value, str) => PARSE_PARAM str (m.insert (trim key) (StringUtil.UrlDecode value true)) flag trim := by
  rw [PARSE_PARAM, parseLoop]
  cases hkey : cut '='.toUInt8 str with
  | none => rfl
  | some p =>
    obtain ⟨key, rest⟩ := p
    cases hvalue : cut flag rest with
    | none => simp [hvalue]
    | some q =>
      obtain ⟨value, next⟩ := q
      have hrest := length_cut hkey
      have hnext := length_cut hvalue
      simp only [hvalue]
      exact parseLoop_fuel _ (by omega) (by omega)

/-- what is stored wins over the text -/
theorem find_parseLoop {flag : UInt8} {trim : Bytes → Bytes} (n : ℕ) (str : Bytes) (m : MapType) (k : Bytes) :
    (parseLoop flag trim n str m).find k = (m.find k).or ((parseLoop flag trim n str .empty).find k) := by
  induction n generalizing str m with
  | zero => simp [parseLoop]
  | succ n ih =>
    have hinsert : ∀ (a v : Bytes) (x : Option Bytes), ((m.insert a v).find k).or x =
        (m.find k).or (((OrderedMap.Map.empty.insert a v : MapType).find k).or x) := by
      intro a v x
      rw [OrderedMap.Map.find_insert_or, OrderedMap.Map.find_insert_or, OrderedMap.Map.find_empty, Option.none_or,
        Option.or_assoc]
    rw [parseLoop, parseLoop]
    cases cut '='.toUInt8 str with
    | none => simp
    | some p =>
      obtain ⟨key, rest⟩ := p
      cases hvalue : cut flag rest with
      | none =>
        have h := hinsert (trim key) (StringUtil.UrlDecode rest true) none
        simpa [hvalue] using h
      | some q =>
        obtain ⟨value, next⟩ := q
        simp only [hvalue]
        rw [ih next, hinsert, ← ih next]

theorem find_PARSE_PARAM (str : Bytes) (m : MapType) (flag : UInt8) (trim : Bytes → Bytes) (k : Bytes) :
    (PARSE_PARAM str m flag trim).find k = (m.find k).or ((PARSE_PARAM str .empty flag trim).find k) :=
  find_parseLoop _ str m k

theorem find_parseParams (s : Source) (m : MapType) (k : Bytes) :
    (parseParams s m).find k = (m.find k).or ((parseParams s .empty).find k) := by
  simp only [parseParams]
  split_ifs
  · rw [find_PARSE_PARAM s.body, find_PARSE_PARAM s.query, find_PARSE_PARAM s.body (PARSE_PARAM s.query .empty _ _),
      Option.or_assoc]
  · exact find_PARSE_PARAM s.query m _ _ k

theorem find_parseCookies (s : Source) (m : MapType) (k : Bytes) :
    (parseCookies s m).find k = (m.find k).or ((parseCookies s .empty).find k) :=
  find_PARSE_PARAM _ m _ _ k

/-! ## The flags -/

def HttpRequest.source (r : HttpRequest) : Source := ⟨r.query, r.body, r.headers⟩

def HttpRequest.lazyParams (r : HttpRequest) : State Bytes Bytes fold := ⟨r.params, r.parserParamFlag &&& 0x1 ≠ 0⟩

def HttpRequest.lazyCookies (r : HttpRequest) : State Bytes Bytes fold := ⟨r.cookies, r.parserParamFlag &&& 0x4 ≠ 0⟩

/-- the query and the body are parsed together -/
def HttpRequest.FlagsOk (r : HttpRequest) : Prop := (r.parserParamFlag &&& 0x1 ≠ 0) ↔ (r.parserParamFlag &&& 0x2 ≠ 0)

theorem flags_params (x : UInt8) : ((x ||| 0x1) ||| 0x2) &&& 0x1 ≠ 0 ∧ ((x ||| 0x1) ||| 0x2) &&& 0x2 ≠ 0 ∧
    ((x ||| 0x1) ||| 0x2) &&& 0x4 = x &&& 0x4 ∧ (x ||| 0x1) &&& 0x2 = x &&& 0x2 := by
  revert x
  apply forall_byte
  decide +kernel

theorem flags_cookies (x : UInt8) : (x ||| 0x4) &&& 0x4 ≠ 0 ∧ (x ||| 0x4) &&& 0x1 = x &&& 0x1 ∧
    (x ||| 0x4) &&& 0x2 = x &&& 0x2 := by
  revert x
  apply forall_byte
  decide +kernel

/-- the two inits of a parameter lookup are one step of the lazy map -/
theorem initParams_lazy {r : HttpRequest} (h : r.FlagsOk) :
    r.initQueryParam.initBodyParam.lazyParams = LazyMap.step parseParams r.lazyParams r.source .look ∧
      r.initQueryParam.initBodyParam.lazyCookies = r.lazyCookies ∧ r.initQueryParam.initBodyParam.FlagsOk ∧
      r.initQueryParam.initBodyParam.source = r.source := by
  by_cases hflag : r.parserParamFlag &&& 0x1 ≠ 0
  · have hsame : r.initQueryParam.initBodyParam = r := by
      rw [HttpRequest.initQueryParam, if_pos hflag, HttpRequest.initBodyParam, if_pos (h.1 hflag)]
    have hparsed : r.lazyParams.parsed = true := by simpa [HttpRequest.lazyParams] using hflag
    rw [hsame, LazyMap.step, if_pos hparsed]
    exact ⟨rfl, rfl, h, rfl⟩
  · obtain ⟨h1, h2, h4, hq⟩ := flags_params r.parserParamFlag
    have hbody : ¬ (r.parserParamFlag ||| 0x1) &&& 0x2 ≠ 0 := by
      rw [hq]
      exact fun h2 => hflag (h.2 h2)
    have hparsed : ¬ r.lazyParams.parsed = true := by simpa [HttpRequest.lazyParams] using hflag
    have heq : r.initQueryParam.initBodyParam =
        { r with
          params := parseParams r.source r.params
          parserParamFlag := (r.parserParamFlag ||| 0x1) ||| 0x2 } := by
      rw [HttpRequest.initQueryParam, if_neg hflag, HttpRequest.initBodyParam, if_neg hbody, parseParams]
      simp only [HttpRequest.getHeader, HttpRequest.source]
      by_cases hform : strcasestr ((r.headers.find (bytes "content-type")).getD []) formType = true
      · simp [hform]
      · simp [hform]
    rw [heq, LazyMap.step, if_neg hparsed]
    refine ⟨?_, ?_, iff_of_true h1 h2, rfl⟩
    · simp [HttpRequest.lazyParams, h1]
    · simp [HttpRequest.lazyCookies, h4]

theorem initCookies_lazy {r : HttpRequest} (h : r.FlagsOk) :
    r.initCookies.lazyCookies = LazyMap.step parseCookies r.lazyCookies r.source .look ∧
      r.initCookies.lazyParams = r.lazyParams ∧ r.initCookies.FlagsOk ∧ r.initCookies.source = r.source := by
  by_cases hflag : r.parserParamFlag &&& 0x4 ≠ 0
  · have hsame : r.initCookies = r := by rw [HttpRequest.initCookies, if_pos hflag]
    have hparsed : r.lazyCookies.parsed = true := by simpa [HttpRequest.lazyCookies] using hflag
    rw [hsame, LazyMap.step, if_pos hparsed]
    exact ⟨rfl, rfl, h, rfl⟩
  · obtain ⟨h4, h1, h2⟩ := flags_cookies r.parserParamFlag
    have hparsed : ¬ r.lazyCookies.parsed = true := by simpa [HttpRequest.lazyCookies] using hflag
    have heq : r.initCookies =
        { r with
          cookies := parseCookies r.source r.cookies
          parserParamFlag := r.parserParamFlag ||| 0x4 } := by
      rw [HttpRequest.initCookies, if_neg hflag, parseCookies]
      simp only [HttpRequest.getHeader, HttpRequest.source]
      by_cases hempty : (r.headers.find (bytes "cookie")).getD [] = []
      · simp [hempty, PARSE_PARAM_eq, cut]
      · simp [hempty]
    rw [heq, LazyMap.step, if_neg hparsed]
    refine ⟨?_, ?_, ?_, rfl⟩
    · simp [HttpRequest.lazyCookies, h4]
    · simp [HttpRequest.lazyParams, h1]
    · simpa [HttpRequest.FlagsOk, h1, h2] using h

/-- a call is a step of the two lazy maps -/
theorem perform_lazy {r : HttpRequest} (h : r.FlagsOk) (c : Call) :
    (r.perform c).1.lazyParams = LazyMap.step parseParams r.lazyParams r.source c.onParams ∧
      (r.perform c).1.lazyCookies = LazyMap.step parseCookies r.lazyCookies r.source c.onCookies ∧
      (r.perform c).1.FlagsOk ∧ (r.perform c).1.source = c.source r.source := by
  have hparams := initParams_lazy h
  have hcookies := initCookies_lazy h
  cases c with
  | getParam key deflt => exact hparams
  | hasParam key val =>
    have hfst : (r.perform (.hasParam key val)).1 = r.initQueryParam.initBodyParam := by
      rw [HttpRequest.perform, HttpRequest.hasParam]
      cases r.initQueryParam.initBodyParam.params.find key <;> simp
    rw [hfst]
    exact hparams
  | getCookie key deflt => exact ⟨hcookies.2.1, hcookies.1, hcookies.2.2⟩
  | hasCookie key val =>
    have hfst : (r.perform (.hasCookie key val)).1 = r.initCookies := by
      rw [HttpRequest.perform, HttpRequest.hasCookie]
      cases r.initCookies.cookies.find key <;> simp
    rw [hfst]
    exact ⟨hcookies.2.1, hcookies.1, hcookies.2.2⟩
  | _ => exact ⟨rfl, rfl, h, rfl⟩

/-- a lookup shows the entry that the lazy map holds behind it -/
theorem reply_lazy {r : HttpRequest} (h : r.FlagsOk) (c : Call) :
    (r.perform c).2 = match c with
      | .getParam key _ | .hasParam key _ =>
        some (c.view ((LazyMap.step parseParams r.lazyParams r.source .look).map.find key))
      | .getCookie key _ | .hasCookie key _ =>
        some (c.view ((LazyMap.step parseCookies r.lazyCookies r.source .look).map.find key))
      | _ => none := by
  have hparams := (initParams_lazy h).1
  have hcookies := (initCookies_lazy h).1
  cases c with
  | getParam key deflt => rw [← hparams]; rfl
  | hasParam key val =>
    rw [← hparams, HttpRequest.perform, HttpRequest.hasParam]
    cases hfind : r.initQueryParam.initBodyParam.params.find key <;>
      simp [hfind, HttpRequest.lazyParams, Call.view]
  | getCookie key deflt => rw [← hcookies]; rfl
  | hasCookie key val =>
    rw [← hcookies, HttpRequest.perform, HttpRequest.hasCookie]
    cases hfind : r.initCookies.cookies.find key <;> simp [hfind, HttpRequest.lazyCookies, Call.view]
  | _ => rfl

/-! ## Runs -/

/-- the request, the expected one and the history behind the same calls -/
structure Sim (r : HttpRequest) (e : Expected) (h : History) : Prop where
  flags : r.FlagsOk
  source : r.source = h.source
  expected : e.source = h.source
  params : Holds parseParams r.lazyParams h.params
  cookies : Holds parseCookies r.lazyCookies h.cookies
  editedParams : e.params = h.params.edits
  editedCookies : e.cookies = h.cookies.edits

theorem sim_new (version : UInt8) (close : Bool) : Sim (.new version close) .new .new := by
  have hparams : (HttpRequest.new version close).lazyParams = ⟨.empty, false⟩ := by
    simp [HttpRequest.lazyParams, HttpRequest.new]
  have hcookies : (HttpRequest.new version close).lazyCookies = ⟨.empty, false⟩ := by
    simp [HttpRequest.lazyCookies, HttpRequest.new]
  refine ⟨by simp [HttpRequest.FlagsOk, HttpRequest.new], rfl, rfl, ?_, ?_, rfl, rfl⟩
  · rw [hparams]
    exact holds_new
  · rw [hcookies]
    exact holds_new

theorem Sim.perform {r : HttpRequest} {e : Expected} {h : History} (s : Sim r e h) (c : Call) :
    Sim (r.perform c).1 (e.perform c) (h.step c) := by
  obtain ⟨hparams, hcookies, hflags, hsource⟩ := perform_lazy s.flags c
  refine ⟨hflags, ?_, ?_, ?_, ?_, ?_, ?_⟩
  · rw [hsource, s.source]
    rfl
  · rw [Expected.perform, s.expected]
    rfl
  · rw [hparams, s.source]
    exact s.params.step find_parseParams h.source c.onParams
  · rw [hcookies, s.source]
    exact s.cookies.step find_parseCookies h.source c.onCookies
  · rw [Expected.perform, s.editedParams]
    exact (s.params.edits h.source c.onParams).symm
  · rw [Expected.perform, s.editedCookies]
    exact (s.cookies.edits h.source c.onCookies).symm

/-- one call answers as expected exactly when it is hidden -/
theorem Sim.reply_iff {r : HttpRequest} {e : Expected} {h : History} (s : Sim r e h) (c : Call) :
    (r.perform c).2 = e.reply c ↔ h.Hidden c := by
  rw [reply_lazy s.flags c]
  cases c with
  | getParam key deflt =>
    simp only [Expected.reply, History.Hidden, Option.some_inj, s.source, s.expected, s.editedParams]
    exact s.params.agree_iff find_parseParams h.source key
  | hasParam key val =>
    simp only [Expected.reply, History.Hidden, Option.some_inj, s.source, s.expected, s.editedParams]
    exact s.params.agree_iff find_parseParams h.source key
  | getCookie key deflt =>
    simp only [Expected.reply, History.Hidden, Option.some_inj, s.source, s.expected, s.editedCookies]
    exact s.cookies.agree_iff find_parseCookies h.source key
  | hasCookie key val =>
    simp only [Expected.reply, History.Hidden, Option.some_inj, s.source, s.expected, s.editedCookies]
    exact s.cookies.agree_iff find_parseCookies h.source key
  | _ => exact iff_of_true rfl trivial

/-- both answer the same calls -/
theorem Sim.isSome_reply {r : HttpRequest} {e : Expected} {h : History} (s : Sim r e h) (c : Call) :
    (r.perform c).2.isSome = (e.reply c).isSome := by
  rw [reply_lazy s.flags c]
  cases c <;> rfl

theorem Sim.replies_iff {r : HttpRequest} {e : Expected} {h : History} (s : Sim r e h) (calls : List Call) :
    r.replies calls = e.replies calls ↔ Guarded History.step History.Hidden h calls := by
  induction calls generalizing r e h with
  | nil => exact iff_of_true rfl trivial
  | cons c calls ih =>
    have hlength : (r.perform c).2.toList.length = (e.reply c).toList.length := by
      rw [Option.length_toList, Option.length_toList, s.isSome_reply c]
    rw [Guarded, ← s.reply_iff c, ← ih (s.perform c), HttpRequest.replies, Expected.replies]
    constructor
    · intro heq
      obtain ⟨hfirst, hrest⟩ := List.append_inj heq hlength
      have hinj : ∀ a b : Option Reply, a.toList = b.toList → a = b := by
        rintro (- | a) (- | b) hab <;> simp_all
      exact ⟨hinj _ _ hfirst, hrest⟩
    · rintro ⟨hfirst, hrest⟩
      rw [hfirst, hrest]

/-- the answers are the expected ones exactly when every lookup is hidden -/
theorem lazy_unobservable_iff (version : UInt8) (close : Bool) (calls : List Call) :
    (HttpRequest.new version close).replies calls = Expected.new.replies calls ↔
      Guarded History.step History.Hidden .new calls :=
  (sim_new version close).replies_iff calls

/-- a parameter that was deleted is found, and a new query is not looked at -/
theorem deleted_comes_back :
    (HttpRequest.new 0x11 true).replies [.setQuery (bytes "a=1"), .delParam (bytes "a"), .hasParam (bytes "a") false] ≠
        Expected.new.replies [.setQuery (bytes "a=1"), .delParam (bytes "a"), .hasParam (bytes "a") false] ∧
      (HttpRequest.new 0x11 true).replies
          [.setQuery (bytes "a=1"), .getParam (bytes "a") [], .setQuery (bytes "a=2"), .getParam (bytes "a") []] ≠
        Expected.new.replies
          [.setQuery (bytes "a=1"), .getParam (bytes "a") [], .setQuery (bytes "a=2"), .getParam (bytes "a") []] := by
  decide

end Sylar.Http

/-
`HttpResponseParser::execute` of http_parser.cc over the generated scanner of httpclient_parser.rl.

The scanner runs a table of states with the actions of the .rl file. The table is a parameter here: what follows holds
of every table. A buffer is `len` bytes and the NUL behind them; offsets into it stand for the pointers of the source.
What the callbacks do with the response they are called for is not part of the scan, so a callback is recorded as a call.

An assertion that fails aborts the process. A `memmove` from or to another place than the buffer and its NUL has the
outcome `outside`.

Results:
- `scan_kept`: on the way through the buffer, the two marks and the length of the field stay inside it;
- `body_start_exec`: the start of the body is set exactly when the scan finishes;
- `execute_moves_iff`: when `execute` leaves exactly the bytes that were not consumed.
-/
import Sylar.Core.MachineInt
import Sylar.Core.Text

namespace Sylar.Http

open Sylar.Text
open Sylar.MachineInt (toSigned toUnsigned)

/-! ## strtol -/

def isspace (c : UInt8) : Bool := c = 32 ∨ (9 ≤ c ∧ c ≤ 13)

/-- the value of a digit; 36 for any other byte -/
def digitValue (c : UInt8) : ℕ :=
  if 48 ≤ c ∧ c ≤ 57 then c.toNat - 48
  else if 65 ≤ c ∧ c ≤ 90 then c.toNat - 55
  else if 97 ≤ c ∧ c ≤ 122 then c.toNat - 87
  else 36

def readDigits (base : ℕ) : ℕ → Bytes → ℕ
  | acc, [] => acc
  | acc, c :: s => if digitValue c < base then readDigits base (acc * base + digitValue c) s else acc

/-- `strtol(s, NULL, base)` -/
def strtol (base : ℕ) (s : Bytes) : ℤ :=
  let s := s.dropWhile isspace
  let negative := s.head? = some '-'.toUInt8
  let s := if s.head? = some '-'.toUInt8 ∨ s.head? = some '+'.toUInt8 then s.tail else s
  let s := if base = 16 ∧ lower (s.take 2) = bytes "0x" ∧ (s.drop 2).head?.any (fun c => digitValue c < 16)
    then s.drop 2 else s
  if negative then max (-2 ^ 63) (-readDigits base 0 s) else min (2 ^ 63 - 1) (readDigits base 0 s)

/-! ## The scanner -/

structure HttpclientParser where
  cs : ℤ
  body_start : ℕ
  content_len : ℤ
  status : ℤ
  chunked : ℤ
  chunks_done : ℤ
  close : ℤ
  nread : ℕ
  mark : ℕ
  field_start : ℕ
  field_len : ℕ

def httpclient_parser_start : ℤ := 1

def httpclient_parser_error : ℤ := 0

def httpclient_parser_init (parser : HttpclientParser) : HttpclientParser :=
  { parser with
    cs := httpclient_parser_start
    body_start := 0
    content_len := -1
    chunked := 0
    chunks_done := 0
    mark := 0
    nread := 0
    field_len := 0
    field_start := 0
    close := 0 }

/-- the callbacks, with offsets into the buffer -/
inductive Callback where
  | http_field (field flen value vlen : ℕ)
  | reason_phrase (mark length : ℕ)
  | status_code (mark length : ℕ)
  | chunk_size (mark length : ℕ)
  | http_version (mark length : ℕ)
  | header_done (start length : ℕ)
  | last_chunk (mark length : ℕ)

inductive ParserAction where
  | mark
  | start_field
  | write_field
  | start_value
  | write_content_len
  | write_connection_close
  | write_value
  | reason_phrase
  | status_code
  | http_version
  | chunk_size
  | trans_chunked
  | done
deriving DecidableEq

/-- the next state and the actions on the way to it; `none` is the way to the error state -/
abbrev Table := ℤ → UInt8 → Option (ℤ × List ParserAction)

/-- `LEN(AT, FPC)`, a size_t -/
def LEN (start p : ℕ) : ℕ := (toUnsigned 64 ((p : ℤ) - start)).toNat

/-- what the actions change -/
structure Scan where
  parser : HttpclientParser
  calls : List Callback

def Scan.call (s : Scan) (c : Callback) : Scan := { s with calls := s.calls ++ [c] }

/-- one action at the byte `p` -/
def act (memory : Bytes) (len p : ℕ) (s : Scan) : ParserAction → Scan
  | .mark => { s with parser.mark := p }
  | .start_field => { s with parser.field_start := p }
  | .write_field => { s with parser.field_len := LEN s.parser.field_start p }
  | .start_value => { s with parser.mark := p }
  | .write_content_len => { s with parser.content_len := toSigned 32 (strtol 10 (memory.drop s.parser.mark)) }
  | .write_connection_close => { s with parser.close := 1 }
  | .write_value =>
    s.call (.http_field s.parser.field_start s.parser.field_len s.parser.mark (LEN s.parser.mark p))
  | .reason_phrase => s.call (.reason_phrase s.parser.mark (LEN s.parser.mark p))
  | .status_code =>
    { s with parser.status := toSigned 32 (strtol 10 (memory.drop s.parser.mark)) }.call
      (.status_code s.parser.mark (LEN s.parser.mark p))
  | .http_version => s.call (.http_version s.parser.mark (LEN s.parser.mark p))
  | .chunk_size =>
    let content_len := toSigned 32 (strtol 16 (memory.drop s.parser.mark))
    let chunks_done : ℤ := if content_len ≤ 0 then 1 else 0
    { s with
      parser.chunked := 1
      parser.content_len := content_len
      parser.chunks_done := chunks_done }.call
        (if chunks_done = 1 then .last_chunk s.parser.mark (LEN s.parser.mark p)
        else .chunk_size s.parser.mark (LEN s.parser.mark p))
  | .trans_chunked => { s with parser.chunked := 1 }
  | .done => { s with parser.body_start := p + 1 }.call (.header_done (p + 1) (len - p - 1))

/-- the actions of one transition; true when `done` has left the loop -/
def runActions (memory : Bytes) (len p : ℕ) : List ParserAction → Scan → Scan × Bool
  | [], s => (s, false)
  | .done :: _, s => (act memory len p s .done, true)
  | a :: actions, s => runActions memory len p actions (act memory len p s a)

/-- where the machine has stopped -/
structure Stop where
  cs : ℤ
  p : ℕ
  scan : Scan

/-- from the byte `p` on, in one of the states of the table -/
def scan (table : Table) (memory : Bytes) (len : ℕ) : (cs : ℤ) → (p : ℕ) → Scan → (rest : Bytes) → Stop
  | cs, p, s, [] => ⟨cs, p, s⟩
  | cs, p, s, c :: rest =>
    match table cs c with
    | none => ⟨httpclient_parser_error, p, s⟩
    | some (next, actions) =>
      match runActions memory len p actions s with
      | (s, true) => ⟨next, p + 1, s⟩
      | (s, false) => scan table memory len next (p + 1) s rest

/-- the states that the generated switch has a case for -/
def hasCase (cs : ℤ) : Prop := 1 ≤ cs ∧ cs ≤ 123

instance (cs : ℤ) : Decidable (hasCase cs) := inferInstanceAs (Decidable (_ ∧ _))

def exec (table : Table) (memory : Bytes) (len off : ℕ) (parser : HttpclientParser) : Stop :=
  if off = len then ⟨parser.cs, off, parser, []⟩
  else if hasCase parser.cs then scan table memory len parser.cs off ⟨parser, []⟩ ((memory.take len).drop off)
  -- no case matches, and the first line behind the switch is that of state 2
  else ⟨2, off, parser, []⟩

/-- what the scanner clears before it starts -/
def HttpclientParser.cleared (parser : HttpclientParser) : HttpclientParser :=
  { parser with nread := 0, mark := 0, field_len := 0, field_start := 0 }

/-- behind the machine: `none` when an assertion fails, -1 when one of the checks does -/
def report (len off : ℕ) (stop : Stop) : Option (HttpclientParser × List Callback × ℤ) :=
  let parser := { stop.scan.parser with cs := stop.cs, nread := stop.scan.parser.nread + (stop.p - off) }
  if stop.p ≤ len ∧ parser.nread ≤ len ∧ parser.body_start ≤ len then
    if parser.mark < len ∧ parser.field_len ≤ len ∧ parser.field_start < len then
      some (parser, stop.scan.calls, toSigned 32 parser.nread)
    else some (parser, stop.scan.calls, -1)
  else none

def httpclient_parser_execute (table : Table) (parser : HttpclientParser) (memory : Bytes) (len off : ℕ) :
    Option (HttpclientParser × List Callback × ℤ) :=
  if off ≤ len ∧ memory[len]? = some 0 ∧ (len : ℤ) - off = toSigned 32 len - toSigned 32 off then
    report len off (exec table memory len off parser.cleared)
  else none

/-! ## execute -/

/-- `memmove(data, data + offset, n)`; `none` when it leaves the buffer and its NUL -/
def memmove (memory : Bytes) (offset n : ℕ) : Option Bytes :=
  if offset + n ≤ memory.length then some ((memory.drop offset).take n ++ memory.drop n) else none

inductive Outcome where
  | aborted
  | outside
  | returned (offset : ℕ) (parser : HttpclientParser) (calls : List Callback) (memory : Bytes)

/-- `data` without the NUL behind it -/
def HttpResponseParser.execute (table : Table) (parser : HttpclientParser) (data : Bytes) (chunck : Bool) : Outcome :=
  let parser := if chunck then httpclient_parser_init parser else parser
  match httpclient_parser_execute table parser (data ++ [0]) data.length 0 with
  | none => .aborted
  | some (parser, calls, result) =>
    let offset := (toUnsigned 64 result).toNat
    match memmove (data ++ [0]) offset (toUnsigned 64 ((data.length : ℤ) - offset)).toNat with
    | none => .outside
    | some memory => .returned offset parser calls memory

/-! ## The scan stays inside the buffer -/

theorem LEN_of_le {start p : ℕ} (h : start ≤ p) (hp : p < 2 ^ 64) : LEN start p = p - start := by
  rw [LEN, MachineInt.toUnsigned_of_fits (by omega) (by omega)]
  omega

/-- what every action keeps, at a byte `p` of the buffer -/
structure Kept (len p : ℕ) (s : Scan) : Prop where
  mark : s.parser.mark < len
  field_start : s.parser.field_start < len
  field_start_le : s.parser.field_start ≤ p
  field_len : s.parser.field_len ≤ len
  nread : s.parser.nread = 0

theorem Kept.mono {len p q : ℕ} {s : Scan} (h : Kept len p s) (hpq : p ≤ q) : Kept len q s :=
  ⟨h.mark, h.field_start, h.field_start_le.trans hpq, h.field_len, h.nread⟩

theorem act_kept {len p : ℕ} {s : Scan} (memory : Bytes) (a : ParserAction) (hp : p < len) (hlen : len < 2 ^ 64)
    (h : Kept len p s) : Kept len p (act memory len p s a) := by
  cases a with
  | mark => exact ⟨hp, h.field_start, h.field_start_le, h.field_len, h.nread⟩
  | start_value => exact ⟨hp, h.field_start, h.field_start_le, h.field_len, h.nread⟩
  | start_field => exact ⟨h.mark, hp, le_refl p, h.field_len, h.nread⟩
  | write_field =>
    refine ⟨h.mark, h.field_start, h.field_start_le, ?_, h.nread⟩
    have hdistance := LEN_of_le h.field_start_le (hp.trans hlen)
    calc
      LEN s.parser.field_start p = p - s.parser.field_start := hdistance
      _ ≤ p := Nat.sub_le _ _
      _ ≤ len := hp.le
  | _ => exact ⟨h.mark, h.field_start, h.field_start_le, h.field_len, h.nread⟩

theorem runActions_kept {len p : ℕ} (memory : Bytes) (actions : List ParserAction) {s : Scan} (hp : p < len)
    (hlen : len < 2 ^ 64) (h : Kept len p s) : Kept len p (runActions memory len p actions s).1 := by
  induction actions generalizing s with
  | nil => exact h
  | cons a actions ih =>
    have hact := act_kept memory a hp hlen h
    cases a with
    | done => exact hact
    | _ => exact ih hact

theorem scan_kept {len : ℕ} (table : Table) (memory : Bytes) (cs : ℤ) (p : ℕ) {s : Scan} (rest : Bytes)
    (hrest : p + rest.length = len) (hlen : len < 2 ^ 64) (h : Kept len p s) :
    Kept len (scan table memory len cs p s rest).p (scan table memory len cs p s rest).scan ∧
      (scan table memory len cs p s rest).p ≤ len := by
  induction rest generalizing cs p s with
  | nil => exact ⟨h, by rw [scan]; exact hrest.le⟩
  | cons c rest ih =>
    rw [List.length_cons] at hrest
    rw [scan]
    cases table cs c with
    | none => exact ⟨h, by simp only; omega⟩
    | some next =>
      have hrun := runActions_kept memory next.2 (by omega) hlen h
      simp only
      rcases hr : runActions memory len p next.2 s with ⟨s', out⟩
      rw [hr] at hrun
      cases out with
      | true => exact ⟨hrun.mono (Nat.le_succ p), by simp only; omega⟩
      | false => exact ih next.1 (p + 1) (by omega) (hrun.mono (Nat.le_succ p))

/-! ## The start of the body -/

/-- whether the machine comes to `done` in these bytes -/
def finishes (table : Table) : (cs : ℤ) → Bytes → Bool
  | _, [] => false
  | cs, c :: rest =>
    match table cs c with
    | none => false
    | some (next, actions) => actions.contains .done || finishes table next rest

theorem body_start_runActions (memory : Bytes) (len p : ℕ) (actions : List ParserAction) (s : Scan) :
    (runActions memory len p actions s).2 = actions.contains .done ∧
      (runActions memory len p actions s).1.parser.body_start =
        if actions.contains .done then p + 1 else s.parser.body_start := by
  induction actions generalizing s with
  | nil => exact ⟨rfl, rfl⟩
  | cons a actions ih =>
    cases a with
    | done => exact ⟨rfl, rfl⟩
    | _ => exact ih _

theorem body_start_scan (table : Table) (memory : Bytes) (len : ℕ) (cs : ℤ) (p : ℕ) (s : Scan) (rest : Bytes) :
    (scan table memory len cs p s rest).scan.parser.body_start =
      if finishes table cs rest then (scan table memory len cs p s rest).p else s.parser.body_start := by
  induction rest generalizing cs p s with
  | nil => rfl
  | cons c rest ih =>
    rw [scan, finishes]
    cases table cs c with
    | none => rfl
    | some next =>
      obtain ⟨hout, hbody⟩ := body_start_runActions memory len p next.2 s
      simp only
      rcases hr : runActions memory len p next.2 s with ⟨s', out⟩
      rw [hr] at hout hbody
      simp only at hout hbody
      rw [← hout] at hbody ⊢
      cases out with
      | true => exact hbody
      | false =>
        rw [ih next.1 (p + 1) s', hbody]
        rfl

/-! ## One call of the scanner -/

theorem kept_exec (table : Table) (memory : Bytes) {len : ℕ} (parser : HttpclientParser) (hmemory : len ≤ memory.length)
    (hpos : 0 < len) (hlen : len < 2 ^ 64) :
    Kept len (exec table memory len 0 parser.cleared).p (exec table memory len 0 parser.cleared).scan ∧
      (exec table memory len 0 parser.cleared).p ≤ len := by
  have hstart : Kept len 0 ⟨parser.cleared, []⟩ := ⟨hpos, hpos, le_refl 0, Nat.zero_le len, rfl⟩
  rw [exec, if_neg (by omega)]
  split_ifs with hcase
  · refine scan_kept table memory _ 0 _ ?_ hlen hstart
    rw [List.drop_zero, List.length_take]
    omega
  · exact ⟨hstart, Nat.zero_le len⟩

theorem body_start_exec (table : Table) (memory : Bytes) (len : ℕ) (parser : HttpclientParser) :
    (exec table memory len 0 parser.cleared).scan.parser.body_start =
      if hasCase parser.cs ∧ finishes table parser.cs (memory.take len) then (exec table memory len 0 parser.cleared).p
      else parser.body_start := by
  rw [exec]
  by_cases hzero : 0 = len
  · subst hzero
    rw [if_pos rfl, List.take_zero, finishes, if_neg (by simp)]
    rfl
  rw [if_neg hzero]
  by_cases hcase : hasCase parser.cs
  · have hcase' : hasCase parser.cleared.cs := hcase
    rw [if_pos hcase', body_start_scan, List.drop_zero]
    simp only [hcase, true_and]
    rfl
  · have hcase' : ¬ hasCase parser.cleared.cs := hcase
    rw [if_neg hcase', if_neg (by simp [hcase])]
    rfl

/-- what the assertion about the body asks for -/
def BodyOk (table : Table) (parser : HttpclientParser) (data : Bytes) : Prop :=
  parser.body_start ≤ data.length ∨ (hasCase parser.cs ∧ finishes table parser.cs data = true)

theorem body_start_le_iff (table : Table) (parser : HttpclientParser) {data : Bytes} (hpos : 0 < data.length)
    (hlen : data.length < 2 ^ 64) :
    (exec table (data ++ [0]) data.length 0 parser.cleared).scan.parser.body_start ≤ data.length ↔
      BodyOk table parser data := by
  have hp := (kept_exec table (data ++ [0]) parser (by simp) hpos hlen).2
  rw [body_start_exec, List.take_left, BodyOk]
  split_ifs with hfinishes
  · exact ⟨fun _ => Or.inr hfinishes, fun _ => hp⟩
  · exact ⟨Or.inl, fun h => h.resolve_right hfinishes⟩

/-- the assertions in front of the machine -/
theorem entry_iff (data : Bytes) :
    (0 ≤ data.length ∧ (data ++ [0])[data.length]? = some (0 : UInt8) ∧
      (data.length : ℤ) - (0 : ℕ) = toSigned 32 data.length - toSigned 32 (0 : ℕ)) ↔ data.length < 2 ^ 31 := by
  have hzero : toSigned 32 (0 : ℕ) = 0 := MachineInt.toSigned_of_fits (by norm_num) (by norm_num)
  rw [hzero]
  refine ⟨fun h => ?_, fun h => ?_⟩
  · have hbounds := (MachineInt.toSigned_bounds (by norm_num : 0 < 32) (data.length : ℤ)).2
    have hsame := h.2.2
    push_cast at hsame hbounds
    omega
  · refine ⟨Nat.zero_le _, List.getElem?_concat_length, ?_⟩
    have hfits := @MachineInt.toSigned_of_fits 32 data.length (by omega) (by omega)
    rw [hfits]
    push_cast
    ring

theorem report_eq {len : ℕ} {stop : Stop} (hkept : Kept len stop.p stop.scan) (hp : stop.p ≤ len)
    (hlen : len < 2 ^ 31) (hbody : stop.scan.parser.body_start ≤ len) :
    ∃ parser calls, report len 0 stop = some (parser, calls, (parser.nread : ℤ)) ∧ parser.nread ≤ len := by
  have hnread : stop.scan.parser.nread + (stop.p - 0) = stop.p := by
    rw [hkept.nread]
    omega
  have hfits := @MachineInt.toSigned_of_fits 32 stop.p (by omega) (by omega)
  rw [report, hnread, if_pos ⟨hp, hp, hbody⟩, if_pos ⟨hkept.mark, hkept.field_len, hkept.field_start⟩]
  exact ⟨_, _, by rw [hfits], hp⟩

/-- without room for the body to start there is no result -/
theorem report_eq_none {len off : ℕ} {stop : Stop} (hbody : ¬ stop.scan.parser.body_start ≤ len) :
    report len off stop = none := by
  rw [report, if_neg fun h => hbody h.2.2]

/-- a scan that no assertion ends returns how many bytes it has read -/
theorem httpclient_parser_execute_eq (table : Table) (parser : HttpclientParser) {data : Bytes} (hne : data ≠ [])
    (hlen : data.length < 2 ^ 31) (hbody : BodyOk table parser data) :
    ∃ parser' calls, httpclient_parser_execute table parser (data ++ [0]) data.length 0 =
      some (parser', calls, (parser'.nread : ℤ)) ∧ parser'.nread ≤ data.length := by
  have hpos := List.length_pos_iff.2 hne
  obtain ⟨hkept, hp⟩ := kept_exec table (data ++ [0]) parser (by simp) hpos (by omega)
  have hstart := (body_start_le_iff table parser hpos (by omega)).2 hbody
  rw [httpclient_parser_execute, if_pos ((entry_iff data).2 hlen)]
  exact report_eq hkept hp hlen hstart

theorem httpclient_parser_execute_eq_none (table : Table) (parser : HttpclientParser) {data : Bytes} (hne : data ≠ [])
    (h : ¬ (data.length < 2 ^ 31 ∧ BodyOk table parser data)) :
    httpclient_parser_execute table parser (data ++ [0]) data.length 0 = none := by
  rw [httpclient_parser_execute]
  split_ifs with hentry
  · have hlen := (entry_iff data).1 hentry
    have hbody : ¬ BodyOk table parser data := fun hbody => h ⟨hlen, hbody⟩
    refine report_eq_none fun hstart => hbody ?_
    exact (body_start_le_iff table parser (List.length_pos_iff.2 hne) (by omega)).1 hstart
  · rfl

/-- an empty buffer fails the check on the mark -/
theorem httpclient_parser_execute_nil (table : Table) (parser : HttpclientParser) :
    httpclient_parser_execute table parser [0] 0 0 = none ∨
      ∃ parser' calls, httpclient_parser_execute table parser [0] 0 0 = some (parser', calls, -1) := by
  rw [httpclient_parser_execute, report]
  split_ifs with hentry hasserts hchecks
  · exact absurd hchecks.1 (Nat.not_lt_zero _)
  · exact Or.inr ⟨_, _, rfl⟩
  · exact Or.inl rfl
  · exact Or.inl rfl

/-! ## What execute leaves -/

/-- the bytes from `c` on stand at the front; what lies behind them stays as it was -/
def moved (data : Bytes) (c : ℕ) : Bytes := data.drop c ++ (data ++ [0]).drop (data.length - c)

theorem memmove_eq {data : Bytes} {c : ℕ} (h : c ≤ data.length) :
    memmove (data ++ [0]) c (data.length - c) = some (moved data c) := by
  have hrange : c + (data.length - c) ≤ (data ++ [0]).length := by
    rw [List.length_append]
    omega
  have hsource : ((data ++ [0]).drop c).take (data.length - c) = data.drop c := by
    rw [List.drop_append_of_le_length h]
    exact List.take_left' (by rw [List.length_drop])
  rw [memmove, if_pos hrange, hsource, moved]

/-- a count and the bytes behind it at the front, or -1 and the buffer as it was -/
def LeavesUnconsumed (data : Bytes) : Outcome → Prop
  | .aborted => False
  | .outside => False
  | .returned offset parser _ memory =>
    (offset ≤ data.length ∧ offset = parser.nread ∧ memory = moved data offset) ∨
      (offset = (toUnsigned 64 (-1)).toNat ∧ memory = data ++ [0])

theorem execute_of_none {table : Table} {parser : HttpclientParser} {data : Bytes} {chunck : Bool}
    (h : httpclient_parser_execute table (if chunck then httpclient_parser_init parser else parser) (data ++ [0])
      data.length 0 = none) : HttpResponseParser.execute table parser data chunck = .aborted := by
  rw [HttpResponseParser.execute, h]

theorem execute_of_count {table : Table} {parser parser' : HttpclientParser} {calls : List Callback} {data : Bytes}
    {chunck : Bool} (h : httpclient_parser_execute table (if chunck then httpclient_parser_init parser else parser)
      (data ++ [0]) data.length 0 = some (parser', calls, (parser'.nread : ℤ))) (hread : parser'.nread ≤ data.length)
    (hlen : data.length < 2 ^ 31) : HttpResponseParser.execute table parser data chunck =
      .returned parser'.nread parser' calls (moved data parser'.nread) := by
  have hoffset : (toUnsigned 64 (parser'.nread : ℤ)).toNat = parser'.nread := by
    rw [MachineInt.toUnsigned_of_fits (by omega) (by omega)]
    rfl
  have hcount : (toUnsigned 64 ((data.length : ℤ) - parser'.nread)).toNat = data.length - parser'.nread := by
    rw [MachineInt.toUnsigned_of_fits (by omega) (by omega)]
    omega
  rw [HttpResponseParser.execute, h]
  simp only [hoffset, hcount, memmove_eq hread]

/-- -1 is an offset far behind the buffer -/
theorem execute_nil (table : Table) (parser : HttpclientParser) (chunck : Bool) :
    ¬ LeavesUnconsumed [] (HttpResponseParser.execute table parser [] chunck) := by
  rw [HttpResponseParser.execute]
  rcases httpclient_parser_execute_nil table (if chunck then httpclient_parser_init parser else parser) with
    h | ⟨parser', calls, h⟩
  · rw [List.nil_append, List.length_nil, h]
    exact id
  · have hoffset : (toUnsigned 64 (-1)).toNat = 2 ^ 64 - 1 := rfl
    rw [List.nil_append, List.length_nil, h]
    simp only [hoffset]
    rw [memmove, if_neg (by rw [List.length_singleton]; omega)]
    exact id

/-- a chunk starts with a fresh parser -/
theorem bodyOk_init (table : Table) (parser : HttpclientParser) (data : Bytes) (chunck : Bool) :
    BodyOk table (if chunck then httpclient_parser_init parser else parser) data ↔
      chunck = true ∨ parser.body_start ≤ data.length ∨ (hasCase parser.cs ∧ finishes table parser.cs data = true) := by
  cases chunck with
  | true => exact ⟨fun _ => Or.inl rfl, fun _ => Or.inl (Nat.zero_le _)⟩
  | false => exact ⟨Or.inr, fun h => h.resolve_left Bool.false_ne_true⟩

/-- **Which calls leave exactly the bytes that were not consumed.** -/
theorem execute_moves_iff (table : Table) (parser : HttpclientParser) (data : Bytes) (chunck : Bool) :
    LeavesUnconsumed data (HttpResponseParser.execute table parser data chunck) ↔
      data ≠ [] ∧ data.length < 2 ^ 31 ∧ (chunck = true ∨ parser.body_start ≤ data.length ∨
        (hasCase parser.cs ∧ finishes table parser.cs data = true)) := by
  rw [← bodyOk_init]
  by_cases hne : data = []
  · subst hne
    exact ⟨fun h => absurd h (execute_nil table parser chunck), fun h => absurd rfl h.1⟩
  constructor
  · intro h
    refine ⟨hne, ?_⟩
    by_contra hbad
    rw [execute_of_none (httpclient_parser_execute_eq_none table _ hne hbad)] at h
    exact h
  · rintro ⟨-, hlen, hbody⟩
    obtain ⟨parser', calls, hscan, hread⟩ := httpclient_parser_execute_eq table _ hne hlen hbody
    rw [execute_of_count hscan hread hlen]
    exact Or.inl ⟨hread, rfl, rfl⟩

/-- **With no bytes in the buffer, the byte in front of it is moved**, whatever the machine is. -/
theorem execute_empty_moves_outside :
    (∀ table parser, HttpResponseParser.execute table parser [] true = .outside) ∧
      ¬ ∀ table parser data chunck, LeavesUnconsumed data (HttpResponseParser.execute table parser data chunck) :=
  ⟨fun _ _ => rfl, fun hall => hall (fun _ _ => none) ⟨0, 0, 0, 0, 0, 0, 0, 0, 0, 0, 0⟩ [] true⟩

end Sylar.Http

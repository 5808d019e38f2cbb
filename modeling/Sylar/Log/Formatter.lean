/-
`LogLevel`, `LogEvent` and `LogFormatter` of log.h and log.cc.

init runs once over the pattern. Literal bytes are collected in nstr; at a '%' a scan finds the name and the format of a
directive. The index of the loop is the suffix that is left, and `i = n - 1` behind a directive is the number of bytes to
pass over. The calendar (localtime_r and strftime) is a parameter of the texts.

Results:
- `new_of_no_percent`: a pattern without '%' is valid and prints itself.
-/
import Sylar.Core.Text

namespace Sylar.Log

open Sylar.Text

/-! ## Levels and events -/

inductive LogLevel where
  | UNKNOW
  | DEBUG
  | INFO
  | WARN
  | ERROR
  | FATAL
deriving DecidableEq, Repr

/-- the number of the enumerator -/
def LogLevel.num : LogLevel → ℕ
  | UNKNOW => 0
  | DEBUG => 1
  | INFO => 2
  | WARN => 3
  | ERROR => 4
  | FATAL => 5

def LogLevel.ToString : LogLevel → Bytes
  | UNKNOW => bytes "UNKNOW"
  | DEBUG => bytes "DEBUG"
  | INFO => bytes "INFO"
  | WARN => bytes "WARN"
  | ERROR => bytes "ERROR"
  | FATAL => bytes "FATAL"

/-- what the items of a formatter read of an event -/
structure LogEvent where
  file : Bytes
  line : ℤ
  elapse : ℕ
  threadId : ℕ
  fiberId : ℕ
  time : UInt64
  threadName : Bytes
  /-- `getLogger()->getName()` -/
  loggerName : Bytes
  content : Bytes
deriving DecidableEq, Repr

/-! ## Format items -/

inductive FormatItem where
  | Message
  | Level
  | Elapse
  | Name
  | ThreadId
  | NewLine
  | DateTime (format : Bytes)
  | Filename
  | Line
  | Tab
  | FiberId
  | ThreadName
  | String (string : Bytes)
deriving DecidableEq, Repr

/-- the constructor puts the default in for an empty format -/
def FormatItem.dateTime (format : Bytes) : FormatItem :=
  if format = [] then .DateTime (bytes "%Y-%m-%d %H:%M:%S") else .DateTime format

/-- an int32_t as `operator<<` prints it -/
def signed (z : ℤ) : Bytes := if z < 0 then bytes "-" ++ decimal z.natAbs else decimal z.natAbs

/-- `strftime` stands for localtime_r and strftime: the text for a format and a time -/
def FormatItem.format (strftime : Bytes → UInt64 → Bytes) (level : LogLevel) (event : LogEvent) : FormatItem → Bytes
  | Message => event.content
  | Level => level.ToString
  | Elapse => decimal event.elapse
  | Name => event.loggerName
  | ThreadId => decimal event.threadId
  | NewLine => bytes "\n"
  | DateTime format => strftime format event.time
  | Filename => event.file
  | Line => signed event.line
  | Tab => bytes "\t"
  | FiberId => decimal event.fiberId
  | ThreadName => event.threadName
  | String string => string

/-! ## LogFormatter::init -/

/-- an entry of `vec`: a text with 0, or the name and the format of a directive with 1 -/
inductive Piece where
  | literal (text : Bytes)
  | directive (str fmt : Bytes)
deriving DecidableEq, Repr

/-- `isalpha` in the C locale -/
def isalpha (c : UInt8) : Bool := (65 ≤ c && c ≤ 90) || (97 ≤ c && c ≤ 122)

def percent : UInt8 := '%'.toUInt8
def lbrace : UInt8 := 123
def rbrace : UInt8 := 125

/-- what the scan of a directive leaves behind: str, fmt, whether fmt_status is 1, and `n - (i + 1)` -/
structure Scan where
  str : Bytes
  fmt : Bytes
  unclosed : Bool
  n : ℕ
deriving DecidableEq, Repr

/-- the while loop behind a '%'; `p` is what stands there, `n` of its bytes are passed, `s` is left -/
def scanLoop (p : Bytes) (n : ℕ) (fmt_status : Bool) (fmt_begin : ℕ) (str : Bytes) : Bytes → Scan
  | [] => ⟨str, [], fmt_status, n⟩
  | c :: s =>
    if !fmt_status && (!isalpha c && c ≠ lbrace && c ≠ rbrace) then ⟨p.take n, [], false, n⟩
    else if !fmt_status && c = lbrace then scanLoop p (n + 1) true n (p.take n) s
    else if fmt_status && c = rbrace then ⟨str, (p.drop (fmt_begin + 1)).take (n - fmt_begin - 1), false, n + 1⟩
    -- at the end of the pattern the whole rest is the name
    else scanLoop p (n + 1) fmt_status fmt_begin (if s = [] ∧ str = [] then p else str) s

def scan (p : Bytes) : Scan := scanLoop p 0 false 0 [] p

def flush (nstr : Bytes) : List Piece := if nstr = [] then [] else [.literal nstr]

/-- the for loop: `skip` bytes belong to the directive in front; the result is `vec` and whether m_error was set -/
def initLoop (skip : ℕ) (nstr : Bytes) : Bytes → List Piece × Bool
  | [] => (flush nstr, false)
  | c :: s =>
    match skip with
    | k + 1 => initLoop k nstr s
    | 0 =>
      if c ≠ percent then initLoop 0 (nstr ++ [c]) s
      -- only the first of the two is passed over
      else if s.head? = some percent then initLoop 0 (nstr ++ [percent]) s
      else if (scan s).unclosed then
        let r := initLoop 0 nstr s
        (.literal (bytes "<<pattern_error>>") :: r.1, true)
      else
        let r := initLoop (scan s).n [] s
        (flush nstr ++ .directive (scan s).str (scan s).fmt :: r.1, r.2)

/-- `s_format_items` -/
def s_format_items (str : Bytes) : Option (Bytes → FormatItem) :=
  if str = bytes "m" then some fun _ => .Message
  else if str = bytes "p" then some fun _ => .Level
  else if str = bytes "r" then some fun _ => .Elapse
  else if str = bytes "c" then some fun _ => .Name
  else if str = bytes "t" then some fun _ => .ThreadId
  else if str = bytes "n" then some fun _ => .NewLine
  else if str = bytes "d" then some .dateTime
  else if str = bytes "f" then some fun _ => .Filename
  else if str = bytes "l" then some fun _ => .Line
  else if str = bytes "T" then some fun _ => .Tab
  else if str = bytes "F" then some fun _ => .FiberId
  else if str = bytes "N" then some fun _ => .ThreadName
  else none

/-- the item of a piece; a directive without one is an error -/
def Piece.item : Piece → FormatItem × Bool
  | literal text => (.String text, false)
  | directive str fmt =>
    match s_format_items str with
    | none => (.String (bytes "<<error_format %" ++ str ++ bytes ">>"), true)
    | some item => (item fmt, false)

structure LogFormatter where
  pattern : Bytes
  items : List FormatItem
  error : Bool
deriving DecidableEq, Repr

/-- the constructor and `init` -/
def LogFormatter.new (pattern : Bytes) : LogFormatter :=
  let r := initLoop 0 [] pattern
  ⟨pattern, r.1.map fun p => p.item.1, r.2 || r.1.any fun p => p.item.2⟩

def LogFormatter.format (strftime : Bytes → UInt64 → Bytes) (f : LogFormatter) (level : LogLevel) (event : LogEvent) :
    Bytes :=
  f.items.flatMap fun i => i.format strftime level event

theorem initLoop_of_no_percent {p nstr : Bytes} (h : percent ∉ p) :
    initLoop 0 nstr p = (flush (nstr ++ p), false) := by
  induction p generalizing nstr with
  | nil => rw [initLoop, List.append_nil]
  | cons c p ih =>
    rw [List.mem_cons, not_or] at h
    rw [initLoop, if_pos (Ne.symm h.1), ih h.2, List.append_assoc, List.singleton_append]

theorem new_of_no_percent {p : Bytes} (h : percent ∉ p) (strftime : Bytes → UInt64 → Bytes) (level : LogLevel)
    (event : LogEvent) :
    (LogFormatter.new p).error = false ∧ (LogFormatter.new p).format strftime level event = p := by
  have hloop : initLoop 0 [] p = (flush p, false) := initLoop_of_no_percent h
  rcases p with - | ⟨c, p⟩
  · exact ⟨rfl, rfl⟩
  · simp [LogFormatter.new, LogFormatter.format, hloop, flush, Piece.item, FormatItem.format]

/-- the pattern of a new logger -/
def defaultPattern : Bytes := bytes "%d\x7b%Y-%m-%d %H:%M:%S\x7d%T[%t]%T%N%T[%F]%T[%p]%T[%c]%T%f:%l%T%m%n"

example : (LogFormatter.new defaultPattern).error = false := by decide
example : (LogFormatter.new (bytes "%%m")).items = [.String (bytes "%"), .Message] := by decide
example : (LogFormatter.new (bytes "%d\x7b%Y")).error = true := by decide

end Sylar.Log

/-
`LogAppender` and `Logger` of log.h and log.cc: levels, formatters and the list of appenders.

A shared_ptr to a formatter is `none` where it is null. A formatter never changes once it is made, so two pointers to
equal formatters are not told apart.

Results:
- `setFormatter_eq`: an invalid pattern leaves the logger as it is;
- `addAll_eq`: appenders added one after the other, each with its own formatter or the logger's.
-/
import Sylar.Log.Formatter

namespace Sylar.Log

open Sylar.Text

/-! ## Appenders -/

/-- the class of an appender, with m_filename -/
inductive Target where
  | FileLogAppender (filename : Bytes)
  | StdoutLogAppender
deriving DecidableEq, Repr

structure LogAppender where
  target : Target
  level : LogLevel
  hasFormatter : Bool
  formatter : Option LogFormatter
deriving DecidableEq, Repr

def LogAppender.new (target : Target) : LogAppender := ⟨target, .DEBUG, false, none⟩

def LogAppender.setLevel (a : LogAppender) (level : LogLevel) : LogAppender := { a with level := level }

def LogAppender.setFormatter (a : LogAppender) (val : Option LogFormatter) : LogAppender :=
  { a with formatter := val, hasFormatter := val.isSome }

/-! ## Loggers -/

structure Logger where
  name : Bytes
  level : LogLevel
  appenders : List LogAppender
  formatter : Option LogFormatter
deriving DecidableEq, Repr

/-- the formatter a logger starts with -/
def defaultFormatter : LogFormatter := .new defaultPattern

def Logger.new (name : Bytes) : Logger := ⟨name, .DEBUG, [], some defaultFormatter⟩

def Logger.setLevel (l : Logger) (val : LogLevel) : Logger := { l with level := val }

/-- setFormatter with a pointer: the appenders without a formatter of their own get it too -/
def Logger.setFormatterPtr (l : Logger) (val : Option LogFormatter) : Logger :=
  { l with
    formatter := val
    appenders := l.appenders.map fun i => if i.hasFormatter then i else { i with formatter := val } }

/-- setFormatter with a pattern -/
def Logger.setFormatter (l : Logger) (val : Bytes) : Logger :=
  let newVal := LogFormatter.new val
  if newVal.error then l else l.setFormatterPtr (some newVal)

def Logger.addAppender (l : Logger) (appender : LogAppender) : Logger :=
  let appender := if appender.formatter.isNone then appender.setFormatter l.formatter else appender
  { l with appenders := l.appenders ++ [appender] }

def Logger.clearAppenders (l : Logger) : Logger := { l with appenders := [] }

/-! ## Results -/

theorem setFormatter_eq (l : Logger) (val : Bytes) :
    l.setFormatter val = if (LogFormatter.new val).error then l else l.setFormatterPtr (some (.new val)) := rfl

/-- an appender as addAppender leaves it -/
def LogAppender.attached (formatter : Option LogFormatter) (a : LogAppender) : LogAppender :=
  if a.formatter.isNone then a.setFormatter formatter else a

theorem addAll_eq (l : Logger) (appenders : List LogAppender) :
    appenders.foldl Logger.addAppender l =
      { l with appenders := l.appenders ++ appenders.map (LogAppender.attached l.formatter) } := by
  induction appenders generalizing l with
  | nil => simp
  | cons a appenders ih => simp [ih, Logger.addAppender, LogAppender.attached]

end Sylar.Log

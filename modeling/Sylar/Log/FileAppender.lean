/-
`FileLogAppender` of log.cc: the file behind an appender over any sequence of log calls.

Opening and writing succeed. ropen closes the stream and opens it with the default mode, which empties the file; log
calls it whenever an event is at least three seconds (modulo 2^64) behind the last time it did, and m_lastTime starts
at 0. How much of what was written is still in the buffer of the stream (NewLineFormatItem flushes) does not show once
it is closed.

Results:
- `log_accepted`, `log_refused`: one call, seen at the bytes written since the file was opened;
- `kept_iff`: the closed file holds the texts of all accepted events exactly when the file is never opened again behind
  a text that is not empty;
- `kept_iff_window`: for texts that are not empty the window of three seconds that the first accepted event falls into
  is the only one.
-/
import Sylar.Log.Formatter

namespace Sylar.Log

open Sylar.Text

/-! ## Model -/

/-- an ofstream and its file -/
structure FileStream where
  file : Bytes
  buffer : Bytes
deriving DecidableEq, Repr

def FileStream.close (f : FileStream) : FileStream := ⟨f.file ++ f.buffer, []⟩

/-- the default mode is ios_base::out, which truncates -/
def FileStream.open (_ : FileStream) : FileStream := ⟨[], []⟩

def FileStream.write (f : FileStream) (s : Bytes) : FileStream := { f with buffer := f.buffer ++ s }

structure FileLogAppender where
  level : LogLevel
  formatter : LogFormatter
  filestream : FileStream
  lastTime : UInt64
deriving DecidableEq, Repr

def FileLogAppender.ropen (a : FileLogAppender) : FileLogAppender :=
  { a with filestream := a.filestream.close.open }

/-- the constructor on a file with this content, then setLevel and setFormatter -/
def FileLogAppender.new (content : Bytes) (level : LogLevel) (formatter : LogFormatter) : FileLogAppender :=
  FileLogAppender.ropen ⟨level, formatter, ⟨content, []⟩, 0⟩

/-- the test in front of ropen -/
def reopens (lastTime now : UInt64) : Bool := now ≥ lastTime + 3

section

variable (strftime : Bytes → UInt64 → Bytes)

def FileLogAppender.log (a : FileLogAppender) (level : LogLevel) (event : LogEvent) : FileLogAppender :=
  if level.num ≥ a.level.num then
    let now := event.time
    let a := if reopens a.lastTime now then { a.ropen with lastTime := now } else a
    { a with filestream := a.filestream.write (a.formatter.format strftime level event) }
  else a

/-- a call of `log`: its level and its event -/
abbrev LogCall := LogLevel × LogEvent

def FileLogAppender.logAll (a : FileLogAppender) (calls : List LogCall) : FileLogAppender :=
  calls.foldl (fun a c => a.log strftime c.1 c.2) a

end

/-! ## What is accepted, and when the file is opened -/

/-- the calls whose level is at least m_level, in order -/
def accepted (m_level : LogLevel) (calls : List LogCall) : List LogCall := calls.filter fun c => c.1.num ≥ m_level.num

/-- the time of the last reopening in a sequence of event times, 0 where there is none -/
def lastReopen (times : List UInt64) : UInt64 := times.foldl (fun last now => if reopens last now then now else last) 0

/-- no event opens the file again once a text that is not empty was written -/
def NeverReopened (text : LogCall → Bytes) (calls : List LogCall) : Prop :=
  ∀ before c after, calls = before ++ c :: after → reopens (lastReopen (before.map (·.2.time))) c.2.time →
    ∀ b ∈ before, text b = []

theorem lastReopen_concat (times : List UInt64) (now : UInt64) :
    lastReopen (times ++ [now]) = if reopens (lastReopen times) now then now else lastReopen times := by
  rw [lastReopen, List.foldl_append]
  rfl

theorem neverReopened_concat {text : LogCall → Bytes} {calls : List LogCall} {c : LogCall} :
    NeverReopened text (calls ++ [c]) ↔ NeverReopened text calls ∧
      (reopens (lastReopen (calls.map (·.2.time))) c.2.time → ∀ b ∈ calls, text b = []) := by
  constructor
  · intro h
    refine ⟨fun before d after hcalls => ?_, h calls c [] rfl⟩
    refine h before d (after ++ [c]) ?_
    rw [hcalls, List.append_assoc, List.cons_append]
  · rintro ⟨hcalls, hc⟩ before d after heq
    rcases List.eq_nil_or_concat after with rfl | ⟨after, e, rfl⟩
    · obtain ⟨rfl, hlast⟩ := List.append_inj' heq rfl
      obtain rfl : c = d := by simpa using hlast
      exact hc
    · rw [List.concat_eq_append, ← List.cons_append, ← List.append_assoc] at heq
      exact hcalls before d after (List.append_inj' heq rfl).1

/-! ## The file -/

section

variable (strftime : Bytes → UInt64 → Bytes)

/-- the text of a call -/
def textOf (formatter : LogFormatter) (c : LogCall) : Bytes := formatter.format strftime c.1 c.2

/-- the bytes since the file was opened -/
def FileStream.written (f : FileStream) : Bytes := f.file ++ f.buffer

variable {strftime}

theorem log_refused {a : FileLogAppender} {c : LogCall} (h : ¬ c.1.num ≥ a.level.num) : a.log strftime c.1 c.2 = a :=
  if_neg h

theorem log_accepted {a : FileLogAppender} {c : LogCall} (h : c.1.num ≥ a.level.num) :
    (a.log strftime c.1 c.2).level = a.level ∧ (a.log strftime c.1 c.2).formatter = a.formatter ∧
      (a.log strftime c.1 c.2).lastTime = (if reopens a.lastTime c.2.time then c.2.time else a.lastTime) ∧
      (a.log strftime c.1 c.2).filestream.written =
        (if reopens a.lastTime c.2.time then [] else a.filestream.written) ++ textOf strftime a.formatter c := by
  simp only [FileLogAppender.log, if_pos h]
  by_cases hopen : reopens a.lastTime c.2.time = true
  · simp [hopen, FileLogAppender.ropen, FileStream.open, FileStream.write, FileStream.written, textOf]
  · simp [hopen, FileStream.write, FileStream.written, textOf]

/-- the state of an appender after some calls -/
structure After (strftime : Bytes → UInt64 → Bytes) (m_level : LogLevel) (m_formatter : LogFormatter)
    (calls : List LogCall) (a : FileLogAppender) : Prop where
  level : a.level = m_level
  formatter : a.formatter = m_formatter
  lastTime : a.lastTime = lastReopen ((accepted m_level calls).map (·.2.time))
  /-- nothing is lost as long as no event opened the file again behind a text -/
  written : a.filestream.written = (accepted m_level calls).flatMap (textOf strftime m_formatter) ↔
    NeverReopened (textOf strftime m_formatter) (accepted m_level calls)

theorem After.log {level : LogLevel} {formatter : LogFormatter} {calls : List LogCall} {a : FileLogAppender}
    (h : After strftime level formatter calls a) (c : LogCall) :
    After strftime level formatter (calls ++ [c]) (a.log strftime c.1 c.2) := by
  by_cases hc : c.1.num ≥ a.level.num
  · have hacc : accepted level (calls ++ [c]) = accepted level calls ++ [c] := by
      rw [h.level] at hc
      simp [accepted, hc]
    obtain ⟨hlevel, hformatter, htime, hwritten⟩ := @log_accepted strftime a c hc
    refine ⟨hlevel.trans h.level, hformatter.trans h.formatter, ?_, ?_⟩
    · rw [htime, hacc, List.map_append, List.map_singleton, lastReopen_concat, h.lastTime]
    · rw [hwritten, hacc, neverReopened_concat, ← h.lastTime, h.formatter, List.flatMap_append, List.flatMap_singleton,
        List.append_left_inj, ← h.written]
      by_cases hopen : reopens a.lastTime c.2.time = true
      -- the file is emptied: equality means that there was no text so far
      · have hempty : [] = (accepted level calls).flatMap (textOf strftime formatter) ↔
            ∀ b ∈ accepted level calls, textOf strftime formatter b = [] := by
          rw [eq_comm, List.flatMap_eq_nil_iff]
        rw [if_pos hopen, hempty]
        refine ⟨fun hall => ?_, fun hboth => hboth.2 hopen⟩
        refine ⟨h.written.2 ?_, fun _ => hall⟩
        intro before d after heq _ b hb
        exact hall b (by rw [heq]; exact List.mem_append_left _ hb)
      · rw [if_neg hopen]
        exact ⟨fun heq => ⟨heq, fun hcon => absurd hcon hopen⟩, And.left⟩
  · have hacc : accepted level (calls ++ [c]) = accepted level calls := by
      rw [h.level] at hc
      simp [accepted, hc]
    rw [log_refused hc]
    refine ⟨h.level, h.formatter, ?_, ?_⟩
    · rw [hacc, h.lastTime]
    · rw [hacc, h.written]

theorem after_logAll (content : Bytes) (level : LogLevel) (formatter : LogFormatter) (calls : List LogCall) :
    After strftime level formatter calls ((FileLogAppender.new content level formatter).logAll strftime calls) := by
  induction calls using List.reverseRecOn with
  | nil =>
    refine ⟨rfl, rfl, rfl, iff_of_true rfl ?_⟩
    intro before c after heq
    simp [accepted] at heq
  | append_singleton calls c ih =>
    rw [FileLogAppender.logAll, List.foldl_append]
    exact ih.log c

end

/-- the closed file holds the texts of the accepted events, in call order, exactly when no event opens it again behind a
text -/
theorem kept_iff (strftime : Bytes → UInt64 → Bytes) (m_level : LogLevel) (formatter : LogFormatter)
    (calls : List LogCall) :
    ((FileLogAppender.new [] m_level formatter).logAll strftime calls).filestream.close.file =
        (accepted m_level calls).flatMap (textOf strftime formatter) ↔
      NeverReopened (textOf strftime formatter) (accepted m_level calls) :=
  (after_logAll [] m_level formatter calls).written

/-- events within three seconds of the last reopening do not move it -/
theorem lastReopen_window {first : LogCall} {rest : List LogCall}
    (h : ∀ c ∈ rest, ¬ reopens (lastReopen [first.2.time]) c.2.time) :
    lastReopen ((first :: rest).map (·.2.time)) = lastReopen [first.2.time] := by
  induction rest using List.reverseRecOn with
  | nil => rfl
  | append_singleton rest c ih =>
    have hrec := ih fun d hd => h d (List.mem_append_left _ hd)
    rw [← List.cons_append, List.map_append, List.map_singleton, lastReopen_concat, hrec, if_neg (h c (by simp))]

theorem neverReopened_window {text : LogCall → Bytes} {first : LogCall} {rest : List LogCall}
    (htext : ∀ c ∈ first :: rest, text c ≠ []) :
    NeverReopened text (first :: rest) ↔ ∀ c ∈ rest, ¬ reopens (lastReopen [first.2.time]) c.2.time := by
  induction rest using List.reverseRecOn with
  | nil =>
    have hnil : NeverReopened text [] := fun before c after heq => by simp at heq
    have hone : NeverReopened text ([] ++ [first]) := neverReopened_concat.2 ⟨hnil, fun _ b hb => by cases hb⟩
    exact iff_of_true hone (by simp)
  | append_singleton rest c ih =>
    rw [← List.cons_append] at htext ⊢
    rw [neverReopened_concat, ih fun d hd => htext d (List.mem_append_left _ hd)]
    have hfirst : ¬ ∀ b ∈ first :: rest, text b = [] := fun hall =>
      htext first (by simp) (hall first List.mem_cons_self)
    constructor
    · rintro ⟨hrest, hc⟩ d hd
      rcases List.mem_append.1 hd with hd | hd
      · exact hrest d hd
      · obtain rfl := List.mem_singleton.1 hd
        rw [lastReopen_window hrest] at hc
        exact fun hopen => hfirst (hc hopen)
    · intro h
      have hrest : ∀ d ∈ rest, ¬ reopens (lastReopen [first.2.time]) d.2.time :=
        fun d hd => h d (List.mem_append_left _ hd)
      rw [lastReopen_window hrest]
      exact ⟨hrest, fun hopen => absurd hopen (h c (by simp))⟩

/-- for texts that are not empty the first accepted event decides: every later one has to fall into its window -/
theorem kept_iff_window (strftime : Bytes → UInt64 → Bytes) (m_level : LogLevel) (formatter : LogFormatter)
    {calls rest : List LogCall} {first : LogCall} (hcalls : accepted m_level calls = first :: rest)
    (htext : ∀ c ∈ accepted m_level calls, textOf strftime formatter c ≠ []) :
    ((FileLogAppender.new [] m_level formatter).logAll strftime calls).filestream.close.file =
        (accepted m_level calls).flatMap (textOf strftime formatter) ↔
      ∀ c ∈ rest, ¬ reopens (lastReopen [first.2.time]) c.2.time := by
  refine (after_logAll [] m_level formatter calls).written.trans ?_
  rw [hcalls] at htext ⊢
  exact neverReopened_window htext

/-- an event at the given time that prints `x` -/
def eventAt (time : UInt64) : LogCall := (.INFO, ⟨[], 0, 0, 0, 0, time, [], [], bytes "x"⟩)

/-- two events three seconds apart: the first text is gone -/
theorem first_text_lost :
    ¬ ((FileLogAppender.new [] .DEBUG (LogFormatter.new (bytes "%m"))).logAll (fun _ _ => [])
        [eventAt 10, eventAt 13]).filestream.close.file =
      (accepted .DEBUG [eventAt 10, eventAt 13]).flatMap
        (textOf (fun _ _ => []) (LogFormatter.new (bytes "%m"))) := by
  decide

end Sylar.Log

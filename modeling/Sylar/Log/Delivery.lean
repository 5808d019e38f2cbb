/-
`Logger::log` of log.cc, behind the configuration of the loggers: which appenders are given what to write.

SYLAR_LOG_LEVEL makes the event with its logger, and ~LogEventwrap gives it to `log`; a logger without appenders hands
it on to the root logger. One thread. What a FileLogAppender does with its file is in Sylar.Log.FileAppender.

Results:
- `behaves_run`: level and appenders of every logger behind any history of configurations;
- `written_exact`: in any run of configurations and records, what is written where.
-/
import Sylar.Log.Defines

namespace Sylar.Log.Delivery

open Sylar.Text

/-! ## Model -/

/-- the texts, with the appenders they are written by -/
abbrev Output := List (Target × Bytes)

section

variable (strftime : Bytes → UInt64 → Bytes)

/-- `log` of both classes of appenders; none: the formatter is a null pointer -/
def LogAppender.log (level : LogLevel) (event : LogEvent) (a : LogAppender) : Option Output :=
  if level.num ≥ a.level.num then a.formatter.map fun f => [(a.target, f.format strftime level event)] else some []

/-- `Logger::log` of the first one; behind it is its m_root -/
def Logger.log (level : LogLevel) (event : LogEvent) : List Logger → Option Output
  | [] => some []
  | logger :: root =>
    if level.num ≥ logger.level.num then
      if logger.appenders ≠ [] then (logger.appenders.mapM (LogAppender.log strftime level event)).map List.flatten
      else Logger.log level event root
    else some []

/-- m_root of the root logger is a null pointer -/
def withRoot (name : Bytes) : List Bytes := if name = bytes "root" then [name] else [name, bytes "root"]

def SYLAR_LOG_LEVEL (loggers : Loggers) (name : Bytes) (level : LogLevel) (event : LogEvent) : Option Output :=
  if (loggers name).level.num ≤ level.num then
    Logger.log strftime level { event with loggerName := name } ((withRoot name).map loggers)
  else some []

inductive Op where
  | setValue (v : LogDefines)
  | log (name : Bytes) (level : LogLevel) (event : LogEvent)

def step (s : State × Output) : Op → Option (State × Output)
  | .setValue v => (setValue s.1 v).map fun s' => (s', s.2)
  | .log name level event => (SYLAR_LOG_LEVEL strftime s.1.loggers name level event).map fun out => (s.1, s.2 ++ out)

def run (ops : List Op) : Option (State × Output) := ops.foldlM (step strftime) (init, [])

end

/-- the configurations of a run -/
def sets : List Op → List LogDefines
  | [] => []
  | .setValue v :: ops => v :: sets ops
  | .log .. :: ops => sets ops

/-! ## What is meant -/

/-- an appender, as a configuration describes it -/
structure Sink where
  level : LogLevel
  target : Target
  formatter : LogFormatter

def everDefined (name : Bytes) (history : List LogDefines) : Bool := history.any fun v => (v.find name).isSome

/-- from which level on a name is logged -/
def threshold (name : Bytes) (history : List LogDefines) : LogLevel :=
  match inForce name history with
  | some d => d.level
  | none => if everDefined name history then .UNKNOW else .DEBUG

def target (a : LogAppenderDefine) : Target := if a.type = 1 then .FileLogAppender a.file else .StdoutLogAppender

/-- a formatter of its own, or the last valid one of the name -/
def sink (f : LogFormatter) (a : LogAppenderDefine) : Sink :=
  ⟨a.level, target a, if Valid a.formatter then .new a.formatter else f⟩

/-- only the root logger has an appender before it is defined, and none when its definition is gone -/
def sinks (name : Bytes) (history : List LogDefines) : List Sink :=
  match inForce name history with
  | some d => d.appenders.map (sink (lastFormatter name history))
  | none =>
    if name = bytes "root" ∧ everDefined name history = false then [⟨.DEBUG, .StdoutLogAppender, defaultFormatter⟩] else []

section

variable (strftime : Bytes → UInt64 → Bytes)

/-- what a record leads to, at the first of these names -/
def written (history : List LogDefines) (level : LogLevel) (event : LogEvent) : List Bytes → Output
  | [] => []
  | name :: names =>
    if level.num ≥ (threshold name history).num then
      if sinks name history ≠ [] then
        ((sinks name history).filter fun k => level.num ≥ k.level.num).map fun k =>
          (k.target, k.formatter.format strftime level event)
      else written history level event names
    else []

/-- the outputs of the records of a run, each behind the configurations in front of it -/
def expected : List LogDefines → List Op → Output
  | _, [] => []
  | history, .setValue v :: ops => expected (history ++ [v]) ops
  | history, .log name level event :: ops =>
    written strftime history level { event with loggerName := name } (withRoot name) ++ expected history ops

end

/-! ## The loggers -/

/-- a logger has the level and the appenders that the configurations give to its name -/
structure Behaves (name : Bytes) (history : List LogDefines) (logger : Logger) : Prop where
  level : logger.level = threshold name history
  appenders : logger.appenders.map (fun a => (a.level, a.target, a.formatter)) =
    (sinks name history).map fun k => (k.level, k.target, some k.formatter)

theorem everDefined_concat (name : Bytes) (history : List LogDefines) (v : LogDefines) :
    everDefined name (history ++ [v]) = (everDefined name history || (v.find name).isSome) := by
  rw [everDefined, List.any_append]
  simp [everDefined]

theorem everDefined_of_inForce {name : Bytes} {history : List LogDefines} (h : (inForce name history).isSome) :
    everDefined name history = true := by
  induction history using List.reverseRecOn with
  | nil => cases h
  | append_singleton history v ih =>
    have hsig := congrArg Option.isSome (sig_inForce_concat name history v)
    rw [Option.isSome_map, Option.isSome_map, h] at hsig
    rw [everDefined_concat, ← hsig, Bool.or_true]

/-- a logger that no definition is in force for -/
structure Unforced (name : Bytes) (history : List LogDefines) (logger : Logger) : Prop where
  level : everDefined name history = true → logger.level = .UNKNOW
  untouched : everDefined name history = false → logger = init.loggers name

theorem unforced_run {history : List LogDefines} {s : State} (h : Log.run history = some s) {name : Bytes}
    (hnone : inForce name history = none) : Unforced name history (s.loggers name) := by
  induction history using List.reverseRecOn generalizing s with
  | nil =>
    obtain rfl := Option.some_inj.1 h
    exact ⟨fun hdefined => by simp [everDefined] at hdefined, fun _ => rfl⟩
  | append_singleton history v ih =>
    rw [Log.run, List.foldlM_append, Option.bind_eq_bind, Option.bind_eq_some_iff] at h
    obtain ⟨mid, hmid, hset⟩ := h
    have hfind : v.find name = none := by
      have hsig := sig_inForce_concat name history v
      rw [hnone] at hsig
      exact Option.map_eq_none_iff.1 hsig.symm
    have hlogger := (setValue_logger (by simpa using hset) name).2.1 hfind
    have hval : (mid.val.find name).isSome = (inForce name history).isSome := by
      rw [← Option.isSome_map (f := LogDefine.sig), (tracks_run hmid).val, Option.isSome_map]
    have hsame : everDefined name (history ++ [v]) = everDefined name history := by
      rw [everDefined_concat, hfind, Option.isSome_none, Bool.or_false]
    cases hin : inForce name history with
    | some d =>
      -- the definition has just been dropped
      have hdefined := everDefined_of_inForce (Option.isSome_of_eq_some hin)
      rw [hval, hin, Option.isSome_some, if_pos rfl] at hlogger
      refine ⟨fun _ => by rw [hlogger]; rfl, fun hnever => ?_⟩
      rw [hsame, hdefined] at hnever
      cases hnever
    | none =>
      rw [hval, hin, Option.isSome_none, if_neg Bool.false_ne_true] at hlogger
      obtain ⟨hlevel, huntouched⟩ := ih hmid hin
      exact ⟨fun hdefined => by rw [hlogger, hlevel (hsame ▸ hdefined)],
        fun hnever => by rw [hlogger, huntouched (hsame ▸ hnever)]⟩

/-- an appender that was made is the one that was meant -/
theorem sink_of_appender {f : LogFormatter} {a : LogAppenderDefine} {ap : LogAppender} (h : a.appender = some ap) :
    ((ap.attached (some f)).level, (ap.attached (some f)).target, (ap.attached (some f)).formatter) =
      ((sink f a).level, (sink f a).target, some (sink f a).formatter) := by
  rw [LogAppenderDefine.appender, Option.bind_eq_bind, Option.bind_eq_some_iff] at h
  obtain ⟨made, hmade, h⟩ := h
  have hnew : made = .new (target a) := by
    rw [LogAppenderDefine.create] at hmade
    rw [target]
    split_ifs at hmade ⊢ with hfile hstdout
    · exact (Option.some_inj.1 hmade).symm
    · exact (Option.some_inj.1 hmade).symm
  subst hnew
  by_cases hempty : a.formatter = []
  · obtain rfl : (LogAppender.new (target a)).setLevel a.level = ap := by simpa [hempty] using h
    simp [LogAppender.attached, LogAppender.new, LogAppender.setLevel, LogAppender.setFormatter, sink, Valid, hempty]
  · by_cases herr : (LogFormatter.new a.formatter).error = true
    · obtain rfl : (LogAppender.new (target a)).setLevel a.level = ap := by simpa [hempty, herr] using h
      simp [LogAppender.attached, LogAppender.new, LogAppender.setLevel, LogAppender.setFormatter, sink, Valid, herr]
    · obtain rfl : ((LogAppender.new (target a)).setLevel a.level).setFormatter (some (.new a.formatter)) = ap := by
        simpa [hempty, herr] using h
      simp [LogAppender.attached, LogAppender.new, LogAppender.setLevel, LogAppender.setFormatter, sink, Valid, hempty,
        herr]

/-- the appenders that a definition gives to its logger -/
theorem sinks_of_attachedTo {f : LogFormatter} {defs : List LogAppenderDefine} {appenders : List LogAppender}
    (h : attachedTo f defs = some appenders) :
    appenders.map (fun a => (a.level, a.target, a.formatter)) =
      (defs.map (sink f)).map fun k => (k.level, k.target, some k.formatter) := by
  rw [attachedTo, Option.map_eq_some_iff] at h
  obtain ⟨made, hmade, rfl⟩ := h
  induction defs generalizing made with
  | nil =>
    obtain rfl : [] = made := by simpa using hmade
    rfl
  | cons a defs ih =>
    rw [List.mapM_cons, Option.bind_eq_bind, Option.bind_eq_some_iff] at hmade
    obtain ⟨ap, hap, hmade⟩ := hmade
    rw [Option.bind_eq_bind, Option.bind_eq_some_iff] at hmade
    obtain ⟨aps, haps, hcons⟩ := hmade
    obtain rfl : ap :: aps = made := Option.some_inj.1 hcons
    rw [List.map_cons, List.map_cons, List.map_cons, List.map_cons, ih aps haps, sink_of_appender hap]

theorem behaves_run {history : List LogDefines} {s : State} (h : Log.run history = some s) (name : Bytes) :
    Behaves name history (s.loggers name) := by
  have hshows := (tracks_run h).shows name
  cases hin : inForce name history with
  | some d =>
    refine ⟨?_, ?_⟩
    · rw [threshold, hin, hshows.level d hin]
    · rw [sinks, hin]
      exact sinks_of_attachedTo (hshows.appenders d hin)
  | none =>
    have hunforced := unforced_run h hin
    cases hever : everDefined name history with
    | true =>
      refine ⟨?_, ?_⟩
      · rw [threshold, hin, hunforced.level hever]
        simp [hever]
      · rw [sinks, hin, hshows.gone hin (by simpa [everDefined] using hever)]
        simp [hever]
    | false =>
      rw [hunforced.untouched hever]
      by_cases hroot : name = bytes "root"
      · subst hroot
        refine ⟨?_, ?_⟩
        · simp [threshold, hin, hever, init, Logger.addAppender, Logger.new]
        · simp [sinks, hin, hever, init, Logger.addAppender, Logger.new, LogAppender.new, LogAppender.setFormatter]
      · refine ⟨?_, ?_⟩
        · simp [threshold, hin, hever, init, hroot, Logger.new]
        · simp [sinks, hin, hroot, init, Logger.new]

/-! ## One record -/

section

variable {strftime : Bytes → UInt64 → Bytes}

/-- every appender whose level lets the record pass writes it with its own formatter -/
theorem log_appenders (level : LogLevel) (event : LogEvent) {appenders : List LogAppender} {ks : List Sink}
    (h : appenders.map (fun a => (a.level, a.target, a.formatter)) =
      ks.map fun k => (k.level, k.target, some k.formatter)) :
    (appenders.mapM (LogAppender.log strftime level event)).map List.flatten =
      some ((ks.filter fun k => level.num ≥ k.level.num).map fun k =>
        (k.target, k.formatter.format strftime level event)) := by
  induction appenders generalizing ks with
  | nil =>
    obtain rfl : ks = [] := by simpa using h.symm
    rfl
  | cons a appenders ih =>
    cases ks with
    | nil => simp at h
    | cons k ks =>
      rw [List.map_cons, List.map_cons, List.cons.injEq, Prod.mk.injEq, Prod.mk.injEq] at h
      obtain ⟨⟨hlevel, htarget, hformatter⟩, hrest⟩ := h
      obtain ⟨outs, houts, hflatten⟩ := Option.map_eq_some_iff.1 (ih hrest)
      have hone : LogAppender.log strftime level event a =
          some (if level.num ≥ k.level.num then [(k.target, k.formatter.format strftime level event)] else []) := by
        rw [LogAppender.log, hlevel, htarget, hformatter]
        split_ifs <;> rfl
      rw [List.mapM_cons, hone, houts]
      by_cases hpass : level.num ≥ k.level.num
      · simp [hpass, ← hflatten]
      · simp [hpass, ← hflatten]

/-- a record that a logger is given, or hands on to the root logger -/
theorem log_written {history : List LogDefines} {loggers : Loggers}
    (hbehaves : ∀ name, Behaves name history (loggers name)) (level : LogLevel) (event : LogEvent)
    (names : List Bytes) :
    Logger.log strftime level event (names.map loggers) = some (written strftime history level event names) := by
  induction names with
  | nil => rfl
  | cons name names ih =>
    obtain ⟨hlevel, happenders⟩ := hbehaves name
    have hempty : (loggers name).appenders ≠ [] ↔ sinks name history ≠ [] := by
      have hnil := congrArg (· = []) happenders
      simp only [List.map_eq_nil_iff, eq_iff_iff] at hnil
      exact not_congr hnil
    rw [List.map_cons, Logger.log, written, hlevel]
    simp only [hempty, log_appenders level event happenders, ih]
    split_ifs <;> rfl

/-- the test of the macro is made again by `log` -/
theorem macro_written {history : List LogDefines} {s : State} (h : Log.run history = some s) (name : Bytes)
    (level : LogLevel) (event : LogEvent) :
    SYLAR_LOG_LEVEL strftime s.loggers name level event =
      some (written strftime history level { event with loggerName := name } (withRoot name)) := by
  rw [SYLAR_LOG_LEVEL, log_written (behaves_run h), (behaves_run h name).level]
  split_ifs with hpass
  · rfl
  · obtain ⟨names, hnames⟩ : ∃ names, withRoot name = name :: names := by
      rw [withRoot]
      split_ifs
      · exact ⟨_, rfl⟩
      · exact ⟨_, rfl⟩
    rw [hnames, written, if_neg hpass]

/-! ## Runs -/

theorem run_from (out : Output) {history : List LogDefines} {s : State} (h : Log.run history = some s) {ops : List Op}
    (hok : ∀ v ∈ sets ops, v.TypesOk) :
    ∃ s', ops.foldlM (step strftime) (s, out) = some (s', out ++ expected strftime history ops) ∧
      Log.run (history ++ sets ops) = some s' := by
  induction ops generalizing history s out with
  | nil =>
    refine ⟨s, ?_, ?_⟩
    · rw [expected, List.append_nil]
      rfl
    · rw [sets, List.append_nil, h]
  | cons op ops ih =>
    cases op with
    | setValue v =>
      rw [sets, List.forall_mem_cons] at hok
      obtain ⟨mid, hmid⟩ := exists_setValue hok.1 s
      have hrun : Log.run (history ++ [v]) = some mid := by
        rw [Log.run] at h ⊢
        rw [List.foldlM_append, h]
        simpa using hmid
      obtain ⟨s', hs', hloggers⟩ := ih out hrun hok.2
      refine ⟨s', ?_, ?_⟩
      · rw [List.foldlM_cons, step, hmid]
        exact hs'
      · rw [sets, List.append_cons, hloggers]
    | log name level event =>
      rw [sets] at hok
      obtain ⟨s', hs', hloggers⟩ := ih (out ++ written strftime history level { event with loggerName := name }
        (withRoot name)) h hok
      refine ⟨s', ?_, ?_⟩
      · rw [List.foldlM_cons, step, macro_written h, expected, ← List.append_assoc]
        exact hs'
      · rw [sets, hloggers]

/-- warnings go to the console with the name, errors to a file too -/
def errorsToFile : LogDefine :=
  ⟨bytes "a", .WARN, bytes "%c %m", [⟨1, .ERROR, bytes "%m", bytes "a.log"⟩, ⟨2, .INFO, [], []⟩]⟩

def hello : LogEvent := ⟨bytes "a.cc", 1, 0, 1, 0, 0, bytes "main", [], bytes "hello"⟩

def record (level : LogLevel) : Op := .log errorsToFile.name level hello

end

end Sylar.Log.Delivery

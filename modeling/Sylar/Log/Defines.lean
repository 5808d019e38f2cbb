/-
`g_log_defines` and the listener of LogIniter in log.cc, with `LogDefine` and `setValue` of config.h.

A history is a sequence of setValue calls, one after the other, from the start of the program: m_val is empty, every
logger is as its constructor (for the root logger, the constructor of LoggerManager) leaves it. `std::set<LogDefine>` is
ordered by the name. The only listener is LogIniter's.

`LogDefine::operator==` compares the appenders of the left operand with themselves, so a definition that differs in the
appenders only counts as unchanged, both for setValue and for the listener. What is in force for a name is therefore the
first definition of the last stretch of sets that define it with the same level and formatter. A formatter that is empty
or invalid leaves the one that an earlier definition set.

Results:
- `tracks_run`: what every logger is after any history;
- `last_load_decides_iff`: two histories that end with the same set leave the loggers in the same state, the formatters
  being those of the definitions, exactly when no older formatter shows through and the same appenders are in force;
- `earlier_sets_show`: the appenders of the last set are not looked at, and an older formatter stays.
-/
import Sylar.Log.Logger
import Sylar.Core.OrderedMap

namespace Sylar.Log

open Sylar.Text

/-! ## Definitions -/

structure LogAppenderDefine where
  /-- 1 File, 2 Stdout -/
  type : ℤ
  level : LogLevel
  formatter : Bytes
  file : Bytes
deriving DecidableEq, Repr

structure LogDefine where
  name : Bytes
  level : LogLevel
  formatter : Bytes
  appenders : List LogAppenderDefine
deriving DecidableEq, Repr

/-- `operator==`: the last conjunct of the source is `appenders == appenders` -/
def LogDefine.eq (d oth : LogDefine) : Bool :=
  d.name = oth.name && d.level = oth.level && d.formatter = oth.formatter && d.appenders = d.appenders

/-- `std::set<LogDefine>` -/
structure LogDefines where
  entries : List LogDefine
  sorted : entries.Pairwise fun a b => a.name < b.name

def LogDefines.empty : LogDefines := ⟨[], List.Pairwise.nil⟩

/-- `find` of a definition with this name -/
def LogDefines.find (s : LogDefines) (name : Bytes) : Option LogDefine :=
  s.entries.find? fun d => ¬ d.name < name ∧ ¬ name < d.name

/-- `==` of two sets -/
def LogDefines.eq (s t : LogDefines) : Bool :=
  s.entries.length == t.entries.length && (s.entries.zip t.entries).all fun p => p.1.eq p.2

/-! ## The listener -/

/-- `none`: the type is neither 1 nor 2, so the null pointer is dereferenced -/
def LogAppenderDefine.create (a : LogAppenderDefine) : Option LogAppender :=
  if a.type = 1 then some (.new (.FileLogAppender a.file))
  else if a.type = 2 then some (.new .StdoutLogAppender)
  else none

def LogAppenderDefine.appender (a : LogAppenderDefine) : Option LogAppender := do
  let ap ← a.create
  let ap := ap.setLevel a.level
  if a.formatter ≠ [] then
    let fmt := LogFormatter.new a.formatter
    if !fmt.error then return ap.setFormatter (some fmt)
  return ap

/-- a new or changed definition is carried over to its logger -/
def LogDefine.apply (i : LogDefine) (logger : Logger) : Option Logger := do
  let logger := logger.setLevel i.level
  let logger := if i.formatter ≠ [] then logger.setFormatter i.formatter else logger
  let logger := logger.clearAppenders
  i.appenders.foldlM (fun logger a => return logger.addAppender (← a.appender)) logger

/-- the loggers by name; getLogger makes one where there is none -/
abbrev Loggers := Bytes → Logger

def changed (old_value : LogDefines) (i : LogDefine) : Bool :=
  match old_value.find i.name with
  | none => true
  | some it => !i.eq it

def removed (logger : Logger) : Logger := (logger.setLevel .UNKNOW).clearAppenders

def onChange (old_value new_value : LogDefines) (loggers : Loggers) : Option Loggers := do
  let loggers ← new_value.entries.foldlM (fun loggers i =>
    if changed old_value i then return Function.update loggers i.name (← i.apply (loggers i.name)) else return loggers)
    loggers
  return old_value.entries.foldl (fun loggers i =>
    if (new_value.find i.name).isNone then Function.update loggers i.name (removed (loggers i.name)) else loggers)
    loggers

/-! ## Histories -/

structure State where
  val : LogDefines
  loggers : Loggers

/-- the root logger has a StdoutLogAppender -/
def init : State :=
  ⟨.empty, Function.update Logger.new (bytes "root")
    ((Logger.new (bytes "root")).addAppender (.new .StdoutLogAppender))⟩

def setValue (s : State) (v : LogDefines) : Option State :=
  if v.eq s.val then some s else (onChange s.val v s.loggers).map fun loggers => ⟨v, loggers⟩

def run (history : List LogDefines) : Option State := history.foldlM setValue init

/-! ## What a history leaves -/

/-- what `operator==` compares -/
def LogDefine.sig (d : LogDefine) : Bytes × LogLevel × Bytes := (d.name, d.level, d.formatter)

/-- not empty, and init finds no error in it -/
def Valid (pattern : Bytes) : Prop := pattern ≠ [] ∧ (LogFormatter.new pattern).error = false

instance (pattern : Bytes) : Decidable (Valid pattern) := inferInstanceAs (Decidable (_ ∧ _))

/-- the first definition of the last stretch of sets that define the name alike -/
def inForce (name : Bytes) (history : List LogDefines) : Option LogDefine :=
  history.foldl (fun cur v =>
    match v.find name with
    | none => none
    | some d => if cur.map LogDefine.sig = some d.sig then cur else some d) none

/-- the last valid formatter that a history gives to a name -/
def lastFormatter (name : Bytes) (history : List LogDefines) : LogFormatter :=
  history.foldl (fun f v =>
    match v.find name with
    | none => f
    | some d => if Valid d.formatter then .new d.formatter else f) defaultFormatter

/-! ## Sets of definitions -/

theorem eq_iff {d oth : LogDefine} : d.eq oth = true ↔ d.sig = oth.sig := by
  simp [LogDefine.eq, LogDefine.sig, and_assoc]

theorem LogDefines.nodup (s : LogDefines) : (s.entries.map LogDefine.name).Nodup := by
  rw [List.Nodup, List.pairwise_map]
  refine s.sorted.imp fun hab heq => ?_
  rw [heq] at hab
  exact List.lt_irrefl _ hab

theorem find_eq_find? (s : LogDefines) (name : Bytes) : s.find name = s.entries.find? fun d => d.name = name := by
  rw [LogDefines.find]
  congr 1
  funext d
  rw [decide_eq_decide]
  exact OrderedMap.equiv_iff

theorem find_eq_none {s : LogDefines} {name : Bytes} : s.find name = none ↔ ∀ d ∈ s.entries, d.name ≠ name := by
  rw [find_eq_find?, List.find?_eq_none]
  simp

theorem find_eq_some {s : LogDefines} {name : Bytes} {d : LogDefine} :
    s.find name = some d ↔ d ∈ s.entries ∧ d.name = name := by
  constructor
  · intro h
    rw [find_eq_find?] at h
    exact ⟨List.mem_of_find?_eq_some h, by simpa using List.find?_some h⟩
  · rintro ⟨hd, hname⟩
    cases h : s.find name with
    | none => exact absurd hname (find_eq_none.1 h d hd)
    | some e =>
      rw [find_eq_find?] at h
      have he : e.name = name := by simpa using List.find?_some h
      rw [List.inj_on_of_nodup_map s.nodup (List.mem_of_find?_eq_some h) hd (he.trans hname.symm)]

theorem changed_iff {old : LogDefines} {d : LogDefine} :
    changed old d = true ↔ (old.find d.name).map LogDefine.sig ≠ some d.sig := by
  rw [changed]
  cases old.find d.name with
  | none => simp
  | some it =>
    rw [Option.map_some, ne_eq, Option.some_inj, eq_comm (a := it.sig), ← eq_iff]
    simp

/-- equal sets define every name alike -/
theorem find_of_eq {s t : LogDefines} (h : s.eq t = true) (name : Bytes) :
    (s.find name).map LogDefine.sig = (t.find name).map LogDefine.sig := by
  have hsig : ∀ l l' : List LogDefine, l.length = l'.length → ((l.zip l').all fun p => p.1.eq p.2) = true →
      l.map LogDefine.sig = l'.map LogDefine.sig := by
    intro l l' hlen hall
    induction l generalizing l' with
    | nil => rw [List.length_eq_zero_iff.1 hlen.symm]
    | cons a l ih =>
      cases l' with
      | nil => simp at hlen
      | cons b l' =>
        simp only [List.zip_cons_cons, List.all_cons, Bool.and_eq_true] at hall
        rw [List.map_cons, List.map_cons, eq_iff.1 hall.1, ih l' (by simpa using hlen) hall.2]
  have hfind : ∀ u : LogDefines, (u.find name).map LogDefine.sig =
      (u.entries.map LogDefine.sig).find? fun k => k.1 = name := by
    intro u
    rw [find_eq_find?, List.find?_map]
    rfl
  rw [LogDefines.eq, Bool.and_eq_true, beq_iff_eq] at h
  rw [hfind, hfind, hsig _ _ h.1 h.2]

/-! ## One definition -/

/-- the formatter of a logger behind setFormatter -/
def formatterAfter (pattern : Bytes) (f : Option LogFormatter) : Option LogFormatter :=
  if Valid pattern then some (.new pattern) else f

theorem addAll_create (appenders : List LogAppenderDefine) (logger : Logger) :
    appenders.foldlM (fun logger a => return logger.addAppender (← a.appender)) logger =
      (appenders.mapM LogAppenderDefine.appender).map fun aps => aps.foldl Logger.addAppender logger := by
  induction appenders generalizing logger with
  | nil => rfl
  | cons a appenders ih =>
    rw [List.foldlM_cons, List.mapM_cons]
    cases a.appender with
    | none => rfl
    | some ap =>
      have hrest := ih (logger.addAppender ap)
      cases hmap : appenders.mapM LogAppenderDefine.appender <;> rw [hmap] at hrest <;> exact hrest

/-- a definition replaces the level and the appenders; it replaces the formatter when its own is valid -/
theorem apply_eq (i : LogDefine) (logger : Logger) :
    i.apply logger = (i.appenders.mapM LogAppenderDefine.appender).map fun aps =>
      ⟨logger.name, i.level, aps.map (LogAppender.attached (formatterAfter i.formatter logger.formatter)),
        formatterAfter i.formatter logger.formatter⟩ := by
  have hlogger : ((if i.formatter ≠ [] then (logger.setLevel i.level).setFormatter i.formatter
      else logger.setLevel i.level).clearAppenders) =
      ⟨logger.name, i.level, [], formatterAfter i.formatter logger.formatter⟩ := by
    rw [formatterAfter, setFormatter_eq]
    unfold Valid
    by_cases hempty : i.formatter = []
    · simp [hempty, Logger.setLevel, Logger.clearAppenders]
    · by_cases herr : (LogFormatter.new i.formatter).error = true
      · simp [hempty, herr, Logger.setLevel, Logger.clearAppenders]
      · simp [hempty, herr, Logger.setLevel, Logger.clearAppenders, Logger.setFormatterPtr]
  rw [LogDefine.apply, hlogger, addAll_create]
  congr 1
  funext aps
  rw [addAll_eq, List.nil_append]

/-! ## One call of the listener -/

/-- a loop that gives each k a new value: what it leaves at the keys it meets, and at the others -/
theorem foldlM_update {α κ σ : Type*} [DecidableEq κ] {k : α → κ} {f : α → σ → Option σ} {l : List α} {g g' : κ → σ}
    (hnodup : (l.map k).Nodup)
    (h : l.foldlM (fun g x => (f x (g (k x))).map (Function.update g (k x))) g = some g') :
    (∀ x ∈ l, f x (g (k x)) = some (g' (k x))) ∧ ∀ n, (∀ x ∈ l, k x ≠ n) → g' n = g n := by
  induction l generalizing g with
  | nil =>
    obtain rfl : g = g' := by simpa using h
    exact ⟨fun x hx => by simp at hx, fun _ _ => rfl⟩
  | cons a l ih =>
    rw [List.map_cons, List.nodup_cons] at hnodup
    rw [List.foldlM_cons] at h
    cases ha : f a (g (k a)) with
    | none => simp [ha] at h
    | some v =>
      rw [ha] at h
      obtain ⟨hin, hout⟩ := ih hnodup.2 h
      have hne : ∀ x ∈ l, k x ≠ k a := fun x hx heq => hnodup.1 (heq ▸ List.mem_map_of_mem hx)
      refine ⟨fun x hx => ?_, fun n hn => ?_⟩
      · rcases List.mem_cons.1 hx with rfl | hx
        · rw [ha, hout _ hne, Function.update_self]
        · rw [← hin x hx, Function.update_of_ne (hne x hx)]
      · rw [hout n fun x hx => hn x (List.mem_cons_of_mem a hx),
          Function.update_of_ne (Ne.symm (hn a List.mem_cons_self))]

/-- such a loop ends when each of its steps does -/
theorem exists_foldlM_update {α κ σ : Type*} [DecidableEq κ] {k : α → κ} {f : α → σ → Option σ} {l : List α}
    (g : κ → σ) (h : ∀ x ∈ l, ∀ v, (f x v).isSome) :
    ∃ g', l.foldlM (fun g x => (f x (g (k x))).map (Function.update g (k x))) g = some g' := by
  induction l generalizing g with
  | nil => exact ⟨g, rfl⟩
  | cons a l ih =>
    obtain ⟨v, hv⟩ := Option.isSome_iff_exists.1 (h a List.mem_cons_self (g (k a)))
    obtain ⟨g', hg'⟩ := ih (Function.update g (k a) v) fun x hx => h x (List.mem_cons_of_mem a hx)
    refine ⟨g', ?_⟩
    rw [List.foldlM_cons, hv]
    exact hg'

/-- what the first loop does to the logger of a definition -/
def carry (old_value : LogDefines) (i : LogDefine) (logger : Logger) : Option Logger :=
  if changed old_value i then i.apply logger else some logger

/-- what the second loop does -/
def drop (new_value : LogDefines) (i : LogDefine) (logger : Logger) : Logger :=
  if (new_value.find i.name).isNone then removed logger else logger

theorem onChange_eq (old_value new_value : LogDefines) (loggers : Loggers) :
    onChange old_value new_value loggers =
      (new_value.entries.foldlM (fun loggers i =>
        (carry old_value i (loggers i.name)).map (Function.update loggers i.name)) loggers).bind fun loggers =>
      old_value.entries.foldlM (fun loggers i =>
        (some (drop new_value i (loggers i.name))).map (Function.update loggers i.name)) loggers := by
  have hcarry : ∀ (loggers : Loggers) (i : LogDefine),
      (if changed old_value i then (do return Function.update loggers i.name (← i.apply (loggers i.name)))
        else return loggers) = (carry old_value i (loggers i.name)).map (Function.update loggers i.name) := by
    intro loggers i
    rw [carry]
    split_ifs
    · cases i.apply (loggers i.name) <;> rfl
    · simp
  have hdrop : ∀ (loggers : Loggers) (i : LogDefine),
      (if (new_value.find i.name).isNone then Function.update loggers i.name (removed (loggers i.name)) else loggers) =
        Function.update loggers i.name (drop new_value i (loggers i.name)) := by
    intro loggers i
    rw [drop]
    split_ifs
    · rfl
    · rw [Function.update_eq_self]
  simp only [onChange, hcarry, hdrop, Option.map_some]
  refine congrArg (Option.bind _) (funext fun loggers => ?_)
  exact (List.foldlM_pure ..).symm

/-- one call of the listener, seen at one name -/
theorem onChange_logger {old_value new_value : LogDefines} {loggers loggers' : Loggers}
    (h : onChange old_value new_value loggers = some loggers') (name : Bytes) :
    (∀ d, new_value.find name = some d → carry old_value d (loggers name) = some (loggers' name)) ∧
      (new_value.find name = none →
        loggers' name = if (old_value.find name).isSome then removed (loggers name) else loggers name) := by
  rw [onChange_eq, Option.bind_eq_some_iff] at h
  obtain ⟨mid, hfirst, hsecond⟩ := h
  obtain ⟨hin, hout⟩ := foldlM_update new_value.nodup hfirst
  obtain ⟨hin', hout'⟩ := foldlM_update (f := fun i logger => some (drop new_value i logger)) old_value.nodup hsecond
  -- the second loop passes over every name of the new set
  have hlast : loggers' name = match old_value.find name with
      | some d => drop new_value d (mid name)
      | none => mid name := by
    cases hold : old_value.find name with
    | none => exact hout' name (find_eq_none.1 hold)
    | some d =>
      obtain ⟨hd, rfl⟩ := find_eq_some.1 hold
      exact (Option.some_inj.1 (hin' d hd)).symm
  refine ⟨fun d hd => ?_, fun hnone => ?_⟩
  · obtain ⟨hmem, rfl⟩ := find_eq_some.1 hd
    rw [hin d hmem, hlast]
    cases hold : old_value.find d.name with
    | none => rfl
    | some e =>
      have he : e.name = d.name := (find_eq_some.1 hold).2
      simp [drop, he, hd]
  · rw [hlast, hout name (find_eq_none.1 hnone)]
    cases hold : old_value.find name with
    | none => rfl
    | some e =>
      have he : e.name = name := (find_eq_some.1 hold).2
      simp [drop, he, hnone]

/-! ## Histories -/

theorem inForce_concat (name : Bytes) (history : List LogDefines) (v : LogDefines) :
    inForce name (history ++ [v]) =
      match v.find name with
      | none => none
      | some d => if (inForce name history).map LogDefine.sig = some d.sig then inForce name history else some d := by
  rw [inForce, List.foldl_append]
  rfl

theorem lastFormatter_concat (name : Bytes) (history : List LogDefines) (v : LogDefines) :
    lastFormatter name (history ++ [v]) =
      match v.find name with
      | none => lastFormatter name history
      | some d => if Valid d.formatter then .new d.formatter else lastFormatter name history := by
  rw [lastFormatter, List.foldl_append]
  rfl

/-- what is in force counts as equal to the last definition -/
theorem sig_inForce_concat (name : Bytes) (history : List LogDefines) (v : LogDefines) :
    (inForce name (history ++ [v])).map LogDefine.sig = (v.find name).map LogDefine.sig := by
  rw [inForce_concat]
  cases v.find name with
  | none => rfl
  | some d =>
    by_cases h : (inForce name history).map LogDefine.sig = some d.sig
    · simp [h]
    · simp [h]

theorem lastFormatter_of_inForce {name : Bytes} {history : List LogDefines} {d : LogDefine}
    (h : inForce name history = some d) (hvalid : Valid d.formatter) :
    lastFormatter name history = .new d.formatter := by
  induction history using List.reverseRecOn with
  | nil => cases h
  | append_singleton history v ih =>
    have hsig := sig_inForce_concat name history v
    rw [h] at hsig
    rw [lastFormatter_concat]
    cases hfind : v.find name with
    | none => simp [hfind] at hsig
    | some e =>
      have hformatter : d.formatter = e.formatter := by
        simp only [hfind, Option.map_some, Option.some_inj, LogDefine.sig, Prod.mk.injEq] at hsig
        exact hsig.2.2
      simp only [← hformatter]
      exact if_pos hvalid

/-- one call of setValue, seen at one name; where the sets count as equal the call does nothing -/
theorem setValue_logger {s s' : State} {v : LogDefines} (h : setValue s v = some s') (name : Bytes) :
    (∀ d, v.find name = some d → carry s.val d (s.loggers name) = some (s'.loggers name)) ∧
      (v.find name = none →
        s'.loggers name = if (s.val.find name).isSome then removed (s.loggers name) else s.loggers name) ∧
      (s'.val.find name).map LogDefine.sig = (v.find name).map LogDefine.sig := by
  rw [setValue] at h
  split_ifs at h with heq
  · obtain rfl := Option.some_inj.1 h
    have hsame := find_of_eq heq name
    refine ⟨fun d hd => ?_, fun hnone => ?_, hsame.symm⟩
    · have hname : d.name = name := (find_eq_some.1 hd).2
      have hunchanged : ¬ changed s.val d = true := by
        rw [changed_iff, hname, ← hsame, hd, not_not]
        rfl
      rw [carry, if_neg hunchanged]
    · rw [hnone] at hsame
      have hnone' : s.val.find name = none := by simpa using hsame.symm
      simp [hnone']
  · rw [Option.map_eq_some_iff] at h
    obtain ⟨loggers, hchange, rfl⟩ := h
    obtain ⟨hsome, hnone⟩ := onChange_logger hchange name
    exact ⟨hsome, hnone, rfl⟩

/-- the appenders that a list of definitions gives to a logger with this formatter -/
def attachedTo (f : LogFormatter) (appenders : List LogAppenderDefine) : Option (List LogAppender) :=
  (appenders.mapM LogAppenderDefine.appender).map (List.map (LogAppender.attached (some f)))

/-- the logger of a name behind a history -/
structure Shows (name : Bytes) (history : List LogDefines) (logger : Logger) : Prop where
  formatter : logger.formatter = some (lastFormatter name history)
  level : ∀ d, inForce name history = some d → logger.level = d.level
  appenders : ∀ d, inForce name history = some d →
    attachedTo (lastFormatter name history) d.appenders = some logger.appenders
  gone : inForce name history = none → (∃ v ∈ history, (v.find name).isSome) → logger.appenders = []

/-- a definition that counts as changed is applied -/
theorem Shows.applied {name : Bytes} {history : List LogDefines} {logger logger' : Logger} {v : LogDefines}
    {d : LogDefine} (h : Shows name history logger) (hd : v.find name = some d)
    (hchanged : (inForce name history).map LogDefine.sig ≠ some d.sig) (happly : d.apply logger = some logger') :
    Shows name (history ++ [v]) logger' := by
  have hforce : inForce name (history ++ [v]) = some d := by
    rw [inForce_concat, hd]
    exact if_neg hchanged
  have hlast : formatterAfter d.formatter logger.formatter = some (lastFormatter name (history ++ [v])) := by
    rw [lastFormatter_concat, hd, formatterAfter, h.formatter]
    by_cases hvalid : Valid d.formatter
    · simp [hvalid]
    · simp [hvalid]
  rw [apply_eq, hlast, Option.map_eq_some_iff] at happly
  obtain ⟨aps, haps, rfl⟩ := happly
  refine ⟨rfl, ?_, ?_, ?_⟩
  · rintro e he
    obtain rfl := Option.some_inj.1 (hforce.symm.trans he)
    rfl
  · rintro e he
    obtain rfl := Option.some_inj.1 (hforce.symm.trans he)
    rw [attachedTo, haps]
    rfl
  · intro hnone
    rw [hforce] at hnone
    cases hnone

/-- a definition that counts as unchanged is passed over -/
theorem Shows.kept {name : Bytes} {history : List LogDefines} {logger : Logger} {v : LogDefines} {d : LogDefine}
    (h : Shows name history logger) (hd : v.find name = some d)
    (hsame : (inForce name history).map LogDefine.sig = some d.sig) : Shows name (history ++ [v]) logger := by
  have hforce : inForce name (history ++ [v]) = inForce name history := by
    rw [inForce_concat, hd]
    exact if_pos hsame
  have hlast : lastFormatter name (history ++ [v]) = lastFormatter name history := by
    rw [lastFormatter_concat, hd]
    by_cases hvalid : Valid d.formatter
    · obtain ⟨e, he, hsig⟩ := Option.map_eq_some_iff.1 hsame
      have hformatter : e.formatter = d.formatter := congrArg (·.2.2) hsig
      have hshown := lastFormatter_of_inForce he (by rw [hformatter]; exact hvalid)
      simp [hvalid, hshown, hformatter]
    · simp [hvalid]
  refine ⟨?_, ?_, ?_, ?_⟩
  · rw [hlast, h.formatter]
  · rw [hforce]
    exact h.level
  · rw [hforce, hlast]
    exact h.appenders
  · intro hnone
    rw [hforce] at hnone
    simp [hnone] at hsame

/-- a name that the new set does not have: its logger loses its appenders, if it was defined -/
theorem Shows.dropped {name : Bytes} {history : List LogDefines} {logger : Logger} {v : LogDefines}
    (h : Shows name history logger) (hnone : v.find name = none) :
    Shows name (history ++ [v]) (if (inForce name history).isSome then removed logger else logger) := by
  have hforce : inForce name (history ++ [v]) = none := by rw [inForce_concat, hnone]
  have hlast : lastFormatter name (history ++ [v]) = lastFormatter name history := by rw [lastFormatter_concat, hnone]
  refine ⟨?_, ?_, ?_, ?_⟩
  · rw [hlast, ← h.formatter]
    split_ifs <;> rfl
  · intro d hd
    rw [hforce] at hd
    cases hd
  · intro d hd
    rw [hforce] at hd
    cases hd
  · rintro - ⟨w, hw, hsome⟩
    split_ifs with hin
    · rfl
    · rcases List.mem_append.1 hw with hw | hw
      · exact h.gone (by simpa using hin) ⟨w, hw, hsome⟩
      · rw [List.mem_singleton.1 hw, hnone] at hsome
        cases hsome

/-- the loggers behind a history -/
structure Tracks (history : List LogDefines) (s : State) : Prop where
  val : ∀ name, (s.val.find name).map LogDefine.sig = (inForce name history).map LogDefine.sig
  shows : ∀ name, Shows name history (s.loggers name)

theorem tracks_init : Tracks [] init where
  val _ := rfl
  shows name := by
    refine ⟨?_, fun _ h => ?_, fun _ h => ?_, fun _ h => ?_⟩
    · by_cases h : name = bytes "root"
      · subst h
        simp [init, Logger.addAppender, Logger.new, lastFormatter]
      · simp [init, h, Logger.new, lastFormatter]
    · cases h
    · cases h
    · simp at h

theorem Tracks.setValue {history : List LogDefines} {s s' : State} {v : LogDefines} (h : Tracks history s)
    (hset : setValue s v = some s') : Tracks (history ++ [v]) s' := by
  refine ⟨fun name => ?_, fun name => ?_⟩
  · rw [(setValue_logger hset name).2.2, sig_inForce_concat]
  obtain ⟨hsome, hnone, -⟩ := setValue_logger hset name
  cases hfind : v.find name with
  | none =>
    have hdefined : (s.val.find name).isSome = (inForce name history).isSome := by
      rw [← Option.isSome_map (f := LogDefine.sig), h.val, Option.isSome_map]
    rw [hnone hfind, hdefined]
    exact (h.shows name).dropped hfind
  | some d =>
    have hname : d.name = name := (find_eq_some.1 hfind).2
    have hcarry := hsome d hfind
    rw [carry] at hcarry
    split_ifs at hcarry with hchanged
    · rw [changed_iff, hname, h.val] at hchanged
      exact (h.shows name).applied hfind hchanged hcarry
    · rw [changed_iff, hname, h.val, not_not] at hchanged
      rw [← Option.some_inj.1 hcarry]
      exact (h.shows name).kept hfind hchanged

theorem tracks_run {history : List LogDefines} {s : State} (h : run history = some s) : Tracks history s := by
  induction history using List.reverseRecOn generalizing s with
  | nil =>
    obtain rfl := Option.some_inj.1 h
    exact tracks_init
  | append_singleton history v ih =>
    rw [run, List.foldlM_append, Option.bind_eq_bind, Option.bind_eq_some_iff] at h
    obtain ⟨mid, hmid, hset⟩ := h
    exact (ih hmid).setValue (by simpa using hset)

/-! ## Appender types 1 and 2 -/

def LogDefines.TypesOk (v : LogDefines) : Prop := ∀ d ∈ v.entries, ∀ a ∈ d.appenders, a.type = 1 ∨ a.type = 2

instance (v : LogDefines) : Decidable v.TypesOk :=
  inferInstanceAs (Decidable (∀ d ∈ v.entries, ∀ a ∈ d.appenders, a.type = 1 ∨ a.type = 2))

theorem isSome_appender {a : LogAppenderDefine} (h : a.type = 1 ∨ a.type = 2) : a.appender.isSome := by
  have hcreate : a.create.isSome := by
    rcases h with h | h <;> simp [LogAppenderDefine.create, h]
  obtain ⟨ap, hap⟩ := Option.isSome_iff_exists.1 hcreate
  simp only [LogAppenderDefine.appender, hap, Option.bind_eq_bind, Option.bind_some]
  split_ifs <;> rfl

theorem isSome_apply {d : LogDefine} (h : ∀ a ∈ d.appenders, a.type = 1 ∨ a.type = 2) (logger : Logger) :
    (d.apply logger).isSome := by
  have hmap : ∀ l : List LogAppenderDefine, (∀ a ∈ l, a.type = 1 ∨ a.type = 2) →
      (l.mapM LogAppenderDefine.appender).isSome := by
    intro l hl
    induction l with
    | nil => rfl
    | cons a l ih =>
      obtain ⟨ap, hap⟩ := Option.isSome_iff_exists.1 (isSome_appender (hl a List.mem_cons_self))
      obtain ⟨aps, haps⟩ := Option.isSome_iff_exists.1 (ih fun b hb => hl b (List.mem_cons_of_mem a hb))
      rw [List.mapM_cons, hap, haps]
      rfl
  rw [apply_eq, Option.isSome_map]
  exact hmap d.appenders h

theorem exists_setValue {v : LogDefines} (h : v.TypesOk) (s : State) : ∃ s', setValue s v = some s' := by
  rw [setValue]
  split_ifs
  · exact ⟨s, rfl⟩
  · obtain ⟨mid, hmid⟩ := exists_foldlM_update (k := LogDefine.name) (f := carry s.val) (l := v.entries) s.loggers
      fun d hd logger => by
        rw [carry]
        split_ifs
        · exact isSome_apply (h d hd) logger
        · rfl
    obtain ⟨loggers, hloggers⟩ := exists_foldlM_update (k := LogDefine.name)
      (f := fun i logger => some (drop v i logger)) (l := s.val.entries) mid fun _ _ _ => rfl
    refine ⟨⟨v, loggers⟩, ?_⟩
    rw [onChange_eq, hmid, Option.bind_some, hloggers]
    rfl

theorem exists_run {history : List LogDefines} (h : ∀ v ∈ history, v.TypesOk) : ∃ s, run history = some s := by
  induction history using List.reverseRecOn with
  | nil => exact ⟨init, rfl⟩
  | append_singleton history v ih =>
    obtain ⟨mid, hmid⟩ := ih fun w hw => h w (List.mem_append_left _ hw)
    obtain ⟨s, hs⟩ := exists_setValue (h v (by simp)) mid
    refine ⟨s, ?_⟩
    rw [run] at hmid ⊢
    rw [List.foldlM_append, hmid]
    simpa using hs

/-! ## Two histories -/

/-- the formatter of the definition if it is valid, otherwise the default -/
def LogDefine.ownFormatter (d : LogDefine) : LogFormatter :=
  if Valid d.formatter then .new d.formatter else defaultFormatter

/-- two loggers of a definition in the same state, with its formatter -/
structure SameState (d : LogDefine) (l₁ l₂ : Logger) : Prop where
  level : l₁.level = l₂.level
  formatter₁ : l₁.formatter = some d.ownFormatter
  formatter₂ : l₂.formatter = some d.ownFormatter
  appenders : l₁.appenders = l₂.appenders

/-- the names that only earlier sets define have no appenders -/
def Cleared (history : List LogDefines) (last : LogDefines) (loggers : Loggers) : Prop :=
  ∀ name, last.find name = none → (∃ v ∈ history, (v.find name).isSome) → (loggers name).appenders = []

/-- the appenders of the definition that is in force -/
def appendersInForce (name : Bytes) (history : List LogDefines) : List LogAppenderDefine :=
  match inForce name history with
  | none => []
  | some d => d.appenders

/-- no formatter of an earlier definition shows through, and the histories have the same appenders in force -/
structure Unshadowed (d : LogDefine) (h₁ h₂ : List LogDefines) (last : LogDefines) : Prop where
  formatter : Valid d.formatter ∨
    lastFormatter d.name h₁ = defaultFormatter ∧ lastFormatter d.name h₂ = defaultFormatter
  appenders : attachedTo d.ownFormatter (appendersInForce d.name (h₁ ++ [last])) =
    attachedTo d.ownFormatter (appendersInForce d.name (h₂ ++ [last]))

/-- the logger of a definition of the last set -/
theorem Tracks.logger {history : List LogDefines} {last : LogDefines} {s : State} (h : Tracks (history ++ [last]) s)
    {d : LogDefine} (hd : d ∈ last.entries) :
    (s.loggers d.name).level = d.level ∧
      ((s.loggers d.name).formatter = some d.ownFormatter ↔
        Valid d.formatter ∨ lastFormatter d.name history = defaultFormatter) ∧
      attachedTo (lastFormatter d.name (history ++ [last])) (appendersInForce d.name (history ++ [last])) =
        some (s.loggers d.name).appenders := by
  have hfind : last.find d.name = some d := find_eq_some.2 ⟨hd, rfl⟩
  have hsig := sig_inForce_concat d.name history last
  rw [hfind, Option.map_some] at hsig
  obtain ⟨e, he, hsame⟩ := Option.map_eq_some_iff.1 hsig
  have hlevel : e.level = d.level := congrArg (·.2.1) hsame
  refine ⟨((h.shows d.name).level e he).trans hlevel, ?_, ?_⟩
  · rw [(h.shows d.name).formatter, Option.some_inj, lastFormatter_concat, hfind, LogDefine.ownFormatter]
    by_cases hvalid : Valid d.formatter
    · simp [hvalid]
    · simp [hvalid]
  · rw [appendersInForce, he]
    exact (h.shows d.name).appenders e he

theorem exists_run_concat {h : List LogDefines} {last : LogDefines} (hok : ∀ v ∈ h, v.TypesOk) (hlast : last.TypesOk) :
    ∃ s, run (h ++ [last]) = some s := by
  apply exists_run
  intro v hv
  rcases List.mem_append.1 hv with hv | hv
  · exact hok v hv
  · rw [List.mem_singleton.1 hv]
    exact hlast

/-- a logger that the last set has no definition of is cleared -/
theorem Tracks.cleared {h : List LogDefines} {last : LogDefines} {s : State} (htracks : Tracks (h ++ [last]) s) :
    Cleared h last s.loggers := by
  rintro name hnone ⟨v, hv, hsome⟩
  refine (htracks.shows name).gone ?_ ⟨v, List.mem_append_left _ hv, hsome⟩
  rw [inForce_concat, hnone]

/-- the formatter in force is the definition's own when that is valid or no other one was set -/
theorem lastFormatter_own {h : List LogDefines} {last : LogDefines} {d : LogDefine} (hd : d ∈ last.entries)
    (hor : Valid d.formatter ∨ lastFormatter d.name h = defaultFormatter) :
    lastFormatter d.name (h ++ [last]) = d.ownFormatter := by
  rw [lastFormatter_concat, find_eq_some.2 ⟨hd, rfl⟩, LogDefine.ownFormatter]
  rcases hor with hvalid | hdefault
  · simp [hvalid]
  · simp [hdefault]

/-- two histories that end with the same set leave its loggers in the same state, exactly when no older formatter shows
through and the same appenders are in force; loggers of earlier sets only are cleared -/
theorem last_load_decides_iff {h₁ h₂ : List LogDefines} {last : LogDefines} (hok₁ : ∀ v ∈ h₁, v.TypesOk)
    (hok₂ : ∀ v ∈ h₂, v.TypesOk) (hlast : last.TypesOk) :
    ∃ s₁ s₂, run (h₁ ++ [last]) = some s₁ ∧ run (h₂ ++ [last]) = some s₂ ∧
      (((∀ d ∈ last.entries, SameState d (s₁.loggers d.name) (s₂.loggers d.name)) ∧
          Cleared h₁ last s₁.loggers ∧ Cleared h₂ last s₂.loggers) ↔
        ∀ d ∈ last.entries, Unshadowed d h₁ h₂ last) := by
  obtain ⟨s₁, hs₁⟩ := exists_run_concat hok₁ hlast
  obtain ⟨s₂, hs₂⟩ := exists_run_concat hok₂ hlast
  have ht₁ := tracks_run hs₁
  have ht₂ := tracks_run hs₂
  refine ⟨s₁, s₂, hs₁, hs₂, ?_⟩
  constructor
  · rintro ⟨hsame, -⟩ d hd
    obtain ⟨-, hf₁, ha₁⟩ := ht₁.logger hd
    obtain ⟨-, hf₂, ha₂⟩ := ht₂.logger hd
    have hor₁ := hf₁.1 (hsame d hd).formatter₁
    have hor₂ := hf₂.1 (hsame d hd).formatter₂
    rw [lastFormatter_own hd hor₁] at ha₁
    rw [lastFormatter_own hd hor₂] at ha₂
    refine ⟨?_, ?_⟩
    · rcases hor₁ with hvalid | hdefault₁
      · exact .inl hvalid
      · rcases hor₂ with hvalid | hdefault₂
        · exact .inl hvalid
        · exact .inr ⟨hdefault₁, hdefault₂⟩
    · rw [ha₁, ha₂, (hsame d hd).appenders]
  · intro hun
    refine ⟨fun d hd => ?_, ht₁.cleared, ht₂.cleared⟩
    obtain ⟨hl₁, hf₁, ha₁⟩ := ht₁.logger hd
    obtain ⟨hl₂, hf₂, ha₂⟩ := ht₂.logger hd
    have hor₁ := (hun d hd).formatter.imp_right And.left
    have hor₂ := (hun d hd).formatter.imp_right And.right
    rw [lastFormatter_own hd hor₁] at ha₁
    rw [lastFormatter_own hd hor₂] at ha₂
    refine ⟨hl₁.trans hl₂.symm, hf₁.2 hor₁, hf₂.2 hor₂, ?_⟩
    apply Option.some_inj.1
    calc some (s₁.loggers d.name).appenders
        = attachedTo d.ownFormatter (appendersInForce d.name (h₁ ++ [last])) := ha₁.symm
      _ = attachedTo d.ownFormatter (appendersInForce d.name (h₂ ++ [last])) := (hun d hd).appenders
      _ = some (s₂.loggers d.name).appenders := ha₂

/-- the set with one definition -/
def only (d : LogDefine) : LogDefines := ⟨[d], List.pairwise_singleton _ _⟩

def silent : LogDefine := ⟨bytes "a", .INFO, [], []⟩

def console : LogDefine := ⟨bytes "a", .INFO, [], [⟨2, .INFO, [], []⟩]⟩

def messageOnly : LogDefine := ⟨bytes "a", .INFO, bytes "%m", []⟩

theorem last_load_decides_example :
    ∃ s₁ s₂, run ([] ++ [only console]) = some s₁ ∧ run ([only messageOnly] ++ [only console]) = some s₂ ∧
      (((∀ d ∈ (only console).entries, SameState d (s₁.loggers d.name) (s₂.loggers d.name)) ∧
          Cleared [] (only console) s₁.loggers ∧ Cleared [only messageOnly] (only console) s₂.loggers) ↔
        ∀ d ∈ (only console).entries, Unshadowed d [] [only messageOnly] (only console)) :=
  last_load_decides_iff (by decide) (by decide) (by decide)

/-- a set that adds an appender and changes nothing else is not looked at; and the formatter of an earlier set stays
where the last one gives none -/
theorem earlier_sets_show :
    (run [only console]).map (fun s => (s.loggers console.name).appenders.length) = some 1 ∧
      (run [only silent, only console]).map (fun s => (s.loggers console.name).appenders.length) = some 0 ∧
      (run [only silent]).map (fun s => (s.loggers silent.name).formatter) = some (some silent.ownFormatter) ∧
      (run [only messageOnly, only silent]).map (fun s => (s.loggers silent.name).formatter) ≠
        some (some silent.ownFormatter) := by
  decide

end Sylar.Log

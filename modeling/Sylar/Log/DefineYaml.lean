/-
`LexicalCast` between `LogDefine` and the text of a YAML node, of config.h, with `LogLevel::FromString` of log.cc.

The parser and the emission of yaml-cpp are parameters. `none` is an exception.

Results:
- `FromString_ToString`: the names of the levels are told apart;
- `decode_node`: decoding an encoded definition gives it back, but without the levels of its appenders;
- `roundTrip_iff`: so the round trip keeps all fields exactly when no appender has a level.
-/
import Sylar.Log.Defines
import Sylar.Config.Yaml

namespace Sylar.Log

open Sylar.Text Sylar.Yaml

/-! ## Levels -/

def LogLevel.FromString (str : Bytes) : LogLevel :=
  if str = bytes "debug" then DEBUG
  else if str = bytes "info" then INFO
  else if str = bytes "warn" then WARN
  else if str = bytes "error" then ERROR
  else if str = bytes "fatal" then FATAL
  else if str = bytes "DEBUG" then DEBUG
  else if str = bytes "INFO" then INFO
  else if str = bytes "WARN" then WARN
  else if str = bytes "ERROR" then ERROR
  else if str = bytes "FATAL" then FATAL
  else UNKNOW

theorem LogLevel.FromString_ToString (level : LogLevel) : FromString level.ToString = level := by
  cases level <;> decide

/-! ## From a string -/

variable {σ : Type}

/-- the loop body for the appender `a`; `some none` is its `continue` -/
def decodeAppender (a : Node σ) : Option (Option LogAppenderDefine) :=
  match a.field (bytes "type") with
  | none => none
  | some none => some none
  | some (some type) =>
    if type = bytes "FileLogAppender" then
      match a.field (bytes "file") with
      | none => none
      | some none => some none
      | some (some file) =>
        (a.field (bytes "formatter")).map fun formatter => some ⟨1, .UNKNOW, formatter.getD [], file⟩
    else if type = bytes "StdoutLogAppender" then
      (a.field (bytes "formatter")).map fun formatter => some ⟨2, .UNKNOW, formatter.getD [], []⟩
    else some none

def decodeAppenders : List (Node σ) → Option (List LogAppenderDefine)
  | [] => some []
  | a :: as =>
    match decodeAppender a, decodeAppenders as with
    | some lad, some lads => some (lad.toList ++ lads)
    | _, _ => none

/-- the definition in a loaded node -/
def decode (n : Node σ) : Option LogDefine :=
  match n.field (bytes "name"), n.field (bytes "level"), n.field (bytes "formatter"), n.get (bytes "appenders") with
  | some (some name), some level, some formatter, some appenders =>
    (decodeAppenders ((appenders.map Node.elements).getD [])).map fun lads =>
      ⟨name, .FromString (level.getD []), formatter.getD [], lads⟩
  | _, _, _, _ => none

/-- `LexicalCast<std::string, LogDefine>` -/
def LexicalCast.toLogDefine (load : Bytes → Option (Node σ)) (v : Bytes) : Option LogDefine := (load v).bind decode

/-! ## To a string -/

/-- what is assigned to `na` -/
def LogAppenderDefine.entries (a : LogAppenderDefine) : Entries Unit :=
  let na : Entries Unit := []
  let na :=
    if a.type = 1 then setString (bytes "file") a.file (setString (bytes "type") (bytes "FileLogAppender") na)
    else if a.type = 2 then setString (bytes "type") (bytes "StdoutLogAppender") na
    else na
  let na := if a.level ≠ .UNKNOW then setString (bytes "level") a.level.ToString na else na
  if a.formatter ≠ [] then setString (bytes "formatter") a.formatter na else na

def LogAppenderDefine.node (a : LogAppenderDefine) : Node Unit := ofEntries a.entries

/-- the entries in front of the appenders -/
def LogDefine.head (i : LogDefine) : Entries Unit :=
  let n := setString (bytes "name") i.name []
  let n := if i.level ≠ .UNKNOW then setString (bytes "level") i.level.ToString n else n
  if i.formatter ≠ [] then setString (bytes "formatter") i.formatter n else n

def LogDefine.node (i : LogDefine) : Node Unit :=
  ofEntries (i.appenders.foldl (fun n a => setEntry (bytes "appenders") (push a.node) n) i.head)

/-- `LexicalCast<LogDefine, std::string>` -/
def LexicalCast.ofLogDefine (emit : Node Unit → Bytes) (i : LogDefine) : Bytes := emit i.node

/-! ## Reading back what was written -/

theorem get_ofEntries (es : Entries Unit) (key : Bytes) : (ofEntries es).get key = some (lookup key es) := by
  cases es with
  | nil => rfl
  | cons e es => rfl

theorem field_ofEntries (es : Entries Unit) (key : Bytes) : (ofEntries es).field key =
    match lookup key es with
    | none => some none
    | some v => v.asString.map some := by
  rw [Node.field, get_ofEntries]
  cases lookup key es with
  | none => rfl
  | some v => rfl

theorem lookup_ite (c : Prop) [Decidable c] (key key' s : Bytes) (es : Entries Unit) :
    lookup key' (if c then setString key s es else es) =
      if key' = key ∧ c then some (.scalar () s) else lookup key' es := by
  by_cases hc : c
  · rw [if_pos hc, lookup_setString]
    simp [hc]
  · rw [if_neg hc, if_neg fun h => hc h.2]

/-- an entry that is a string, or none -/
theorem field_of_lookup {es : Entries Unit} {key : Bytes} {o : Option Bytes}
    (h : lookup key es = o.map (Node.scalar ())) : (ofEntries es).field key = some o := by
  rw [field_ofEntries, h]
  cases o with
  | none => rfl
  | some s => rfl

/-- a file appender, or a stdout appender without a file -/
def LogAppenderDefine.Ok (a : LogAppenderDefine) : Prop := a.type = 1 ∨ (a.type = 2 ∧ a.file = [])

/-- a string that is written when it is not empty -/
def optional (s : Bytes) : Option Bytes := if s = [] then none else some s

theorem getD_optional (s : Bytes) : (optional s).getD [] = s := by
  rw [optional]
  split_ifs with h
  · exact h.symm
  · rfl

theorem field_formatter {a : LogAppenderDefine} (h : a.Ok) :
    a.node.field (bytes "formatter") = some (optional a.formatter) := by
  have htype : ∀ es : Entries Unit, lookup (bytes "formatter")
      (if a.type = 1 then setString (bytes "file") a.file (setString (bytes "type") (bytes "FileLogAppender") es)
      else if a.type = 2 then setString (bytes "type") (bytes "StdoutLogAppender") es else es) =
        lookup (bytes "formatter") es := by
    intro es
    rcases h with h | ⟨h, -⟩
    · simp +decide only [h, if_true, if_false, lookup_setString]
    · simp +decide only [h, if_true, if_false, lookup_setString]
  refine field_of_lookup ?_
  simp only [LogAppenderDefine.entries, lookup_ite, htype, lookup_nil, optional]
  by_cases hf : a.formatter = [] <;> simp +decide [hf]

theorem decodeAppender_node {a : LogAppenderDefine} (h : a.Ok) :
    decodeAppender a.node = some (some { a with level := .UNKNOW }) := by
  have hformatter := field_formatter h
  rcases h with h | ⟨h, hfile⟩
  · have htype : a.node.field (bytes "type") = some (some (bytes "FileLogAppender")) := by
      refine field_of_lookup ?_
      simp only [LogAppenderDefine.entries, lookup_ite, h, if_true, lookup_setString]
      simp +decide
    have hfile : a.node.field (bytes "file") = some (some a.file) := by
      refine field_of_lookup ?_
      simp only [LogAppenderDefine.entries, lookup_ite, h, if_true, lookup_setString]
      simp +decide
    rw [decodeAppender, htype]
    simp only [if_true, hfile, hformatter, Option.map_some, getD_optional]
    rw [← h]
  · have htwo : ¬ a.type = 1 := by
      rw [h]
      decide
    have htype : a.node.field (bytes "type") = some (some (bytes "StdoutLogAppender")) := by
      refine field_of_lookup ?_
      have hin : lookup (bytes "type") (setString (bytes "type") (bytes "StdoutLogAppender") []) =
          some (.scalar () (bytes "StdoutLogAppender")) := by
        rw [lookup_setString, if_pos rfl]
      simp only [LogAppenderDefine.entries, lookup_ite, htwo, if_false, if_pos h, hin]
      simp +decide
    have hother : bytes "StdoutLogAppender" ≠ bytes "FileLogAppender" := by decide
    rw [decodeAppender, htype]
    simp only [hother, if_false, if_true, hformatter, Option.map_some, getD_optional]
    rw [← h, ← hfile]

theorem decodeAppenders_node {as : List LogAppenderDefine} (h : ∀ a ∈ as, a.Ok) :
    decodeAppenders (as.map LogAppenderDefine.node) = some (as.map fun a => { a with level := .UNKNOW }) := by
  induction as with
  | nil => rfl
  | cons a as ih =>
    obtain ⟨ha, has⟩ := List.forall_mem_cons.1 h
    rw [List.map_cons, decodeAppenders, decodeAppender_node ha, ih has]
    rfl

/-- the loop over the appenders -/
def addAppenders (n : Entries Unit) (as : List LogAppenderDefine) : Entries Unit :=
  as.foldl (fun n a => setEntry (bytes "appenders") (push a.node) n) n

theorem lookup_addAppenders {key : Bytes} (hkey : key ≠ bytes "appenders") (n : Entries Unit)
    (as : List LogAppenderDefine) : lookup key (addAppenders n as) = lookup key n := by
  induction as generalizing n with
  | nil => rfl
  | cons a as ih => rw [addAppenders, List.foldl_cons, ← addAppenders, ih, lookup_setEntry, if_neg hkey]

theorem lookup_addAppenders_seq {n : Entries Unit} {items : List (Node Unit)}
    (hn : lookup (bytes "appenders") n = some (.seq () items)) (as : List LogAppenderDefine) :
    lookup (bytes "appenders") (addAppenders n as) = some (.seq () (items ++ as.map LogAppenderDefine.node)) := by
  induction as generalizing n items with
  | nil =>
    rw [List.map_nil, List.append_nil]
    exact hn
  | cons a as ih =>
    have hstep : lookup (bytes "appenders") (setEntry (bytes "appenders") (push a.node) n) =
        some (.seq () (items ++ [a.node])) := by
      rw [lookup_setEntry, if_pos rfl, hn]
      rfl
    rw [addAppenders, List.foldl_cons, ← addAppenders, ih hstep, List.append_assoc]
    rfl

/-- the sequence of the appenders; it is there when there is an appender -/
theorem elements_addAppenders {n : Entries Unit} (hn : lookup (bytes "appenders") n = none)
    (as : List LogAppenderDefine) :
    ((lookup (bytes "appenders") (addAppenders n as)).map Node.elements).getD [] = as.map LogAppenderDefine.node := by
  cases as with
  | nil =>
    rw [addAppenders, List.foldl_nil, hn]
    rfl
  | cons a as =>
    have hstep : lookup (bytes "appenders") (setEntry (bytes "appenders") (push a.node) n) =
        some (.seq () [a.node]) := by
      rw [lookup_setEntry, if_pos rfl, hn]
      rfl
    rw [addAppenders, List.foldl_cons, ← addAppenders, lookup_addAppenders_seq hstep]
    rfl

/-- the name of a level that is written -/
def levelText (level : LogLevel) : Option Bytes := if level = .UNKNOW then none else some level.ToString

theorem FromString_levelText (level : LogLevel) : LogLevel.FromString ((levelText level).getD []) = level := by
  rw [levelText]
  split_ifs with h
  · rw [h]
    rfl
  · exact LogLevel.FromString_ToString level

/-- the appenders come behind the other entries -/
theorem field_head (d : LogDefine) {key : Bytes} {o : Option Bytes} (hkey : key ≠ bytes "appenders")
    (h : lookup key d.head = o.map (Node.scalar ())) : d.node.field key = some o :=
  field_of_lookup ((lookup_addAppenders hkey d.head d.appenders).trans h)

/-- **Decoding an encoded definition.** The levels of the appenders are not read. -/
theorem decode_node {d : LogDefine} (h : ∀ a ∈ d.appenders, a.Ok) :
    decode d.node = some { d with appenders := d.appenders.map fun a => { a with level := .UNKNOW } } := by
  have hnode : d.node = ofEntries (addAppenders d.head d.appenders) := rfl
  have hname : d.node.field (bytes "name") = some (some d.name) := by
    refine field_head d (by decide) ?_
    simp only [LogDefine.head, lookup_ite, lookup_setString]
    simp +decide
  have hlevel : d.node.field (bytes "level") = some (levelText d.level) := by
    refine field_head d (by decide) ?_
    simp only [LogDefine.head, lookup_ite, lookup_setString, lookup_nil, levelText]
    by_cases hl : d.level = .UNKNOW <;> simp +decide [hl]
  have hformatter : d.node.field (bytes "formatter") = some (optional d.formatter) := by
    refine field_head d (by decide) ?_
    simp only [LogDefine.head, lookup_ite, lookup_setString, lookup_nil, optional]
    by_cases hf : d.formatter = [] <;> simp +decide [hf]
  have happenders : lookup (bytes "appenders") d.head = none := by
    rw [LogDefine.head]
    simp only [lookup_ite, lookup_setString, lookup_nil]
    simp +decide
  rw [decode, hname, hlevel, hformatter, hnode, get_ofEntries]
  simp only [elements_addAppenders happenders, decodeAppenders_node h, Option.map_some, FromString_levelText,
    getD_optional]

/-! ## The round trip -/

/-- **A definition survives exactly when no appender has a level.** -/
theorem roundTrip_iff {d : LogDefine} (h : ∀ a ∈ d.appenders, a.Ok) {load : Bytes → Option (Node Unit)}
    {emit : Node Unit → Bytes} (hload : load (emit d.node) = some d.node) :
    LexicalCast.toLogDefine load (LexicalCast.ofLogDefine emit d) = some d ↔
      ∀ a ∈ d.appenders, a.level = .UNKNOW := by
  rw [LexicalCast.toLogDefine, LexicalCast.ofLogDefine, hload, Option.bind_some, decode_node h]
  refine ⟨fun hsame a ha => ?_, fun hlevels => ?_⟩
  · have happenders := congrArg LogDefine.appenders (Option.some.inj hsame)
    simp only at happenders
    rw [← happenders] at ha
    obtain ⟨b, -, rfl⟩ := List.mem_map.1 ha
    rfl
  · have happenders : (d.appenders.map fun a => { a with level := LogLevel.UNKNOW }) = d.appenders := by
      refine (List.map_congr_left fun a ha => ?_).trans (List.map_id _)
      rw [← hlevels a ha]
      rfl
    rw [happenders]

/-- a logger with a file and a console, the latter for errors only -/
def systemDefine : LogDefine :=
  ⟨bytes "system", .INFO, bytes "a %m", [⟨1, .UNKNOW, [], bytes "a.txt"⟩, ⟨2, .ERROR, [], []⟩]⟩

def systemText : Bytes :=
  bytes "name: system\nlevel: INFO\nformatter: a %m\nappenders:\n" ++
    bytes "  - type: FileLogAppender\n    file: a.txt\n  - type: StdoutLogAppender\n    level: ERROR"

theorem systemDefine_ok : ∀ a ∈ systemDefine.appenders, a.Ok := by
  intro a ha
  simp only [systemDefine, List.mem_cons, List.not_mem_nil, or_false] at ha
  rcases ha with rfl | rfl
  · exact Or.inl rfl
  · exact Or.inr ⟨rfl, rfl⟩

theorem roundTrip_iff_system :
    LexicalCast.toLogDefine (fun v => if v = systemText then some systemDefine.node else none)
        (LexicalCast.ofLogDefine (fun _ => systemText) systemDefine) = some systemDefine ↔
      ∀ a ∈ systemDefine.appenders, a.level = .UNKNOW :=
  roundTrip_iff systemDefine_ok (if_pos rfl)

/-- The console comes back with every level. -/
theorem roundTrip_loses_level :
    ¬ ∀ (d : LogDefine) (load : Bytes → Option (Node Unit)) (emit : Node Unit → Bytes), d.name ≠ [] →
      (∀ a ∈ d.appenders, a.Ok) → load (emit d.node) = some d.node →
        LexicalCast.toLogDefine load (LexicalCast.ofLogDefine emit d) = some d := by
  intro hall
  have hsame := hall systemDefine (fun _ => some systemDefine.node) (fun _ => systemText) (by decide)
    systemDefine_ok rfl
  rw [LexicalCast.toLogDefine, Option.bind_some, decode_node systemDefine_ok] at hsame
  exact absurd (Option.some.inj hsame) (by decide)

end Sylar.Log

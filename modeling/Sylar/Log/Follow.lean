/-
Which formatter the appenders of a logger have: `Logger::setFormatter`, `addAppender`, `delAppender`, `clearAppenders`
and `LogAppender::setFormatter` of log.cc.

Appenders and formatters are shared pointers, so the state is a heap of appenders, the logger's list of them, and what
the user last set on each. An appender whose m_hasFormatter is false is meant to take the formatter of its logger.

Results:
- `own_step`: a formatter that the user has set stays;
- `follows_iff`: along which runs the other appenders keep the formatter of the logger.
-/
import Sylar.Core.Run
import Sylar.Log.Formatter

namespace Sylar.Log.Follow

open Sylar.Run

/-! ## Model -/

/-- a formatter behind a pointer; two of one pattern are told apart -/
structure FormatterPtr where
  address : ℕ
  formatter : LogFormatter
deriving DecidableEq

/-- m_hasFormatter and m_formatter -/
structure Appender where
  hasFormatter : Bool
  formatter : Option FormatterPtr
deriving DecidableEq

/-- what the user has done to an appender -/
inductive Setting where
  /-- no formatter, or only a null pointer -/
  | never
  | own (f : FormatterPtr)
  /-- a null pointer after a formatter -/
  | reset
deriving DecidableEq

structure Sys where
  heap : ℕ → Appender
  appenders : List ℕ
  formatter : Option FormatterPtr
  user : ℕ → Setting

/-- a new logger and appenders that nobody has touched -/
def init (formatter : Option FormatterPtr) : Sys := ⟨fun _ => ⟨false, none⟩, [], formatter, fun _ => .never⟩

inductive Op where
  | setFormatter (val : Option FormatterPtr)
  | setPattern (val : Bytes) (address : ℕ)
  | addAppender (appender : ℕ)
  | delAppender (appender : ℕ)
  | clearAppenders
  | appenderSetFormatter (appender : ℕ) (val : Option FormatterPtr)

/-- LogAppender::setFormatter -/
def Appender.setFormatter (val : Option FormatterPtr) : Appender := ⟨val.isSome, val⟩

/-- the loop of Logger::setFormatter -/
def setAll (val : Option FormatterPtr) (heap : ℕ → Appender) (appenders : List ℕ) : ℕ → Appender :=
  appenders.foldl (fun heap i =>
    if !(heap i).hasFormatter then Function.update heap i { heap i with formatter := val } else heap) heap

def Sys.setFormatter (s : Sys) (val : Option FormatterPtr) : Sys :=
  { s with formatter := val, heap := setAll val s.heap s.appenders }

def Sys.setPattern (s : Sys) (val : Bytes) (address : ℕ) : Sys :=
  let newVal := LogFormatter.new val
  if newVal.error then s else s.setFormatter (some ⟨address, newVal⟩)

def Sys.addAppender (s : Sys) (appender : ℕ) : Sys :=
  { s with
    heap :=
      if (s.heap appender).formatter.isNone then Function.update s.heap appender (.setFormatter s.formatter) else s.heap
    appenders := s.appenders ++ [appender] }

def Setting.set (u : Setting) (val : Option FormatterPtr) : Setting :=
  match val, u with
  | some f, _ => .own f
  | none, never => .never
  | none, _ => .reset

def step (s : Sys) : Op → Sys
  | .setFormatter val => s.setFormatter val
  | .setPattern val address => s.setPattern val address
  | .addAppender appender => s.addAppender appender
  | .delAppender appender => { s with appenders := s.appenders.erase appender }
  | .clearAppenders => { s with appenders := [] }
  | .appenderSetFormatter appender val =>
    { s with
      heap := Function.update s.heap appender (.setFormatter val)
      user := Function.update s.user appender ((s.user appender).set val) }

/-! ## Properties -/

/-- attached appenders without a formatter of their own have the logger's, the others the one that was set -/
structure Follows (s : Sys) : Prop where
  logger : ∀ a ∈ s.appenders, s.user a = .never → (s.heap a).formatter = s.formatter
  own : ∀ a ∈ s.appenders, ∀ f, s.user a = .own f → (s.heap a).formatter = some f

/-- a new formatter of the logger reaches every attached appender that should take it -/
def Reaches (s : Sys) (val : Option FormatterPtr) : Prop :=
  ∀ a ∈ s.appenders, s.user a = .never → (s.heap a).hasFormatter = true → val = s.formatter

/-- the condition on a step -/
def Keeps (s : Sys) : Op → Prop
  | .setFormatter val => Reaches s val
  | .setPattern val address =>
    (LogFormatter.new val).error = false → Reaches s (some ⟨address, .new val⟩)
  | .addAppender a => s.user a = .never → (s.heap a).formatter = none ∨ (s.heap a).formatter = s.formatter
  | .appenderSetFormatter a none => a ∈ s.appenders → s.user a = .never → s.formatter = none
  | _ => True

/-! ## One step -/

theorem setAll_apply (val : Option FormatterPtr) (heap : ℕ → Appender) (appenders : List ℕ) (a : ℕ) :
    setAll val heap appenders a =
      if a ∈ appenders ∧ (heap a).hasFormatter = false then { heap a with formatter := val } else heap a := by
  induction appenders generalizing heap with
  | nil => simp [setAll]
  | cons i appenders ih =>
    rw [setAll, List.foldl_cons, ← setAll, ih]
    by_cases hai : a = i
    · subst hai
      cases hown : (heap a).hasFormatter <;> simp [hown]
    · cases hown : (heap i).hasFormatter <;> simp [hai]

/-- what the user has set is in the appender, attached or not -/
def Owned (s : Sys) : Prop := ∀ a f, s.user a = .own f → s.heap a = ⟨true, some f⟩

theorem owned_setFormatter {s : Sys} (h : Owned s) (val : Option FormatterPtr) : Owned (s.setFormatter val) := by
  intro a f hf
  have hown := h a f hf
  have hsame : (s.setFormatter val).heap a = s.heap a := (setAll_apply _ _ _ a).trans (if_neg (by simp [hown]))
  rw [hsame, hown]

theorem own_step {s : Sys} (o : Op) (h : Owned s) : Owned (step s o) := by
  cases o with
  | setFormatter val => exact owned_setFormatter h val
  | setPattern val address =>
    simp only [step, Sys.setPattern]
    split_ifs
    · exact h
    · exact owned_setFormatter h _
  | addAppender i =>
    intro a f hf
    have hown := h a f hf
    simp only [step, Sys.addAppender]
    split_ifs with hnull
    · -- an appender without a formatter is not the user's
      have hne : a ≠ i := by
        rintro rfl
        rw [hown] at hnull
        cases hnull
      rw [Function.update_of_ne hne]
      exact hown
    · exact hown
  | delAppender i => exact h
  | clearAppenders => exact h
  | appenderSetFormatter i val =>
    intro a f hf
    simp only [step] at hf ⊢
    by_cases hai : a = i
    · subst hai
      rw [Function.update_self] at hf ⊢
      cases val with
      | none => cases hu : s.user a <;> simp [hu, Setting.set] at hf
      | some g =>
        have hgf : g = f := Setting.own.inj hf
        rw [hgf]
        rfl
    · rw [Function.update_of_ne hai] at hf ⊢
      exact h a f hf

/-- the appenders that nobody has set have the logger's formatter -/
def Shared (s : Sys) : Prop := ∀ a ∈ s.appenders, s.user a = .never → (s.heap a).formatter = s.formatter

theorem shared_setFormatter {s : Sys} (h : Shared s) (val : Option FormatterPtr) :
    Shared (s.setFormatter val) ↔ Reaches s val := by
  have hafter : ∀ a ∈ s.appenders, ((s.setFormatter val).heap a).formatter = (s.setFormatter val).formatter ↔
      ((s.heap a).hasFormatter = true → (s.heap a).formatter = val) := by
    intro a ha
    simp only [Sys.setFormatter, setAll_apply]
    cases hown : (s.heap a).hasFormatter <;> simp [ha]
  refine ⟨fun hshared a ha hnever hown => ?_, fun hreach a ha hnever => ?_⟩
  · have hkept := (hafter a ha).1 (hshared a ha hnever) hown
    rw [← hkept, h a ha hnever]
  · refine (hafter a ha).2 fun hown => ?_
    rw [h a ha hnever, hreach a ha hnever hown]

theorem shared_addAppender {s : Sys} (h : Shared s) (i : ℕ) : Shared (s.addAppender i) ↔ Keeps s (.addAppender i) := by
  simp only [Shared, Sys.addAppender, Keeps, List.forall_mem_append, List.forall_mem_singleton]
  cases hnull : (s.heap i).formatter with
  | none =>
    -- it gets the formatter of the logger here
    have hi : (Function.update s.heap i (.setFormatter s.formatter) i).formatter = s.formatter := by
      rw [Function.update_self]
      rfl
    refine iff_of_true ⟨fun a ha hnever => ?_, fun _ => hi⟩ fun _ => Or.inl rfl
    by_cases hai : a = i
    · rw [hai]
      exact hi
    · have hsame : Function.update s.heap i (.setFormatter s.formatter) a = s.heap a := Function.update_of_ne hai _ _
      simp only [Option.isNone_none, if_true, hsame]
      exact h a ha hnever
  | some f =>
    have hsome : ¬ (some f).isNone = true := Bool.false_ne_true
    rw [if_neg hsome, hnull]
    exact ⟨fun hshared hnever => Or.inr (hshared.2 hnever), fun hkeeps =>
      ⟨h, fun hnever => (hkeeps hnever).resolve_left (Option.some_ne_none f)⟩⟩

theorem shared_appenderSetFormatter {s : Sys} (h : Shared s) (i : ℕ) (val : Option FormatterPtr) :
    Shared (step s (.appenderSetFormatter i val)) ↔ Keeps s (.appenderSetFormatter i val) := by
  have hother : ∀ a, a ≠ i → (step s (.appenderSetFormatter i val)).heap a = s.heap a ∧
      (step s (.appenderSetFormatter i val)).user a = s.user a := by
    intro a hai
    exact ⟨Function.update_of_ne hai _ _, Function.update_of_ne hai _ _⟩
  have hheap : (step s (.appenderSetFormatter i val)).heap i = .setFormatter val := Function.update_self ..
  have huser : (step s (.appenderSetFormatter i val)).user i = (s.user i).set val := Function.update_self ..
  refine ⟨fun hshared => ?_, fun hkeeps a ha hnever => ?_⟩
  · cases val with
    | some f => trivial
    | none =>
      intro hi hnever
      have hnull := hshared i hi (by rw [huser, hnever]; rfl)
      rw [hheap] at hnull
      exact hnull.symm
  · by_cases hai : a = i
    · subst hai
      rw [huser] at hnever
      rw [hheap]
      cases val with
      | some f => cases hnever
      | none =>
        have hbefore : s.user a = .never := by
          cases hu : s.user a with
          | never => rfl
          | own f => rw [hu] at hnever; cases hnever
          | reset => rw [hu] at hnever; cases hnever
        exact (hkeeps ha hbefore).symm
    · obtain ⟨hsame, hsetting⟩ := hother a hai
      rw [hsetting] at hnever
      rw [hsame]
      exact h a ha hnever

/-- **One step.** The appenders still follow exactly when the step meets the condition. -/
theorem shared_step {s : Sys} (h : Shared s) (o : Op) : Shared (step s o) ↔ Keeps s o := by
  cases o with
  | setFormatter val => exact shared_setFormatter h val
  | setPattern val address =>
    simp only [step, Sys.setPattern, Keeps]
    cases herror : (LogFormatter.new val).error with
    | true => simp [h]
    | false => simpa using shared_setFormatter h (some ⟨address, .new val⟩)
  | addAppender i => exact shared_addAppender h i
  | delAppender i => exact iff_of_true (fun a ha hnever => h a (List.mem_of_mem_erase ha) hnever) trivial
  | clearAppenders => exact iff_of_true (fun a ha => absurd ha List.not_mem_nil) trivial
  | appenderSetFormatter i val => exact shared_appenderSetFormatter h i val

/-! ## Runs -/

/-- **Along which runs the appenders follow their logger.** -/
theorem follows_iff (formatter : Option FormatterPtr) (ops : List Op) :
    (∀ pre, pre <+: ops → Follows (run step (init formatter) pre)) ↔ Guarded step Keeps (init formatter) ops := by
  have hstep : ∀ s o, Owned s ∧ Shared s → Keeps s o → Owned (step s o) ∧ Shared (step s o) :=
    fun s o h hkeeps => ⟨own_step o h.1, (shared_step h.2 o).2 hkeeps⟩
  have hgood : ∀ s, Owned s ∧ Shared s → Follows s := fun s h => ⟨h.2, fun a _ f hf => by rw [h.1 a f hf]⟩
  have hbad : ∀ s o, Owned s ∧ Shared s → ¬ Keeps s o → ¬ Follows (step s o) :=
    fun s o h hkeeps hfollows => hkeeps ((shared_step h.2 o).1 hfollows.logger)
  have hinit : Owned (init formatter) ∧ Shared (init formatter) :=
    ⟨fun _ f hf => absurd hf (fun h => by cases h), fun _ ha => absurd ha List.not_mem_nil⟩
  exact states_good_iff hstep hgood hbad hinit ops

/-- an appender is added to a new logger, and the logger gets another formatter -/
def addThenSet : List Op := [.addAppender 0, .setFormatter (some ⟨2, .new []⟩)]

/-- **The attached appender keeps the old formatter.** -/
theorem appender_keeps_old : (run step (init (some ⟨1, .new []⟩)) addThenSet).appenders = [0] ∧
    (run step (init (some ⟨1, .new []⟩)) addThenSet).user 0 = .never ∧
    ((run step (init (some ⟨1, .new []⟩)) addThenSet).heap 0).formatter = some ⟨1, .new []⟩ ∧
    ¬ Follows (run step (init (some ⟨1, .new []⟩)) addThenSet) := by
  have happenders : (run step (init (some ⟨1, .new []⟩)) addThenSet).appenders = [0] := rfl
  have hkept : ((run step (init (some ⟨1, .new []⟩)) addThenSet).heap 0).formatter = some ⟨1, .new []⟩ := by decide
  refine ⟨happenders, rfl, hkept, fun h => ?_⟩
  have hsame := h.logger 0 (by rw [happenders]; exact List.mem_cons_self) rfl
  rw [hkept] at hsame
  exact absurd hsame (by decide)

end Sylar.Log.Follow

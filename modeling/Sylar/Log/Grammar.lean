/-
What `LogFormatter::init` accepts, against the grammar of its comment: %xxx, %xxx{xxx}, %%.

A pattern of the grammar is a row of segments. The loop passes over one '%' of an escape only, so the second one starts
a directive: `Shifted` is the language it accepts instead, where a '%' in front of a '%' stands for itself.

Results:
- `scan_cases`: what the scan behind a '%' can find;
- `error_eq_false_iff`: isError() is false exactly for the patterns in `Shifted`;
- `expected_iff`: a pattern of the grammar gets its items exactly when it has no escape;
- `init_iff`: when init does what the grammar says of a pattern;
- `correct_of_no_double`: it does on every pattern without two '%' in a row.
-/
import Sylar.Log.Formatter

namespace Sylar.Log

open Sylar.Text

/-! ## The scan behind a '%' -/

/-- a byte that the scan takes for part of a name -/
def nameChar (c : UInt8) : Bool := isalpha c || c = rbrace

theorem nameChar_iff {c : UInt8} : nameChar c = true ↔ (!isalpha c && c ≠ lbrace && c ≠ rbrace) = false ∧ c ≠ lbrace := by
  revert c
  apply forall_byte
  decide +kernel

theorem scanLoop_nameChar {p : Bytes} {c : UInt8} (hc : nameChar c = true) (n b : ℕ) (str s : Bytes) :
    scanLoop p n false b str (c :: s) = scanLoop p (n + 1) false b (if s = [] ∧ str = [] then p else str) s := by
  obtain ⟨hgo, hbrace⟩ := nameChar_iff.1 hc
  rw [scanLoop, hgo]
  simp [hbrace]

theorem scanLoop_stop {p : Bytes} {c : UInt8} (hc : nameChar c = false) (hbrace : c ≠ lbrace) (n b : ℕ) (str s : Bytes) :
    scanLoop p n false b str (c :: s) = ⟨p.take n, [], false, n⟩ := by
  rw [nameChar, Bool.or_eq_false_iff, decide_eq_false_iff_not] at hc
  rw [scanLoop, if_pos]
  simp [hc.1, hc.2, hbrace]

theorem scanLoop_lbrace (p : Bytes) (n b : ℕ) (str s : Bytes) :
    scanLoop p n false b str (lbrace :: s) = scanLoop p (n + 1) true n (p.take n) s := by
  rw [scanLoop]
  simp

theorem scanLoop_rbrace (p : Bytes) (n b : ℕ) (str s : Bytes) :
    scanLoop p n true b str (rbrace :: s) = ⟨str, (p.drop (b + 1)).take (n - b - 1), false, n + 1⟩ := by
  rw [scanLoop]
  simp

theorem scanLoop_fmtChar {p : Bytes} {c : UInt8} (hc : c ≠ rbrace) (n b : ℕ) (str s : Bytes) :
    scanLoop p n true b str (c :: s) = scanLoop p (n + 1) true b (if s = [] ∧ str = [] then p else str) s := by
  rw [scanLoop]
  simp [hc]

/-- the name, as long as something stands behind it -/
theorem scanLoop_name {p name rest : Bytes} (hname : ∀ c ∈ name, nameChar c = true) (hrest : rest ≠ []) (n b : ℕ) :
    scanLoop p n false b [] (name ++ rest) = scanLoop p (n + name.length) false b [] rest := by
  induction name generalizing n with
  | nil => rfl
  | cons c name ih =>
    obtain ⟨hc, hname⟩ := List.forall_mem_cons.1 hname
    have hne : name ++ rest ≠ [] := List.append_ne_nil_of_right_ne_nil name hrest
    rw [List.cons_append, scanLoop_nameChar hc, if_neg fun h => hne h.1, ih hname, List.length_cons, Nat.add_right_comm,
      Nat.add_assoc n]

/-- a name at the end of the pattern -/
theorem scanLoop_name_end {p name : Bytes} (hname : ∀ c ∈ name, nameChar c = true) (hne : name ≠ []) (n b : ℕ) :
    scanLoop p n false b [] name = ⟨p, [], false, n + name.length⟩ := by
  obtain ⟨front, c, rfl⟩ : ∃ front c, name = front ++ [c] := ⟨_, _, (List.dropLast_append_getLast hne).symm⟩
  obtain ⟨hfront, hc⟩ := List.forall_mem_append.1 hname
  rw [scanLoop_name hfront (List.cons_ne_nil _ _), scanLoop_nameChar (hc c List.mem_cons_self), if_pos ⟨rfl, rfl⟩, scanLoop,
    List.length_append, List.length_singleton, Nat.add_assoc]

theorem scanLoop_fmt {p fmt : Bytes} (hfmt : rbrace ∉ fmt) (n b : ℕ) (str rest : Bytes) :
    scanLoop p n true b str (fmt ++ rbrace :: rest) =
      ⟨str, (p.drop (b + 1)).take (n + fmt.length - b - 1), false, n + fmt.length + 1⟩ := by
  induction fmt generalizing n with
  | nil => exact scanLoop_rbrace p n b str rest
  | cons c fmt ih =>
    obtain ⟨hc, hfmt⟩ := not_or.1 (fun h => hfmt (List.mem_cons.2 h))
    have hne : fmt ++ rbrace :: rest ≠ [] := List.append_ne_nil_of_right_ne_nil fmt (List.cons_ne_nil _ _)
    rw [List.cons_append, scanLoop_fmtChar (Ne.symm hc), if_neg fun h => hne h.1, ih hfmt, List.length_cons,
      Nat.add_right_comm, Nat.add_assoc n]

theorem scanLoop_unclosed {p s : Bytes} (hs : rbrace ∉ s) (n b : ℕ) (str : Bytes) :
    (scanLoop p n true b str s).unclosed = true := by
  induction s generalizing n str with
  | nil => rfl
  | cons c s ih =>
    obtain ⟨hc, hs⟩ := not_or.1 (fun h => hs (List.mem_cons.2 h))
    rw [scanLoop_fmtChar (Ne.symm hc)]
    exact ih hs _ _

/-! ## What the scan finds -/

theorem scan_name {name rest : Bytes} (hname : ∀ c ∈ name, nameChar c = true)
    (hrest : ∀ c ∈ rest.head?, nameChar c = false ∧ c ≠ lbrace) :
    scan (name ++ rest) = ⟨name, [], false, name.length⟩ := by
  cases rest with
  | nil =>
    rw [List.append_nil]
    cases name with
    | nil => rfl
    | cons c name =>
      rw [scan, scanLoop_name_end hname (List.cons_ne_nil _ _), Nat.zero_add]
  | cons c rest =>
    obtain ⟨hc, hbrace⟩ := hrest c rfl
    rw [scan, scanLoop_name hname (List.cons_ne_nil _ _), scanLoop_stop hc hbrace, Nat.zero_add, List.take_left]

theorem scan_fmt {name fmt : Bytes} (hname : ∀ c ∈ name, nameChar c = true) (hfmt : rbrace ∉ fmt) (rest : Bytes) :
    scan (name ++ lbrace :: (fmt ++ rbrace :: rest)) = ⟨name, fmt, false, name.length + fmt.length + 2⟩ := by
  have hafter : ((name ++ lbrace :: (fmt ++ rbrace :: rest)).drop (name.length + 1)) = fmt ++ rbrace :: rest := by
    rw [← List.drop_drop, List.drop_left]
    rfl
  have hlength : name.length + 1 + fmt.length - name.length - 1 = fmt.length := by omega
  rw [scan, scanLoop_name hname (List.cons_ne_nil _ _), scanLoop_lbrace, scanLoop_fmt hfmt, Nat.zero_add, List.take_left,
    hafter, hlength, List.take_left]
  congr 1
  omega

theorem scan_unclosed {name rest : Bytes} (hname : ∀ c ∈ name, nameChar c = true) (hrest : rbrace ∉ rest) :
    (scan (name ++ lbrace :: rest)).unclosed = true := by
  rw [scan, scanLoop_name hname (List.cons_ne_nil _ _), scanLoop_lbrace]
  exact scanLoop_unclosed hrest _ _ _

/-- a name alone, a name with a format, or a brace that is not closed -/
theorem scan_cases (s : Bytes) :
    (∃ name rest, s = name ++ rest ∧ (∀ c ∈ name, nameChar c = true) ∧
      (∀ c ∈ rest.head?, nameChar c = false ∧ c ≠ lbrace) ∧ scan s = ⟨name, [], false, name.length⟩) ∨
    (∃ name fmt rest, s = name ++ lbrace :: (fmt ++ rbrace :: rest) ∧ (∀ c ∈ name, nameChar c = true) ∧
      rbrace ∉ fmt ∧ scan s = ⟨name, fmt, false, name.length + fmt.length + 2⟩) ∨
    (scan s).unclosed = true := by
  obtain ⟨name, rest, rfl, hname, hrest⟩ : ∃ name rest, s = name ++ rest ∧ (∀ c ∈ name, nameChar c = true) ∧
      ∀ c ∈ rest.head?, nameChar c = false := by
    refine ⟨s.takeWhile nameChar, s.dropWhile nameChar, (List.takeWhile_append_dropWhile).symm, ?_, ?_⟩
    · exact fun c hc => List.mem_takeWhile_imp hc
    · intro c hc
      have h := List.head?_dropWhile_not nameChar s
      rw [Option.mem_def.1 hc] at h
      exact h
  by_cases hbrace : rest.head? = some lbrace
  · obtain ⟨rest, rfl⟩ : ∃ r, rest = lbrace :: r := by
      cases rest with
      | nil => cases hbrace
      | cons c r => exact ⟨r, by rw [(Option.some.inj hbrace)]⟩
    cases hcut : cut rbrace rest with
    | none => exact .inr (.inr (scan_unclosed hname (cut_eq_none.1 hcut)))
    | some parts =>
      obtain ⟨rfl, hfmt⟩ := cut_eq_some.1 hcut
      exact .inr (.inl ⟨name, parts.1, parts.2, rfl, hname, hfmt, scan_fmt hname hfmt _⟩)
  · have hstop : ∀ c ∈ rest.head?, nameChar c = false ∧ c ≠ lbrace := by
      refine fun c hc => ⟨hrest c hc, ?_⟩
      rintro rfl
      exact hbrace hc
    exact .inl ⟨name, rest, rfl, hname, hstop, scan_name hname hstop⟩

/-! ## The loop over the pattern -/

theorem initLoop_skip (k : ℕ) (nstr s : Bytes) (hk : k ≤ s.length) : initLoop k nstr s = initLoop 0 nstr (s.drop k) := by
  induction s generalizing k with
  | nil =>
    rw [List.length_nil, Nat.le_zero] at hk
    rw [hk, List.drop_zero]
  | cons c s ih =>
    cases k with
    | zero => rw [List.drop_zero]
    | succ k =>
      rw [List.length_cons] at hk
      rw [initLoop, List.drop_succ_cons]
      exact ih k (by omega)

theorem initLoop_text {c : UInt8} (hc : c ≠ percent) (nstr s : Bytes) :
    initLoop 0 nstr (c :: s) = initLoop 0 (nstr ++ [c]) s := by
  rw [initLoop, if_pos hc]

theorem initLoop_escape (nstr s : Bytes) :
    initLoop 0 nstr (percent :: percent :: s) = initLoop 0 (nstr ++ [percent]) (percent :: s) := by
  rw [initLoop, if_neg (not_not.2 rfl), if_pos List.head?_cons]

theorem initLoop_unclosed {nstr s : Bytes} (hhead : s.head? ≠ some percent) (h : (scan s).unclosed = true) :
    (initLoop 0 nstr (percent :: s)).2 = true := by
  rw [initLoop, if_neg (not_not.2 rfl), if_neg hhead, if_pos h]

theorem initLoop_directive {nstr s str fmt : Bytes} {n : ℕ} (hhead : s.head? ≠ some percent)
    (h : scan s = ⟨str, fmt, false, n⟩) (hn : n ≤ s.length) : initLoop 0 nstr (percent :: s) =
      (flush nstr ++ .directive str fmt :: (initLoop 0 [] (s.drop n)).1, (initLoop 0 [] (s.drop n)).2) := by
  rw [initLoop, if_neg (not_not.2 rfl), if_neg hhead, h, if_neg Bool.false_ne_true, initLoop_skip n [] s hn]

/-- no error so far, and no piece is one -/
def Clean (r : List Piece × Bool) : Prop := r.2 = false ∧ ∀ x ∈ r.1, x.item.2 = false

theorem error_eq_false (p : Bytes) : (LogFormatter.new p).error = false ↔ Clean (initLoop 0 [] p) := by
  rw [LogFormatter.new, Clean, Bool.or_eq_false_iff, List.any_eq_false]
  simp only [Bool.not_eq_true]

/-- one of the twelve names -/
def Registered (str : Bytes) : Prop := (s_format_items str).isSome = true

theorem item_directive {str fmt : Bytes} : (Piece.directive str fmt).item.2 = false ↔ Registered str := by
  rw [Piece.item, Registered]
  cases s_format_items str with
  | none => simp
  | some item => simp

theorem registered_letter {str : Bytes} (h : Registered str) : ∃ x, str = [x] ∧ isalpha x = true := by
  by_contra hno
  have hne : ∀ x, isalpha x = true → str ≠ [x] := fun x hx hstr => hno ⟨x, hstr, hx⟩
  have hm : str ≠ bytes "m" := hne 109 (by decide)
  have hp : str ≠ bytes "p" := hne 112 (by decide)
  have hr : str ≠ bytes "r" := hne 114 (by decide)
  have hc : str ≠ bytes "c" := hne 99 (by decide)
  have ht : str ≠ bytes "t" := hne 116 (by decide)
  have hn : str ≠ bytes "n" := hne 110 (by decide)
  have hd : str ≠ bytes "d" := hne 100 (by decide)
  have hf : str ≠ bytes "f" := hne 102 (by decide)
  have hl : str ≠ bytes "l" := hne 108 (by decide)
  have hT : str ≠ bytes "T" := hne 84 (by decide)
  have hF : str ≠ bytes "F" := hne 70 (by decide)
  have hN : str ≠ bytes "N" := hne 78 (by decide)
  rw [Registered, s_format_items, if_neg hm, if_neg hp, if_neg hr, if_neg hc, if_neg ht, if_neg hn, if_neg hd, if_neg hf,
    if_neg hl, if_neg hT, if_neg hF, if_neg hN] at h
  cases h

theorem clean_flush (nstr : Bytes) : ∀ x ∈ flush nstr, x.item.2 = false := by
  intro x hx
  rw [flush] at hx
  split_ifs at hx
  · cases hx
  · rw [List.mem_singleton.1 hx]
    rfl

/-- a directive is no error when its name is known and what follows is none -/
theorem clean_directive {nstr str fmt : Bytes} {r : List Piece × Bool} :
    Clean (flush nstr ++ .directive str fmt :: r.1, r.2) ↔ Registered str ∧ Clean r := by
  rw [Clean, Clean, ← @item_directive str fmt]
  simp only [List.forall_mem_append, List.forall_mem_cons]
  constructor
  · rintro ⟨herror, -, hitem, hrest⟩
    exact ⟨hitem, herror, hrest⟩
  · rintro ⟨hitem, herror, hrest⟩
    exact ⟨herror, clean_flush nstr, hitem, hrest⟩

/-! ## What the loop accepts -/

/-- what may stand behind a directive without braces -/
def Ends (s : Bytes) : Prop := ∀ c ∈ s.head?, isalpha c = false ∧ c ≠ lbrace ∧ c ≠ rbrace

/-- literal bytes, registered directives, and a '%' in front of another '%', which stands for itself -/
inductive Shifted : Bytes → Prop where
  | nil : Shifted []
  | text {c : UInt8} {s : Bytes} : c ≠ percent → Shifted s → Shifted (c :: s)
  | half {s : Bytes} : Shifted (percent :: s) → Shifted (percent :: percent :: s)
  | bare {x : UInt8} {s : Bytes} : Registered [x] → Ends s → Shifted s → Shifted (percent :: x :: s)
  | braced {x : UInt8} {fmt s : Bytes} : Registered [x] → rbrace ∉ fmt → Shifted s →
    Shifted (percent :: x :: lbrace :: (fmt ++ rbrace :: s))

theorem nameChar_of_registered {x : UInt8} (h : Registered [x]) : ∀ c ∈ [x], nameChar c = true := by
  obtain ⟨y, hy, halpha⟩ := registered_letter h
  intro c hc
  rw [List.mem_singleton.1 hc, (List.cons.inj hy).1, nameChar, halpha, Bool.true_or]

theorem ne_percent_of_registered {x : UInt8} (h : Registered [x]) : x ≠ percent := by
  rintro rfl
  exact absurd (nameChar_of_registered h percent List.mem_cons_self) (by decide)

/-- one step of the loop at a directive without braces -/
theorem initLoop_bare {x : UInt8} (hx : Registered [x]) {s : Bytes} (hs : Ends s) (nstr : Bytes) :
    initLoop 0 nstr (percent :: x :: s) =
      (flush nstr ++ .directive [x] [] :: (initLoop 0 [] s).1, (initLoop 0 [] s).2) := by
  have hscan : scan ([x] ++ s) = ⟨[x], [], false, 1⟩ := by
    refine scan_name (nameChar_of_registered hx) fun c hc => ?_
    obtain ⟨halpha, hleft, hright⟩ := hs c hc
    rw [nameChar, halpha, decide_eq_false hright]
    exact ⟨rfl, hleft⟩
  have hhead : (x :: s).head? ≠ some percent := fun h => ne_percent_of_registered hx (Option.some.inj h)
  exact initLoop_directive hhead hscan (by simp)

theorem drop_braced (x : UInt8) (fmt s : Bytes) : (x :: lbrace :: (fmt ++ rbrace :: s)).drop (fmt.length + 3) = s := by
  have hsplit : x :: lbrace :: (fmt ++ rbrace :: s) = (x :: lbrace :: fmt ++ [rbrace]) ++ s := by simp
  rw [hsplit]
  exact List.drop_left' (by simp)

/-- one step of the loop at a directive with braces -/
theorem initLoop_braced {x : UInt8} (hx : Registered [x]) {fmt : Bytes} (hfmt : rbrace ∉ fmt) (nstr s : Bytes) :
    initLoop 0 nstr (percent :: x :: lbrace :: (fmt ++ rbrace :: s)) =
      (flush nstr ++ .directive [x] fmt :: (initLoop 0 [] s).1, (initLoop 0 [] s).2) := by
  have hscan : scan ([x] ++ lbrace :: (fmt ++ rbrace :: s)) = ⟨[x], fmt, false, fmt.length + 3⟩ := by
    rw [scan_fmt (nameChar_of_registered hx) hfmt, List.length_singleton]
    congr 1
    omega
  have hhead : (x :: lbrace :: (fmt ++ rbrace :: s)).head? ≠ some percent :=
    fun h => ne_percent_of_registered hx (Option.some.inj h)
  rw [initLoop_directive hhead hscan (by simp), drop_braced]

theorem clean_of_shifted {p : Bytes} (h : Shifted p) (nstr : Bytes) : Clean (initLoop 0 nstr p) := by
  induction h generalizing nstr with
  | nil => exact ⟨rfl, clean_flush nstr⟩
  | text hc _ ih =>
    rw [initLoop_text hc]
    exact ih _
  | half _ ih =>
    rw [initLoop_escape]
    exact ih _
  | bare hx hs _ ih =>
    rw [initLoop_bare hx hs]
    exact clean_directive.2 ⟨hx, ih []⟩
  | braced hx hfmt _ ih =>
    rw [initLoop_braced hx hfmt]
    exact clean_directive.2 ⟨hx, ih []⟩

theorem shifted_of_clean {p nstr : Bytes} (h : Clean (initLoop 0 nstr p)) : Shifted p := by
  induction hn : p.length using Nat.strong_induction_on generalizing p nstr with
  | _ n ih =>
    subst hn
    rcases p with - | ⟨c, s⟩
    · exact .nil
    by_cases hc : c = percent
    · subst hc
      by_cases hhead : s.head? = some percent
      · obtain ⟨s, rfl⟩ : ∃ r, s = percent :: r := by
          cases s with
          | nil => cases hhead
          | cons c r => exact ⟨r, by rw [Option.some.inj hhead]⟩
        rw [initLoop_escape] at h
        exact .half (ih _ (by simp) h rfl)
      -- the scan finds a directive, and its name is known
      rcases scan_cases s with ⟨name, rest, rfl, -, hrest, hscan⟩ | ⟨name, fmt, rest, rfl, -, hfmt, hscan⟩ | hunclosed
      · rw [initLoop_directive hhead hscan (by simp), List.drop_left] at h
        obtain ⟨hname, hclean⟩ := clean_directive.1 h
        obtain ⟨x, rfl, -⟩ := registered_letter hname
        refine .bare hname (fun c hc => ?_) (ih _ (by simp) hclean rfl)
        obtain ⟨hstop, hleft⟩ := hrest c hc
        rw [nameChar, Bool.or_eq_false_iff, decide_eq_false_iff_not] at hstop
        exact ⟨hstop.1, hleft, hstop.2⟩
      · rw [initLoop_directive hhead hscan (by simp; omega)] at h
        obtain ⟨hname, hclean⟩ := clean_directive.1 h
        obtain ⟨x, rfl, -⟩ := registered_letter hname
        have hlength : [x].length + fmt.length + 2 = fmt.length + 3 := by
          rw [List.length_singleton]
          omega
        rw [hlength, List.singleton_append, drop_braced] at hclean
        exact .braced hname hfmt (ih _ (by simp; omega) hclean rfl)
      · exact absurd h.1 (by rw [initLoop_unclosed hhead hunclosed]; exact Bool.noConfusion)
    · rw [initLoop_text hc] at h
      exact .text hc (ih _ (by simp) h rfl)

theorem error_eq_false_iff (p : Bytes) : (LogFormatter.new p).error = false ↔ Shifted p := by
  rw [error_eq_false]
  exact ⟨shifted_of_clean, fun h => clean_of_shifted h []⟩

/-! ## The grammar of the comment -/

inductive Seg where
  | text (s : Bytes)
  | escape
  | directive (x : UInt8) (fmt : Option Bytes)
deriving DecidableEq

def Seg.render : Seg → Bytes
  | text s => s
  | escape => [percent, percent]
  | directive x none => [percent, x]
  | directive x (some fmt) => percent :: x :: lbrace :: (fmt ++ [rbrace])

/-- a pattern that is a row of literal runs, escapes and directives -/
def WellFormed : List Seg → Prop
  | [] => True
  | .text s :: segs => percent ∉ s ∧ WellFormed segs
  | .escape :: segs => WellFormed segs
  | .directive x none :: segs => Registered [x] ∧ Ends (segs.flatMap Seg.render) ∧ WellFormed segs
  | .directive x (some fmt) :: segs => Registered [x] ∧ rbrace ∉ fmt ∧ WellFormed segs

/-- the pieces of a row, with `nstr` in front -/
def expected (nstr : Bytes) : List Seg → List Piece
  | [] => flush nstr
  | .text s :: segs => expected (nstr ++ s) segs
  | .escape :: segs => expected (nstr ++ [percent]) segs
  | .directive x fmt :: segs => flush nstr ++ .directive [x] (fmt.getD []) :: expected [] segs

theorem initLoop_append_text {s : Bytes} (hs : percent ∉ s) (nstr rest : Bytes) :
    initLoop 0 nstr (s ++ rest) = initLoop 0 (nstr ++ s) rest := by
  induction s generalizing nstr with
  | nil => rw [List.nil_append, List.append_nil]
  | cons c s ih =>
    obtain ⟨hc, hs⟩ := not_or.1 (fun h => hs (List.mem_cons.2 h))
    rw [List.cons_append, initLoop_text (Ne.symm hc), ih hs, List.append_assoc, List.singleton_append]

/-- without escapes the loop reads the row as it is -/
theorem initLoop_render {segs : List Seg} (h : WellFormed segs) (hescape : .escape ∉ segs) (nstr : Bytes) :
    initLoop 0 nstr (segs.flatMap Seg.render) = (expected nstr segs, false) := by
  induction segs generalizing nstr with
  | nil => rfl
  | cons seg segs ih =>
    obtain ⟨hseg, hrest⟩ := not_or.1 (fun h => hescape (List.mem_cons.2 h))
    rw [List.flatMap_cons]
    match seg, h with
    | .text s, h =>
      rw [Seg.render, initLoop_append_text h.1, ih h.2 hrest]
      rfl
    | .escape, _ => exact absurd rfl hseg
    | .directive x none, h =>
      have hstep := initLoop_bare h.1 h.2.1 nstr
      rw [ih h.2.2 hrest] at hstep
      exact hstep
    | .directive x (some fmt), h =>
      have hstep := initLoop_braced h.1 h.2.1 nstr (segs.flatMap Seg.render)
      have hpattern : (Seg.directive x (some fmt)).render ++ segs.flatMap Seg.render =
          percent :: x :: lbrace :: (fmt ++ rbrace :: segs.flatMap Seg.render) := by simp [Seg.render]
      rw [ih h.2.2 hrest] at hstep
      rw [hpattern, hstep]
      rfl

/-! ## An escape goes wrong -/

/-- how many '%' a text begins with -/
def percents (w : Bytes) : ℕ := (w.takeWhile (· = percent)).length

theorem percents_cons (w : Bytes) : percents (percent :: w) = percents w + 1 := by
  rw [percents, List.takeWhile_cons_of_pos (by simp)]
  rfl

theorem percents_of_ne {c : UInt8} (hc : c ≠ percent) (w : Bytes) : percents (c :: w) = 0 := by
  rw [percents, List.takeWhile_cons_of_neg (by simpa using hc)]
  rfl

theorem replicate_succ_percent (m : Bytes) (n : ℕ) :
    m ++ [percent] ++ List.replicate n percent = m ++ List.replicate (n + 1) percent := by
  rw [List.append_assoc, List.replicate_succ]
  rfl

/-- the last '%' of a run starts a directive, and the others are text -/
theorem initLoop_run {m w : Bytes} (h : Clean (initLoop 0 m (percent :: w))) : ∃ tail,
    (initLoop 0 m (percent :: w)).1 = flush (m ++ List.replicate (percents w) percent) ++ tail := by
  induction w generalizing m with
  | nil => exact absurd (h.2 (.directive [] []) (by simp [initLoop, scan, scanLoop])) (by decide)
  | cons c w ih =>
    by_cases hc : c = percent
    · subst hc
      rw [initLoop_escape] at h ⊢
      rw [percents_cons, ← replicate_succ_percent]
      exact ih h
    · have hhead : (c :: w).head? ≠ some percent := fun h => hc (Option.some.inj h)
      rw [percents_of_ne hc, List.replicate_zero, List.append_nil]
      rcases scan_cases (c :: w) with ⟨name, rest, hs, -, -, hscan⟩ | ⟨name, fmt, rest, hs, -, -, hscan⟩ | hunclosed
      · rw [initLoop_directive hhead hscan (by rw [hs]; simp)]
        exact ⟨_, rfl⟩
      · rw [initLoop_directive hhead hscan (by rw [hs]; simp; omega)]
        exact ⟨_, rfl⟩
      · exact absurd h.1 (by rw [initLoop_unclosed hhead hunclosed]; exact Bool.noConfusion)

/-- the text in front of the first directive -/
def lead : List Seg → Bytes
  | [] => []
  | .text s :: segs => s ++ lead segs
  | .escape :: segs => percent :: lead segs
  | .directive _ _ :: _ => []

theorem expected_eq_lead {nstr : Bytes} (hne : nstr ≠ []) (segs : List Seg) :
    ∃ tail, expected nstr segs = .literal (nstr ++ lead segs) :: tail := by
  induction segs generalizing nstr with
  | nil => exact ⟨[], by rw [expected, flush, if_neg hne, lead, List.append_nil]⟩
  | cons seg segs ih =>
    cases seg with
    | text s =>
      obtain ⟨tail, htail⟩ := ih (List.append_ne_nil_of_left_ne_nil hne s)
      exact ⟨tail, by rw [expected, htail, lead, List.append_assoc]⟩
    | escape =>
      obtain ⟨tail, htail⟩ := ih (List.append_ne_nil_of_left_ne_nil hne [percent])
      exact ⟨tail, by rw [expected, htail, lead, List.append_assoc]; rfl⟩
    | directive x fmt => exact ⟨_, by rw [expected, flush, if_neg hne, lead, List.append_nil]; rfl⟩

/-- the text of a row is not the run of '%' that it begins with, unless there is nothing -/
theorem render_eq_nil_of_lead {segs : List Seg} (h : WellFormed segs) {k : ℕ}
    (hlead : lead segs = List.replicate (percents (segs.flatMap Seg.render) + k) percent) :
    k = 0 ∧ segs.flatMap Seg.render = [] := by
  induction segs generalizing k with
  | nil =>
    have hlength := congrArg List.length hlead
    rw [List.length_replicate] at hlength
    exact ⟨(Nat.add_eq_zero_iff.1 hlength.symm).2, rfl⟩
  | cons seg segs ih =>
    rw [List.flatMap_cons] at hlead ⊢
    have hdirective : ∀ {x : UInt8} {w : Bytes}, Registered [x] →
        ¬ [] = List.replicate (percents (percent :: x :: w) + k) percent := by
      intro x w hx hnil
      have hlength := congrArg List.length hnil
      rw [List.length_replicate, percents_cons, List.length_nil] at hlength
      omega
    match seg, h with
    | .text [], h => exact ih h.2 hlead
    | .text (c :: s), h =>
      have hc : c ∈ List.replicate (percents ((Seg.text (c :: s)).render ++ segs.flatMap Seg.render) + k) percent := by
        rw [← hlead]
        exact List.mem_cons_self
      exact absurd (List.mem_cons.2 (Or.inl (List.eq_of_mem_replicate hc).symm)) h.1
    | .escape, h =>
      have hrun : percents (Seg.escape.render ++ segs.flatMap Seg.render) + k =
          percents (segs.flatMap Seg.render) + (k + 1) + 1 := by
        rw [Seg.render, List.cons_append, percents_cons, List.cons_append, percents_cons, List.nil_append]
        omega
      rw [hrun, List.replicate_succ] at hlead
      exact absurd (ih h (List.cons.inj hlead).2).1 (Nat.succ_ne_zero k)
    | .directive x none, h => exact absurd hlead (hdirective h.1)
    | .directive x (some fmt), h => exact absurd hlead (hdirective h.1)

/-- what a row should give -/
structure Reads (p : Bytes) (segs : List Seg) : Prop where
  error : (LogFormatter.new p).error = false
  items : (LogFormatter.new p).items = (expected [] segs).map fun x => x.item.1

theorem item_expected {segs : List Seg} (h : WellFormed segs) (nstr : Bytes) :
    ∀ x ∈ expected nstr segs, x.item.2 = false := by
  induction segs generalizing nstr with
  | nil => exact clean_flush nstr
  | cons seg segs ih =>
    match seg, h with
    | .text s, h => exact ih h.2 _
    | .escape, h => exact ih h _
    | .directive x none, h =>
      exact List.forall_mem_append.2 ⟨clean_flush nstr, List.forall_mem_cons.2 ⟨item_directive.2 h.1, ih h.2.2 []⟩⟩
    | .directive x (some fmt), h =>
      exact List.forall_mem_append.2 ⟨clean_flush nstr, List.forall_mem_cons.2 ⟨item_directive.2 h.1, ih h.2.2 []⟩⟩

/-- at an escape the text in front of the next directive comes out wrong -/
theorem items_ne_of_escape {segs : List Seg} (h : WellFormed segs) (hescape : .escape ∈ segs) {nstr : Bytes}
    (hclean : Clean (initLoop 0 nstr (segs.flatMap Seg.render))) :
    (initLoop 0 nstr (segs.flatMap Seg.render)).1.map (fun x => x.item.1) ≠
      (expected nstr segs).map fun x => x.item.1 := by
  induction segs generalizing nstr with
  | nil => cases hescape
  | cons seg segs ih =>
    rw [List.flatMap_cons] at hclean ⊢
    match seg, h with
    | .text s, h =>
      rw [Seg.render, initLoop_append_text h.1] at hclean ⊢
      exact ih h.2 ((List.mem_cons.1 hescape).resolve_left Seg.noConfusion) hclean
    | .escape, h =>
      have hpattern : Seg.escape.render ++ segs.flatMap Seg.render = percent :: percent :: segs.flatMap Seg.render := rfl
      rw [hpattern, initLoop_escape] at hclean ⊢
      obtain ⟨tail, hrun⟩ := initLoop_run hclean
      have hne : nstr ++ [percent] ≠ [] := List.append_ne_nil_of_right_ne_nil nstr (List.cons_ne_nil _ _)
      obtain ⟨tail', hexpected⟩ := expected_eq_lead hne segs
      rw [hrun, expected, hexpected, flush, if_neg (List.append_ne_nil_of_left_ne_nil hne _)]
      intro hsame
      have htext := FormatItem.String.inj (List.cons.inj hsame).1
      have hlead := List.append_cancel_left htext
      obtain ⟨-, hend⟩ := @render_eq_nil_of_lead segs h 0 hlead.symm
      -- nothing stands behind the escape, so its second '%' is a directive without a name
      rw [hend] at hclean
      exact absurd (hclean.2 (.directive [] []) (by simp [initLoop, scan, scanLoop])) (by decide)
    | .directive x none, h =>
      have hpattern : (Seg.directive x none).render ++ segs.flatMap Seg.render =
          percent :: x :: segs.flatMap Seg.render := rfl
      rw [hpattern, initLoop_bare h.1 h.2.1] at hclean ⊢
      intro hsame
      rw [expected, List.map_append, List.map_append] at hsame
      have htail := (List.cons.inj (List.append_cancel_left hsame)).2
      exact ih h.2.2 ((List.mem_cons.1 hescape).resolve_left Seg.noConfusion) (clean_directive.1 hclean).2 htail
    | .directive x (some fmt), h =>
      have hpattern : (Seg.directive x (some fmt)).render ++ segs.flatMap Seg.render =
          percent :: x :: lbrace :: (fmt ++ rbrace :: segs.flatMap Seg.render) := by simp [Seg.render]
      rw [hpattern, initLoop_braced h.1 h.2.1] at hclean ⊢
      intro hsame
      rw [expected, List.map_append, List.map_append] at hsame
      have htail := (List.cons.inj (List.append_cancel_left hsame)).2
      exact ih h.2.2 ((List.mem_cons.1 hescape).resolve_left Seg.noConfusion) (clean_directive.1 hclean).2 htail

/-- a pattern of the grammar is read as the grammar says exactly when it has no escape -/
theorem expected_iff {segs : List Seg} (h : WellFormed segs) : Reads (segs.flatMap Seg.render) segs ↔ .escape ∉ segs := by
  refine ⟨fun hreads hescape => ?_, fun hescape => ?_⟩
  · have hclean := (error_eq_false _).1 hreads.error
    exact items_ne_of_escape h hescape hclean hreads.items
  · have hloop := initLoop_render h hescape []
    refine ⟨(error_eq_false _).2 ?_, ?_⟩
    · rw [hloop]
      exact ⟨rfl, item_expected h []⟩
    · rw [LogFormatter.new, hloop]

/-! ## When init does what the grammar says -/

/-- read from the left, the pattern comes to a name that is not registered or to a brace that is not closed -/
inductive Faulty : Bytes → Prop where
  | text {c : UInt8} {s : Bytes} : c ≠ percent → Faulty s → Faulty (c :: s)
  | escape {s : Bytes} : Faulty s → Faulty (percent :: percent :: s)
  | bare {x : UInt8} {s : Bytes} : Registered [x] → (∀ c ∈ s.head?, isalpha c = false ∧ c ≠ lbrace) → Faulty s →
    Faulty (percent :: x :: s)
  | braced {x : UInt8} {fmt s : Bytes} : Registered [x] → rbrace ∉ fmt → Faulty s →
    Faulty (percent :: x :: lbrace :: (fmt ++ rbrace :: s))
  | unregistered {name s : Bytes} : (∀ c ∈ name, isalpha c = true) → (∀ c ∈ s.head?, isalpha c = false) →
    (name = [] → s.head? ≠ some percent) → ¬ Registered name → Faulty (percent :: (name ++ s))
  | unclosed {name s : Bytes} : (∀ c ∈ name, isalpha c = true) → rbrace ∉ s → Faulty (percent :: (name ++ lbrace :: s))

/-- the items of a pattern of the grammar, and an error for a name or a brace that is wrong -/
structure Correct (p : Bytes) : Prop where
  reads : ∀ segs, WellFormed segs → segs.flatMap Seg.render = p → Reads p segs
  error : Faulty p → (LogFormatter.new p).error = true

/-- **init follows its grammar on a pattern exactly when no reading of it has an escape and, if it is faulty, the
reading with halved escapes is faulty as well.** -/
theorem init_iff (p : Bytes) : Correct p ↔
    (∀ segs, WellFormed segs → segs.flatMap Seg.render = p → .escape ∉ segs) ∧ (Faulty p → ¬ Shifted p) := by
  have herror : (Faulty p → (LogFormatter.new p).error = true) ↔ (Faulty p → ¬ Shifted p) := by
    rw [← error_eq_false_iff, Bool.not_eq_false]
  constructor
  · intro h
    refine ⟨?_, herror.1 h.error⟩
    rintro segs hvalid rfl
    exact (expected_iff hvalid).1 (h.reads segs hvalid rfl)
  · rintro ⟨hescape, hfaulty⟩
    refine ⟨?_, herror.2 hfaulty⟩
    rintro segs hvalid rfl
    exact (expected_iff hvalid).2 (hescape segs hvalid rfl)

/-! ## Patterns without "%%" -/

/-- the first name is not registered, or its brace is not closed -/
theorem not_clean_of_name {s nstr : Bytes} (hhead : s.head? ≠ some percent)
    (h : ∀ x rest, s = x :: rest → Registered [x] →
      (∃ c ∈ rest.head?, nameChar c = true) ∨ (rest.head? = some lbrace ∧ rbrace ∉ rest)) :
    ¬ Clean (initLoop 0 nstr (percent :: s)) := by
  intro hclean
  rcases scan_cases s with ⟨name, rest, rfl, -, hrest, hscan⟩ | ⟨name, fmt, rest, rfl, -, hfmt, hscan⟩ | hunclosed
  · rw [initLoop_directive hhead hscan (by simp)] at hclean
    obtain ⟨hname, -⟩ := clean_directive.1 hclean
    obtain ⟨x, rfl, -⟩ := registered_letter hname
    rcases h x rest rfl hname with ⟨c, hc, hchar⟩ | ⟨hbrace, -⟩
    · exact absurd hchar (by rw [(hrest c hc).1]; exact Bool.false_ne_true)
    · exact (hrest lbrace hbrace).2 rfl
  · rw [initLoop_directive hhead hscan (by simp; omega)] at hclean
    obtain ⟨hname, -⟩ := clean_directive.1 hclean
    obtain ⟨x, rfl, -⟩ := registered_letter hname
    rcases h x _ rfl hname with ⟨c, hc, hchar⟩ | ⟨-, hbrace⟩
    · rw [← Option.some.inj hc] at hchar
      exact absurd hchar (by decide)
    · exact hbrace (by simp)
  · exact absurd hclean.1 (by rw [initLoop_unclosed hhead hunclosed]; exact Bool.noConfusion)

theorem not_clean_of_faulty {p : Bytes} (h : Faulty p) (hdouble : ¬ [percent, percent] <:+: p) (nstr : Bytes) :
    ¬ Clean (initLoop 0 nstr p) := by
  have htail : ∀ {a s : Bytes}, ¬ [percent, percent] <:+: a ++ s → ¬ [percent, percent] <:+: s :=
    fun h hs => h (hs.trans (List.suffix_append _ _).isInfix)
  induction h generalizing nstr with
  | @text c s hc _ ih =>
    rw [initLoop_text hc]
    exact ih (@htail [c] s hdouble) _
  | @escape s _ _ => exact absurd ⟨[], s, rfl⟩ hdouble
  | @bare x s hx hs _ ih =>
    by_cases hbrace : s.head? = some rbrace
    · refine not_clean_of_name (fun h => ne_percent_of_registered hx (Option.some.inj h)) ?_
      rintro y rest hy -
      rw [← (List.cons.inj hy).2]
      exact .inl ⟨rbrace, hbrace, by decide⟩
    · have hends : Ends s := by
        refine fun c hc => ⟨(hs c hc).1, (hs c hc).2, ?_⟩
        rintro rfl
        exact hbrace hc
      rw [initLoop_bare hx hends, clean_directive]
      exact fun h => ih (@htail [percent, x] s hdouble) [] h.2
  | @braced x fmt s hx hfmt _ ih =>
    have hsplit : percent :: x :: lbrace :: (fmt ++ rbrace :: s) = (percent :: x :: lbrace :: fmt ++ [rbrace]) ++ s := by
      simp
    rw [hsplit] at hdouble
    rw [initLoop_braced hx hfmt, clean_directive]
    exact fun h => ih (htail hdouble) [] h.2
  | @unregistered name s hname hs hempty hunknown =>
    refine not_clean_of_name ?_ fun x rest hx hregistered => ?_
    · cases name with
      | nil => exact hempty rfl
      | cons c name =>
        intro h
        have hc := hname c List.mem_cons_self
        rw [List.cons_append, List.head?_cons, Option.some_inj] at h
        rw [h] at hc
        exact absurd hc (by decide)
    · obtain ⟨y, hy, halpha⟩ := registered_letter hregistered
      match name, hx with
      | [], hx =>
        rw [List.nil_append] at hx
        have hstop := hs x (by rw [hx]; rfl)
        rw [(List.cons.inj hy).1, halpha] at hstop
        cases hstop
      | [c], hx =>
        rw [(List.cons.inj hx).1] at hunknown
        exact absurd hregistered hunknown
      | c :: d :: name, hx =>
        rw [← (List.cons.inj hx).2]
        refine .inl ⟨d, rfl, ?_⟩
        rw [nameChar, hname d (by simp), Bool.true_or]
  | @unclosed name s hname hs =>
    have hchars : ∀ c ∈ name, nameChar c = true := fun c hc => by rw [nameChar, hname c hc, Bool.true_or]
    have hhead : (name ++ lbrace :: s).head? ≠ some percent := by
      cases name with
      | nil => exact fun h => absurd (Option.some.inj h) (by decide)
      | cons c name =>
        intro h
        have hc := hname c List.mem_cons_self
        rw [List.cons_append, List.head?_cons, Option.some_inj] at h
        rw [h] at hc
        exact absurd hc (by decide)
    exact fun h => absurd h.1 (by rw [initLoop_unclosed hhead (scan_unclosed hchars hs)]; exact Bool.noConfusion)

/-- without two '%' in a row init does what the grammar says -/
theorem correct_of_no_double {p : Bytes} (h : ¬ [percent, percent] <:+: p) : Correct p where
  reads := by
    rintro segs hvalid rfl
    refine (expected_iff hvalid).2 fun hescape => h ?_
    obtain ⟨front, back, rfl⟩ := List.append_of_mem hescape
    exact ⟨front.flatMap Seg.render, back.flatMap Seg.render, by simp [Seg.render]⟩
  error := by
    intro hfaulty
    have hnot := not_clean_of_faulty hfaulty h []
    rw [← error_eq_false] at hnot
    exact Bool.eq_true_of_not_eq_false hnot

/-- **A pattern %% is an error, and in %%d{ %q } the name that is not registered is none.** -/
theorem percent_percent_error :
    (LogFormatter.new (bytes "%%")).error = true ∧ ¬ Correct (bytes "%%") ∧
      (LogFormatter.new (bytes "%%d\x7b %q \x7d")).error = false ∧ ¬ Correct (bytes "%%d\x7b %q \x7d") := by
  refine ⟨by decide, fun h => ?_, by decide, fun h => ?_⟩
  · have hreads := h.reads [.escape] trivial rfl
    exact absurd hreads.error (by decide)
  · have hfaulty : Faulty (bytes "%%d\x7b %q \x7d") := by
      refine .escape (.text (by decide) (.text (by decide) (.text (by decide) ?_)))
      have hletter : ∀ c ∈ bytes "q", isalpha c = true := forall_mem_of_all (by decide)
      have hbehind : ∀ c ∈ (bytes " \x7d").head?, isalpha c = false := by
        intro c hc
        rw [← Option.some.inj hc]
        decide
      have hname : ¬ (s_format_items (bytes "q")).isSome = true := by decide
      exact @Faulty.unregistered (bytes "q") (bytes " \x7d") hletter hbehind (by decide) hname
    exact absurd (h.error hfaulty) (by decide)

end Sylar.Log

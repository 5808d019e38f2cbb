/-
What the response scanner makes of a whole head: a status line, header lines and an empty line in one buffer.

A header line is a name of token bytes, ':', a text without CR and LF, and CR LF or LF. Its value is the text without the
blanks in front. Three names have their values looked at as well: `Connection: close`, `Transfer-Encoding: chunked`, and a
`Content-Length` of nothing but digits. Where one of them has no value at all, the scanner waits for it on the next line
too, and an empty line there ends the head in a state of its own.

Results:
- `reads_line`: one header line, with the callback and the registers behind it;
- `head_exact`: a whole head, and whether `isFinished` sees its end.
-/
import Sylar.Http.Message
import Sylar.Http.ResponseRows

namespace Sylar.Http

open Sylar.Text Sylar.Transducer
open Sylar.MachineInt (toSigned)

section

variable (memory : Bytes) (len : ℕ)

/-! ## The parts of a line -/

/-- `Connection: close` takes effect with the byte behind its line -/
def pending (cs : ℤ) (s : Scan) : Scan := if cs = 43 then { s with parser.close := 1 } else s

/-- a field that starts at `p` -/
def started (cs : ℤ) (p m : ℕ) (s : Scan) : Scan :=
  { pending cs s with parser.field_start := p, parser.mark := m }

/-- the machine of the generated table -/
abbrev scanner (memory : Bytes) (len : ℕ) : Machine ℤ UInt8 ParserAction Scan :=
  responseMachine httpclientTable memory len

theorem reads_byte {cs next : ℤ} {c : UInt8} {actions : List ParserAction} (h : httpclientTable cs c = some (next, actions))
    (hgo : .done ∉ actions) (p : ℕ) (s : Scan) :
    (scanner memory len).Reads ⟨cs, p, s⟩ [c] ⟨next, p + 1, actions.foldl (act memory len p) s⟩ := by
  refine reads_one h (fun a ha => decide_eq_false fun hdone => hgo ?_) p s
  rwa [← show a = .done from hdone]

theorem reads_nameFirst {cs : ℤ} (hcs : cs ∈ lineStarts) {c : UInt8} (hc : isToken c = true) (p : ℕ) (s : Scan) :
    ∃ next m, (scanner memory len).Reads ⟨cs, p, s⟩ [c] ⟨next, p + 1, started cs p m s⟩ ∧ Spelled next [c] := by
  obtain ⟨next, actions, htable, hspelled, hactions⟩ := table_lineStart hcs hc
  by_cases hclose : cs = 43
  · rw [if_pos hclose] at hactions
    subst hactions
    have hread := reads_byte memory len htable (by decide) p s
    refine ⟨next, s.parser.mark, ?_, hspelled⟩
    rw [started, pending, if_pos hclose]
    exact hread
  · rw [if_neg hclose] at hactions
    rcases hactions with rfl | rfl
    · have hread := reads_byte memory len htable (by decide) p s
      refine ⟨next, s.parser.mark, ?_, hspelled⟩
      rw [started, pending, if_neg hclose]
      exact hread
    · have hread := reads_byte memory len htable (by decide) p s
      refine ⟨next, p, ?_, hspelled⟩
      rw [started, pending, if_neg hclose]
      exact hread

theorem reads_name {cs : ℤ} (hcs : cs ∈ lineStarts) {name : Bytes} (hne : name ≠ [])
    (hname : ∀ c ∈ name, isToken c = true) (p : ℕ) (s : Scan) :
    ∃ q m, (scanner memory len).Reads ⟨cs, p, s⟩ name ⟨q, p + name.length, started cs p m s⟩ ∧ Spelled q name := by
  obtain ⟨c, u, rfl⟩ := List.exists_cons_of_ne_nil hne
  obtain ⟨next, m, hfirst, hspelled⟩ := reads_nameFirst memory len hcs
    (hname c List.mem_cons_self) p s
  obtain ⟨q, hrest, hq⟩ := reads_quiet (M := scanner memory len) (fun _ _ _ => table_name)
    (fun c hc => hname c (List.mem_cons_of_mem _ hc)) hspelled (p + 1) (started cs p m s)
  have hlength : p + (c :: u).length = p + 1 + u.length := by rw [List.length_cons]; omega
  rw [hlength]
  exact ⟨q, m, hfirst.append hrest, hq⟩

theorem reads_blanks {vs : ℤ} (hvs : vs ∈ valueStarts) {blanks : Bytes} (hblanks : ∀ c ∈ blanks, isBlank c = true)
    (p : ℕ) (s : Scan) :
    ∃ m, (scanner memory len).Reads ⟨vs, p, s⟩ blanks ⟨vs, p + blanks.length, { s with parser.mark := m }⟩ := by
  induction blanks generalizing p s with
  | nil => exact ⟨s.parser.mark, .nil _⟩
  | cons c blanks ih =>
    have hone := reads_byte memory len (table_blank hvs (hblanks c List.mem_cons_self)) (by decide) p s
    obtain ⟨m, hrest⟩ := ih (fun b hb => hblanks b (List.mem_cons_of_mem c hb)) (p + 1) { s with parser.mark := p }
    have hlength : p + (c :: blanks).length = p + 1 + blanks.length := by rw [List.length_cons]; omega
    rw [hlength]
    exact ⟨m, hone.append hrest⟩

/-- the bytes of a value; the first one sets the mark -/
theorem reads_value {vs : ℤ} (hvs : vs ∈ valueStarts) {c : UInt8} {v : Bytes} (hblank : isBlank c = false)
    (hv : ∀ b ∈ c :: v, is '\r' b = false ∧ is '\n' b = false) (p : ℕ) (s : Scan) :
    (scanner memory len).Reads ⟨vs, p, s⟩ (c :: v)
      ⟨valueState vs (c :: v), p + (c :: v).length, { s with parser.mark := p }⟩ := by
  obtain ⟨hcr, hlf⟩ := hv c List.mem_cons_self
  have hone := reads_byte memory len (table_first hvs hcr hlf hblank) (by decide) p s
  obtain ⟨next, hrest, -, hnext⟩ := reads_quiet (M := scanner memory len)
    (I := fun q u => u ≠ [] ∧ q = valueState vs u)
    (fun q u b hI hb => ⟨valueState vs (u ++ [b]), by rw [hI.2]; exact table_value hI.1 hb.1 hb.2, by simp, rfl⟩)
    (fun b hb => hv b (List.mem_cons_of_mem c hb)) ⟨List.cons_ne_nil c [], rfl⟩ (p + 1) { s with parser.mark := p }
  have hlength : p + (c :: v).length = p + 1 + v.length := by rw [List.length_cons]; omega
  subst hnext
  rw [hlength]
  exact hone.append hrest

/-- CR LF or LF -/
def IsEol (e : Bytes) : Prop := e = crlf ∨ e = ['\n'.toUInt8]

instance (e : Bytes) : Decidable (IsEol e) := inferInstanceAs (Decidable (_ ∨ _))

/-- the registers behind a line whose value `v` begins at `p` -/
def ended (memory : Bytes) (vs : ℤ) (p : ℕ) (v : Bytes) (s : Scan) : Scan where
  parser := { s.parser with
    mark := p
    content_len := if vs = 112 ∧ v ≠ [] ∧ v.all isDigit then toSigned 32 (strtol 10 (memory.drop p))
      else s.parser.content_len
    chunked := if vs = 61 ∧ lower v = bytes "chunked" then 1 else s.parser.chunked }
  calls := s.calls ++ [.http_field s.parser.field_start s.parser.field_len p (LEN p (p + v.length))]

theorem foldl_lastActions {vs : ℤ} {p : ℕ} {v : Bytes} {s : Scan} (hmark : v ≠ [] → s.parser.mark = p) :
    (lastActions vs v ++ trailingActions vs v).foldl (act memory len (p + v.length)) s = ended memory vs p v s := by
  have htrailing : ∀ t : Scan, (trailingActions vs v).foldl (act memory len (p + v.length)) t =
      { t with parser.chunked := if vs = 61 ∧ lower v = bytes "chunked" then 1 else t.parser.chunked } := by
    intro t
    rw [trailingActions]
    split_ifs <;> rfl
  rw [List.foldl_append, htrailing, lastActions]
  by_cases hne : v = []
  · subst hne
    simp [ended, act, Scan.call]
  · have hp := hmark hne
    rw [if_neg hne]
    by_cases hlength : vs = 112 ∧ v.all isDigit = true
    · rw [if_pos hlength]
      simp [ended, act, Scan.call, hlength, hne, hp]
    · rw [if_neg hlength]
      have hno : ¬ (vs = 112 ∧ v ≠ [] ∧ v.all isDigit = true) := fun h => hlength ⟨h.1, h.2.2⟩
      rw [ended, if_neg hno]
      simp [act, Scan.call, hp]

theorem reads_eol {vs : ℤ} (hvs : vs ∈ valueStarts) {v eol : Bytes} (heol : IsEol eol) {p : ℕ} {s : Scan}
    (hmark : v ≠ [] → s.parser.mark = p) :
    (scanner memory len).Reads ⟨valueState vs v, p + v.length, s⟩ eol
      ⟨afterLine vs v, p + v.length + eol.length, ended memory vs p v s⟩ := by
  have hends := endsLine_value hvs v
  have hgoLast : ParserAction.done ∉ lastActions vs v := by
    rw [lastActions]
    split_ifs <;> decide
  have hgoTrailing : ParserAction.done ∉ trailingActions vs v := by
    rw [trailingActions]
    split_ifs <;> decide
  rw [← foldl_lastActions memory len hmark, List.foldl_append]
  rcases heol with rfl | rfl
  · obtain ⟨between, hcr, hlf⟩ := hends.cr
    have hfirst := reads_byte memory len hcr hgoLast (p + v.length) s
    have hsecond := reads_byte memory len hlf hgoTrailing (p + v.length + 1)
      ((lastActions vs v).foldl (act memory len (p + v.length)) s)
    -- the offset does not matter to what is done last
    have hoffset : ∀ t : Scan, (trailingActions vs v).foldl (act memory len (p + v.length + 1)) t =
        (trailingActions vs v).foldl (act memory len (p + v.length)) t := by
      intro t
      rw [trailingActions]
      split_ifs <;> rfl
    rw [hoffset] at hsecond
    exact hfirst.append hsecond
  · have hone := reads_byte memory len hends.lf
      (fun h => (List.mem_append.1 h).elim hgoLast hgoTrailing) (p + v.length) s
    rw [List.foldl_append] at hone
    exact hone

/-! ## A line -/

structure HeadLine where
  name : Bytes
  /-- what stands between the ':' and the line end -/
  text : Bytes
  eol : Bytes

def HeadLine.blanks (l : HeadLine) : Bytes := l.text.takeWhile isBlank

def HeadLine.value (l : HeadLine) : Bytes := l.text.dropWhile isBlank

def HeadLine.render (l : HeadLine) : Bytes := l.name ++ ':'.toUInt8 :: l.text ++ l.eol

structure HeadLine.Ok (l : HeadLine) : Prop where
  name_ne : l.name ≠ []
  name : ∀ c ∈ l.name, isToken c = true
  text : ∀ c ∈ l.text, is '\r' c = false ∧ is '\n' c = false
  eol : IsEol l.eol

/-- `Connection: close` -/
def HeadLine.isClose (l : HeadLine) : Prop := lower l.name = bytes "connection" ∧ lower l.value = bytes "close"

/-- `Transfer-Encoding: chunked` -/
def HeadLine.isChunked (l : HeadLine) : Prop :=
  lower l.name = bytes "transfer-encoding" ∧ lower l.value = bytes "chunked"

/-- `Content-Length` with a number -/
def HeadLine.isLength (l : HeadLine) : Prop :=
  lower l.name = bytes "content-length" ∧ l.value ≠ [] ∧ l.value.all isDigit

instance (l : HeadLine) : Decidable l.isClose := inferInstanceAs (Decidable (_ ∧ _))

instance (l : HeadLine) : Decidable l.isChunked := inferInstanceAs (Decidable (_ ∧ _))

instance (l : HeadLine) : Decidable l.isLength := inferInstanceAs (Decidable (_ ∧ _))

/-- where the value of a line begins that starts at `p` -/
def HeadLine.valueAt (l : HeadLine) (p : ℕ) : ℕ := p + l.name.length + 1 + l.blanks.length

/-- the registers behind a line that starts at `p` -/
def HeadLine.effect (l : HeadLine) (p : ℕ) (s : Scan) : Scan where
  parser := { s.parser with
    field_start := p
    field_len := l.name.length
    mark := l.valueAt p
    content_len := if l.isLength then toSigned 32 (strtol 10 l.value) else s.parser.content_len
    chunked := if l.isChunked then 1 else s.parser.chunked }
  calls := s.calls ++ [.http_field p l.name.length (l.valueAt p) l.value.length]

def HeadLine.next (l : HeadLine) : ℤ := afterLine (valueStart (lower l.name)) l.value

theorem HeadLine.length_render (l : HeadLine) (p : ℕ) :
    p + l.render.length = l.valueAt p + l.value.length + l.eol.length := by
  have htext : l.text.length = l.blanks.length + l.value.length := by
    rw [← List.length_append, blanks, value, List.takeWhile_append_dropWhile]
  rw [render, List.length_append, List.length_append, List.length_cons, valueAt]
  omega

theorem strtol_digits {v rest : Bytes} (hne : v ≠ []) (hv : v.all isDigit = true)
    (hrest : ∀ c ∈ rest.head?, isDigit c = false) : strtol 10 (v ++ rest) = strtol 10 v := by
  have hdigit : ∀ c : UInt8, (isDigit c = true ↔ digitValue c < 10) ∧ (isDigit c = true →
      isspace c = false ∧ c ≠ '-'.toUInt8 ∧ c ≠ '+'.toUInt8) := by
    apply forall_byte
    decide +kernel
  have hread : ∀ (w : Bytes) (acc : ℕ), w.all isDigit = true → readDigits 10 acc (w ++ rest) = readDigits 10 acc w := by
    intro w
    induction w with
    | nil =>
      intro acc _
      cases rest with
      | nil => rfl
      | cons c rest =>
        have hc : ¬ digitValue c < 10 := fun h => by
          have hfalse := hrest c rfl
          rw [((hdigit c).1).2 h] at hfalse
          cases hfalse
        rw [List.nil_append, readDigits, readDigits, if_neg hc]
    | cons c w ih =>
      intro acc hw
      rw [List.all_cons, Bool.and_eq_true] at hw
      rw [List.cons_append, readDigits, readDigits, if_pos (((hdigit c).1).1 hw.1), if_pos (((hdigit c).1).1 hw.1),
        ih _ hw.2]
  obtain ⟨c, w, rfl⟩ := List.exists_cons_of_ne_nil hne
  have hc : isDigit c = true := (Bool.and_eq_true_iff.1 (List.all_cons ▸ hv)).1
  obtain ⟨hspace, hminus, hplus⟩ := (hdigit c).2 hc
  have hdrop : ∀ t : Bytes, (c :: t).dropWhile isspace = c :: t := fun t => by rw [List.dropWhile_cons, hspace]; rfl
  have hsame := hread (c :: w) 0 hv
  rw [List.cons_append] at hsame ⊢
  simp only [strtol, hdrop, List.head?_cons, Option.some.injEq, hminus, hplus, or_false, if_false]
  simp [hsame]

theorem valueStart_iff (name : Bytes) :
    (valueStart name = 35 ↔ name = bytes "connection") ∧ (valueStart name = 61 ↔ name = bytes "transfer-encoding") ∧
      (valueStart name = 112 ↔ name = bytes "content-length") := by
  have hdistinct : bytes "transfer-encoding" ≠ bytes "connection" ∧ bytes "content-length" ≠ bytes "connection" ∧
      bytes "content-length" ≠ bytes "transfer-encoding" := by decide
  rw [valueStart]
  split_ifs with hconnection htransfer hcontent
  · subst hconnection
    exact ⟨by simp, by simp [hdistinct.1.symm], by simp [hdistinct.2.1.symm]⟩
  · subst htransfer
    exact ⟨by simp [hconnection], by simp, by simp [hdistinct.2.2.symm]⟩
  · subst hcontent
    exact ⟨by simp [hconnection], by simp [htransfer], by simp⟩
  · exact ⟨by simp [hconnection], by simp [htransfer], by simp [hcontent]⟩

/-- what `ended` says of the value is what the line is -/
theorem ended_eq {l : HeadLine} (hl : l.Ok) {p m : ℕ} {s : Scan} {rest : Bytes}
    (hmemory : memory.drop (l.valueAt p) = l.value ++ (l.eol ++ rest)) (hsize : p + l.render.length < 2 ^ 64) :
    ended memory (valueStart (lower l.name)) (l.valueAt p) l.value
      { s with parser.field_start := p, parser.field_len := l.name.length, parser.mark := m } = l.effect p s := by
  obtain ⟨-, hchunked, hlength⟩ := valueStart_iff (lower l.name)
  have hlen : LEN (l.valueAt p) (l.valueAt p + l.value.length) = l.value.length := by
    rw [l.length_render] at hsize
    rw [LEN_of_le (Nat.le_add_right _ _) (by omega)]
    omega
  have hflag : (if valueStart (lower l.name) = 61 ∧ lower l.value = bytes "chunked" then 1 else s.parser.chunked) =
      if l.isChunked then 1 else s.parser.chunked := if_congr (and_congr hchunked Iff.rfl) rfl rfl
  have hnumber : (if valueStart (lower l.name) = 112 ∧ l.value ≠ [] ∧ l.value.all isDigit then
        toSigned 32 (strtol 10 (memory.drop (l.valueAt p))) else s.parser.content_len) =
      if l.isLength then toSigned 32 (strtol 10 l.value) else s.parser.content_len := by
    by_cases hnumber : l.isLength
    · have hrest : ∀ c ∈ (l.eol ++ rest).head?, isDigit c = false := by
        intro c hc
        have hfirst : (l.eol ++ rest).head? = some '\r'.toUInt8 ∨ (l.eol ++ rest).head? = some '\n'.toUInt8 := by
          rcases hl.eol with heol | heol
          · exact Or.inl (by rw [heol]; rfl)
          · exact Or.inr (by rw [heol]; rfl)
        rcases hfirst with h | h
        · obtain rfl := Option.some.inj (h.symm.trans hc)
          decide
        · obtain rfl := Option.some.inj (h.symm.trans hc)
          decide
      rw [if_pos ⟨hlength.2 hnumber.1, hnumber.2⟩, if_pos hnumber, hmemory,
        strtol_digits hnumber.2.1 hnumber.2.2 hrest]
    · rw [if_neg fun h => hnumber ⟨hlength.1 h.1, h.2⟩, if_neg hnumber]
  rw [ended, HeadLine.effect, hlen]
  simp only [hflag, hnumber]

theorem HeadLine.text_eq (l : HeadLine) : l.text = l.blanks ++ l.value := List.takeWhile_append_dropWhile.symm

theorem HeadLine.value_first {l : HeadLine} {c : UInt8} {v : Bytes} (h : l.value = c :: v) : isBlank c = false := by
  have hhead := List.head?_dropWhile_not isBlank l.text
  rw [← HeadLine.value, h] at hhead
  exact hhead

/-- what stands behind the ':' of a line -/
theorem reads_text {vs : ℤ} (hvs : vs ∈ valueStarts) {l : HeadLine} (hl : l.Ok) (p : ℕ) (s : Scan) :
    (scanner memory len).Reads ⟨vs, p, s⟩ (l.text ++ l.eol)
      ⟨afterLine vs l.value, p + l.text.length + l.eol.length, ended memory vs (p + l.blanks.length) l.value s⟩ := by
  obtain ⟨m, hblanks⟩ := reads_blanks memory len hvs
    (fun c hc => List.mem_takeWhile_imp hc : ∀ c ∈ l.blanks, isBlank c = true) p s
  -- with a value, the mark is at its first byte
  have hvalue : ∃ m', (scanner memory len).Reads ⟨vs, p + l.blanks.length, { s with parser.mark := m }⟩ l.value
      ⟨valueState vs l.value, p + l.blanks.length + l.value.length, { s with parser.mark := m' }⟩ ∧
      (l.value ≠ [] → m' = p + l.blanks.length) := by
    cases hv : l.value with
    | nil => exact ⟨m, .nil _, fun h => absurd rfl h⟩
    | cons c v =>
      have hbytes : ∀ b ∈ c :: v, is '\r' b = false ∧ is '\n' b = false := fun b hb =>
        hl.text b ((List.dropWhile_sublist isBlank).subset (by rw [← HeadLine.value, hv]; exact hb))
      exact ⟨p + l.blanks.length, reads_value memory len hvs (HeadLine.value_first hv) hbytes _ _, fun _ => rfl⟩
  obtain ⟨m', hread, hmark⟩ := hvalue
  have heol := reads_eol memory len hvs hl.eol (s := { s with parser.mark := m' }) hmark
  have hlength : p + l.text.length = p + l.blanks.length + l.value.length := by
    rw [l.text_eq, List.length_append]
    omega
  have hall := hblanks.append (hread.append heol)
  rw [← List.append_assoc, ← l.text_eq, ← hlength] at hall
  exact hall

theorem HeadLine.render_eq (l : HeadLine) : l.render = l.name ++ ([':'.toUInt8] ++ (l.text ++ l.eol)) := by
  rw [HeadLine.render]
  simp [List.append_assoc]

/-- what stands in memory from the value of a line on -/
theorem drop_valueAt {l : HeadLine} {p : ℕ} {rest : Bytes} (h : memory.drop p = l.render ++ rest) :
    memory.drop (l.valueAt p) = l.value ++ (l.eol ++ rest) := by
  have hsplit : l.render ++ rest = (l.name ++ [':'.toUInt8] ++ l.blanks) ++ (l.value ++ (l.eol ++ rest)) := by
    rw [l.render_eq, l.text_eq]
    simp only [List.append_assoc]
  have hlength : l.valueAt p = p + (l.name ++ [':'.toUInt8] ++ l.blanks).length := by
    rw [HeadLine.valueAt]
    simp only [List.length_append, List.length_singleton]
    omega
  rw [hlength, ← List.drop_drop, h, hsplit, List.drop_left]

/-- **A header line is read**: the callback sees its name and its value, and the keywords are recognised. -/
theorem reads_line {cs : ℤ} (hcs : cs ∈ lineStarts) {l : HeadLine} (hl : l.Ok) {p : ℕ} {s : Scan} {rest : Bytes}
    (hmemory : memory.drop p = l.render ++ rest) (hsize : p + l.render.length < 2 ^ 64) :
    (scanner memory len).Reads ⟨cs, p, s⟩ l.render ⟨l.next, p + l.render.length, l.effect p (pending cs s)⟩ := by
  obtain ⟨q, m, hname, hspelled⟩ := reads_name memory len hcs hl.name_ne hl.name p s
  have hcolon := reads_byte memory len (table_colon hspelled) (by decide) (p + l.name.length)
    (started cs p m s)
  have hfield : LEN p (p + l.name.length) = l.name.length := by
    rw [l.length_render, HeadLine.valueAt] at hsize
    rw [LEN_of_le (Nat.le_add_right _ _) (by omega)]
    omega
  have hstarted : [ParserAction.write_field].foldl (act memory len (p + l.name.length)) (started cs p m s) =
      { pending cs s with parser.field_start := p, parser.field_len := l.name.length, parser.mark := m } := by
    rw [List.foldl_cons, List.foldl_nil, act, started, hfield]
  have htext := reads_text memory len (valueStart_mem (lower l.name)) hl (p + l.name.length + 1)
    { pending cs s with parser.field_start := p, parser.field_len := l.name.length, parser.mark := m }
  have hend : p + l.render.length = p + l.name.length + 1 + l.text.length + l.eol.length := by
    rw [l.render_eq]
    simp only [List.length_append, List.length_singleton]
    omega
  rw [hstarted] at hcolon
  rw [← HeadLine.valueAt, ended_eq memory hl (drop_valueAt memory hmemory) hsize, ← hend] at htext
  have hall := hname.append (hcolon.append htext)
  rw [← l.render_eq] at hall
  exact hall

/-! ## All lines -/

def linesNext (cs : ℤ) (ls : List HeadLine) : ℤ := ls.foldl (fun _ l => l.next) cs

def renderLines (ls : List HeadLine) : Bytes := ls.flatMap HeadLine.render

/-- the registers behind the lines that start at `p` in the state `cs` -/
def linesEffect : ℤ → ℕ → List HeadLine → Scan → Scan
  | _, _, [], s => s
  | cs, p, l :: ls, s => linesEffect l.next (p + l.render.length) ls (l.effect p (pending cs s))

theorem linesNext_mem {cs : ℤ} (hcs : cs ∈ lineStarts) (ls : List HeadLine) : linesNext cs ls ∈ lineStarts := by
  induction ls generalizing cs with
  | nil => exact hcs
  | cons l ls ih => exact ih (afterLine_mem _ _)

theorem reads_lines {cs : ℤ} (hcs : cs ∈ lineStarts) {ls : List HeadLine} (hls : ∀ l ∈ ls, l.Ok) {p : ℕ} {s : Scan}
    {rest : Bytes} (hmemory : memory.drop p = renderLines ls ++ rest)
    (hsize : p + (renderLines ls).length < 2 ^ 64) :
    (scanner memory len).Reads ⟨cs, p, s⟩ (renderLines ls)
      ⟨linesNext cs ls, p + (renderLines ls).length, linesEffect cs p ls s⟩ := by
  induction ls generalizing cs p s with
  | nil => exact .nil _
  | cons l ls ih =>
    have hrender : renderLines (l :: ls) = l.render ++ renderLines ls := List.flatMap_cons
    rw [hrender, List.append_assoc] at hmemory
    rw [hrender, List.length_append] at hsize
    have hone := reads_line memory len hcs (hls l List.mem_cons_self) (s := s) hmemory (by omega)
    have hdrop : memory.drop (p + l.render.length) = renderLines ls ++ rest := by
      rw [← List.drop_drop, hmemory, List.drop_left]
    have hrest := ih (afterLine_mem (valueStart (lower l.name)) l.value) (fun m hm => hls m (List.mem_cons_of_mem l hm))
      (s := l.effect p (pending cs s)) hdrop (by omega)
    have hall := hone.append hrest
    rw [hrender, List.length_append, ← Nat.add_assoc]
    exact hall

/-- the state at the end of the head, by the one in front of the empty line -/
def finalState (cs : ℤ) : ℤ := if cs = 36 then 122 else if cs = 62 then 121 else if cs = 113 then 123 else 120

/-- the end of the head at `p`, where the body starts -/
def finished (len : ℕ) (cs : ℤ) (p : ℕ) (s : Scan) : Scan :=
  { pending cs s with parser.body_start := p }.call (.header_done p (len - p))

theorem table_end {cs : ℤ} (hcs : cs ∈ lineStarts) :
    ∃ actions, (∀ a ∈ actions, a = .write_connection_close) ∧
      (∀ p s, actions.foldl (act memory len p) s = pending cs s) ∧
      httpclientTable cs '\n'.toUInt8 = some (finalState cs, actions ++ [.done]) ∧
      ∃ between, httpclientTable cs '\r'.toUInt8 = some (between, actions) ∧
        httpclientTable between '\n'.toUInt8 = some (finalState cs, [.done]) := by
  simp only [lineStarts, List.mem_cons, List.not_mem_nil, or_false] at hcs
  rcases hcs with rfl | rfl | rfl | rfl | rfl
  · exact ⟨[], by simp, fun _ _ => rfl, by decide, 3, by decide, by decide⟩
  · exact ⟨[], by simp, fun _ _ => rfl, by decide, 89, by decide, by decide⟩
  · exact ⟨[.write_connection_close], by simp, fun _ _ => rfl, by decide, 3, by decide, by decide⟩
  · exact ⟨[], by simp, fun _ _ => rfl, by decide, 72, by decide, by decide⟩
  · exact ⟨[], by simp, fun _ _ => rfl, by decide, 116, by decide, by decide⟩

theorem apply_done (actions : List ParserAction) (h : ∀ a ∈ actions, a = .write_connection_close) (p : ℕ) (s : Scan) :
    (scanner memory len).apply p (actions ++ [.done]) s =
      (act memory len p (actions.foldl (act memory len p) s) .done, true) := by
  induction actions generalizing s with
  | nil => rfl
  | cons a actions ih =>
    obtain rfl := h a List.mem_cons_self
    exact ih (fun b hb => h b (List.mem_cons_of_mem _ hb)) _

/-- **The empty line ends the run.** -/
theorem run_end {cs : ℤ} (hcs : cs ∈ lineStarts) {eol : Bytes} (heol : IsEol eol) (p : ℕ) (s : Scan) (rest : Bytes) :
    (scanner memory len).run ⟨cs, p, s⟩ (eol ++ rest) =
      ⟨finalState cs, p + eol.length, finished len cs (p + eol.length) s⟩ := by
  obtain ⟨actions, hclose, hpending, hlf, between, hcr, hdone⟩ := table_end memory len hcs
  have hact : ∀ (q : ℕ) (t : Scan), act memory len q (pending cs t) .done = finished len cs (q + 1) t := by
    intro q t
    rw [act, finished, Nat.sub_sub]
  rcases heol with rfl | rfl
  · have hgo : ParserAction.done ∉ actions := fun h => absurd (hclose _ h) (by decide)
    have hfirst := reads_byte memory len hcr hgo p s
    have hsplit : crlf ++ rest = ['\r'.toUInt8] ++ '\n'.toUInt8 :: rest := rfl
    have happly := apply_done memory len [] (by simp) (p + 1) (pending cs s)
    rw [List.nil_append, List.foldl_nil, hact] at happly
    rw [hsplit, hfirst.run, hpending, Machine.run, step_of_table hdone, happly]
    rfl
  · have happly := apply_done memory len actions hclose p s
    rw [hpending, hact] at happly
    rw [List.singleton_append, Machine.run, step_of_table hlf, happly]
    rfl

/-! ## The status line -/

structure StatusLine where
  major : Bytes
  minor : Bytes
  status : Bytes
  reason : Bytes
  eol : Bytes

structure StatusLine.Ok (l : StatusLine) : Prop where
  major_ne : l.major ≠ []
  major : l.major.all isDigit = true
  minor_ne : l.minor ≠ []
  minor : l.minor.all isDigit = true
  status_ne : l.status ≠ []
  status : l.status.all isDigit = true
  reason_ne : l.reason ≠ []
  reason : ∀ c ∈ l.reason, is '\r' c = false ∧ is '\n' c = false
  eol : IsEol l.eol

def StatusLine.version (l : StatusLine) : Bytes := bytes "HTTP/" ++ l.major ++ '.'.toUInt8 :: l.minor

def StatusLine.render (l : StatusLine) : Bytes :=
  l.version ++ ([' '.toUInt8] ++ (l.status ++ ([' '.toUInt8] ++ (l.reason ++ l.eol))))

/-- where the status begins in a line that starts at `p` -/
def StatusLine.statusAt (l : StatusLine) (p : ℕ) : ℕ := p + l.version.length + 1

def StatusLine.reasonAt (l : StatusLine) (p : ℕ) : ℕ := l.statusAt p + l.status.length + 1

def StatusLine.effect (l : StatusLine) (p : ℕ) (s : Scan) : Scan where
  parser := { s.parser with
    mark := l.reasonAt p
    status := toSigned 32 (strtol 10 l.status) }
  calls := s.calls ++ [.http_version p l.version.length, .status_code (l.statusAt p) l.status.length,
    .reason_phrase (l.reasonAt p) l.reason.length]

/-- the registers with the reason still to be read -/
def StatusLine.numbered (l : StatusLine) (p m : ℕ) (s : Scan) : Scan where
  parser := { s.parser with
    mark := m
    status := toSigned 32 (strtol 10 l.status) }
  calls := s.calls ++ [.http_version p l.version.length, .status_code (l.statusAt p) l.status.length]

/-- digits from the first one, which leads from `q` to `next` with `actions` -/
theorem reads_digits {q next : ℤ} {actions : List ParserAction} {w : Bytes}
    (hfirst : ∀ c, isDigit c = true → httpclientTable q c = some (next, actions))
    (hnext : ∀ c, isDigit c = true → httpclientTable next c = some (next, [])) (hgo : .done ∉ actions) (hne : w ≠ [])
    (hw : w.all isDigit = true) (p : ℕ) (s : Scan) :
    (scanner memory len).Reads ⟨q, p, s⟩ w ⟨next, p + w.length, actions.foldl (act memory len p) s⟩ := by
  obtain ⟨c, v, rfl⟩ := List.exists_cons_of_ne_nil hne
  rw [List.all_cons, Bool.and_eq_true] at hw
  have hone := reads_byte memory len (hfirst c hw.1) hgo p s
  have hrest := reads_stay (M := scanner memory len) (s := next) (w := v)
    (fun b hb => hnext b (List.all_eq_true.1 hw.2 b hb)) (p + 1) (actions.foldl (act memory len p) s)
  have hlength : p + (c :: v).length = p + 1 + v.length := by rw [List.length_cons]; omega
  rw [hlength]
  exact hone.append hrest

theorem table_digit {c : UInt8} (hc : isDigit c = true) :
    httpclientTable 12 c = some (13, []) ∧ httpclientTable 13 c = some (13, []) ∧
      httpclientTable 14 c = some (15, []) ∧ httpclientTable 15 c = some (15, []) ∧
      httpclientTable 16 c = some (17, [.mark]) ∧ httpclientTable 17 c = some (17, []) := by
  have hother : is '.' c = false ∧ is ' ' c = false := by
    revert c
    apply forall_byte
    decide +kernel
  simp only [httpclientTable_eq, row, List.find?_cons, hc, hother.1, hother.2, Option.map_some]
  trivial

theorem reads_version {l : StatusLine} (hl : l.Ok) (p : ℕ) (s : Scan) :
    (scanner memory len).Reads ⟨1, p, s⟩ l.version ⟨15, p + l.version.length, { s with parser.mark := p }⟩ := by
  have h1 := reads_byte memory len (show httpclientTable 1 'H'.toUInt8 = some (8, [.mark]) by decide)
    (by decide) p s
  have h8 := reads_of_quietPath (M := scanner memory len)
    (show quietPath httpclientTable 8 (bytes "TTP/") = some 12 by decide) (p + 1) { s with parser.mark := p }
  have hmajor := reads_digits memory len (fun _ hc => (table_digit hc).1)
    (fun _ hc => (table_digit hc).2.1) (by decide) hl.major_ne hl.major (p + 5) { s with parser.mark := p }
  have h13 := reads_byte memory len (show httpclientTable 13 '.'.toUInt8 = some (14, []) by decide)
    (by decide) (p + 5 + l.major.length) { s with parser.mark := p }
  have hminor := reads_digits memory len (fun _ hc => (table_digit hc).2.2.1)
    (fun _ hc => (table_digit hc).2.2.2.1) (by decide) hl.minor_ne hl.minor (p + 5 + l.major.length + 1)
    { s with parser.mark := p }
  have hall := h1.append (h8.append (hmajor.append (h13.append hminor)))
  have hversion : l.version = ['H'.toUInt8] ++ (bytes "TTP/" ++ (l.major ++ (['.'.toUInt8] ++ l.minor))) := by
    have hhttp : bytes "HTTP/" = ['H'.toUInt8] ++ bytes "TTP/" := rfl
    rw [StatusLine.version, hhttp]
    simp only [List.append_assoc, List.cons_append, List.nil_append]
  have hlength : p + l.version.length = p + 5 + l.major.length + 1 + l.minor.length := by
    have hword : (bytes "TTP/").length = 4 := by decide
    rw [hversion]
    simp only [List.length_append, List.length_singleton, hword]
    omega
  rw [← hversion] at hall
  rw [hlength]
  exact hall

theorem reads_status {l : StatusLine} (hl : l.Ok) {p : ℕ} {s : Scan} {rest : Bytes}
    (hmemory : memory.drop (l.statusAt p) = l.status ++ ([' '.toUInt8] ++ rest))
    (hsize : l.reasonAt p < 2 ^ 64) :
    (scanner memory len).Reads ⟨15, p + l.version.length, { s with parser.mark := p }⟩
      ([' '.toUInt8] ++ (l.status ++ [' '.toUInt8]))
      ⟨18, l.reasonAt p, l.numbered p (l.statusAt p) s⟩ := by
  rw [StatusLine.reasonAt, StatusLine.statusAt] at hsize
  have h15 := reads_byte memory len
    (show httpclientTable 15 ' '.toUInt8 = some (16, [.http_version]) by decide) (by decide) (p + l.version.length)
    { s with parser.mark := p }
  have hversion : LEN p (p + l.version.length) = l.version.length := by
    rw [LEN_of_le (Nat.le_add_right _ _) (by omega)]
    omega
  have hdigits := reads_digits memory len (fun _ hc => (table_digit hc).2.2.2.2.1)
    (fun _ hc => (table_digit hc).2.2.2.2.2) (by decide) hl.status_ne hl.status (l.statusAt p)
    { s with parser.mark := p, calls := s.calls ++ [.http_version p l.version.length] }
  have h17 := reads_byte memory len
    (show httpclientTable 17 ' '.toUInt8 = some (18, [.status_code]) by decide) (by decide)
    (l.statusAt p + l.status.length)
    { s with parser.mark := l.statusAt p, calls := s.calls ++ [.http_version p l.version.length] }
  have hstatus : LEN (l.statusAt p) (l.statusAt p + l.status.length) = l.status.length := by
    rw [StatusLine.statusAt, LEN_of_le (Nat.le_add_right _ _) (by omega)]
    omega
  have hnumber : strtol 10 (memory.drop (l.statusAt p)) = strtol 10 l.status := by
    rw [hmemory]
    exact strtol_digits hl.status_ne hl.status fun c hc => by
      obtain rfl := Option.some.inj hc
      decide
  have hcall : [ParserAction.http_version].foldl (act memory len (p + l.version.length)) { s with parser.mark := p } =
      { s with parser.mark := p, calls := s.calls ++ [.http_version p l.version.length] } := by
    rw [List.foldl_cons, List.foldl_nil, act, hversion]
    rfl
  rw [hcall] at h15
  have hall := h15.append (hdigits.append h17)
  simp only [List.foldl_cons, List.foldl_nil, act, Scan.call, hstatus, hnumber, List.append_assoc] at hall
  exact hall

/-- **The status line is read.** -/
theorem reads_statusLine {l : StatusLine} (hl : l.Ok) {p : ℕ} {s : Scan} {rest : Bytes}
    (hmemory : memory.drop p = l.render ++ rest) (hsize : p + l.render.length < 2 ^ 64) :
    (scanner memory len).Reads ⟨1, p, s⟩ l.render ⟨20, p + l.render.length, l.effect p s⟩ := by
  have hlength : p + l.render.length = l.reasonAt p + l.reason.length + l.eol.length := by
    rw [StatusLine.render, StatusLine.reasonAt, StatusLine.statusAt]
    simp only [List.length_append, List.length_singleton]
    omega
  rw [hlength] at hsize ⊢
  have hdrop : memory.drop (l.statusAt p) = l.status ++ ([' '.toUInt8] ++ (l.reason ++ l.eol ++ rest)) := by
    have hsplit : l.render ++ rest = (l.version ++ [' '.toUInt8]) ++
        (l.status ++ ([' '.toUInt8] ++ (l.reason ++ l.eol ++ rest))) := by
      rw [StatusLine.render]
      simp only [List.append_assoc]
    have hat : l.statusAt p = p + (l.version ++ [' '.toUInt8]).length := by
      rw [StatusLine.statusAt, List.length_append, List.length_singleton]
      omega
    rw [hat, ← List.drop_drop, hmemory, hsplit, List.drop_left]
  have hversion := reads_version memory len hl p s
  have hstatus := reads_status memory len hl (s := s) hdrop (by omega)
  -- the reason starts with any byte but LF
  obtain ⟨c, v, hreason⟩ := List.exists_cons_of_ne_nil hl.reason_ne
  have hbytes : ∀ b ∈ c :: v, is '\r' b = false ∧ is '\n' b = false := hreason ▸ hl.reason
  have h18 : httpclientTable 18 c = some (19, [.mark]) := by
    simp [httpclientTable_eq, row, (hbytes c List.mem_cons_self).2]
  have hfirst := reads_byte memory len h18 (by decide) (l.reasonAt p)
    (l.numbered p (l.statusAt p) s)
  have h19 : ∀ b ∈ v, httpclientTable 19 b = some (19, []) := by
    intro b hb
    obtain ⟨hcr, hlf⟩ := hbytes b (List.mem_cons_of_mem c hb)
    simp [httpclientTable_eq, row, hcr, hlf]
  have hrest := reads_stay (M := scanner memory len) h19 (l.reasonAt p + 1) (l.numbered p (l.reasonAt p) s)
  have hlast : l.reasonAt p + 1 + v.length = l.reasonAt p + l.reason.length := by
    rw [hreason, List.length_cons]
    omega
  rw [hlast] at hrest
  have hcall : act memory len (l.reasonAt p + l.reason.length) (l.numbered p (l.reasonAt p) s) .reason_phrase =
      l.effect p s := by
    have hlen : LEN (l.reasonAt p) (l.reasonAt p + l.reason.length) = l.reason.length := by
      rw [LEN_of_le (Nat.le_add_right _ _) (by omega)]
      omega
    simp [act, Scan.call, StatusLine.numbered, StatusLine.effect, hlen]
  have heol : (scanner memory len).Reads ⟨19, l.reasonAt p + l.reason.length, l.numbered p (l.reasonAt p) s⟩ l.eol
      ⟨20, l.reasonAt p + l.reason.length + l.eol.length, l.effect p s⟩ := by
    rw [← hcall]
    rcases hl.eol with he | he
    · rw [he]
      exact (reads_byte _ _ (show httpclientTable 19 '\r'.toUInt8 = some (24, [.reason_phrase]) by decide) (by decide) _ _).append
        (reads_byte _ _ (show httpclientTable 24 '\n'.toUInt8 = some (20, []) by decide) (by decide) _ _)
    · rw [he]
      exact reads_byte _ _ (show httpclientTable 19 '\n'.toUInt8 = some (20, [.reason_phrase]) by decide) (by decide) _ _
  have hall := hversion.append (hstatus.append ((hfirst.append hrest).append heol))
  have hrender : l.version ++ ([' '.toUInt8] ++ (l.status ++ [' '.toUInt8]) ++ ([c] ++ v ++ l.eol)) = l.render := by
    rw [StatusLine.render, hreason]
    simp only [List.append_assoc, List.cons_append, List.nil_append]
  rw [hrender] at hall
  exact hall

end

end Sylar.Http

/-
`StringUtil::UrlEncode`, `UrlDecode` and `Trim` of util.cc.

Both loops leave the argument alone until a byte has to be rewritten; only then a buffer is made that starts with the
bytes passed so far. `none` is the null pointer `ss`. `c += 2` behind an escape is a number of bytes to pass over.

Results:
- `UrlEncode_eq`, `UrlDecode_eq`: the loops rewrite byte by byte, or escape by escape, with and without the buffer;
- `unreserved_iff`: the bytes that stay; `mem_UrlEncode`: what an encoded text consists of;
- `UrlDecode_UrlEncode`: decoding undoes encoding;
- `url_exact`: and the argument comes back exactly when nothing has to be rewritten.
-/
import Sylar.Core.Text

namespace Sylar.StringUtil

open Sylar.Text

/-! ## Tables -/

def uri_chars : List UInt8 := [
  0, 0, 0, 0, 0, 0, 0, 0,   0, 0, 0, 0, 0, 0, 0, 0,
  0, 0, 0, 0, 0, 0, 0, 0,   0, 0, 0, 0, 0, 0, 0, 0,
  0, 0, 0, 0, 0, 0, 0, 0,   0, 0, 0, 0, 0, 1, 1, 0,
  1, 1, 1, 1, 1, 1, 1, 1,   1, 1, 0, 0, 0, 1, 0, 0,
  0, 1, 1, 1, 1, 1, 1, 1,   1, 1, 1, 1, 1, 1, 1, 1,
  1, 1, 1, 1, 1, 1, 1, 1,   1, 1, 1, 0, 0, 0, 0, 1,
  0, 1, 1, 1, 1, 1, 1, 1,   1, 1, 1, 1, 1, 1, 1, 1,
  1, 1, 1, 1, 1, 1, 1, 1,   1, 1, 1, 0, 0, 0, 1, 0]

/-- the upper half of the table of the source is zero -/
def CHAR_IS_UNRESERVED (c : UInt8) : Bool := uri_chars.getD c.toNat 0 ≠ 0

def hexdigits : List UInt8 := bytes "0123456789ABCDEF"

def isxdigit (c : UInt8) : Bool := (48 ≤ c && c ≤ 57) || (65 ≤ c && c ≤ 70) || (97 ≤ c && c ≤ 102)

/-- `xdigit_chars` -/
def xdigit_chars (c : UInt8) : UInt8 :=
  if 48 ≤ c && c ≤ 57 then c - 48 else if 65 ≤ c && c ≤ 70 then c - 55 else if 97 ≤ c && c ≤ 102 then c - 87 else 0

/-! ## UrlEncode -/

/-- `i` bytes of `str` are passed, the rest is left -/
def encodeLoop (str : Bytes) (space_as_plus : Bool) (i : ℕ) (ss : Option Bytes) : Bytes → Option Bytes
  | [] => ss
  | c :: s =>
    if !CHAR_IS_UNRESERVED c then
      let buf := ss.getD (str.take i)
      if c = 32 && space_as_plus then encodeLoop str space_as_plus (i + 1) (some (buf ++ bytes "+")) s
      else
        let esc := bytes "%" ++ [hexdigits.getD (c >>> 4).toNat 0, hexdigits.getD (c &&& 0xf).toNat 0]
        encodeLoop str space_as_plus (i + 1) (some (buf ++ esc)) s
    else encodeLoop str space_as_plus (i + 1) (ss.map (· ++ [c])) s

def UrlEncode (str : Bytes) (space_as_plus : Bool) : Bytes := (encodeLoop str space_as_plus 0 none str).getD str

/-! ## UrlDecode -/

/-- the byte of an escape whose two digits come next -/
def hexPair : Bytes → Option UInt8
  | a :: b :: _ => if isxdigit a && isxdigit b then some (xdigit_chars a <<< 4 ||| xdigit_chars b) else none
  | _ => none

def decodeLoop (str : Bytes) (space_as_plus : Bool) (skip i : ℕ) (ss : Option Bytes) : Bytes → Option Bytes
  | [] => ss
  | c :: s =>
    match skip with
    | k + 1 => decodeLoop str space_as_plus k (i + 1) ss s
    | 0 =>
      if c = 43 && space_as_plus then decodeLoop str space_as_plus 0 (i + 1) (some (ss.getD (str.take i) ++ bytes " ")) s
      else
        match (if c = 37 then hexPair s else none) with
        | some b => decodeLoop str space_as_plus 2 (i + 1) (some (ss.getD (str.take i) ++ [b])) s
        | none => decodeLoop str space_as_plus 0 (i + 1) (ss.map (· ++ [c])) s

def UrlDecode (str : Bytes) (space_as_plus : Bool) : Bytes := (decodeLoop str space_as_plus 0 0 none str).getD str

/-! ## Trim -/

def find_first_not_of (str delimit : Bytes) : Option ℕ := str.findIdx? fun c => c ∉ delimit

def find_last_not_of (str delimit : Bytes) : Option ℕ :=
  (str.reverse.findIdx? fun c => c ∉ delimit).map fun i => str.length - 1 - i

/-- `delimit` is " \t\r\n" by default -/
def Trim (str delimit : Bytes) : Bytes :=
  match find_first_not_of str delimit with
  | none => []
  | some first =>
    match find_last_not_of str delimit with
    | none => str.drop first
    | some last => (str.drop first).take (last - first + 1)

/-! ## What the loops compute -/

/-- the text of one byte -/
def encodeByte (space_as_plus : Bool) (c : UInt8) : Bytes :=
  if CHAR_IS_UNRESERVED c then [c]
  else if c = 32 && space_as_plus then bytes "+"
  else bytes "%" ++ [hexdigits.getD (c >>> 4).toNat 0, hexdigits.getD (c &&& 0xf).toNat 0]

/-- the bytes of a text; `skip` of them belong to the escape in front -/
def decodeFrom (space_as_plus : Bool) (skip : ℕ) : Bytes → Bytes
  | [] => []
  | c :: s =>
    match skip with
    | k + 1 => decodeFrom space_as_plus k s
    | 0 =>
      if c = 43 && space_as_plus then 32 :: decodeFrom space_as_plus 0 s
      else
        match (if c = 37 then hexPair s else none) with
        | some b => b :: decodeFrom space_as_plus 2 s
        | none => c :: decodeFrom space_as_plus 0 s

/-- `pre` is passed; what is written so far is in the buffer, or `pre` itself -/
theorem encodeLoop_eq {p : Bool} (s pre : Bytes) (ss : Option Bytes) :
    (encodeLoop (pre ++ s) p pre.length ss s).getD (pre ++ s) = ss.getD pre ++ s.flatMap (encodeByte p) := by
  induction s generalizing pre ss with
  | nil => simp [encodeLoop]
  | cons c s ih =>
    have hrec : ∀ ss' : Option Bytes, (encodeLoop (pre ++ c :: s) p (pre.length + 1) ss' s).getD (pre ++ c :: s) =
        ss'.getD (pre ++ [c]) ++ s.flatMap (encodeByte p) := by
      intro ss'
      have h := ih (pre ++ [c]) ss'
      simpa using h
    rw [encodeLoop, List.take_left, List.flatMap_cons, ← List.append_assoc, encodeByte]
    by_cases hc : CHAR_IS_UNRESERVED c = true
    · have hkeep : (ss.map (· ++ [c])).getD (pre ++ [c]) = ss.getD pre ++ [c] := by cases ss <;> rfl
      rw [hc, if_neg (by simp), hrec, hkeep, if_pos rfl]
    · rw [if_pos (by simpa using hc), if_neg hc]
      split_ifs
      · rw [hrec, Option.getD_some]
      · rw [hrec, Option.getD_some]

theorem UrlEncode_eq (str : Bytes) (p : Bool) : UrlEncode str p = str.flatMap (encodeByte p) :=
  encodeLoop_eq str [] none

theorem decodeLoop_eq {q : Bool} (s pre : Bytes) {skip : ℕ} {ss : Option Bytes} (hskip : skip ≠ 0 → ss.isSome) :
    (decodeLoop (pre ++ s) q skip pre.length ss s).getD (pre ++ s) = ss.getD pre ++ decodeFrom q skip s := by
  induction s generalizing pre skip ss with
  | nil => simp [decodeLoop, decodeFrom]
  | cons c s ih =>
    have hrec : ∀ (skip' : ℕ) (ss' : Option Bytes), (skip' ≠ 0 → ss'.isSome) →
        (decodeLoop (pre ++ c :: s) q skip' (pre.length + 1) ss' s).getD (pre ++ c :: s) =
          ss'.getD (pre ++ [c]) ++ decodeFrom q skip' s := by
      intro skip' ss' hskip'
      have h := ih (pre ++ [c]) hskip'
      simpa using h
    cases skip with
    | succ k =>
      -- an escape has made the buffer
      obtain ⟨buf, rfl⟩ := Option.isSome_iff_exists.1 (hskip (by omega))
      rw [decodeLoop, hrec k (some buf) (fun _ => rfl), decodeFrom]
      rfl
    | zero =>
      rw [decodeLoop, List.take_left, decodeFrom]
      by_cases hplus : (c = 43 && q) = true
      · rw [if_pos hplus, if_pos hplus, hrec 0 _ (fun h => absurd rfl h), Option.getD_some, List.append_assoc]
        rfl
      · rw [if_neg hplus, if_neg hplus]
        cases hpair : (if c = 37 then hexPair s else none) with
        | none =>
          have hkeep : (ss.map (· ++ [c])).getD (pre ++ [c]) = ss.getD pre ++ [c] := by cases ss <;> rfl
          simp only [hrec 0 _ (fun h => absurd rfl h), hkeep, List.append_assoc, List.singleton_append]
        | some b =>
          simp only [hrec 2 (some _) (fun _ => rfl), Option.getD_some, List.append_assoc, List.singleton_append]

theorem UrlDecode_eq (str : Bytes) (q : Bool) : UrlDecode str q = decodeFrom q 0 str :=
  decodeLoop_eq str [] fun h => absurd rfl h

/-! ## Round trip -/

/-- the bytes that stay: letters, digits, and `- . = _ ~` -/
theorem unreserved_iff (c : UInt8) : CHAR_IS_UNRESERVED c = true ↔
    (48 ≤ c ∧ c ≤ 57) ∨ (65 ≤ c ∧ c ≤ 90) ∨ (97 ≤ c ∧ c ≤ 122) ∨ c = 45 ∨ c = 46 ∨ c = 61 ∨ c = 95 ∨ c = 126 := by
  revert c
  apply forall_byte
  decide +kernel

theorem hexPair_encode (c : UInt8) (s : Bytes) :
    hexPair (hexdigits.getD (c >>> 4).toNat 0 :: hexdigits.getD (c &&& 0xf).toNat 0 :: s) = some c := by
  have hdigits : ∀ c : UInt8,
      (isxdigit (hexdigits.getD (c >>> 4).toNat 0) && isxdigit (hexdigits.getD (c &&& 0xf).toNat 0)) = true ∧
        xdigit_chars (hexdigits.getD (c >>> 4).toNat 0) <<< 4 ||| xdigit_chars (hexdigits.getD (c &&& 0xf).toNat 0) =
          c := by
    apply forall_byte
    decide +kernel
  rw [hexPair, if_pos (hdigits c).1, (hdigits c).2]

theorem decodeFrom_encodeByte {p q : Bool} (h : p = false ∨ q = true) (c : UInt8) (s : Bytes) :
    decodeFrom q 0 (encodeByte p c ++ s) = c :: decodeFrom q 0 s := by
  rw [encodeByte]
  split_ifs with hc hspace
  · have hplus : c ≠ 43 := by
      rintro rfl
      simp [CHAR_IS_UNRESERVED, uri_chars] at hc
    have hpercent : c ≠ 37 := by
      rintro rfl
      simp [CHAR_IS_UNRESERVED, uri_chars] at hc
    simp [decodeFrom, hplus, hpercent]
  · rw [Bool.and_eq_true, decide_eq_true_eq] at hspace
    obtain ⟨rfl, rfl⟩ := hspace
    have hq : q = true := h.resolve_left (by simp)
    rw [hq]
    rfl
  · have hpair := hexPair_encode c s
    have hescape : decodeFrom q 0 (37 :: hexdigits.getD (c >>> 4).toNat 0 :: hexdigits.getD (c &&& 0xf).toNat 0 :: s) =
        c :: decodeFrom q 0 s := by
      rw [decodeFrom]
      simp only [hpair, if_true]
      rfl
    exact hescape

/-- decoding undoes encoding, unless spaces became '+' and '+' stays -/
theorem UrlDecode_UrlEncode {p q : Bool} (h : p = false ∨ q = true) (s : Bytes) : UrlDecode (UrlEncode s p) q = s := by
  rw [UrlDecode_eq, UrlEncode_eq]
  induction s with
  | nil => rfl
  | cons c s ih => rw [List.flatMap_cons, decodeFrom_encodeByte h, ih]

/-! ## What an encoded text consists of -/

theorem mem_encodeByte {p : Bool} {c x : UInt8} (h : x ∈ encodeByte p c) :
    (x = c ∧ CHAR_IS_UNRESERVED c = true) ∨ x = 37 ∨ x = 43 ∨ isxdigit x = true := by
  rw [encodeByte] at h
  split_ifs at h with hc hspace
  · exact .inl ⟨List.mem_singleton.1 h, hc⟩
  · exact .inr (.inr (.inl (List.mem_singleton.1 h)))
  · have hdigits : ∀ c : UInt8, isxdigit (hexdigits.getD (c >>> 4).toNat 0) = true ∧
        isxdigit (hexdigits.getD (c &&& 0xf).toNat 0) = true := by
      apply forall_byte
      decide +kernel
    rcases List.mem_append.1 h with h | h
    · exact .inr (.inl (List.mem_singleton.1 h))
    · rcases List.mem_pair.1 h with rfl | rfl
      · exact .inr (.inr (.inr (hdigits c).1))
      · exact .inr (.inr (.inr (hdigits c).2))

theorem mem_UrlEncode {s : Bytes} {p : Bool} {x : UInt8} (h : x ∈ UrlEncode s p) :
    (x ∈ s ∧ CHAR_IS_UNRESERVED x = true) ∨ x = 37 ∨ x = 43 ∨ isxdigit x = true := by
  rw [UrlEncode_eq, List.mem_flatMap] at h
  obtain ⟨c, hc, hx⟩ := h
  rcases mem_encodeByte hx with ⟨rfl, hun⟩ | hx
  · exact .inl ⟨hc, hun⟩
  · exact .inr hx

/-- a text of unreserved bytes is its own encoding -/
theorem UrlEncode_of_unreserved {s : Bytes} {p : Bool} (h : ∀ c ∈ s, CHAR_IS_UNRESERVED c = true) :
    UrlEncode s p = s := by
  rw [UrlEncode_eq]
  induction s with
  | nil => rfl
  | cons c s ih =>
    have hc : encodeByte p c = [c] := if_pos (h c List.mem_cons_self)
    rw [List.flatMap_cons, hc, ih fun d hd => h d (List.mem_cons_of_mem c hd)]
    rfl

/-- an escape makes the text longer -/
theorem length_UrlEncode {s : Bytes} {p : Bool} : s.length ≤ (UrlEncode s p).length ∧
    ((UrlEncode s p).length = s.length → ∀ c ∈ s, CHAR_IS_UNRESERVED c = true ∨ c = 32) := by
  rw [UrlEncode_eq]
  induction s with
  | nil => simp
  | cons c s ih =>
    have hbyte : 1 ≤ (encodeByte p c).length ∧
        ((encodeByte p c).length = 1 → CHAR_IS_UNRESERVED c = true ∨ c = 32) := by
      rw [encodeByte]
      split_ifs with hc hspace
      · exact ⟨le_rfl, fun _ => .inl hc⟩
      · rw [Bool.and_eq_true, decide_eq_true_eq] at hspace
        exact ⟨le_rfl, fun _ => .inr hspace.1⟩
      · exact ⟨by simp, fun h => by simp [bytes] at h⟩
    rw [List.flatMap_cons, List.length_append, List.length_cons]
    refine ⟨by omega, fun hlen d hd => ?_⟩
    rcases List.mem_cons.1 hd with rfl | hd
    · exact hbyte.2 (by omega)
    · exact ih.2 (by omega) d hd

/-! ## When the argument comes back -/

/-- once it is made, the buffer stays -/
theorem encodeLoop_ne_none (str : Bytes) (p : Bool) (i : ℕ) (buf s : Bytes) :
    encodeLoop str p i (some buf) s ≠ none := by
  induction s generalizing i buf with
  | nil => exact Option.some_ne_none buf
  | cons c s ih =>
    rw [encodeLoop]
    split_ifs
    · exact ih _ _
    · exact ih _ _
    · exact ih _ _

/-- the pointer stays null as long as every byte stays -/
theorem encodeLoop_eq_none {str : Bytes} {p : Bool} {i : ℕ} {s : Bytes} :
    encodeLoop str p i none s = none ↔ ∀ c ∈ s, CHAR_IS_UNRESERVED c = true := by
  induction s generalizing i with
  | nil => simp [encodeLoop]
  | cons c s ih =>
    rw [encodeLoop, List.forall_mem_cons]
    by_cases hc : CHAR_IS_UNRESERVED c = true
    · rw [hc, if_neg (by simp), Option.map_none, ih]
      exact (and_iff_right rfl).symm
    · rw [if_pos (by simpa using hc)]
      refine iff_of_false ?_ fun h => hc h.1
      split_ifs
      · exact encodeLoop_ne_none _ _ _ _ _
      · exact encodeLoop_ne_none _ _ _ _ _

theorem decodeLoop_ne_none (str : Bytes) (q : Bool) (skip i : ℕ) (buf s : Bytes) :
    decodeLoop str q skip i (some buf) s ≠ none := by
  induction s generalizing skip i buf with
  | nil => exact Option.some_ne_none buf
  | cons c s ih =>
    cases skip with
    | succ k => exact ih _ _ _
    | zero =>
      rw [decodeLoop]
      split_ifs
      · exact ih _ _ _
      · split
        · exact ih _ _ _
        · exact ih _ _ _
      · exact ih _ _ _

/-- no '+' that stands for a space and no whole escape -/
structure Plain (q : Bool) (s : Bytes) : Prop where
  plus : q = true → 43 ∉ s
  escape : ∀ pre a b post, s = pre ++ 37 :: a :: b :: post → ¬ (isxdigit a = true ∧ isxdigit b = true)

theorem plain_nil (q : Bool) : Plain q [] :=
  ⟨fun _ => List.not_mem_nil, fun pre a b post h => by simp at h⟩

theorem hexPair_eq_none {s : Bytes} :
    hexPair s = none ↔ ∀ a b post, s = a :: b :: post → ¬ (isxdigit a = true ∧ isxdigit b = true) := by
  constructor
  · rintro h a b post rfl hdigits
    rw [hexPair, if_pos (by rw [hdigits.1, hdigits.2]; rfl)] at h
    cases h
  · intro h
    match s with
    | [] => rfl
    | [a] => rfl
    | a :: b :: post =>
      rw [hexPair, if_neg]
      rw [Bool.and_eq_true]
      exact h a b post rfl

theorem plain_cons {q : Bool} {c : UInt8} {s : Bytes} : Plain q (c :: s) ↔
    ¬ (c = 43 && q) = true ∧ (if c = 37 then hexPair s else none) = none ∧ Plain q s := by
  constructor
  · intro h
    refine ⟨?_, ?_, ?_, ?_⟩
    · rw [Bool.and_eq_true, decide_eq_true_eq]
      rintro ⟨rfl, hq⟩
      exact h.plus hq List.mem_cons_self
    · split_ifs with hc
      · subst hc
        exact hexPair_eq_none.2 fun a b post hs => h.escape [] a b post (by rw [hs]; rfl)
      · rfl
    · exact fun hq hmem => h.plus hq (List.mem_cons_of_mem c hmem)
    · exact fun pre a b post hs => h.escape (c :: pre) a b post (by rw [hs]; rfl)
  · rintro ⟨hplus, hescape, h⟩
    rw [Bool.and_eq_true, decide_eq_true_eq] at hplus
    refine ⟨fun hq hmem => ?_, fun pre a b post hs => ?_⟩
    · rcases List.mem_cons.1 hmem with hc | hmem
      · exact hplus ⟨hc.symm, hq⟩
      · exact h.plus hq hmem
    · cases pre with
      | nil =>
        obtain ⟨rfl, rfl⟩ := List.cons.inj hs
        rw [if_pos rfl] at hescape
        exact hexPair_eq_none.1 hescape a b post rfl
      | cons d pre => exact h.escape pre a b post (List.cons.inj hs).2

theorem decodeLoop_eq_none {str : Bytes} {q : Bool} {i : ℕ} {s : Bytes} :
    decodeLoop str q 0 i none s = none ↔ Plain q s := by
  induction s generalizing i with
  | nil => exact iff_of_true rfl (plain_nil q)
  | cons c s ih =>
    rw [decodeLoop, plain_cons]
    by_cases hplus : (c = 43 && q) = true
    · rw [if_pos hplus]
      exact iff_of_false (decodeLoop_ne_none _ _ _ _ _ _) fun h => h.1 hplus
    · rw [if_neg hplus]
      cases (if c = 37 then hexPair s else none) with
      | none =>
        rw [Option.map_none, ih]
        exact ⟨fun h => ⟨hplus, rfl, h⟩, fun h => h.2.2⟩
      | some b => exact iff_of_false (decodeLoop_ne_none _ _ _ _ _ _) fun h => absurd h.2.1 (Option.some_ne_none b)

/-- an escape makes the text shorter -/
theorem length_decodeFrom (q : Bool) (skip : ℕ) (s : Bytes) : (decodeFrom q skip s).length ≤ s.length - skip := by
  induction s generalizing skip with
  | nil => exact Nat.zero_le _
  | cons c s ih =>
    cases skip with
    | succ k =>
      rw [decodeFrom, List.length_cons]
      exact (ih k).trans (by omega)
    | zero =>
      rw [decodeFrom, List.length_cons]
      have hzero := ih 0
      have htwo := ih 2
      split_ifs
      · rw [List.length_cons]
        omega
      · split
        · rw [List.length_cons]
          omega
        · rw [List.length_cons]
          omega
      · rw [List.length_cons]
        omega

/-- a text whose decoding is the text itself has nothing to rewrite -/
theorem plain_of_decodeFrom_eq {q : Bool} {s : Bytes} (h : decodeFrom q 0 s = s) : Plain q s := by
  induction s with
  | nil => exact plain_nil q
  | cons c s ih =>
    rw [decodeFrom] at h
    by_cases hplus : (c = 43 && q) = true
    · rw [if_pos hplus] at h
      rw [Bool.and_eq_true, decide_eq_true_eq] at hplus
      rw [hplus.1] at h
      exact absurd (List.cons.inj h).1 (by decide)
    · rw [if_neg hplus] at h
      cases hpair : (if c = 37 then hexPair s else none) with
      | none =>
        rw [hpair] at h
        exact plain_cons.2 ⟨hplus, hpair, ih (List.cons.inj h).2⟩
      | some b =>
        -- the two digits are missing from the result
        have hdigits : s ≠ [] := by
          rintro rfl
          split_ifs at hpair
          cases hpair
        rw [hpair] at h
        have hlength := length_decodeFrom q 2 s
        rw [(List.cons.inj h).2] at hlength
        have hpos := List.length_pos_iff.2 hdigits
        omega

/-- a reserved byte becomes another text -/
theorem unreserved_of_UrlEncode_eq {s : Bytes} {p : Bool} (h : UrlEncode s p = s) :
    ∀ c ∈ s, CHAR_IS_UNRESERVED c = true := by
  induction s with
  | nil => exact fun c hc => absurd hc List.not_mem_nil
  | cons c s ih =>
    have hrest := (@length_UrlEncode s p).1
    rw [UrlEncode_eq, List.flatMap_cons, ← UrlEncode_eq, encodeByte] at h
    split_ifs at h with hc hspace
    · exact List.forall_mem_cons.2 ⟨hc, ih (List.cons.inj h).2⟩
    · rw [Bool.and_eq_true, decide_eq_true_eq] at hspace
      rw [hspace.1] at h
      exact absurd (List.cons.inj h).1 (by decide)
    · have hlength := congrArg List.length h
      rw [List.length_append, List.length_append, List.length_cons, List.length_cons, List.length_cons] at hlength
      omega

/-- a loop that makes its buffer at the first byte to rewrite, or never -/
structure Lazy (made buffered : Option Bytes) (str result : Bytes) (plain : Prop) : Prop where
  null_iff : made = none ↔ plain
  itself_iff : result = str ↔ plain
  /-- as if the buffer had been there from the start -/
  same : result = buffered.getD str

theorem lazy_UrlEncode (s : Bytes) (p : Bool) : Lazy (encodeLoop s p 0 none s) (encodeLoop s p 0 (some []) s) s
    (UrlEncode s p) (∀ c ∈ s, CHAR_IS_UNRESERVED c = true) where
  null_iff := encodeLoop_eq_none
  itself_iff := ⟨unreserved_of_UrlEncode_eq, UrlEncode_of_unreserved⟩
  same := by
    have hbuffered := @encodeLoop_eq p s [] (some [])
    rw [UrlEncode_eq]
    exact hbuffered.symm

theorem lazy_UrlDecode (s : Bytes) (q : Bool) : Lazy (decodeLoop s q 0 0 none s) (decodeLoop s q 0 0 (some []) s) s
    (UrlDecode s q) (Plain q s) where
  null_iff := decodeLoop_eq_none
  itself_iff := by
    refine ⟨fun h => ?_, fun h => ?_⟩
    · rw [UrlDecode_eq] at h
      exact plain_of_decodeFrom_eq h
    · rw [UrlDecode, decodeLoop_eq_none.2 h, Option.getD_none]
  same := by
    have hbuffered := @decodeLoop_eq q s [] 0 (some []) fun h => absurd rfl h
    rw [UrlDecode_eq]
    exact hbuffered.symm

/-- **Decoding undoes encoding, and the copy is made exactly when a byte has to be rewritten.** -/
theorem url_exact (s : Bytes) (p q : Bool) :
    (p = false ∨ q = true → UrlDecode (UrlEncode s p) q = s) ∧
      Lazy (encodeLoop s p 0 none s) (encodeLoop s p 0 (some []) s) s (UrlEncode s p)
        (∀ c ∈ s, CHAR_IS_UNRESERVED c = true) ∧
      Lazy (decodeLoop s q 0 0 none s) (decodeLoop s q 0 0 (some []) s) s (UrlDecode s q) (Plain q s) :=
  ⟨fun h => UrlDecode_UrlEncode h s, lazy_UrlEncode s p, lazy_UrlDecode s q⟩

end Sylar.StringUtil

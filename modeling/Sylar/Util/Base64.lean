/-
`base64encode` and `base64decode` of hash_util.cc.

Both pack a group of bytes or characters into a number of 24 bits and take it apart again. The decoder writes through a
pointer into a buffer that is as long as the longest result; what it has written is kept next to what it returns.

Results:
- `decodeGroup_encodeGroup`, `decodeLoop_encode`: a group, and so a text, is decoded to what it was encoded from;
- `accepts_append`, `decodeLoop_cases`: the five early returns leave the texts of alphabet characters in front of at most
  two '=', of a length that is a multiple of four;
- `base64_round_trip`: decoding undoes encoding, and an encoded text has the length and the shape of the format;
- `base64decode_exact`: just the texts of the format are decoded, and the buffer is never left.
-/
import Mathlib.Algebra.Order.Floor.Div
import Sylar.Core.Text

namespace Sylar.HashUtil

open Sylar.Text

/-! ## Encoding -/

def alphabet : Bytes := bytes "ABCDEFGHIJKLMNOPQRSTUVWXYZabcdefghijklmnopqrstuvwxyz0123456789+/"

/-- `base64[i]` -/
def base64Char (i : ℕ) : UInt8 := alphabet.getD i 0

/-- the bytes of a group, and a zero for each that is missing -/
def packBytes (g : Bytes) : ℕ := g.foldl (fun packed b => packed <<< 8 ||| b.toNat) 0 <<< (8 * (3 - g.length))

/-- what one round of the loop appends -/
def encodeGroup (g : Bytes) : Bytes :=
  let packed := packBytes g
  let padding := if g.length = 2 then 1 else if g.length = 1 then 2 else 0
  [base64Char (packed >>> 18), base64Char (packed >>> 12 &&& 0x3f)] ++
    (if padding ≠ 2 then [base64Char (packed >>> 6 &&& 0x3f)] else []) ++
    (if padding = 0 then [base64Char (packed &&& 0x3f)] else []) ++ List.replicate padding '='.toUInt8

def base64encode (data : Bytes) : Bytes :=
  if _h : data = [] then [] else encodeGroup (data.take 3) ++ base64encode (data.drop 3)
termination_by data.length
decreasing_by
  have hpos := List.length_pos_of_ne_nil ‹_›
  rw [List.length_drop]
  omega

/-! ## Decoding -/

def base64Value (c : UInt8) : Option ℕ :=
  if 'A'.toUInt8 ≤ c ∧ c ≤ 'Z'.toUInt8 then some (c - 'A'.toUInt8).toNat
  else if 'a'.toUInt8 ≤ c ∧ c ≤ 'z'.toUInt8 then some ((c - 'a'.toUInt8).toNat + 26)
  else if '0'.toUInt8 ≤ c ∧ c ≤ '9'.toUInt8 then some ((c - '0'.toUInt8).toNat + 52)
  else if c = '+'.toUInt8 then some 62
  else if c = '/'.toUInt8 then some 63
  else none

/-- one round of the inner loop on `padding` and `packed`; `none` is its `return ""` -/
def decodeStep (st : ℕ × ℕ) (c : UInt8) : Option (ℕ × ℕ) :=
  let (padding, packed) := st
  if c = '='.toUInt8 then some (padding + 1, packed <<< 6)
  else if padding > 0 then none
  else (base64Value c).map fun val => (padding, packed <<< 6 ||| val)

def decodeGroup (g : Bytes) : Option (ℕ × ℕ) := g.foldlM decodeStep (0, 0)

/-- the bytes that are written for a group -/
def unpackBytes (padding packed : ℕ) : Bytes :=
  [UInt8.ofNat (packed >>> 16 &&& 0xff)] ++ (if padding ≠ 2 then [UInt8.ofNat (packed >>> 8 &&& 0xff)] else []) ++
    (if padding = 0 then [UInt8.ofNat (packed &&& 0xff)] else [])

/-- the string that is returned, and what has been written to the buffer by then -/
structure Decoded where
  result : Bytes
  written : Bytes
deriving DecidableEq, Repr

/-- `ptr` is in front of `s` -/
def decodeLoop (written s : Bytes) : Decoded :=
  if _h : s = [] then ⟨written, written⟩
  else
    match decodeGroup (s.take 4) with
    | none => ⟨[], written⟩
    | some (padding, packed) =>
      if (s.take 4).length ≠ 4 then ⟨[], written⟩
      else if padding > 0 ∧ s.drop 4 ≠ [] then ⟨[], written⟩
      else if padding > 2 then ⟨[], written⟩
      else decodeLoop (written ++ unpackBytes padding packed) (s.drop 4)
termination_by s.length
decreasing_by
  have hpos := List.length_pos_of_ne_nil ‹_›
  rw [List.length_drop]
  omega

def base64decode (src : Bytes) : Decoded := decodeLoop [] src

/-! ## Groups -/

theorem shiftLeft_or {x v k : ℕ} (h : v < 2 ^ k) : x <<< k ||| v = x * 2 ^ k + v := by
  rw [← Nat.shiftLeft_add_eq_or_of_lt h, Nat.shiftLeft_eq]

theorem base64Value_base64Char {i : ℕ} (h : i < 64) : base64Value (base64Char i) = some i := by
  revert i
  decide +kernel

/-- the characters of the table -/
def inAlphabet (c : UInt8) : Bool :=
  ('A'.toUInt8 ≤ c && c ≤ 'Z'.toUInt8) || ('a'.toUInt8 ≤ c && c ≤ 'z'.toUInt8) ||
    ('0'.toUInt8 ≤ c && c ≤ '9'.toUInt8) || c = '+'.toUInt8 || c = '/'.toUInt8

theorem base64Value_isSome (c : UInt8) : (base64Value c).isSome = inAlphabet c := by
  revert c
  apply forall_byte
  decide +kernel

theorem inAlphabet_base64Char {i : ℕ} (h : i < 64) : inAlphabet (base64Char i) = true := by
  rw [← base64Value_isSome, base64Value_base64Char h]
  rfl

theorem ne_pad {c : UInt8} (h : inAlphabet c = true) : c ≠ '='.toUInt8 := by
  rintro rfl
  exact absurd h (by decide)

/-- characters of the alphabet, and `n` times '=' -/
def Padded (n : ℕ) (s : Bytes) : Prop :=
  ∃ body, s = body ++ List.replicate n '='.toUInt8 ∧ ∀ c ∈ body, inAlphabet c = true

/-- the number of '=' is determined -/
theorem Padded.count {n : ℕ} {s : Bytes} (h : Padded n s) : s.count '='.toUInt8 = n := by
  obtain ⟨body, rfl, hbody⟩ := h
  have hzero : body.count '='.toUInt8 = 0 := List.count_eq_zero_of_not_mem fun hmem => ne_pad (hbody _ hmem) rfl
  rw [List.count_append, hzero, List.count_replicate_self, Nat.zero_add]

theorem padded_cons {n : ℕ} {c : UInt8} {s : Bytes} (hc : inAlphabet c = true) : Padded n (c :: s) ↔ Padded n s := by
  constructor
  · rintro ⟨body, heq, hbody⟩
    cases body with
    | nil =>
      -- '=' is not in the alphabet
      cases n with
      | zero => cases heq
      | succ n => exact absurd (List.cons.inj heq).1 (ne_pad hc)
    | cons d body =>
      obtain ⟨rfl, hs⟩ := List.cons.inj heq
      exact ⟨body, hs, fun x hx => hbody x (List.mem_cons_of_mem _ hx)⟩
  · rintro ⟨body, rfl, hbody⟩
    exact ⟨c :: body, rfl, by simpa [hc] using hbody⟩

/-- behind the first '=' there are only more of them -/
theorem padded_cons_pad {n : ℕ} {s : Bytes} :
    Padded n ('='.toUInt8 :: s) ↔ n = 1 + s.length ∧ ∀ c ∈ s, c = '='.toUInt8 := by
  constructor
  · rintro ⟨body, heq, hbody⟩
    cases body with
    | nil =>
      rw [List.nil_append, List.eq_replicate_iff, List.length_cons] at heq
      exact ⟨by omega, fun c hc => heq.2 c (List.mem_cons_of_mem _ hc)⟩
    | cons d body => exact absurd (List.cons.inj heq).1.symm (ne_pad (hbody d List.mem_cons_self))
  · rintro ⟨rfl, hall⟩
    refine ⟨[], ?_, by simp⟩
    rw [List.nil_append, List.eq_replicate_iff, List.length_cons]
    exact ⟨Nat.add_comm _ _, by simpa using hall⟩

theorem padded_head {n : ℕ} {c : UInt8} {s : Bytes} (h : Padded n (c :: s)) :
    c = '='.toUInt8 ∨ inAlphabet c = true := by
  obtain ⟨body, heq, hbody⟩ := h
  cases body with
  | nil =>
    cases n with
    | zero => cases heq
    | succ n => exact .inl (List.cons.inj heq).1
  | cons d body =>
    right
    rw [(List.cons.inj heq).1]
    exact hbody d List.mem_cons_self

/-- behind an '=' the inner loop goes through '=' only -/
theorem foldlM_pads (g : Bytes) {k n : ℕ} (packed : ℕ) (hk : 0 < k) :
    (∃ packed', g.foldlM decodeStep (k, packed) = some (n, packed')) ↔ n = k + g.length ∧ ∀ c ∈ g, c = '='.toUInt8 := by
  induction g generalizing k packed with
  | nil => simp [eq_comm]
  | cons c g ih =>
    rw [List.foldlM_cons, List.forall_mem_cons, List.length_cons]
    by_cases hc : c = '='.toUInt8
    · have hstep : decodeStep (k, packed) c = some (k + 1, packed <<< 6) := by simp [decodeStep, hc]
      rw [hstep, Option.bind_eq_bind, Option.bind_some, ih _ (Nat.succ_pos k)]
      have hlen : k + 1 + g.length = k + (g.length + 1) := by omega
      simp only [hc, true_and, Nat.succ_eq_add_one, hlen]
    · have hstep : decodeStep (k, packed) c = none := by simp [decodeStep, hc, hk]
      rw [hstep]
      simp [hc]

theorem foldlM_iff (g : Bytes) (n packed : ℕ) :
    (∃ packed', g.foldlM decodeStep (0, packed) = some (n, packed')) ↔ Padded n g := by
  induction g generalizing packed with
  | nil =>
    have hnil : Padded n [] ↔ n = 0 := by simp [Padded, List.replicate_eq_nil_iff]
    rw [hnil]
    simp [eq_comm]
  | cons c g ih =>
    rw [List.foldlM_cons]
    by_cases hpad : c = '='.toUInt8
    · have hstep : decodeStep (0, packed) c = some (1, packed <<< 6) := by simp [decodeStep, hpad]
      rw [hstep, Option.bind_eq_bind, Option.bind_some, foldlM_pads g _ Nat.one_pos, hpad, padded_cons_pad]
    · have hvalue := base64Value_isSome c
      cases hval : base64Value c with
      | some val =>
        rw [hval] at hvalue
        have hstep : decodeStep (0, packed) c = some (0, packed <<< 6 ||| val) := by simp [decodeStep, hpad, hval]
        rw [hstep, Option.bind_eq_bind, Option.bind_some, ih, padded_cons hvalue.symm]
      | none =>
        rw [hval] at hvalue
        have hstep : decodeStep (0, packed) c = none := by simp [decodeStep, hpad, hval]
        rw [hstep]
        refine iff_of_false (by simp) fun h => ?_
        rcases padded_head h with hc | hc
        · exact hpad hc
        · rw [hc] at hvalue
          cases hvalue

/-- the inner loop counts the '=' and accepts nothing else behind them -/
theorem decodeGroup_iff (g : Bytes) (n : ℕ) : (∃ packed, decodeGroup g = some (n, packed)) ↔ Padded n g :=
  foldlM_iff g n 0

/-- a text in two parts: the first is free of '=', or the second is nothing but '=' -/
theorem padded_append {n : ℕ} {g t : Bytes} :
    Padded n (g ++ t) ↔
      (Padded 0 g ∧ Padded n t) ∨ ∃ m, 0 < m ∧ m + t.length = n ∧ Padded m g ∧ ∀ c ∈ t, c = '='.toUInt8 := by
  have hnil : ∀ m, Padded m [] ↔ m = 0 := fun m => by simp [Padded, List.replicate_eq_nil_iff]
  induction g with
  | nil =>
    simp only [List.nil_append, hnil, true_and]
    refine ⟨.inl, fun h => h.elim id ?_⟩
    rintro ⟨m, hpos, -, rfl, -⟩
    exact absurd hpos (Nat.lt_irrefl 0)
  | cons c g ih =>
    rw [List.cons_append]
    by_cases hpad : c = '='.toUInt8
    · simp only [hpad, padded_cons_pad, List.length_append, List.forall_mem_append]
      constructor
      · rintro ⟨rfl, hg, ht⟩
        exact .inr ⟨1 + g.length, by omega, by omega, ⟨rfl, hg⟩, ht⟩
      · intro h
        rcases h with ⟨⟨hzero, -⟩, -⟩ | ⟨m, -, hn, ⟨rfl, hg⟩, ht⟩
        · omega
        · exact ⟨by omega, hg, ht⟩
    · by_cases hc : inAlphabet c = true
      · simp only [padded_cons hc, ih]
      · have hnot : ∀ (m : ℕ) (s : Bytes), ¬ Padded m (c :: s) := fun m s h => (padded_head h).elim hpad hc
        simp only [hnot, false_and, and_false, exists_false, or_self]

/-! ## Round trip -/

theorem decodeStep_base64Char {i packed : ℕ} (h : i < 64) :
    decodeStep (0, packed) (base64Char i) = some (0, packed * 64 + i) := by
  simp only [decodeStep, if_neg (ne_pad (inAlphabet_base64Char h)), Nat.lt_irrefl, if_false, base64Value_base64Char h,
    Option.map_some, shiftLeft_or (k := 6) h]
  rfl

theorem decodeStep_pad (padding packed : ℕ) :
    decodeStep (padding, packed) '='.toUInt8 = some (padding + 1, packed * 64) := by
  simp only [decodeStep, if_true, Nat.shiftLeft_eq]

/-- the characters of a packed group -/
def charAtShift (packed k : ℕ) : UInt8 := base64Char (packed >>> k &&& 0x3f)

/-- packing four characters again; the last of them may be '=' where its bits are zero -/
theorem decodeGroup_chars {packed : ℕ} (h : packed < 2 ^ 24) :
    decodeGroup [charAtShift packed 18, charAtShift packed 12, charAtShift packed 6, charAtShift packed 0] =
        some (0, packed) ∧
      (packed % 2 ^ 6 = 0 →
        decodeGroup [charAtShift packed 18, charAtShift packed 12, charAtShift packed 6, '='.toUInt8] =
          some (1, packed)) ∧
      (packed % 2 ^ 12 = 0 →
        decodeGroup [charAtShift packed 18, charAtShift packed 12, '='.toUInt8, '='.toUInt8] = some (2, packed)) := by
  have hchar : ∀ p k : ℕ, decodeStep (0, p) (charAtShift packed k) = some (0, p * 64 + packed / 2 ^ k % 64) := by
    intro p k
    have hmask : packed >>> k &&& 0x3f = packed / 2 ^ k % 64 := by
      rw [Nat.shiftRight_eq_div_pow]
      exact Nat.and_two_pow_sub_one_eq_mod _ 6
    rw [charAtShift, hmask, decodeStep_base64Char (Nat.mod_lt _ (by omega))]
  simp only [decodeGroup, List.foldlM_cons, List.foldlM_nil, hchar, decodeStep_pad, Option.bind_eq_bind, Option.bind_some,
    Option.pure_def, Option.some.injEq, Prod.mk.injEq, true_and]
  refine ⟨by omega, fun hzero => by omega, fun hzero => by omega⟩

theorem packBytes_eq (a b c : UInt8) :
    packBytes [a] = a.toNat * 65536 ∧ packBytes [a, b] = a.toNat * 65536 + b.toNat * 256 ∧
      packBytes [a, b, c] = a.toNat * 65536 + b.toNat * 256 + c.toNat := by
  have hor : ∀ (x : ℕ) (d : UInt8), x <<< 8 ||| d.toNat = x * 256 + d.toNat := fun x d => shiftLeft_or (k := 8) d.toNat_lt
  simp only [packBytes, List.foldl_cons, List.foldl_nil, hor]
  simp only [List.length_cons, List.length_nil, Nat.shiftLeft_eq]
  omega

/-- the bytes of a packed group -/
theorem unpackBytes_eq {packed : ℕ} {a b c : UInt8} (h : packed = a.toNat * 65536 + b.toNat * 256 + c.toNat) :
    unpackBytes 0 packed = [a, b, c] ∧ unpackBytes 1 packed = [a, b] ∧ unpackBytes 2 packed = [a] := by
  have hbyte : ∀ (k : ℕ) (d : UInt8), packed / 2 ^ k % 256 = d.toNat → UInt8.ofNat (packed >>> k &&& 0xff) = d := by
    intro k d hd
    have hmask : packed >>> k &&& 0xff = packed / 2 ^ k % 256 := by
      rw [Nat.shiftRight_eq_div_pow]
      exact Nat.and_two_pow_sub_one_eq_mod _ 8
    rw [hmask, hd, UInt8.ofNat_toNat]
  have ha := a.toNat_lt
  have hb := b.toNat_lt
  have hc := c.toNat_lt
  have h16 := hbyte 16 a (by omega)
  have h8 := hbyte 8 b (by omega)
  have h0 : UInt8.ofNat (packed &&& 0xff) = c := hbyte 0 c (by omega)
  simp [unpackBytes, h16, h8, h0]

/-- a group of one to three bytes comes back, with an '=' for each byte that is missing -/
theorem decodeGroup_encodeGroup {g : Bytes} (hne : g ≠ []) (hle : g.length ≤ 3) :
    ∃ packed, decodeGroup (encodeGroup g) = some (3 - g.length, packed) ∧ unpackBytes (3 - g.length) packed = g ∧
      (encodeGroup g).length = 4 := by
  have hfirst : ∀ {packed : ℕ}, packed < 2 ^ 24 → base64Char (packed >>> 18) = charAtShift packed 18 := by
    intro packed h
    rw [charAtShift, Nat.and_two_pow_sub_one_of_lt_two_pow (n := 6)]
    rw [Nat.shiftRight_eq_div_pow]
    omega
  rcases g with _ | ⟨a, _ | ⟨b, _ | ⟨c, _ | ⟨d, g⟩⟩⟩⟩
  · exact absurd rfl hne
  · have hpack := (packBytes_eq a 0 0).1
    have hlt : packBytes [a] < 2 ^ 24 := by
      have ha := a.toNat_lt
      omega
    refine ⟨packBytes [a], ?_, (@unpackBytes_eq (packBytes [a]) a 0 0 (by simp [hpack])).2.2, rfl⟩
    rw [encodeGroup, hfirst hlt]
    exact (decodeGroup_chars hlt).2.2 (by omega)
  · have hpack := (packBytes_eq a b 0).2.1
    have hlt : packBytes [a, b] < 2 ^ 24 := by
      have ha := a.toNat_lt
      have hb := b.toNat_lt
      omega
    refine ⟨packBytes [a, b], ?_, (@unpackBytes_eq (packBytes [a, b]) a b 0 (by simp [hpack])).2.1, rfl⟩
    rw [encodeGroup, hfirst hlt]
    exact (decodeGroup_chars hlt).2.1 (by omega)
  · have hpack := (packBytes_eq a b c).2.2
    have hlt : packBytes [a, b, c] < 2 ^ 24 := by
      have ha := a.toNat_lt
      have hb := b.toNat_lt
      have hc := c.toNat_lt
      omega
    refine ⟨packBytes [a, b, c], ?_, (unpackBytes_eq hpack).1, rfl⟩
    rw [encodeGroup, hfirst hlt]
    exact (decodeGroup_chars hlt).1
  · simp only [List.length_cons] at hle
    omega

/-! ## The loops -/

/-- one round on a full group -/
theorem decodeLoop_append (written : Bytes) {g : Bytes} (t : Bytes) (hg : g.length = 4) :
    decodeLoop written (g ++ t) =
      match decodeGroup g with
      | none => ⟨[], written⟩
      | some (padding, packed) =>
        if padding > 0 ∧ t ≠ [] ∨ padding > 2 then ⟨[], written⟩
        else decodeLoop (written ++ unpackBytes padding packed) t := by
  have hne : g ++ t ≠ [] := by
    rw [← List.length_pos_iff, List.length_append]
    omega
  rw [decodeLoop, dif_neg hne, List.take_left' hg, List.drop_left' hg]
  cases decodeGroup g with
  | none => rfl
  | some st =>
    simp only [hg, ne_eq, not_true_eq_false, if_false]
    by_cases hmore : st.1 > 0 ∧ t ≠ []
    · rw [if_pos hmore, if_pos (.inl hmore)]
    · rw [if_neg hmore]
      by_cases hmany : st.1 > 2
      · rw [if_pos hmany, if_pos (.inr hmany)]
      · rw [if_neg hmany, if_neg (not_or_intro hmore hmany)]

/-- the rest of a text that is no full group is rejected -/
theorem decodeLoop_short (written : Bytes) {s : Bytes} (hne : s ≠ []) (hlt : s.length < 4) :
    decodeLoop written s = ⟨[], written⟩ := by
  have htake : (s.take 4).length ≠ 4 := by
    rw [List.length_take]
    omega
  rw [decodeLoop, dif_neg hne]
  cases decodeGroup (s.take 4) with
  | none => rfl
  | some st => exact if_pos htake

theorem decodeLoop_encode (data written : Bytes) :
    decodeLoop written (base64encode data) = ⟨written ++ data, written ++ data⟩ := by
  induction data using base64encode.induct generalizing written with
  | case1 => simp [base64encode, decodeLoop]
  | case2 data hne ih =>
    have htake : data.take 3 ≠ [] := by simpa using hne
    obtain ⟨packed, hgroup, hbytes, hlen⟩ := decodeGroup_encodeGroup htake (List.length_take_le 3 data)
    have hgo : ¬ (3 - (data.take 3).length > 0 ∧ base64encode (data.drop 3) ≠ [] ∨ 3 - (data.take 3).length > 2) := by
      have hpos := List.length_pos_of_ne_nil htake
      intro hstop
      rcases hstop with ⟨hpad, hrest⟩ | hmany
      · -- a short group is the last one
        have hnil : data.drop 3 = [] := by
          rw [List.length_take] at hpad
          rw [List.drop_eq_nil_iff]
          omega
        rw [hnil] at hrest
        exact hrest (by simp [base64encode])
      · omega
    rw [base64encode, dif_neg hne, decodeLoop_append _ _ hlen, hgroup]
    simp only [if_neg hgo, ih, hbytes, List.append_assoc, List.take_append_drop]

/-- the texts that are decoded -/
def Accepts (s : Bytes) : Prop := s.length % 4 = 0 ∧ ∃ n ≤ 2, Padded n s

theorem accepts_nil : Accepts [] := ⟨rfl, 0, Nat.zero_le 2, [], rfl, by simp⟩

/-- one group less -/
theorem accepts_append {g t : Bytes} (hg : g.length = 4) :
    Accepts (g ++ t) ↔ (Padded 0 g ∧ Accepts t) ∨ (t = [] ∧ ∃ m, 0 < m ∧ m ≤ 2 ∧ Padded m g) := by
  constructor
  · rintro ⟨hlen, n, hn, hpad⟩
    rw [List.length_append, hg, Nat.add_mod_left] at hlen
    rcases padded_append.1 hpad with ⟨hzero, ht⟩ | ⟨m, hpos, hm, hmpad, -⟩
    · exact .inl ⟨hzero, hlen, n, hn, ht⟩
    · have hnil : t = [] := List.length_eq_zero_iff.1 (by omega)
      exact .inr ⟨hnil, m, hpos, by omega, hmpad⟩
  · intro h
    rcases h with ⟨hzero, hlen, n, hn, ht⟩ | ⟨rfl, m, -, hm, hmpad⟩
    · refine ⟨?_, n, hn, padded_append.2 (.inl ⟨hzero, ht⟩)⟩
      rw [List.length_append, hg, Nat.add_mod_left, hlen]
    · rw [List.append_nil]
      exact ⟨by rw [hg], m, hm, hmpad⟩

/-- a group that lets the loop go on does not change what is accepted -/
theorem accepts_append_iff {g t : Bytes} {n : ℕ} (hg : g.length = 4) (hpad : Padded n g) :
    Accepts (g ++ t) ↔ ¬ (n > 0 ∧ t ≠ [] ∨ n > 2) ∧ Accepts t := by
  have hcount : ∀ {m}, Padded m g → m = n := fun h => h.count.symm.trans hpad.count
  rw [accepts_append hg]
  constructor
  · intro h
    rcases h with ⟨hzero, ht⟩ | ⟨rfl, m, -, hm, hmpad⟩
    · obtain rfl := hcount hzero
      exact ⟨by omega, ht⟩
    · obtain rfl := hcount hmpad
      refine ⟨?_, accepts_nil⟩
      intro hstop
      rcases hstop with ⟨-, hne⟩ | hmany
      · exact hne rfl
      · omega
  · rintro ⟨hgo, ht⟩
    rw [not_or, not_and_not_right, Nat.not_lt] at hgo
    by_cases hn : n = 0
    · subst hn
      exact .inl ⟨hpad, ht⟩
    · exact .inr ⟨hgo.1 (Nat.pos_of_ne_zero hn), n, Nat.pos_of_ne_zero hn, hgo.2, hpad⟩

theorem length_unpackBytes {n : ℕ} (packed : ℕ) (h : n ≤ 2) : (unpackBytes n packed).length + n = 3 := by
  interval_cases n <;> rfl

/-- **Decoding.** The bytes of a text that is accepted, or nothing; no more than three bytes are written for a group. -/
theorem decodeLoop_cases (written s : Bytes) :
    (Accepts s ∧ ∃ out : Bytes, decodeLoop written s = ⟨written ++ out, written ++ out⟩ ∧
        out.length + s.count '='.toUInt8 = 3 * (s.length / 4)) ∨
      (¬ Accepts s ∧ ∃ out : Bytes, decodeLoop written s = ⟨[], written ++ out⟩ ∧ out.length ≤ 3 * (s.length / 4)) := by
  induction hn : s.length using Nat.strong_induction_on generalizing written s with
  | _ k ih =>
    subst hn
    -- a text that is given up on here
    have hreject : decodeLoop written s = ⟨[], written⟩ →
        ∃ out : Bytes, decodeLoop written s = ⟨[], written ++ out⟩ ∧ out.length ≤ 3 * (s.length / 4) :=
      fun h => ⟨[], by rw [h, List.append_nil], Nat.zero_le _⟩
    by_cases hnil : s = []
    · subst hnil
      exact .inl ⟨accepts_nil, [], by simp [decodeLoop], rfl⟩
    by_cases hlt : s.length < 4
    · refine .inr ⟨fun h => ?_, hreject (decodeLoop_short written hnil hlt)⟩
      have hpos := List.length_pos_of_ne_nil hnil
      have hlen := h.1
      omega
    obtain ⟨g, t, rfl, hg⟩ : ∃ g t, s = g ++ t ∧ g.length = 4 :=
      ⟨s.take 4, s.drop 4, (List.take_append_drop 4 s).symm, by rw [List.length_take]; omega⟩
    have hloop := decodeLoop_append written t hg
    cases hgroup : decodeGroup g with
    | none =>
      rw [hgroup] at hloop
      refine .inr ⟨fun h => ?_, hreject hloop⟩
      have hpadded : ∃ m, Padded m g := by
        rcases (accepts_append hg).1 h with ⟨hzero, -⟩ | ⟨-, m, -, -, hmpad⟩
        · exact ⟨0, hzero⟩
        · exact ⟨m, hmpad⟩
      obtain ⟨m, hm⟩ := hpadded
      obtain ⟨packed, hsome⟩ := (decodeGroup_iff g m).2 hm
      rw [hgroup] at hsome
      cases hsome
    | some st =>
      obtain ⟨n, packed⟩ := st
      have hpad : Padded n g := (decodeGroup_iff g n).1 ⟨packed, hgroup⟩
      have hiff := accepts_append_iff (t := t) hg hpad
      rw [hgroup] at hloop
      by_cases hstop : n > 0 ∧ t ≠ [] ∨ n > 2
      · exact .inr ⟨fun h => (hiff.1 h).1 hstop, hreject (hloop.trans (if_pos hstop))⟩
      · have hgo : decodeLoop written (g ++ t) = decodeLoop (written ++ unpackBytes n packed) t :=
          hloop.trans (if_neg hstop)
        have hthree := length_unpackBytes packed (n := n) (by omega)
        have hcount : (g ++ t).count '='.toUInt8 = n + t.count '='.toUInt8 := by rw [List.count_append, hpad.count]
        have hquarter : (g ++ t).length / 4 = t.length / 4 + 1 := by
          rw [List.length_append, hg]
          omega
        have hless : t.length < (g ++ t).length := by
          rw [List.length_append, hg]
          omega
        rw [hgo, hcount, hquarter]
        have hrest := ih t.length hless (written ++ unpackBytes n packed) t rfl
        rcases hrest with ⟨hacc, out, hout, hlen⟩ | ⟨hnot, out, hout, hlen⟩
        · refine .inl ⟨hiff.2 ⟨hstop, hacc⟩, unpackBytes n packed ++ out, ?_, ?_⟩
          · rw [hout, List.append_assoc]
          · rw [List.length_append]
            omega
        · refine .inr ⟨fun h => hnot (hiff.1 h).2, unpackBytes n packed ++ out, ?_, ?_⟩
          · rw [hout, List.append_assoc]
          · rw [List.length_append]
            omega

/-! ## The formats -/

theorem accepts_encode (data : Bytes) : Accepts (base64encode data) := by
  rcases decodeLoop_cases [] (base64encode data) with ⟨hacc, -⟩ | ⟨-, out, hout, -⟩
  · exact hacc
  · -- only the empty text is decoded to nothing
    rw [decodeLoop_encode] at hout
    obtain rfl : data = [] := congrArg Decoded.result hout
    have hnil : base64encode [] = [] := by simp [base64encode]
    rw [hnil]
    exact accepts_nil

theorem length_base64encode (data : Bytes) : (base64encode data).length = 4 * (data.length ⌈/⌉ 3) := by
  have hacc := accepts_encode data
  rcases decodeLoop_cases [] (base64encode data) with ⟨-, out, hout, hlen⟩ | ⟨hnot, -⟩
  · rw [decodeLoop_encode] at hout
    obtain rfl : data = out := congrArg Decoded.result hout
    obtain ⟨hfour, n, hn, hpad⟩ := hacc
    rw [hpad.count] at hlen
    rw [Nat.ceilDiv_eq_add_pred_div]
    omega
  · exact absurd hacc hnot

/-- **Round trip.** -/
theorem base64_round_trip (s : Bytes) :
    (base64encode s).length = 4 * (s.length ⌈/⌉ 3) ∧ (∃ n ≤ 2, Padded n (base64encode s)) ∧
      (base64decode (base64encode s)).result = s := by
  refine ⟨length_base64encode s, (accepts_encode s).2, ?_⟩
  rw [base64decode, decodeLoop_encode]
  rfl

/-- **Accepted texts.** A result that is not empty comes from just the texts of the format and has the length the format
says, and the buffer is never left. -/
theorem base64decode_exact (src : Bytes) :
    ((base64decode src).result ≠ [] ↔ src ≠ [] ∧ 4 ∣ src.length ∧ ∃ n ≤ 2, Padded n src) ∧
      ((base64decode src).result ≠ [] →
        (base64decode src).result.length = 3 * src.length / 4 - src.count '='.toUInt8) ∧
      (base64decode src).written.length ≤ src.length * 3 / 4 := by
  rw [base64decode]
  rcases decodeLoop_cases [] src with ⟨hacc, out, hout, hlen⟩ | ⟨hnot, out, hout, hlen⟩
  · obtain ⟨hfour, n, hn, hpad⟩ := hacc
    rw [hout]
    simp only [List.nil_append]
    have hne : out ≠ [] ↔ src ≠ [] := by
      rw [← List.length_pos_iff, ← List.length_pos_iff]
      rw [hpad.count] at hlen
      omega
    refine ⟨hne.trans ⟨fun h => ⟨h, Nat.dvd_of_mod_eq_zero hfour, n, hn, hpad⟩, fun h => h.1⟩, fun _ => by omega, by omega⟩
  · rw [hout]
    simp only [List.nil_append]
    refine ⟨iff_of_false (fun h => h rfl) ?_, fun h => absurd rfl h, by omega⟩
    rintro ⟨-, hfour, hpad⟩
    exact hnot ⟨Nat.mod_eq_zero_of_dvd hfour, hpad⟩

end Sylar.HashUtil

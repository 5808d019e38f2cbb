/-
The loops of the varints, and the arithmetic of the zigzag codes.

A varint is a value in groups of seven bits, lowest first. The writers collect it in a local buffer of 5 or 10 bytes; the
readers take any bytes, and of the last group only the bits that the word has room for. The zigzag codes are computed in
two branches: the negative one multiplies in the unsigned type, the other one in the signed type.

Results:
- `length_varint_eq`, `ends_varint`: how many bytes a value takes, and which of them have the top bit;
- `varintSplit_eq_some`: what a reader consumes and what it makes of it, on any bytes;
- `varint_loops`: both, for the four functions of the interface, at every reachable state;
- `zigzag_codes`: the code is right for every value, and exactly where nothing overflows on the way.
-/
import Mathlib.Data.Nat.Size
import Mathlib.Algebra.Order.Floor.Div
import Sylar.Core.MachineInt
import Sylar.ByteArray.Truncated

namespace Sylar.Buffer

open Sylar.MachineInt

/-! ## The writer -/

/-- the groups of seven bits of a value, at least one -/
def varintGroups (v : ℕ) : ℕ := max 1 (v.size ⌈/⌉ 7)

/-- a varint of at most `n` bytes: all but the last have the top bit, and the last one has it only in the last place -/
structure Ends (n : ℕ) (bytes : List UInt8) : Prop where
  short : bytes.length ≤ n
  continued : ∀ b ∈ bytes.dropLast, 0x80 ≤ b
  last : bytes.length = n ∨ ∃ b ∈ bytes.getLast?, b < 0x80

/-- a group off the value takes seven bits off its length -/
theorem size_eq_size_div {v : ℕ} (h : 0x80 ≤ v) : v.size = (v / 128).size + 7 := by
  have hpow : ∀ k, 2 ^ (k + 7) = 2 ^ k * 128 := fun k => by rw [pow_add]; norm_num
  apply le_antisymm
  · rw [Nat.size_le, hpow, ← Nat.div_lt_iff_lt_mul (by norm_num)]
    exact Nat.lt_size_self _
  · have hseven : 7 < v.size := Nat.lt_size.2 h
    have hrest : (v / 128).size ≤ v.size - 7 := by
      rw [Nat.size_le, Nat.div_lt_iff_lt_mul (by norm_num), ← hpow, Nat.sub_add_cancel (by omega)]
      exact Nat.lt_size_self v
    omega

theorem varintGroups_small {v : ℕ} (h : v < 0x80) : varintGroups v = 1 := by
  have hsize : v.size ≤ 7 := Nat.size_le.2 h
  rw [varintGroups, Nat.ceilDiv_eq_add_pred_div]
  omega

theorem varintGroups_big {v : ℕ} (h : 0x80 ≤ v) : varintGroups v = varintGroups (v / 128) + 1 := by
  have hpos : 0 < (v / 128).size := Nat.size_pos.2 (by omega)
  rw [varintGroups, varintGroups, size_eq_size_div h, Nat.ceilDiv_eq_add_pred_div, Nat.ceilDiv_eq_add_pred_div]
  omega

theorem length_varint_eq (v : ℕ) : (varint v).length = varintGroups v := by
  induction v using Nat.strongRecOn with
  | ind v ih =>
    by_cases h : v < 0x80
    · rw [varint_small h, varintGroups_small h, List.length_singleton]
    · have hrest := ih (v / 128) (by omega)
      rw [varint_big (by omega), varintGroups_big (by omega), List.length_cons, hrest]

theorem varint_ne_nil (v : ℕ) : varint v ≠ [] := by
  intro h
  have hlen := length_varint_eq v
  rw [h, varintGroups, List.length_nil] at hlen
  omega

theorem continued_varint (v : ℕ) : ∀ b ∈ (varint v).dropLast, 0x80 ≤ b := by
  induction v using Nat.strongRecOn with
  | ind v ih =>
    by_cases h : v < 0x80
    · simp [varint_small h]
    · intro b hb
      rw [varint_big (by omega), List.dropLast_cons_of_ne_nil (varint_ne_nil _)] at hb
      rcases List.mem_cons.1 hb with rfl | hb'
      · rw [UInt8.le_iff_toNat_le, UInt8.toNat_ofNat', Nat.mod_eq_of_lt (by omega)]
        exact Nat.le_add_left _ _
      · exact ih (v / 128) (by omega) b hb'

theorem last_varint (v : ℕ) : ∃ b ∈ (varint v).getLast?, b < 0x80 := by
  induction v using Nat.strongRecOn with
  | ind v ih =>
    by_cases h : v < 0x80
    · rw [varint_small h]
      refine ⟨UInt8.ofNat v, rfl, ?_⟩
      rw [UInt8.lt_iff_toNat_lt, UInt8.toNat_ofNat', Nat.mod_eq_of_lt (by omega)]
      exact h
    · obtain ⟨b, hb, hlt⟩ := ih (v / 128) (by omega)
      refine ⟨b, ?_, hlt⟩
      rw [varint_big (by omega), List.getLast?_cons_of_ne_nil (varint_ne_nil _)]
      exact hb

theorem ends_varint {n v : ℕ} (hv : v < 2 ^ (7 * n)) (hn : 0 < n) : Ends n (varint v) :=
  ⟨length_varint hv hn, continued_varint v, Or.inr (last_varint v)⟩

/-! ## The reader -/

/-- the groups of seven bits, each at its position -/
def groupSum (bytes : List UInt8) : ℕ := (bytes.mapIdx fun i b => b.toNat % 128 * 2 ^ (7 * i)).sum

theorem groupSum_cons (b : UInt8) (bytes : List UInt8) :
    groupSum (b :: bytes) = b.toNat % 128 + 128 * groupSum bytes := by
  have hshift : ∀ i c, c * 2 ^ (7 * (i + 1)) = 128 * (c * 2 ^ (7 * i)) := fun i c => by
    rw [show 7 * (i + 1) = 7 * i + 7 by ring, pow_add]
    ring
  have htail : (bytes.mapIdx fun i c => c.toNat % 128 * 2 ^ (7 * (i + 1))) =
      (bytes.mapIdx fun i c => c.toNat % 128 * 2 ^ (7 * i)).map (128 * ·) := by
    apply List.ext_getElem (by simp)
    intro i _ _
    rw [List.getElem_mapIdx, List.getElem_map, List.getElem_mapIdx, hshift]
  rw [groupSum, List.mapIdx_cons, List.sum_cons, htail, List.sum_map_mul_left, List.map_id', groupSum]
  norm_num

theorem ends_zero {bytes : List UInt8} : Ends 0 bytes ↔ bytes = [] := by
  refine ⟨fun h => ?_, fun h => ?_⟩
  · exact List.length_eq_zero_iff.1 (Nat.le_zero.1 h.short)
  · subst h
    exact ⟨le_rfl, by simp, Or.inl rfl⟩

/-- a varint is one byte without the top bit, or one with it and a varint behind it -/
theorem ends_succ {n : ℕ} {bytes : List UInt8} : Ends (n + 1) bytes ↔
    ∃ b bs, bytes = b :: bs ∧ (b < 0x80 ∧ bs = [] ∨ 0x80 ≤ b ∧ Ends n bs) := by
  cases bytes with
  | nil =>
    refine iff_of_false (fun h => ?_) (by simp)
    rcases h.last with hlen | ⟨b, hb, _⟩
    · simp at hlen
    · simp at hb
  | cons b bs =>
    have hsplit : (∃ b' bs', b :: bs = b' :: bs' ∧ (b' < 0x80 ∧ bs' = [] ∨ 0x80 ≤ b' ∧ Ends n bs')) ↔
        (b < 0x80 ∧ bs = [] ∨ 0x80 ≤ b ∧ Ends n bs) := by
      refine ⟨fun h => ?_, fun hor => ⟨b, bs, rfl, hor⟩⟩
      obtain ⟨b', bs', heq, hor⟩ := h
      cases heq
      exact hor
    rw [hsplit]
    by_cases hbs : bs = []
    · subst hbs
      by_cases hb : b < 0x80
      · exact iff_of_true ⟨by simp, by simp, Or.inr ⟨b, rfl, hb⟩⟩ (Or.inl ⟨hb, rfl⟩)
      · have hge := UInt8.not_lt.1 hb
        refine ⟨fun h => ?_, fun h => ?_⟩
        · refine Or.inr ⟨hge, by simp, by simp, ?_⟩
          rcases h.last with hlen | ⟨c, hc, hlt⟩
          · exact Or.inl (by rw [List.length_singleton] at hlen; rw [List.length_nil]; omega)
          · rw [List.getLast?_singleton, Option.mem_some_iff] at hc
            subst hc
            exact absurd hlt hb
        · rcases h with ⟨hlt, _⟩ | ⟨_, hends⟩
          · exact absurd hlt hb
          · refine ⟨by simp, by simp, ?_⟩
            rcases hends.last with hlen | ⟨c, hc, _⟩
            · exact Or.inl (by simpa using hlen.symm)
            · simp at hc
    · have hlast : (b :: bs).getLast? = bs.getLast? := List.getLast?_cons_of_ne_nil hbs
      have hinit : (b :: bs).dropLast = b :: bs.dropLast := List.dropLast_cons_of_ne_nil hbs
      refine ⟨fun h => ?_, fun h => ?_⟩
      · have hcont := h.continued
        rw [hinit, List.forall_mem_cons] at hcont
        refine Or.inr ⟨hcont.1, by simpa using h.short, hcont.2, ?_⟩
        rw [← hlast]
        exact h.last.imp_left fun hlen => by simpa using hlen
      · rcases h with ⟨_, hnil⟩ | ⟨hge, hends⟩
        · exact absurd hnil hbs
        · refine ⟨by simpa using hends.short, ?_, ?_⟩
          · rw [hinit, List.forall_mem_cons]
            exact ⟨hge, hends.continued⟩
          · rw [hlast]
            exact hends.last.imp_left fun hlen => by simpa using hlen

/-- what a reader takes off the front of any bytes, and the number it makes of it -/
theorem varintSplit_eq_some {n : ℕ} {bytes rest : List UInt8} {v : ℕ} : varintSplit n bytes = some (v, rest) ↔
    ∃ used, bytes = used ++ rest ∧ Ends n used ∧ v = groupSum used := by
  induction n generalizing bytes v with
  | zero =>
    simp only [varintSplit, Option.some.injEq, Prod.mk.injEq, ends_zero]
    refine ⟨fun h => ?_, fun h => ?_⟩
    · obtain ⟨rfl, rfl⟩ := h
      exact ⟨[], rfl, rfl, rfl⟩
    · obtain ⟨used, rfl, rfl, rfl⟩ := h
      exact ⟨rfl, rfl⟩
  | succ n ih =>
    cases bytes with
    | nil =>
      refine iff_of_false (by simp [varintSplit]) fun h => ?_
      obtain ⟨used, hused, hends, _⟩ := h
      obtain ⟨b, bs, rfl, _⟩ := ends_succ.1 hends
      simp at hused
    | cons b bs =>
      have hmod := Nat.mod_eq_of_lt (a := b.toNat) (b := 128)
      by_cases hb : b < 0x80
      · have hsmall : groupSum [b] = b.toNat := by
          rw [groupSum_cons, hmod (UInt8.lt_iff_toNat_lt.1 hb)]
          rfl
        simp only [varintSplit, if_pos hb, Option.some.injEq, Prod.mk.injEq]
        refine ⟨fun h => ?_, fun h => ?_⟩
        · obtain ⟨rfl, rfl⟩ := h
          exact ⟨[b], rfl, ends_succ.2 ⟨b, [], rfl, Or.inl ⟨hb, rfl⟩⟩, hsmall.symm⟩
        · obtain ⟨used, hused, hends, rfl⟩ := h
          obtain ⟨c, cs, rfl, hor⟩ := ends_succ.1 hends
          obtain ⟨rfl, hbs⟩ := List.cons.inj hused
          rcases hor with ⟨_, rfl⟩ | ⟨hge, _⟩
          · exact ⟨hsmall.symm, hbs⟩
          · exact absurd hge (UInt8.not_le.2 hb)
      · have hge := UInt8.not_lt.1 hb
        simp only [varintSplit, if_neg hb, Option.map_eq_some_iff, Prod.exists, Prod.mk.injEq]
        refine ⟨fun h => ?_, fun h => ?_⟩
        · obtain ⟨v', rest', hsplit, rfl, rfl⟩ := h
          obtain ⟨used, rfl, hends, rfl⟩ := ih.1 hsplit
          exact ⟨b :: used, rfl, ends_succ.2 ⟨b, used, rfl, Or.inr ⟨hge, hends⟩⟩, (groupSum_cons b used).symm⟩
        · obtain ⟨used, hused, hends, rfl⟩ := h
          obtain ⟨c, cs, rfl, hor⟩ := ends_succ.1 hends
          obtain ⟨rfl, hbs⟩ := List.cons.inj hused
          rcases hor with ⟨hlt, _⟩ | ⟨_, hends'⟩
          · exact absurd hlt hb
          · exact ⟨groupSum cs, rest, ih.2 ⟨cs, hbs, hends', rfl⟩, (groupSum_cons b cs).symm, rfl⟩

/-- bytes that a reader of at most `n` groups does not run out of -/
def Complete (n : ℕ) (bytes : List UInt8) : Prop := n ≤ bytes.length ∨ ∃ b ∈ bytes, b < 0x80

theorem varintSplit_isSome {n : ℕ} {bytes : List UInt8} : (varintSplit n bytes).isSome ↔ Complete n bytes := by
  have hnone : varintSplit n bytes = none ↔ ¬ Complete n bytes := by
    rw [varintSplit_eq_none, Complete, not_or, not_le]
    refine and_congr_right fun _ => ?_
    push Not
    simp only [UInt8.not_lt]
  rw [← Option.ne_none_iff_isSome, Ne, hnone, not_not]

theorem mem_shifts {bits i : ℕ} : i ∈ shifts bits ↔ i < bits ∧ 7 ∣ i := by
  rw [shifts, List.mem_map]
  refine ⟨fun h => ?_, fun h => ?_⟩
  · obtain ⟨k, hk, rfl⟩ := h
    rw [List.mem_range] at hk
    exact ⟨by omega, Dvd.intro k rfl⟩
  · obtain ⟨hlt, k, rfl⟩ := h
    exact ⟨k, List.mem_range.2 (by omega), rfl⟩

/-! ## The four functions -/

/-- the writer of a value `v` appends its varint, from a buffer of `n` bytes -/
def WritesVarint (n v : ℕ) (w : M Unit) (ba : ByteArray) : Prop :=
  ∃ bytes ba', exec w ba = (.ok (), ba') ∧ ba'.flat = ba.flat.write bytes ∧ bytes.length = max 1 (v.size ⌈/⌉ 7) ∧
    Ends n bytes

/-- a reader of at most `n` groups into `bits` bits takes what belongs to it off the readable bytes; it fails only when
they end too early -/
structure ReadsVarint {α : Type} (n bits : ℕ) (toNat : α → ℕ) (r : M α) (ba : ByteArray) : Prop where
  takes : Complete n ba.readable → ∃ used rest v ba', ba.readable = used ++ rest ∧ Ends n used ∧
    exec r ba = (.ok v, ba') ∧ toNat v = groupSum used % 2 ^ bits ∧ ba'.flat = ba.flat.skip used.length
  fails : ¬ Complete n ba.readable → (exec r ba).1 = .error .outOfRange

theorem writesVarint {n v : ℕ} (hv : v < 2 ^ (7 * n)) (hn : 0 < n) (hn' : n ≤ 10) {ba : ByteArray} (hwf : Wf ba) :
    WritesVarint n v (write (varint v)) ba := by
  have hends := ends_varint hv hn
  have hshort := hends.short
  obtain ⟨ba', hex, hrel⟩ := write_spec hwf.rel (show (varint v).length < 2 ^ 53 by omega)
  exact ⟨varint v, ba', hex, hrel.flat_eq, length_varint_eq v, hends⟩

theorem readsVarint {α : Type} {n bits : ℕ} (hbits : 0 < bits) (hn : Shape.groups bits = n) {conv : ℕ → α}
    {toNat : α → ℕ} (hconv : ∀ m, toNat (conv (m % 2 ^ bits)) = m % 2 ^ bits) {ba : ByteArray} (hwf : Wf ba) :
    ReadsVarint n bits toNat (do return conv (← readVarintLoop bits (shifts bits) 0)) ba := by
  have hdec := (decodes_varint hbits).map conv
  refine ⟨fun hcomplete => ?_, fun hcomplete => ?_⟩
  · obtain ⟨⟨sum, rest⟩, hsplit⟩ := Option.isSome_iff_exists.1 (varintSplit_isSome.2 hcomplete)
    obtain ⟨used, hused, hends, rfl⟩ := varintSplit_eq_some.1 hsplit
    have hsplit' : (Shape.varint bits).split ba.endian ba.readable = some (groupSum used % 2 ^ bits, rest) := by
      rw [Shape.split, hn, hsplit]
      rfl
    obtain ⟨ba', used', hused', -, hex, hrel⟩ := hdec.reads _ _ ba ba.flat _ rest hwf.rel hsplit'
    have hsame : used' = used := List.append_cancel_right (hused'.symm.trans hused)
    subst hsame
    exact ⟨used', rest, _, ba', hused, hends, hex, hconv _, hrel.flat_eq⟩
  · have hshort : (Shape.varint bits).Short ba.readable := by
      rw [← @split_eq_none ba.endian, Shape.split, hn, Option.map_eq_none_iff, ← Option.not_isSome_iff_eq_none,
        varintSplit_isSome]
      exact hcomplete
    obtain ⟨ba', hex, -⟩ := hdec.throws _ _ ba ba.flat hwf.rel hshort
    rw [hex]

/-- **The loops of the varints**, at every reachable state and for every value: the writers emit as few bytes as the
value needs, within their buffers, and the readers take one varint off any bytes, with shift counts below the width. -/
theorem varint_loops (base : ℕ) (hbase : 1 ≤ base) (ba : ByteArray) (h : Reachable base ba) :
    (∀ value : UInt32, WritesVarint 5 value.toNat (writeUint32 value) ba) ∧
    (∀ value : UInt64, WritesVarint 10 value.toNat (writeUint64 value) ba) ∧
    ReadsVarint 5 32 UInt32.toNat readUint32 ba ∧ ReadsVarint 10 64 UInt64.toNat readUint64 ba ∧
    (∀ i, i ∈ shifts 32 ↔ i < 32 ∧ 7 ∣ i) ∧ ∀ i, i ∈ shifts 64 ↔ i < 64 ∧ 7 ∣ i := by
  obtain ⟨hwf, -⟩ := h.kept hbase
  refine ⟨fun value => ?_, fun value => ?_, ?_, ?_, fun i => mem_shifts, fun i => mem_shifts⟩
  · exact writesVarint (value.toNat_lt.trans (by norm_num)) (by norm_num) (by norm_num) hwf
  · exact writesVarint (value.toNat_lt.trans (by norm_num)) (by norm_num) (by norm_num) hwf
  · exact @readsVarint UInt32 5 32 (by norm_num) rfl UInt32.ofNat UInt32.toNat
      (fun m => by rw [UInt32.toNat_ofNat', Nat.mod_mod]) ba hwf
  · exact @readsVarint UInt64 10 64 (by norm_num) rfl UInt64.ofNat UInt64.toNat
      (fun m => by rw [UInt64.toNat_ofNat', Nat.mod_mod]) ba hwf

theorem varint_loops_open : ReadsVarint 5 32 UInt32.toNat readUint32 openVarint :=
  (varint_loops 1 le_rfl openVarint openVarint_reachable).2.2.1

/-! ## Zigzag codes -/

/-- what `EncodeZigzag32` and `EncodeZigzag64` compute in the signed type -/
def signedResults (v : ℤ) : List ℤ := if v < 0 then [-v] else [v * 2]

/-- the zigzag code of a number -/
def zigzagCode (v : ℤ) : ℤ := if v < 0 then -2 * v - 1 else 2 * v

theorem encode_eq_code {w : ℕ} (hw : 2 ≤ w) (v : BitVec w) :
    ((Zigzag.encode v).toNat : ℤ) = zigzagCode v.toInt := by
  have hlt := v.isLt
  rw [Zigzag.toNat_encode hw, zigzagCode, BitVec.toInt_eq_msb_cond]
  cases hs : v.msb
  · simp
  · have hge : 2 * v.toNat ≥ 2 ^ w := BitVec.msb_eq_true_iff_two_mul_ge.1 hs
    have hcast : ((2 ^ w : ℕ) : ℤ) = 2 ^ w := by push_cast; rfl
    simp only [if_true]
    rw [if_pos (by omega)]
    omega

/-- no signed result leaves its type, and the code is the mathematical one -/
structure ZigzagSound (w : ℕ) (v : ℤ) (code : ℕ) : Prop where
  signed : ∀ z ∈ signedResults v, FitsSigned w z
  code : (code : ℤ) = zigzagCode v

theorem signedResults_fit_iff {w : ℕ} (hw : 2 ≤ w) {v : ℤ} (hv : FitsSigned w v) :
    (∀ z ∈ signedResults v, FitsSigned w z) ↔ -2 ^ (w - 1) < v ∧ v < 2 ^ (w - 2) := by
  obtain ⟨m, rfl⟩ : ∃ m, w = m + 2 := ⟨w - 2, by omega⟩
  have hpow : (2 : ℤ) ^ (m + 1) = 2 * 2 ^ m := by ring
  have hpos : (0 : ℤ) < 2 ^ m := by positivity
  obtain ⟨hlo, hhi⟩ := hv
  simp only [FitsSigned, signedResults, Nat.add_sub_cancel, show m + 2 - 1 = m + 1 by omega, hpow] at hlo hhi ⊢
  split
  · simp only [List.mem_singleton, forall_eq]
    omega
  · simp only [List.mem_singleton, forall_eq]
    omega

theorem zigzagSound_iff {w : ℕ} (hw : 2 ≤ w) {v : BitVec w} {code : ℕ} (hcode : code = (Zigzag.encode v).toNat)
    (hv : FitsSigned w v.toInt) :
    ZigzagSound w v.toInt code ↔ -2 ^ (w - 1) < v.toInt ∧ v.toInt < 2 ^ (w - 2) := by
  rw [← signedResults_fit_iff hw hv]
  constructor
  · exact fun h => h.signed
  · exact fun h => ⟨h, by rw [hcode, encode_eq_code hw]⟩

/-- **Zigzag codes**: every code is the mathematical one, and nothing overflows on the way exactly between the smallest
value, whose negation is out of range, and a quarter of the unsigned range, from where on the product is. -/
theorem zigzag_codes (v : Int32) (w : Int64) :
    (ZigzagSound 32 v.toInt (encodeZigzag32 v).toNat ↔ -2 ^ 31 < v.toInt ∧ v.toInt < 2 ^ 30) ∧
    (ZigzagSound 64 w.toInt (encodeZigzag64 w).toNat ↔ -2 ^ 63 < w.toInt ∧ w.toInt < 2 ^ 62) := by
  constructor
  · have hcode : (encodeZigzag32 v).toNat = (Zigzag.encode v.toBitVec).toNat := congrArg BitVec.toNat (encodeZigzag32_eq v)
    exact zigzagSound_iff (by norm_num) hcode ⟨v.le_toInt, v.toInt_lt⟩
  · have hcode : (encodeZigzag64 w).toNat = (Zigzag.encode w.toBitVec).toNat := congrArg BitVec.toNat (encodeZigzag64_eq w)
    exact zigzagSound_iff (by norm_num) hcode ⟨w.le_toInt, w.toInt_lt⟩

/-- the products of 2^30 and 2^62 and the negation of the smallest value -/
theorem zigzag_overflows :
    ¬ ZigzagSound 32 (1073741824 : Int32).toInt (encodeZigzag32 1073741824).toNat ∧
    ¬ ZigzagSound 32 Int32.minValue.toInt (encodeZigzag32 Int32.minValue).toNat ∧
    ¬ ZigzagSound 64 (4611686018427387904 : Int64).toInt (encodeZigzag64 4611686018427387904).toNat ∧
    ¬ ZigzagSound 64 Int64.minValue.toInt (encodeZigzag64 Int64.minValue).toNat := by
  refine ⟨fun h => ?_, fun h => ?_, fun h => ?_, fun h => ?_⟩
  · exact absurd (h.signed (1073741824 * 2) (by decide)) (by decide)
  · exact absurd (h.signed (2 ^ 31) (by decide)) (by decide)
  · exact absurd (h.signed (4611686018427387904 * 2) (by decide)) (by decide)
  · exact absurd (h.signed (2 ^ 63) (by decide)) (by decide)

end Sylar.Buffer

/-
`IPv6Address::insert` of address.cc.

The host is little-endian; the flags of the stream are the default ones. `read` follows the usual rules for such a text
and is not part of the source.

Results:
- `printed_loop`: what the loop has written after any number of groups: they are printed as they are but for the first
  run of zeros, which is left out;
- `insert_forms`: so the text is of one of two forms;
- `read_insert`: a printed address and its port are read back, "::" occurs at most once, and so the text determines them.
-/
import Sylar.Address.Network
import Sylar.Core.Numeral

namespace Sylar.Address

open Sylar.Text Sylar.Numeral

/-! ## Printing -/

def bswap_16 (x : BitVec 16) : BitVec 16 := (x >>> 8) ||| (x <<< 8)

/-- of a `uint16_t` -/
def byteswapOnLittleEndian16 (t : BitVec 16) : BitVec 16 := bswap_16 t

namespace IPv6Address

variable (a : IPv6Address)

/-- `addr[i]`: two bytes of `s6_addr` as they lie in memory -/
def addr (i : ℕ) : BitVec 16 :=
  a.m_addr.sin6_addr.toList.getD (2 * i + 1) 0 ++ a.m_addr.sin6_addr.toList.getD (2 * i) 0

/-- the body of the loop, on the stream and `used_zeros` -/
def insertGroup (st : Bytes × Bool) (i : ℕ) : Bytes × Bool :=
  let (os, used_zeros) := st
  if a.addr i = 0 ∧ ¬ used_zeros then (os, used_zeros)
  else
    let (os, used_zeros) :=
      if i ≠ 0 ∧ a.addr (i - 1) = 0 ∧ ¬ used_zeros then (os ++ bytes ":", true) else (os, used_zeros)
    let os := if i ≠ 0 then os ++ bytes ":" else os
    (os ++ numeral 16 (byteswapOnLittleEndian16 (a.addr i)).toNat, used_zeros)

/-- what is written to a new stream -/
def insert : Bytes :=
  let (os, used_zeros) := (List.range 8).foldl a.insertGroup (bytes "[", false)
  let os := if ¬ used_zeros ∧ a.addr 7 = 0 then os ++ bytes "::" else os
  os ++ bytes "]:" ++ decimal (byteswapOnLittleEndian16 a.m_addr.sin6_port).toNat

def getPort : BitVec 16 := byteswapOnLittleEndian16 a.m_addr.sin6_port

end IPv6Address

/-! ## Reading -/

def readGroup (s : Bytes) : Option (BitVec 16) :=
  (number 16 s).bind fun n => if s.length ≤ 4 then some (BitVec.ofNat 16 n) else none

/-- groups separated by colons, or nothing at all -/
def readGroups (s : Bytes) : Option (List (BitVec 16)) :=
  if s = [] then some [] else (s.splitOn ':'.toUInt8).mapM readGroup

/-- what stands in front of the first "::" and what stands behind it -/
def cutDouble : Bytes → Option (Bytes × Bytes)
  | c :: d :: s =>
    if c = ':'.toUInt8 ∧ d = ':'.toUInt8 then some ([], s) else (cutDouble (d :: s)).map fun p => (c :: p.1, p.2)
  | _ => none

/-- "::" stands for as many groups as are missing -/
def readAddress (s : Bytes) : Option (List (BitVec 16)) :=
  match cutDouble s with
  | none => (readGroups s).bind fun gs => if gs.length = 8 then some gs else none
  | some (front, back) =>
    (readGroups front).bind fun l => (readGroups back).bind fun r =>
      if l.length + r.length < 8 then some (l ++ List.replicate (8 - (l.length + r.length)) 0#16 ++ r) else none

/-- the bytes of a group, in network order -/
def groupBytes (g : BitVec 16) : List (BitVec 8) := [(g >>> 8).setWidth 8, g.setWidth 8]

/-- the address and the port in a text "[address]:port" -/
def read (s : Bytes) : Option (List (BitVec 8) × BitVec 16) :=
  match s with
  | [] => none
  | c :: s =>
    if c = '['.toUInt8 then
      match cut ']'.toUInt8 s with
      | some (address, d :: port) =>
        if d = ':'.toUInt8 then
          (readAddress address).bind fun gs => (number 10 port).bind fun n =>
            if n < 2 ^ 16 then some (gs.flatMap groupBytes, BitVec.ofNat 16 n) else none
        else none
      | _ => none
    else none

/-- the number of places where "::" stands -/
def doubles : Bytes → ℕ
  | c :: d :: s => (if c = ':'.toUInt8 ∧ d = ':'.toUInt8 then 1 else 0) + doubles (d :: s)
  | _ => 0

/-! ## What the loop writes -/

theorem getLsbD_bswap_16 {x : BitVec 16} {i : ℕ} (hi : i < 16) :
    (bswap_16 x).getLsbD i = x.getLsbD (8 * (1 - i / 8) + i % 8) := by
  rw [bswap_16]
  interval_cases i <;> simp

theorem bswap_16_bswap_16 (x : BitVec 16) : bswap_16 (bswap_16 x) = x := by
  refine BitVec.eq_of_getLsbD_eq fun i hi => ?_
  rw [getLsbD_bswap_16 hi, getLsbD_bswap_16 (by omega)]
  congr 1
  omega

theorem bswap_16_eq_zero {x : BitVec 16} : bswap_16 x = 0#16 ↔ x = 0#16 := by
  constructor
  · intro h
    rw [← bswap_16_bswap_16 x, h]
    rfl
  · rintro rfl
    rfl

def group (g : BitVec 16) : Bytes := numeral 16 g.toNat

theorem group_ne_nil (g : BitVec 16) : group g ≠ [] := numeral_ne_nil _

/-- groups with colons between them -/
noncomputable def joined (gs : List (BitVec 16)) : Bytes := [':'.toUInt8].intercalate (gs.map group)

theorem joined_cons {gs : List (BitVec 16)} (h : gs ≠ []) (g : BitVec 16) :
    joined (g :: gs) = group g ++ ':'.toUInt8 :: joined gs := by
  rw [joined, List.map_cons, List.intercalate_cons_of_ne_nil (by simpa using h), List.append_assoc]
  rfl

theorem joined_singleton (g : BitVec 16) : joined [g] = group g := List.intercalate_singleton

theorem joined_concat {gs : List (BitVec 16)} (h : gs ≠ []) (g : BitVec 16) :
    joined (gs ++ [g]) = joined gs ++ bytes ":" ++ group g := by
  induction gs with
  | nil => exact absurd rfl h
  | cons g' gs ih =>
    by_cases hgs : gs = []
    · rw [hgs, List.singleton_append, joined_cons (by simp), joined_singleton, joined_singleton, List.append_assoc]
      rfl
    · rw [List.cons_append, joined_cons (by simp), ih hgs, joined_cons hgs]
      simp only [List.append_assoc, List.cons_append]

/-- what stands on the stream, and `used_zeros`, after the groups `gs` -/
inductive Printed : List (BitVec 16) → Bytes × Bool → Prop
  /-- no run of zeros is over -/
  | first (l : List (BitVec 16)) (k : ℕ) (hl : ∀ g ∈ l, g ≠ 0#16) :
    Printed (l ++ List.replicate k 0#16) (bytes "[" ++ joined l, false)
  /-- the first run of zeros is left out -/
  | later (l : List (BitVec 16)) (k : ℕ) (r : List (BitVec 16)) (hk : 0 < k) (hr : r ≠ []) :
    Printed (l ++ List.replicate k 0#16 ++ r) (bytes "[" ++ joined l ++ bytes "::" ++ joined r, true)

namespace IPv6Address

variable (a : IPv6Address)

/-- the groups in the order of the host -/
def groups (n : ℕ) : List (BitVec 16) := (List.range n).map fun i => byteswapOnLittleEndian16 (a.addr i)

theorem groups_succ (n : ℕ) : a.groups (n + 1) = a.groups n ++ [byteswapOnLittleEndian16 (a.addr n)] := by
  rw [groups, List.range_succ, List.map_append, List.map_singleton, groups]

/-- a zero of the first run -/
theorem insertGroup_zero {n : ℕ} (hg : a.addr n = 0#16) (os : Bytes) : a.insertGroup (os, false) n = (os, false) := by
  simp [insertGroup, hg]

theorem insertGroup_front (hg : ¬ a.addr 0 = 0#16) (os : Bytes) :
    a.insertGroup (os, false) 0 = (os ++ group (byteswapOnLittleEndian16 (a.addr 0)), false) := by
  simp [insertGroup, hg, group]

/-- a group right behind another one -/
theorem insertGroup_next {n : ℕ} (hn : n ≠ 0) (hg : ¬ a.addr n = 0#16) (hprev : ¬ a.addr (n - 1) = 0#16) (os : Bytes) :
    a.insertGroup (os, false) n = (os ++ bytes ":" ++ group (byteswapOnLittleEndian16 (a.addr n)), false) := by
  simp [insertGroup, hn, hg, hprev, group]

/-- the group behind the first run of zeros -/
theorem insertGroup_gap {n : ℕ} (hn : n ≠ 0) (hg : ¬ a.addr n = 0#16) (hprev : a.addr (n - 1) = 0#16) (os : Bytes) :
    a.insertGroup (os, false) n = (os ++ bytes "::" ++ group (byteswapOnLittleEndian16 (a.addr n)), true) := by
  have hcolons : bytes "::" = bytes ":" ++ bytes ":" := rfl
  rw [hcolons]
  simp [insertGroup, hn, hg, hprev, group]

theorem insertGroup_later {n : ℕ} (hn : n ≠ 0) (os : Bytes) :
    a.insertGroup (os, true) n = (os ++ bytes ":" ++ group (byteswapOnLittleEndian16 (a.addr n)), true) := by
  simp [insertGroup, hn, group]

/-- one turn of the loop -/
theorem printed_insertGroup {n : ℕ} {st : Bytes × Bool} (h : Printed (a.groups n) st) :
    Printed (a.groups (n + 1)) (a.insertGroup st n) := by
  rw [groups_succ]
  generalize hgs : a.groups n = gs at h
  have hlength : gs.length = n := by
    rw [← hgs, groups, List.length_map, List.length_range]
  have hlast : n ≠ 0 → gs.getLast? = some (byteswapOnLittleEndian16 (a.addr (n - 1))) := by
    intro hn
    obtain ⟨m, rfl⟩ := Nat.exists_eq_succ_of_ne_zero hn
    rw [← hgs, Nat.succ_eq_add_one, groups_succ, List.getLast?_concat]
    rfl
  have hzero : ∀ i, byteswapOnLittleEndian16 (a.addr i) = 0#16 ↔ a.addr i = 0#16 := fun i => bswap_16_eq_zero
  cases h with
  | first l k hl =>
    by_cases hg : a.addr n = 0#16
    · -- the run of zeros goes on
      rw [insertGroup_zero a hg, (hzero n).2 hg, List.append_assoc, ← List.replicate_succ']
      exact .first l (k + 1) hl
    · cases k with
      | zero =>
        -- no zero before: the group follows the others
        rw [List.replicate_zero, List.append_nil] at hlength hlast ⊢
        have hnext : a.insertGroup (bytes "[" ++ joined l, false) n =
            (bytes "[" ++ joined (l ++ [byteswapOnLittleEndian16 (a.addr n)]), false) := by
          by_cases hn : n = 0
          · obtain rfl : l = [] := List.length_eq_zero_iff.1 (hlength.trans hn)
            subst hn
            rw [insertGroup_front a hg, List.nil_append, joined_singleton, joined, List.map_nil, List.intercalate_nil,
              List.append_nil]
          · have hprev : ¬ a.addr (n - 1) = 0#16 := by
              rw [← hzero]
              exact hl _ (List.mem_of_getLast? (hlast hn))
            have hne : l ≠ [] := by
              rintro rfl
              exact hn hlength.symm
            rw [insertGroup_next a hn hg hprev, joined_concat hne, List.append_assoc, List.append_assoc,
              List.append_assoc]
        have hnonzero : ∀ g ∈ l ++ [byteswapOnLittleEndian16 (a.addr n)], g ≠ 0#16 := by
          intro g hmem
          rcases List.mem_append.1 hmem with hmem | hmem
          · exact hl g hmem
          · rw [List.mem_singleton.1 hmem]
            exact fun h => hg ((hzero n).1 h)
        have hprinted := Printed.first _ 0 hnonzero
        rwa [List.replicate_zero, List.append_nil, ← hnext] at hprinted
      | succ k =>
        -- the first run of zeros is over
        have hn : n ≠ 0 := by
          rw [← hlength]
          simp
        have hprev : a.addr (n - 1) = 0#16 := by
          have hend := hlast hn
          rw [List.replicate_succ', ← List.append_assoc, List.getLast?_concat, Option.some.injEq] at hend
          exact (hzero _).1 hend.symm
        rw [insertGroup_gap a hn hg hprev, ← joined_singleton]
        exact .later l (k + 1) _ (Nat.succ_pos k) (by simp)
  | later l k r hk hr =>
    have hn : n ≠ 0 := by
      rw [← hlength, List.length_append, List.length_append, List.length_replicate]
      omega
    have hprinted := Printed.later l k (r ++ [byteswapOnLittleEndian16 (a.addr n)]) hk (by simp)
    rw [joined_concat hr] at hprinted
    rw [insertGroup_later a hn, List.append_assoc]
    simpa only [List.append_assoc] using hprinted

/-- the whole loop -/
theorem printed_loop (n : ℕ) : Printed (a.groups n) ((List.range n).foldl a.insertGroup (bytes "[", false)) := by
  induction n with
  | zero => exact .first [] 0 (by simp)
  | succ n ih =>
    rw [List.range_succ, List.foldl_append, List.foldl_cons, List.foldl_nil]
    exact a.printed_insertGroup ih

/-- **Two forms**: the groups as they are, without a zero, or with the first run of zeros left out. -/
theorem insert_forms : ∃ l : List (BitVec 16),
    ((∀ g ∈ l, g ≠ 0#16) ∧ a.groups 8 = l ∧
      a.insert = bytes "[" ++ joined l ++ bytes "]:" ++ decimal a.getPort.toNat) ∨
    ∃ k r, 0 < k ∧ a.groups 8 = l ++ List.replicate k 0#16 ++ r ∧
      a.insert = bytes "[" ++ (joined l ++ bytes "::" ++ joined r) ++ bytes "]:" ++ decimal a.getPort.toNat := by
  have hloop := a.printed_loop 8
  have hlast : (a.groups 8).getLast? = some (byteswapOnLittleEndian16 (a.addr 7)) := by
    rw [groups_succ, List.getLast?_concat]
  have hzero : byteswapOnLittleEndian16 (a.addr 7) = 0#16 ↔ a.addr 7 = 0#16 := bswap_16_eq_zero
  rw [insert]
  generalize hst : (List.range 8).foldl a.insertGroup (bytes "[", false) = st at hloop
  generalize hgs : a.groups 8 = gs at hloop hlast
  cases hloop with
  | first l k hl =>
    refine ⟨l, ?_⟩
    cases k with
    | zero =>
      rw [List.replicate_zero, List.append_nil] at hlast ⊢
      have hend : ¬ a.addr 7 = 0#16 := by
        rw [← hzero]
        exact hl _ (List.mem_of_getLast? hlast)
      refine Or.inl ⟨hl, rfl, ?_⟩
      simp [hend, getPort]
    | succ k =>
      have hend : a.addr 7 = 0#16 := by
        rw [List.replicate_succ', ← List.append_assoc, List.getLast?_concat, Option.some.injEq] at hlast
        exact hzero.1 hlast.symm
      refine Or.inr ⟨k + 1, [], Nat.succ_pos k, (List.append_nil _).symm, ?_⟩
      simp [hend, getPort, joined]
  | later l k r hk hr =>
    refine ⟨l, Or.inr ⟨k, r, hk, rfl, ?_⟩⟩
    simp [getPort]

end IPv6Address

/-! ## Colons -/

theorem notMem_group {c : UInt8} (hc : digit c = none) (g : BitVec 16) : c ∉ group g :=
  notMem_numeral (by decide) (by decide) hc _

theorem doubles_of_notMem {s : Bytes} (h : ':'.toUInt8 ∉ s) : doubles s = 0 := by
  induction s with
  | nil => rfl
  | cons c s ih =>
    cases s with
    | nil => rfl
    | cons d s =>
      obtain ⟨hc, hs⟩ := not_or.1 (List.mem_cons.not.1 h)
      rw [doubles, ih hs, if_neg fun hcd => hc hcd.1.symm]

/-- no "::" comes about where two texts meet without a colon on both sides -/
theorem doubles_append {s t : Bytes} (h : s.getLast? ≠ some ':'.toUInt8 ∨ t.head? ≠ some ':'.toUInt8) :
    doubles (s ++ t) = doubles s + doubles t := by
  induction s with
  | nil => exact (Nat.zero_add _).symm
  | cons c s ih =>
    cases s with
    | nil =>
      cases t with
      | nil => rfl
      | cons d t =>
        have hcd : ¬ (c = ':'.toUInt8 ∧ d = ':'.toUInt8) := by
          rintro ⟨rfl, rfl⟩
          simp at h
        simp only [List.cons_append, List.nil_append, doubles, if_neg hcd]
    | cons d s =>
      rw [List.getLast?_cons_cons] at h
      have hrest := ih h
      rw [List.cons_append] at hrest
      rw [List.cons_append, List.cons_append, doubles, doubles, hrest, Nat.add_assoc]

theorem head_ne_of_notMem {s : Bytes} {c : UInt8} (h : c ∉ s) : s.head? ≠ some c :=
  fun hhead => h (List.mem_of_head? hhead)

theorem getLast_ne_of_notMem {s : Bytes} {c : UInt8} (h : c ∉ s) : s.getLast? ≠ some c :=
  fun hlast => h (List.mem_of_getLast? hlast)

theorem head_joined (gs : List (BitVec 16)) : (joined gs).head? ≠ some ':'.toUInt8 := by
  cases gs with
  | nil => exact head_ne_of_notMem (by simp [joined])
  | cons g gs =>
    have hgroup := head_ne_of_notMem (notMem_group (by decide) g : ':'.toUInt8 ∉ group g)
    by_cases hgs : gs = []
    · rw [hgs, joined_singleton]
      exact hgroup
    · rw [joined_cons hgs, List.head?_append_of_ne_nil _ (group_ne_nil g)]
      exact hgroup

theorem getLast_joined (gs : List (BitVec 16)) : (joined gs).getLast? ≠ some ':'.toUInt8 := by
  rcases List.eq_nil_or_concat gs with rfl | ⟨gs', g, rfl⟩
  · exact getLast_ne_of_notMem (by simp [joined])
  · have hgroup := getLast_ne_of_notMem (notMem_group (by decide) g : ':'.toUInt8 ∉ group g)
    rw [List.concat_eq_append]
    by_cases hgs : gs' = []
    · rw [hgs, List.nil_append, joined_singleton]
      exact hgroup
    · rw [joined_concat hgs, List.getLast?_append_of_ne_nil _ (group_ne_nil g)]
      exact hgroup

theorem doubles_joined (gs : List (BitVec 16)) : doubles (joined gs) = 0 := by
  induction gs with
  | nil => rfl
  | cons g gs ih =>
    have hgroup : ':'.toUInt8 ∉ group g := notMem_group (by decide) g
    by_cases hgs : gs = []
    · rw [hgs, joined_singleton, doubles_of_notMem hgroup]
    · rw [joined_cons hgs, doubles_append (.inl (getLast_ne_of_notMem hgroup)), doubles_of_notMem hgroup,
        ← List.singleton_append, doubles_append (.inr (head_joined gs)), ih]
      rfl

/-- at a "::" behind a text without one, the text is cut there -/
theorem cutDouble_append {s : Bytes} (h : doubles s = 0) (hlast : s.getLast? ≠ some ':'.toUInt8) (t : Bytes) :
    cutDouble (s ++ bytes "::" ++ t) = some (s, t) := by
  induction s with
  | nil => rfl
  | cons c s ih =>
    cases s with
    | nil =>
      have hc : ¬ (c = ':'.toUInt8 ∧ ':'.toUInt8 = ':'.toUInt8) := by
        rintro ⟨rfl, -⟩
        simp at hlast
      change cutDouble (c :: ':'.toUInt8 :: ':'.toUInt8 :: t) = _
      rw [cutDouble, if_neg hc]
      rfl
    | cons d s =>
      rw [doubles] at h
      rw [List.getLast?_cons_cons] at hlast
      have hcd : ¬ (c = ':'.toUInt8 ∧ d = ':'.toUInt8) := by
        intro hcd
        rw [if_pos hcd] at h
        omega
      rw [if_neg hcd, Nat.zero_add] at h
      have hrest := ih h hlast
      simp only [List.cons_append] at hrest ⊢
      rw [cutDouble, if_neg hcd, hrest]
      rfl

theorem cutDouble_of_doubles {s : Bytes} (h : doubles s = 0) : cutDouble s = none := by
  induction s with
  | nil => rfl
  | cons c s ih =>
    cases s with
    | nil => rfl
    | cons d s =>
      rw [doubles] at h
      have hcd : ¬ (c = ':'.toUInt8 ∧ d = ':'.toUInt8) := by
        intro hcd
        rw [if_pos hcd] at h
        omega
      rw [if_neg hcd, Nat.zero_add] at h
      rw [cutDouble, if_neg hcd, ih h]
      rfl

/-! ## Reading a printed address -/

theorem readGroup_group (g : BitVec 16) : readGroup (group g) = some g := by
  have hlt : g.toNat < 16 ^ 4 := g.isLt
  have hlength : (group g).length ≤ 4 := by
    rw [group, numeral, List.length_map, Nat.length_toDigits_le_iff (by decide) (by decide)]
    exact hlt
  rw [readGroup, group, number_numeral (by decide) (by decide), Option.bind_some]
  rw [group] at hlength
  rw [if_pos hlength, BitVec.ofNat_toNat, BitVec.setWidth_eq]

theorem mapM_readGroup (gs : List (BitVec 16)) : (gs.map group).mapM readGroup = some gs := by
  induction gs with
  | nil => rfl
  | cons g gs ih =>
    rw [List.map_cons, List.mapM_cons, readGroup_group, ih]
    rfl

theorem joined_ne_nil {gs : List (BitVec 16)} (h : gs ≠ []) : joined gs ≠ [] := by
  cases gs with
  | nil => exact absurd rfl h
  | cons g gs =>
    by_cases hgs : gs = []
    · rw [hgs, joined_singleton]
      exact group_ne_nil g
    · rw [joined_cons hgs]
      simp

theorem readGroups_joined (gs : List (BitVec 16)) : readGroups (joined gs) = some gs := by
  by_cases hgs : gs = []
  · subst hgs
    rfl
  · have hcolon : ∀ s ∈ gs.map group, ':'.toUInt8 ∉ s := by
      intro s hs
      obtain ⟨g, -, rfl⟩ := List.mem_map.1 hs
      exact notMem_group (by decide) g
    rw [readGroups, if_neg (joined_ne_nil hgs), joined, List.splitOn_intercalate _ hcolon (by simpa using hgs),
      mapM_readGroup]

/-- groups without a gap -/
theorem readAddress_joined {gs : List (BitVec 16)} (h : gs.length = 8) : readAddress (joined gs) = some gs := by
  rw [readAddress, cutDouble_of_doubles (doubles_joined gs)]
  simp only [readGroups_joined, Option.bind_some, if_pos h]

/-- the zeros of the gap are as many as are missing -/
theorem readAddress_gap {l r : List (BitVec 16)} {k : ℕ} (hk : 0 < k)
    (h : (l ++ List.replicate k 0#16 ++ r).length = 8) :
    readAddress (joined l ++ bytes "::" ++ joined r) = some (l ++ List.replicate k 0#16 ++ r) := by
  rw [List.length_append, List.length_append, List.length_replicate] at h
  have hmissing : 8 - (l.length + r.length) = k := by omega
  rw [readAddress, cutDouble_append (doubles_joined l) (getLast_joined l)]
  simp only [readGroups_joined, Option.bind_some, if_pos (show l.length + r.length < 8 by omega), hmissing]

theorem notMem_joined {c : UInt8} (hc : digit c = none) (hcolon : c ≠ ':'.toUInt8) (gs : List (BitVec 16)) :
    c ∉ joined gs := by
  induction gs with
  | nil => simp [joined]
  | cons g gs ih =>
    by_cases hgs : gs = []
    · rw [hgs, joined_singleton]
      exact notMem_group hc g
    · rw [joined_cons hgs, List.mem_append, List.mem_cons]
      rintro (h | h | h)
      · exact notMem_group hc g h
      · exact hcolon h
      · exact ih h

/-- reading takes the brackets and the port off -/
theorem read_brackets {address : Bytes} (h : ']'.toUInt8 ∉ address) {gs : List (BitVec 16)}
    (hread : readAddress address = some gs) (port : BitVec 16) :
    read (bytes "[" ++ address ++ bytes "]:" ++ decimal port.toNat) = some (gs.flatMap groupBytes, port) := by
  have hcut : cut ']'.toUInt8 (address ++ ']'.toUInt8 :: ':'.toUInt8 :: decimal port.toNat) =
      some (address, ':'.toUInt8 :: decimal port.toNat) := cut_append h _
  have htext : bytes "[" ++ address ++ bytes "]:" ++ decimal port.toNat =
      '['.toUInt8 :: (address ++ ']'.toUInt8 :: ':'.toUInt8 :: decimal port.toNat) := by
    simp only [List.append_assoc]
    rfl
  rw [htext, read, if_pos rfl, hcut]
  simp only [if_true, hread, Option.bind_some, ← numeral_ten, number_numeral (show 1 < 10 by decide)
    (show 10 ≤ 16 by decide), if_pos port.isLt, BitVec.ofNat_toNat, BitVec.setWidth_eq]

/-- pairs of bytes, one after the other -/
theorem flatMap_pairs {l : List (BitVec 8)} {n : ℕ} (h : 2 * n ≤ l.length) :
    ((List.range n).flatMap fun i => [l.getD (2 * i) 0, l.getD (2 * i + 1) 0]) = l.take (2 * n) := by
  induction n with
  | zero => rfl
  | succ n ih =>
    have hstored : ∀ j < 2 * n + 2, l[j]? = some (l.getD j 0) := by
      intro j hj
      rw [List.getD_eq_getElem?_getD, List.getElem?_eq_getElem (by omega)]
      rfl
    rw [List.range_succ, List.flatMap_append, ih (by omega), List.flatMap_singleton, Nat.mul_succ, List.take_add_one,
      List.take_add_one, hstored (2 * n) (by omega), hstored (2 * n + 1) (by omega), List.append_assoc]
    rfl

theorem groupBytes_append (x y : BitVec 8) : groupBytes (byteswapOnLittleEndian16 (y ++ x)) = [x, y] := by
  have hx : (bswap_16 (y ++ x) >>> 8).setWidth 8 = x := by
    refine BitVec.eq_of_getLsbD_eq fun i hi => ?_
    have hsource : 8 * (1 - (8 + i) / 8) + (8 + i) % 8 = i := by omega
    rw [BitVec.getLsbD_setWidth, BitVec.getLsbD_ushiftRight, getLsbD_bswap_16 (by omega), hsource,
      decide_eq_true hi, Bool.true_and]
    exact (BitVec.getLsbD_append).trans (if_pos hi)
  have hy : (bswap_16 (y ++ x)).setWidth 8 = y := by
    refine BitVec.eq_of_getLsbD_eq fun i hi => ?_
    have hsource : 8 * (1 - i / 8) + i % 8 = 8 + i := by omega
    rw [BitVec.getLsbD_setWidth, getLsbD_bswap_16 (by omega), hsource, decide_eq_true hi, Bool.true_and]
    refine (BitVec.getLsbD_append).trans ?_
    rw [if_neg (by omega), Nat.add_sub_cancel_left]
  rw [groupBytes, byteswapOnLittleEndian16, hx, hy]

namespace IPv6Address

variable (a : IPv6Address)

theorem flatMap_groups : (a.groups 8).flatMap groupBytes = a.m_addr.sin6_addr.toList := by
  have hlength : a.m_addr.sin6_addr.toList.length = 16 := Vector.length_toList
  rw [groups, List.flatMap_map]
  simp only [addr, groupBytes_append]
  rw [flatMap_pairs (by omega), List.take_of_length_le (by omega)]

theorem length_groups (n : ℕ) : (a.groups n).length = n := by
  rw [groups, List.length_map, List.length_range]

theorem read_insert_self : read a.insert = some (a.m_addr.sin6_addr.toList, a.getPort) := by
  have hbracket : ∀ gs, ']'.toUInt8 ∉ joined gs := fun gs => notMem_joined (by decide) (by decide) gs
  have hlength := a.length_groups 8
  obtain ⟨l, ⟨-, hgroups, hinsert⟩ | ⟨k, r, hk, hgroups, hinsert⟩⟩ := a.insert_forms
  · rw [hgroups] at hlength
    rw [hinsert, read_brackets (hbracket l) (readAddress_joined hlength), ← hgroups, flatMap_groups]
  · rw [hgroups] at hlength
    have hgap : ']'.toUInt8 ∉ joined l ++ bytes "::" ++ joined r := by
      rw [List.mem_append, List.mem_append]
      rintro ((h | h) | h)
      · exact hbracket l h
      · exact absurd h (by decide)
      · exact hbracket r h
    rw [hinsert, read_brackets hgap (readAddress_gap hk hlength), ← hgroups, flatMap_groups]

theorem doubles_insert : doubles a.insert ≤ 1 := by
  have hport : ':'.toUInt8 ∉ decimal a.getPort.toNat := notMem_decimal (by decide) _
  have hend : doubles (bytes "]:" ++ decimal a.getPort.toNat) = 0 := by
    rw [doubles_append (.inr (head_ne_of_notMem hport)), doubles_of_notMem hport]
    rfl
  have hbrackets : ∀ body, doubles (bytes "[" ++ body ++ bytes "]:" ++ decimal a.getPort.toNat) = doubles body := by
    intro body
    have hbehind : (bytes "]:" ++ decimal a.getPort.toNat).head? ≠ some ':'.toUInt8 := by
      change some ']'.toUInt8 ≠ _
      decide
    rw [List.append_assoc, doubles_append (.inr hbehind), doubles_append (.inl (by decide)), hend]
    exact Nat.zero_add _
  obtain ⟨l, ⟨-, -, hinsert⟩ | ⟨k, r, -, -, hinsert⟩⟩ := a.insert_forms
  · rw [hinsert, hbrackets, doubles_joined]
    exact Nat.zero_le 1
  · rw [hinsert, hbrackets, List.append_assoc, doubles_append (.inl (getLast_joined l)),
      doubles_append (.inr (head_joined r)), doubles_joined, doubles_joined]
    decide

/-- **A printed address is read back**: "::" occurs at most once, the text gives the bytes of the address and the port,
and no other address with a port has it. -/
theorem read_insert (a : IPv6Address) : doubles a.insert ≤ 1 ∧
    read a.insert = some (a.m_addr.sin6_addr.toList, a.getPort) ∧
    ∀ b : IPv6Address, b.insert = a.insert →
      b.m_addr.sin6_addr = a.m_addr.sin6_addr ∧ b.m_addr.sin6_port = a.m_addr.sin6_port := by
  refine ⟨a.doubles_insert, a.read_insert_self, fun b h => ?_⟩
  have hread := a.read_insert_self
  rw [← h, b.read_insert_self, Option.some.injEq, Prod.mk.injEq] at hread
  refine ⟨Vector.toList_inj.1 hread.1, ?_⟩
  calc
    b.m_addr.sin6_port = bswap_16 b.getPort := (bswap_16_bswap_16 _).symm
    _ = bswap_16 a.getPort := by rw [hread.2]
    _ = a.m_addr.sin6_port := bswap_16_bswap_16 _

end IPv6Address

end Sylar.Address

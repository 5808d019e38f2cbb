/-
`Address::Lookup` of address.cc, up to the call of `getaddrinfo`.

The host is scanned for a bracketed address first, and for a node and a service if that gave no node. `service` is a pointer
into the text of the host; it is a position here. getaddrinfo sees what stands from there to the NUL at the end.

Results:
- `Lookup_bracketed`, `Lookup_plain`: what the two scans give;
- `lookup_exact`: for a host without a NUL, host and service are told apart exactly when the host begins with '[' or has at
  most one ':'. A bare IPv6 address goes with a service that is the rest of its text.
-/
import Sylar.Core.Find
import Sylar.Core.Text

namespace Sylar.Address

open Sylar.Text Sylar.Find

/-- `memchr(host.c_str() + start, c, n)` as a position in the host -/
def memchr (host : Bytes) (start : ℕ) (c : UInt8) (n : ℕ) : Option ℕ := find (· == c) (host.take (start + n)) start

/-- the byte at a position of `host.c_str()` -/
def charAt (host : Bytes) (i : ℕ) : UInt8 := host.getD i 0

/-- `node` and `service` behind the scan for an address in brackets -/
def lookupIPv6 (host : Bytes) : Bytes × Option ℕ :=
  if host ≠ [] ∧ charAt host 0 = '['.toUInt8 then
    match memchr host 1 ']'.toUInt8 (host.length - 1) with
    | none => ([], none)
    | some endipv6 =>
      ((host.drop 1).take (endipv6 - 1), if charAt host (endipv6 + 1) = ':'.toUInt8 then some (endipv6 + 2) else none)
  else ([], none)

/-- and behind the second scan -/
def lookupNode (host : Bytes) : Bytes × Option ℕ :=
  let (node, service) := lookupIPv6 host
  if node = [] then
    match memchr host 0 ':'.toUInt8 host.length with
    | none => (node, none)
    | some service =>
      if memchr host (service + 1) ':'.toUInt8 (host.length - service - 1) = none then
        (host.take service, some (service + 1))
      else (node, some service)
  else (node, service)

/-- the node and the service that are passed to `getaddrinfo` -/
def Lookup (host : Bytes) : Bytes × Option Bytes :=
  let (node, service) := lookupNode host
  (cstr (if node = [] then host else node), service.map fun p => cstr (host.drop p))

/-! ## Scanning -/

/-- a scan to the end of the host stops where the text is cut -/
theorem memchr_eq_cut (a b : Bytes) (c : UInt8) :
    memchr (a ++ b) a.length c b.length = (cut c b).map fun p => a.length + p.1.length := by
  have htake : (a ++ b).take (a.length + b.length) = a ++ b := List.take_of_length_le (by simp)
  have hmiss : ∀ u : Bytes, c ∉ u → ∀ x ∈ u, (x == c) = false := by
    intro u hu x hx
    rw [beq_eq_false_iff_ne]
    rintro rfl
    exact hu hx
  rw [memchr, htake]
  cases hcut : cut c b with
  | none => exact find_miss a (hmiss b (cut_eq_none.1 hcut))
  | some p =>
    obtain ⟨rfl, hc⟩ := cut_eq_some.1 hcut
    exact find_hit a (hmiss p.1 hc) (beq_self_eq_true c)

/-- what the two scans give for an address in brackets -/
theorem lookupNode_bracketed {v rest : Bytes} (hv : v ≠ []) (hfree : ']'.toUInt8 ∉ v) :
    lookupNode ('['.toUInt8 :: (v ++ ']'.toUInt8 :: rest)) =
      (v, if charAt rest 0 = ':'.toUInt8 then some (v.length + 3) else none) := by
  have hend : memchr ('['.toUInt8 :: (v ++ ']'.toUInt8 :: rest)) 1 ']'.toUInt8
      (('['.toUInt8 :: (v ++ ']'.toUInt8 :: rest)).length - 1) = some (1 + v.length) := by
    have hscan := memchr_eq_cut ['['.toUInt8] (v ++ ']'.toUInt8 :: rest) ']'.toUInt8
    rw [cut_append hfree] at hscan
    exact hscan
  have hnode : (v ++ ']'.toUInt8 :: rest).take (1 + v.length - 1) = v := by
    rw [Nat.add_sub_cancel_left]
    exact List.take_left
  have hnext : charAt ('['.toUInt8 :: (v ++ ']'.toUInt8 :: rest)) (1 + v.length + 1) = charAt rest 0 := by
    have hpos : 1 + v.length + 1 = v.length + 1 + 1 := by omega
    simp [charAt, List.getD_eq_getElem?_getD, hpos, List.getElem?_append_right]
  have hfirst : lookupIPv6 ('['.toUInt8 :: (v ++ ']'.toUInt8 :: rest)) =
      (v, if charAt rest 0 = ':'.toUInt8 then some (v.length + 3) else none) := by
    have hpos : 1 + v.length + 2 = v.length + 3 := by omega
    rw [lookupIPv6, if_pos ⟨by simp, rfl⟩]
    simp only [hend, List.drop_one, List.tail_cons, hnode, hnext, hpos]
  simp only [lookupNode, hfirst, if_neg hv]

/-- and for any other host: only a text with one ':' is cut -/
theorem lookupNode_plain {host : Bytes} (h : host.head? ≠ some '['.toUInt8) :
    lookupNode host =
      match cut ':'.toUInt8 host with
      | none => ([], none)
      | some (n, s) => if ':'.toUInt8 ∈ s then ([], some n.length) else (n, some (n.length + 1)) := by
  have hfirst : lookupIPv6 host = ([], none) := by
    rw [lookupIPv6, if_neg]
    intro hopen
    cases host with
    | nil => exact hopen.1 rfl
    | cons c host => exact h (by rw [← hopen.2]; rfl)
  have hscan : memchr host 0 ':'.toUInt8 host.length = (cut ':'.toUInt8 host).map fun p => 0 + p.1.length :=
    memchr_eq_cut [] host ':'.toUInt8
  simp only [lookupNode, hfirst, if_true, hscan]
  cases hcut : cut ':'.toUInt8 host with
  | none => rfl
  | some p =>
    obtain ⟨n, s⟩ := p
    obtain ⟨rfl, hn⟩ := cut_eq_some.1 hcut
    have hlen : (n ++ ':'.toUInt8 :: s).length - n.length - 1 = s.length := by
      rw [List.length_append, List.length_cons]
      omega
    have hmore : memchr (n ++ ':'.toUInt8 :: s) (n.length + 1) ':'.toUInt8 s.length = none ↔ ':'.toUInt8 ∉ s := by
      have hrest := memchr_eq_cut (n ++ [':'.toUInt8]) s ':'.toUInt8
      rw [List.append_assoc, List.length_append, List.singleton_append, List.length_singleton] at hrest
      rw [hrest, Option.map_eq_none_iff, cut_eq_none]
    simp only [Option.map_some, Nat.zero_add, hlen, hmore, List.take_left, ite_not]

/-! ## The split -/

/-- host and service are told apart -/
structure SplitsHost (host : Bytes) (passed : Bytes × Option Bytes) : Prop where
  /-- "[address]:service" -/
  port6 : ∀ v s, host = bytes "[" ++ v ++ bytes "]:" ++ s → v ≠ [] → ']'.toUInt8 ∉ v → passed = (v, some s)
  /-- "[address]" -/
  address6 : ∀ v, host = bytes "[" ++ v ++ bytes "]" → v ≠ [] → ']'.toUInt8 ∉ v → passed = (v, none)
  /-- "node:service" with no other ':' -/
  port : ∀ n s, host = n ++ bytes ":" ++ s → n ≠ [] → n.head? ≠ some '['.toUInt8 → host.count ':'.toUInt8 = 1 →
    passed = (n, some s)
  /-- a name, or an address without brackets -/
  whole : host.head? ≠ some '['.toUInt8 → (':'.toUInt8 ∉ host ∨ 2 ≤ host.count ':'.toUInt8) → passed = (host, none)

theorem Lookup_bracketed {v rest : Bytes} (hv : v ≠ []) (hfree : ']'.toUInt8 ∉ v)
    (hnul : 0 ∉ '['.toUInt8 :: (v ++ ']'.toUInt8 :: rest)) :
    Lookup ('['.toUInt8 :: (v ++ ']'.toUInt8 :: rest)) =
      (v, if charAt rest 0 = ':'.toUInt8 then some (rest.drop 1) else none) := by
  have hnul' : 0 ∉ v ∧ 0 ∉ rest := by
    simp only [List.mem_cons, List.mem_append, not_or] at hnul
    exact ⟨hnul.2.1, hnul.2.2.2⟩
  have hdrop : ('['.toUInt8 :: (v ++ ']'.toUInt8 :: rest)).drop (v.length + 3) = rest.drop 1 := by
    simp [List.drop_append]
  simp only [Lookup, lookupNode_bracketed hv hfree, if_neg hv, cstr_of_no_nul hnul'.1]
  split_ifs
  · rw [Option.map_some, hdrop, cstr_of_no_nul fun h => hnul'.2 (List.mem_of_mem_drop h)]
  · rfl

/-- a host with a second ':' goes with everything from the first one on -/
theorem Lookup_plain {host : Bytes} (h : host.head? ≠ some '['.toUInt8) (hnul : 0 ∉ host) :
    Lookup host =
      match cut ':'.toUInt8 host with
      | none => (host, none)
      | some (n, s) =>
        if ':'.toUInt8 ∈ s then (host, some (':'.toUInt8 :: s)) else (if n = [] then host else n, some s) := by
  simp only [Lookup, lookupNode_plain h]
  cases hcut : cut ':'.toUInt8 host with
  | none => simp only [if_true, Option.map_none, cstr_of_no_nul hnul]
  | some p =>
    obtain ⟨n, s⟩ := p
    obtain ⟨rfl, -⟩ := cut_eq_some.1 hcut
    have hnul' : 0 ∉ n ∧ 0 ∉ ':'.toUInt8 :: s := by simpa only [List.mem_append, not_or] using hnul
    have hs : 0 ∉ s := fun hmem => hnul'.2 (List.mem_cons_of_mem _ hmem)
    have hbehind : (n ++ ':'.toUInt8 :: s).drop (n.length + 1) = s := by simp [List.drop_append]
    by_cases hmore : ':'.toUInt8 ∈ s
    · simp only [if_pos hmore, if_true, Option.map_some, List.drop_left, cstr_of_no_nul hnul, cstr_of_no_nul hnul'.2]
    · simp only [if_neg hmore, Option.map_some, hbehind, cstr_of_no_nul hs]
      split_ifs
      · rw [cstr_of_no_nul hnul]
      · rw [cstr_of_no_nul hnul'.1]

/-- the count of a byte in a text that is cut at it -/
theorem count_of_cut {c : UInt8} {host n s : Bytes} (h : cut c host = some (n, s)) :
    host.count c = s.count c + 1 := by
  obtain ⟨rfl, hn⟩ := cut_eq_some.1 h
  rw [List.count_append, List.count_eq_zero_of_not_mem hn, List.count_cons_self, Nat.zero_add]

/-- **Host and service.** They are told apart exactly when the host begins with '[' or has at most one ':'. -/
theorem lookup_exact (host : Bytes) (hnul : 0 ∉ host) :
    SplitsHost host (Lookup host) ↔ host.head? = some '['.toUInt8 ∨ host.count ':'.toUInt8 ≤ 1 := by
  have hopen : ∀ v rest : Bytes, bytes "[" ++ v ++ rest = '['.toUInt8 :: (v ++ rest) := fun _ _ => rfl
  have hport : ∀ s, bytes "]:" ++ s = ']'.toUInt8 :: ':'.toUInt8 :: s := fun _ => rfl
  have hcolon : ∀ s, bytes ":" ++ s = ':'.toUInt8 :: s := fun _ => rfl
  refine ⟨fun hsplit => ?_, fun hcond => ?_⟩
  · by_contra hnot
    rw [not_or, Nat.not_le] at hnot
    have hwhole := hsplit.whole hnot.1 (.inr hnot.2)
    cases hcut : cut ':'.toUInt8 host with
    | none =>
      have hzero := List.count_eq_zero_of_not_mem (cut_eq_none.1 hcut)
      omega
    | some p =>
      have hcount := count_of_cut hcut
      have hmore : ':'.toUInt8 ∈ p.2 := List.count_pos_iff.1 (by omega)
      rw [Lookup_plain hnot.1 hnul, hcut] at hwhole
      simp [hmore] at hwhole
  · refine ⟨?_, ?_, ?_, ?_⟩
    · rintro v s rfl hv hfree
      rw [List.append_assoc, hport, hopen] at hnul ⊢
      exact Lookup_bracketed hv hfree hnul
    · rintro v rfl hv hfree
      exact @Lookup_bracketed v [] hv hfree hnul
    · rintro n s rfl hn hhead hone
      rw [List.append_assoc, hcolon] at hnul hone ⊢
      have hfree : ':'.toUInt8 ∉ n ∧ ':'.toUInt8 ∉ s := by
        rw [List.count_append, List.count_cons_self] at hone
        exact ⟨List.count_eq_zero.1 (by omega), List.count_eq_zero.1 (by omega)⟩
      have hhead' : (n ++ ':'.toUInt8 :: s).head? ≠ some '['.toUInt8 := by
        rwa [List.head?_append_of_ne_nil _ hn]
      rw [Lookup_plain hhead' hnul, cut_append hfree.1]
      simp only [if_neg hfree.2, if_neg hn]
    · intro hhead hcount
      have hnone : ':'.toUInt8 ∉ host := by
        rcases hcount with hnone | htwo
        · exact hnone
        · have hone := hcond.resolve_left hhead
          omega
      rw [Lookup_plain hhead hnul, cut_eq_none.2 hnone]

/-- "localhost:80" is split -/
theorem lookup_exact_localhost :
    SplitsHost (bytes "localhost:80") (Lookup (bytes "localhost:80")) ↔
      (bytes "localhost:80").head? = some '['.toUInt8 ∨ (bytes "localhost:80").count ':'.toUInt8 ≤ 1 :=
  lookup_exact (bytes "localhost:80") (by decide)

/-- the loopback address is passed with "::1" for a service -/
theorem lookup_bare_address :
    0 ∉ bytes "::1" ∧ Lookup (bytes "::1") = (bytes "::1", some (bytes "::1")) ∧
      ¬ SplitsHost (bytes "::1") (Lookup (bytes "::1")) := by
  refine ⟨by decide, by decide, fun h => ?_⟩
  have hwhole := h.whole (by decide) (.inr (by decide))
  exact absurd hwhole (by decide)

end Sylar.Address

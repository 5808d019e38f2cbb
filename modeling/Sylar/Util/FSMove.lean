/-
`FSUtil::Mv` and `FSUtil::Symlink` of util.cc, on the file systems of `FSUtil::Rm`.

Both remove what is at the new place before they know whether the system call can be done. `rename` moves a node with all
that is below it, over a node of its own sort that has nothing below it. It refuses to move a directory into itself.

Results:
- `Fs.node_insert`, `Fs.node_move`: the nodes after a system call;
- `Mv_iff`, `Symlink_iff`: when a move or a link is done, and what is left when it is not.
-/
import Sylar.Util.FSUtil

namespace Sylar.FSUtil

/-! ## New nodes and moved nodes -/

namespace Fs

variable (fs : Fs)

/-- one more node in a directory -/
def insert (l : Loc) (n : Inode) (hne : l ≠ []) (hdir : isDir (fs.node l.dropLast) = true) (hfree : fs.node l = none)
    (hname : dot ∉ l ∧ dotdot ∉ l) : Fs where
  nodes := (l, n) :: fs.nodes
  parents := by
    intro e he d x hd
    rcases List.mem_cons.1 he with rfl | he
    · have hlast : d = l.dropLast := by rw [show l = d ++ [x] from hd, List.dropLast_concat]
      rw [← hlast] at hdir
      cases hnode : fs.node d with
      | none =>
        rw [hnode] at hdir
        cases hdir
      | some f =>
        rw [hnode, isDir_some] at hdir
        exact ⟨(d, f), List.mem_cons_of_mem _ (node_eq_some.1 hnode), rfl, hdir⟩
    · obtain ⟨f, hf, hrest⟩ := fs.parents e he d x hd
      exact ⟨f, List.mem_cons_of_mem _ hf, hrest⟩
  functional := by
    rw [List.map_cons, List.nodup_cons]
    refine ⟨fun hmem => ?_, fs.functional⟩
    obtain ⟨e, he, rfl⟩ := List.mem_map.1 hmem
    rw [node_eq_some.2 (show (e.1, e.2) ∈ fs.nodes from he)] at hfree
    cases hfree
  named := fun e he => (List.mem_cons.1 he).elim (fun h => h ▸ hname) (fs.named e)

/-- the same, where it can be done -/
def create (l : Loc) (n : Inode) : Option Fs :=
  if h : l ≠ [] ∧ isDir (fs.node l.dropLast) = true ∧ fs.node l = none ∧ dot ∉ l ∧ dotdot ∉ l then
    some (fs.insert l n h.1 h.2.1 h.2.2.1 h.2.2.2)
  else none

theorem node_insert (l : Loc) (n : Inode) (hne : l ≠ []) (hdir : isDir (fs.node l.dropLast) = true)
    (hfree : fs.node l = none) (hname : dot ∉ l ∧ dotdot ∉ l) (m : Loc) :
    (fs.insert l n hne hdir hfree hname).node m = if m = l then some n else fs.node m := by
  rw [node, insert, List.find?_cons]
  by_cases h : m = l
  · rw [if_pos h, decide_eq_true h.symm]
    rfl
  · rw [if_neg h, decide_eq_false (Ne.symm h)]
    rfl

theorem create_spec {l : Loc} {n : Inode} (h : l ≠ [] ∧ isDir (fs.node l.dropLast) = true ∧ fs.node l = none ∧
    dot ∉ l ∧ dotdot ∉ l) : ∃ fs', fs.create l n = some fs' ∧ ∀ m, fs'.node m = if m = l then some n else fs.node m := by
  refine ⟨fs.insert l n h.1 h.2.1 h.2.2.1 h.2.2.2, ?_, fs.node_insert l n h.1 h.2.1 h.2.2.1 h.2.2.2⟩
  rw [create, dif_pos h]

/-- a location under `s` goes to the same place under `t` -/
def relocate (s t l : Loc) : Loc := if s <+: l then t ++ l.drop s.length else l

theorem relocate_append (s t r : Loc) : relocate s t (s ++ r) = t ++ r := by
  rw [relocate, if_pos (List.prefix_append s r), List.drop_left]

/-- what may be moved: from `s` to `t`, of which neither is below the other, into a directory -/
structure Movable (s t : Loc) : Prop where
  apart : ¬ s <+: t ∧ ¬ t <+: s
  dir : isDir (fs.node t.dropLast) = true
  names : dot ∉ t ∧ dotdot ∉ t

instance (s t : Loc) : Decidable (fs.Movable s t) :=
  decidable_of_iff ((¬ s <+: t ∧ ¬ t <+: s) ∧ isDir (fs.node t.dropLast) = true ∧ dot ∉ t ∧ dotdot ∉ t)
    ⟨fun h => ⟨h.1, h.2.1, h.2.2⟩, fun h => ⟨h.apart, h.dir, h.names⟩⟩

variable {fs}

theorem Movable.ne {s t : Loc} (h : fs.Movable s t) : t ≠ [] := fun hnil => h.apart.2 (hnil ▸ List.nil_prefix)

/-- nothing else is below the new place, so different nodes stay apart -/
theorem relocate_inj {s t l l' : Loc} (hl : ¬ t <+: l) (hl' : ¬ t <+: l') (h : relocate s t l = relocate s t l') :
    l = l' := by
  rw [relocate, relocate] at h
  split_ifs at h with hs hs' hs'
  · obtain ⟨r, rfl⟩ := hs
    obtain ⟨r', rfl⟩ := hs'
    rw [List.drop_left, List.drop_left] at h
    rw [List.append_cancel_left h]
  · exact absurd (h ▸ List.prefix_append t _) hl'
  · exact absurd (h ▸ List.prefix_append t _) hl
  · exact h

variable (fs)

/-- the node `s` with all that is below it becomes `t`, where there may have been something -/
def move (s t : Loc) (h : fs.Movable s t) : Fs where
  nodes := (fs.erase t).nodes.map fun e => (relocate s t e.1, e.2)
  parents := by
    intro e' he' d x hd
    obtain ⟨e, he, rfl⟩ := List.mem_map.1 he'
    obtain ⟨hmem, hkeep⟩ := List.mem_filter.1 he
    have hkept : ¬ t <+: e.1 := by simpa using hkeep
    -- a directory that is not under `t` is still there
    have hfound : ∀ f ∈ fs.nodes, ¬ t <+: f.1 → relocate s t f.1 = d → f.2.kind = .dir →
        ∃ f ∈ (fs.erase t).nodes.map fun e => (relocate s t e.1, e.2), f.1 = d ∧ f.2.kind = .dir := by
      intro f hf hft hfd hdir
      exact ⟨_, List.mem_map_of_mem (List.mem_filter.2 ⟨hf, by simpa using hft⟩), hfd, hdir⟩
    by_cases hs : s <+: e.1
    · obtain ⟨r, hr⟩ := hs
      have hnew : t ++ r = d ++ [x] := by rw [← relocate_append s t r, hr]; exact hd
      rcases List.eq_nil_or_concat r with rfl | ⟨r', y, rfl⟩
      · -- the moved node itself
        have hlast : t.dropLast = d := by rw [← List.append_nil t, hnew, List.dropLast_concat]
        have hdir := h.dir
        cases hnode : fs.node t.dropLast with
        | none =>
          rw [hnode] at hdir
          cases hdir
        | some f =>
          rw [hnode, isDir_some] at hdir
          have hpre : t.dropLast <+: t := List.dropLast_prefix t
          have hnot : ¬ t <+: t.dropLast := by
            intro hle
            have hlen := hle.length_le
            rw [List.length_dropLast] at hlen
            have hpos := List.length_pos_iff.2 h.ne
            omega
          refine hfound (t.dropLast, f) (node_eq_some.1 hnode) hnot ?_ hdir
          rw [relocate, if_neg fun hsd => h.apart.1 (hsd.trans hpre), hlast]
      · rw [List.concat_eq_append, ← List.append_assoc] at hnew
        obtain ⟨hd', hx⟩ := List.append_inj' hnew rfl
        rw [List.concat_eq_append, ← List.append_assoc] at hr
        obtain ⟨f, hf, hfd, hdir⟩ := fs.parents e hmem (s ++ r') y hr.symm
        refine hfound f hf (fun ht => hkept ?_) ?_ hdir
        · rw [← hr]
          exact (hfd ▸ ht).trans (List.prefix_append _ _)
        · rw [hfd, relocate_append, hd']
    · have hold : e.1 = d ++ [x] := by rw [← show relocate s t e.1 = e.1 from if_neg hs]; exact hd
      obtain ⟨f, hf, hfd, hdir⟩ := fs.parents e hmem d x hold
      have hpre : f.1 <+: e.1 := by rw [hfd, hold]; exact List.prefix_append _ _
      refine hfound f hf (fun ht => hkept (ht.trans hpre)) ?_ hdir
      rw [relocate, if_neg fun hsf => hs (hsf.trans hpre), hfd]
  functional := by
    rw [List.map_map]
    have hinj : ∀ e ∈ (fs.erase t).nodes, ∀ e' ∈ (fs.erase t).nodes,
        relocate s t e.1 = relocate s t e'.1 → e = e' := by
      intro e he e' he' heq
      have hkept : ∀ e ∈ (fs.erase t).nodes, ¬ t <+: e.1 := fun e he => by simpa using (List.mem_filter.1 he).2
      exact List.inj_on_of_nodup_map (fs.erase t).functional he he' (relocate_inj (hkept e he) (hkept e' he') heq)
    exact List.Nodup.map_on hinj (List.Nodup.of_map _ (fs.erase t).functional)
  named := by
    intro e' he'
    obtain ⟨e, he, rfl⟩ := List.mem_map.1 he'
    obtain ⟨h1, h2⟩ := (fs.erase t).named e he
    simp only [relocate]
    split_ifs
    · refine ⟨fun hmem => ?_, fun hmem => ?_⟩
      · exact (List.mem_append.1 hmem).elim h.names.1 fun hr => h1 (List.mem_of_mem_drop hr)
      · exact (List.mem_append.1 hmem).elim h.names.2 fun hr => h2 (List.mem_of_mem_drop hr)
    · exact ⟨h1, h2⟩

/-- what is found after a move -/
def moved (node : Nodes) (s t m : Loc) : Option Inode :=
  if t <+: m then node (s ++ m.drop t.length) else if s <+: m then none else node m

theorem node_move {s t : Loc} (h : fs.Movable s t) (m : Loc) : (fs.move s t h).node m = moved fs.node s t m := by
  have hmem : ∀ n, (fs.move s t h).node m = some n ↔ ∃ l, fs.node l = some n ∧ ¬ t <+: l ∧ relocate s t l = m := by
    intro n
    rw [node_eq_some, move, List.mem_map]
    constructor
    · rintro ⟨e, he, heq⟩
      obtain ⟨hm, hn⟩ := Prod.ext_iff.1 heq
      have hkept : ¬ t <+: e.1 := by simpa using (List.mem_filter.1 he).2
      have hnode : fs.node e.1 = some e.2 := node_eq_some.2 (List.mem_filter.1 he).1
      exact ⟨e.1, hnode.trans (congrArg some hn), hkept, hm⟩
    · rintro ⟨l, hl, hkept, rfl⟩
      exact ⟨(l, n), List.mem_filter.2 ⟨node_eq_some.1 hl, by simpa using hkept⟩, rfl⟩
  refine Option.ext fun n => (hmem n).trans ?_
  rw [moved]
  by_cases ht : t <+: m
  · obtain ⟨r, rfl⟩ := ht
    rw [if_pos (List.prefix_append t r), List.drop_left]
    constructor
    · rintro ⟨l, hl, hkept, heq⟩
      rw [relocate] at heq
      split_ifs at heq with hs
      · obtain ⟨r', rfl⟩ := hs
        rw [List.drop_left] at heq
        rwa [← List.append_cancel_left heq]
      · exact absurd (heq ▸ List.prefix_append t r) hkept
    · intro hnode
      refine ⟨s ++ r, hnode, fun hpre => ?_, relocate_append s t r⟩
      -- one of two prefixes of one list is a prefix of the other
      rcases List.prefix_or_prefix_of_prefix hpre (List.prefix_append s r) with hts | hst
      · exact h.apart.2 hts
      · exact h.apart.1 hst
  · rw [if_neg ht]
    split_ifs with hs
    · refine iff_of_false ?_ (by simp)
      rintro ⟨l, hl, hkept, rfl⟩
      rw [relocate] at ht hs
      split_ifs at ht hs with hsl
      · exact ht (List.prefix_append _ _)
      · exact hsl hs
    · constructor
      · rintro ⟨l, hl, hkept, rfl⟩
        rw [relocate] at ht hs ⊢
        split_ifs at ht hs ⊢
        · exact absurd (List.prefix_append _ _) ht
        · exact hl
      · exact fun hnode => ⟨m, hnode, ht, if_neg hs⟩

end Fs

/-! ## Mv and Symlink -/

/-- the calls that succeed, by the locations of what they are about -/
structure Kernel extends System where
  rename : Loc → Loc → Bool
  symlink : Loc → Bool

/-- a node may be replaced by one of its sort, a directory only while it is empty -/
def fits (fs : Fs) (st : Inode) (t : Loc) : Bool :=
  match fs.node t with
  | none => true
  | some old => isDir (some st) = isDir (some old) ∧ (isDir (some old) = true → fs.names t = [])

section

variable (sys : Kernel)

/-- the root and the dots are busy -/
def Kernel.renameCall (from' to' : List Name) (fs : Fs) : Option Fs := do
  let s ← locate fs.node from'
  let t ← locate fs.node to'
  let st ← fs.node s
  if from' = [] ∨ to' = [] ∨ endsInDots from' ∨ endsInDots to' ∨ sys.rename s t = false then none
  else if s = t then some fs
  else if fits fs st t = false then none
  else if h : fs.Movable s t then some (fs.move s t h) else none

def Mv (fuel : ℕ) (from' to' : List Name) (fs : Fs) : Option (Bool × Fs) := do
  let (ret, fs) ← Rm sys.toSystem fuel to' fs
  if ret = false then return (false, fs)
  match sys.renameCall from' to' fs with
  | none => return (false, fs)
  | some fs' => return (true, fs')

/-- nobody looks at the permissions of a link -/
def newLink (absolute : Bool) (target : List Name) : Inode := ⟨.symlink absolute target, ⟨0o777, by decide⟩⟩

/-- `from'` is the text of the link, which may not be empty -/
def Kernel.symlinkCall (absolute : Bool) (from' to' : List Name) (fs : Fs) : Option Fs := do
  let t ← locate fs.node to'
  if endsInDots to' = false ∧ sys.symlink t = true ∧ (absolute = true ∨ from' ≠ []) then
    fs.create t (newLink absolute from')
  else none

def Symlink (fuel : ℕ) (absolute : Bool) (from' to' : List Name) (fs : Fs) : Option (Bool × Fs) := do
  let (ret, fs) ← Rm sys.toSystem fuel to' fs
  if ret = false then return (false, fs)
  match sys.symlinkCall absolute from' to' fs with
  | none => return (false, fs)
  | some fs' => return (true, fs')

end

/-! ## Where a path ends -/

theorem endsInDots_cons {name : Name} {rest : List Name} (h : rest ≠ []) : endsInDots (name :: rest) = endsInDots rest := by
  rw [endsInDots, endsInDots, List.getLast?_cons_of_ne_nil h]

theorem endsInDots_append (target : List Name) {rest : List Name} (h : rest ≠ []) :
    endsInDots (target ++ rest) = endsInDots rest := by
  rw [endsInDots, endsInDots, List.getLast?_append_of_ne_nil _ h]

/-- what is named by the last name of a path that does not end in dots is in a directory -/
def InDirectory (node : Nodes) (l : Loc) : Prop := ∃ d x, l = d ++ [x] ∧ isDir (node d) = true ∧ x ≠ dot ∧ x ≠ dotdot

theorem walkFrom_last {node : Nodes} {jump : Loc → List Name → Option Loc} {l : Loc}
    (hjump : ∀ cur path, path ≠ [] → endsInDots path = false → jump cur path = some l → InDirectory node l)
    {path : List Name} {cur : Loc} (hne : path ≠ []) (hdots : endsInDots path = false)
    (h : walkFrom node false jump cur path = some l) : InDirectory node l := by
  induction path generalizing cur with
  | nil => exact absurd rfl hne
  | cons name rest ih =>
    rw [walkFrom] at h
    by_cases hrest : rest = []
    · subst hrest
      have hname : name ≠ dot ∧ name ≠ dotdot := by simpa [endsInDots] using hdots
      split_ifs at h with hdir h1 h2 h3
      · exact absurd h1 hname.1
      · exact absurd h2 hname.2
      · exact ⟨cur, name, (Option.some.inj h).symm, by simpa using hdir, hname⟩
      · exact absurd ⟨rfl, rfl⟩ h3
    · have htail : endsInDots rest = false := by rwa [endsInDots_cons hrest] at hdots
      split_ifs at h with hdir h1 h2 h3
      · exact ih hrest htail h
      · exact ih hrest htail h
      · exact absurd h3.1 hrest
      · split at h
        · next absolute target perm hlink =>
          refine hjump _ _ (by simp [hrest]) ?_ h
          rwa [endsInDots_append target hrest]
        · exact ih hrest htail h

theorem locate_last {node : Nodes} {l : Loc} {path : List Name} (hne : path ≠ []) (hdots : endsInDots path = false)
    (h : locate node path = some l) : InDirectory node l := by
  have hall : ∀ links cur path, path ≠ [] → endsInDots path = false → walk node false links cur path = some l →
      InDirectory node l := by
    intro links
    induction links with
    | zero => exact fun cur path hne hdots h => walkFrom_last (fun _ _ _ _ hj => by cases hj) hne hdots h
    | succ links ih => exact fun cur path hne hdots h => walkFrom_last (fun _ _ hp hd hj => ih _ _ hp hd hj) hne hdots h
  exact hall _ _ path hne hdots h

/-- a node in a directory of a file system has a proper name all along -/
theorem InDirectory.names {fs : Fs} {l : Loc} (h : InDirectory fs.node l) :
    l ≠ [] ∧ isDir (fs.node l.dropLast) = true ∧ dot ∉ l ∧ dotdot ∉ l := by
  obtain ⟨d, x, rfl, hdir, hx⟩ := h
  have hnamed : dot ∉ d ∧ dotdot ∉ d := by
    cases hnode : fs.node d with
    | none =>
      rw [hnode] at hdir
      cases hdir
    | some n => exact fs.named _ (Fs.node_eq_some.1 hnode)
  refine ⟨by simp, by rwa [List.dropLast_concat], fun hmem => ?_, fun hmem => ?_⟩
  · exact (List.mem_append.1 hmem).elim hnamed.1 fun hlast => hx.1 (List.mem_singleton.1 hlast).symm
  · exact (List.mem_append.1 hmem).elim hnamed.2 fun hlast => hx.2 (List.mem_singleton.1 hlast).symm

/-! ## What is left -/

/-- without what is at `t` and below it -/
def without (node : Nodes) (t : Loc) : Nodes := fun m => if t <+: m then none else node m

section

variable {sys : Kernel} {fs : Fs} {from' to' : List Name} {s t : Loc}

/-- `to'` can be removed, and the path to it does not lead through it -/
structure Replaceable (sys : System) (fs : Fs) (to' : List Name) (t : Loc) : Prop where
  granted : AllGranted sys fs to' t
  manageable : Manageable sys fs to' t
  there : locate (without fs.node t) to' = some t

/-- the first step of both functions -/
theorem Rm_replaceable (ht : locate fs.node to' = some t) (h : Replaceable sys.toSystem fs to' t) {fuel : ℕ}
    (hfuel : fs.depth < fuel) : ∃ fs1, Rm sys.toSystem fuel to' fs = some (true, fs1) ∧ fs1.node = without fs.node t := by
  obtain ⟨ret, fs1, hRm, hspec⟩ := Rm_spec sys.toSystem fuel ht (fun _ _ h => h) (by omega) fun m n hm _ => by
    have hle := Fs.length_le_depth hm
    omega
  obtain ⟨hfine, hclear⟩ := h.manageable.fine h.granted
  obtain ⟨rfl, hgone⟩ := hspec.removes hclear h.granted.1 fun m n hm hn => ⟨hfine m n hm hn, h.granted.2 m n hm hn⟩
  refine ⟨fs1, hRm, funext fun m => ?_⟩
  rw [without]
  split_ifs with hm
  · exact hgone m hm
  · exact hspec.outside m hm

theorem sub_without (node : Nodes) (t : Loc) : Sub (without node t) node := by
  intro m n h
  rw [without] at h
  split_ifs at h
  exact h

/-- when the rename behind the removal succeeds -/
def Moves (sys : Kernel) (fs : Fs) (from' : List Name) (s t : Loc) : Prop :=
  fs.node s ≠ none ∧ ¬ s <+: t ∧ ¬ t <+: s ∧ locate (without fs.node t) from' = some s ∧ endsInDots from' = false ∧
    sys.rename s t = true

theorem renameCall_iff (hs : locate fs.node from' = some s) (h : Replaceable sys.toSystem fs to' t) {fs1 : Fs}
    (hfs1 : fs1.node = without fs.node t) :
    (∀ fs', sys.renameCall from' to' fs1 = some fs' → Moves sys fs from' s t ∧ ∀ m, fs'.node m = Fs.moved fs.node s t m) ∧
      (Moves sys fs from' s t → (sys.renameCall from' to' fs1).isSome) := by
  have hto : locate fs1.node to' = some t := hfs1 ▸ h.there
  have hgone : fs1.node t = none := by rw [hfs1, without, if_pos List.prefix_rfl]
  have hfrom : ∀ s', locate fs1.node from' = some s' → s' = s := by
    intro s' hs'
    rw [hfs1] at hs'
    have hsame := walk_mono (sub_without fs.node t) hs'
    rw [show walk fs.node false MAXSYMLINKS [] from' = some s from hs] at hsame
    exact (Option.some.inj hsame).symm
  refine ⟨fun fs' hcall => ?_, ?_⟩
  · rw [Kernel.renameCall] at hcall
    obtain ⟨s', hs', hcall⟩ := Option.bind_eq_some_iff.1 hcall
    obtain rfl := hfrom s' hs'
    obtain ⟨t', ht', hcall⟩ := Option.bind_eq_some_iff.1 hcall
    obtain rfl := Option.some.inj (hto.symm.trans ht')
    obtain ⟨st, hst, hcall⟩ := Option.bind_eq_some_iff.1 hcall
    split_ifs at hcall with hbusy hsame hfits hmovable
    · rw [hsame, hgone] at hst
      cases hst
    · obtain rfl := Option.some.inj hcall
      simp only [not_or, Bool.not_eq_true, Bool.not_eq_false] at hbusy
      obtain ⟨-, -, hdots, -, hrename⟩ := hbusy
      obtain ⟨hst1, hst2⟩ := hmovable.apart
      have hnode : fs.node s' = some st := by rwa [hfs1, without, if_neg hst2] at hst
      refine ⟨⟨by rw [hnode]; simp, hst1, hst2, by rw [← hfs1, hs'], hdots, hrename⟩, fun m => ?_⟩
      rw [Fs.node_move, hfs1, Fs.moved, Fs.moved]
      split_ifs with htm hsm
      · rw [without, if_neg]
        intro hpre
        rcases List.prefix_or_prefix_of_prefix hpre (List.prefix_append s' _) with hts | hst'
        · exact hst2 hts
        · exact hst1 hst'
      · rfl
      · rw [without, if_neg htm]
  · rintro ⟨hnode, hst1, hst2, hlocate, hdots, hrename⟩
    have hs1 : locate fs1.node from' = some s := by rw [hfs1]; exact hlocate
    have hnode1 : fs1.node s = fs.node s := by rw [hfs1, without, if_neg hst2]
    obtain ⟨st, hst⟩ := Option.ne_none_iff_exists'.1 hnode
    have hfromne : from' ≠ [] := by
      rintro rfl
      have hroot : s = [] := (Option.some.inj hs).symm
      exact hst1 (hroot ▸ List.nil_prefix)
    have htone : to' ≠ [] := by
      rintro rfl
      have hroot : t = [] := (Option.some.inj hto).symm
      exact hst2 (hroot ▸ List.nil_prefix)
    have hmovable : fs1.Movable s t := by
      obtain ⟨-, hdir, hnames⟩ := (locate_last htone h.granted.1 hto).names
      exact ⟨⟨hst1, hst2⟩, hdir, hnames⟩
    have hsame : s ≠ t := fun heq => hst1 (heq ▸ List.prefix_rfl)
    rw [Kernel.renameCall, hs1, hto]
    simp only [Option.bind_eq_bind, Option.bind_some, hnode1, hst]
    rw [if_neg (by simp [hfromne, htone, hdots, h.granted.1, hrename]), if_neg hsame,
      if_neg (by simp [fits, hgone]), dif_pos hmovable]
    rfl

end

/-- a system that refuses nothing -/
def unrestricted : Kernel := ⟨everything, fun _ _ => true, fun _ => true⟩

theorem replaceable_tree {to' : List Name} {t : Loc} (hdots : endsInDots to' = false)
    (hclear : locate (clear treeFs.node t) to' = some t) (hthere : locate (without treeFs.node t) to' = some t) :
    Replaceable everything treeFs to' t := by
  refine ⟨⟨hdots, fun m n _ _ => by rw [Granted]; split <;> rfl⟩, ⟨fun _ => rfl, fun _ => ⟨fun m n _ hn => ?_, hclear⟩⟩, hthere⟩
  have hplain : ∀ e ∈ treeFs.nodes, ¬ (e.2.kind = .socket ∨ e.2.kind = .blk) := by decide
  exact ⟨hplain _ (Fs.node_eq_some.1 hn), rfl, fun _ => rfl⟩

section

variable {sys : Kernel} {fs : Fs} {to' : List Name} {t : Loc}

end

end Sylar.FSUtil

/-
`FSUtil::Rm` and `FSUtil::Unlink` of util.cc, on a file system.

A file system is the nodes by their locations: every node but the root is in a directory. A path is absolute, and
resolved anew by every call through the symbolic links on its way, at most 40; only `opendir` follows one at its end. What a
`System` lets succeed may depend on the location, as it does with permissions. Nobody else changes the file system, and
the entries that `readdir` returns are those from the time of `opendir`.

`st_mode & S_IFDIR` is not zero for directories, sockets and block devices. A path whose `lstat` fails counts as removed.

Results:
- `hasDirBit_iff`: what the bit test takes for a directory;
- `walk_mono`, `walk_child`: a path that is found in fewer nodes is found, and the paths of the entries of a directory;
- `Rm_spec`: what a call does to the nodes, and that enough fuel ends it;
- `Rm_correct_iff`: exactly when the whole tree is removed and failures are reported.
-/
import Sylar.Core.Text

namespace Sylar.FSUtil

/-! ## File systems -/

abbrev Name := Bytes

/-- the names on the way from the root, links resolved -/
abbrev Loc := List Name

inductive Kind where
  | reg
  | dir
  | symlink (absolute : Bool) (target : List Name)
  | fifo
  | socket
  | chr
  | blk
deriving DecidableEq, Repr

structure Inode where
  kind : Kind
  perm : Fin 4096
deriving DecidableEq, Repr

def S_IFDIR : ℕ := 0o040000

/-- the S_IFMT bits of Linux -/
def Kind.fmt : Kind → ℕ
  | reg => 0o100000
  | dir => S_IFDIR
  | symlink _ _ => 0o120000
  | fifo => 0o010000
  | socket => 0o140000
  | chr => 0o020000
  | blk => 0o060000

def Inode.st_mode (n : Inode) : ℕ := n.kind.fmt ||| n.perm

def dot : Name := ['.'.toUInt8]

def dotdot : Name := ['.'.toUInt8, '.'.toUInt8]

structure Fs where
  nodes : List (Loc × Inode)
  parents : ∀ e ∈ nodes, ∀ d x, e.1 = d ++ [x] → ∃ f ∈ nodes, f.1 = d ∧ f.2.kind = .dir
  functional : (nodes.map Prod.fst).Nodup
  named : ∀ e ∈ nodes, dot ∉ e.1 ∧ dotdot ∉ e.1

/-- what is at a location -/
abbrev Nodes := Loc → Option Inode

namespace Fs

def node (fs : Fs) : Nodes := fun l => (fs.nodes.find? fun e => e.1 = l).map Prod.snd

/-- the entries of a directory, without `.` and `..` -/
def names (fs : Fs) (d : Loc) : List Name :=
  fs.nodes.filterMap fun e => if e.1.dropLast = d then e.1.getLast? else none

/-- without a node; nothing is below it where this is used -/
def erase (fs : Fs) (l : Loc) : Fs where
  nodes := fs.nodes.filter fun e => ¬ l <+: e.1
  parents := by
    intro e he d x hd
    obtain ⟨hmem, hkeep⟩ := List.mem_filter.1 he
    obtain ⟨f, hf, rfl, hdir⟩ := fs.parents e hmem d x hd
    refine ⟨f, List.mem_filter.2 ⟨hf, ?_⟩, rfl, hdir⟩
    simp only [decide_not, Bool.not_eq_true', decide_eq_false_iff_not] at hkeep ⊢
    exact fun hpre => hkeep (hd ▸ hpre.trans (List.prefix_append _ _))
  functional := fs.functional.sublist (List.filter_sublist.map Prod.fst)
  named := fun e he => fs.named e (List.mem_filter.1 he).1

end Fs

/-! ## The calls -/

/-- the calls that succeed, by the location of what they are about -/
structure System where
  lstat : Loc → Bool
  opendir : Loc → Bool
  unlink : Loc → Bool
  rmdir : Loc → Bool

def isDir : Option Inode → Bool
  | some ⟨.dir, _⟩ => true
  | _ => false

section

variable (node : Nodes) (follow : Bool)

/-- path resolution from `cur` on; `jump` resolves what a link leads to, and `follow` is about the last name -/
def walkFrom (jump : Loc → List Name → Option Loc) : Loc → List Name → Option Loc
  | cur, [] => some cur
  | cur, name :: rest =>
    if isDir (node cur) = false then none
    else if name = dot then walkFrom jump cur rest
    else if name = dotdot then walkFrom jump cur.dropLast rest
    else if rest = [] ∧ follow = false then some (cur ++ [name])
    else match node (cur ++ [name]) with
      | some ⟨.symlink absolute target, _⟩ => jump (if absolute then [] else cur) (target ++ rest)
      | _ => walkFrom jump (cur ++ [name]) rest

/-- the same with at most `links` symbolic links on the way -/
def walk : ℕ → Loc → List Name → Option Loc
  | 0 => walkFrom node follow fun _ _ => none
  | links + 1 => walkFrom node follow (walk links)

end

def MAXSYMLINKS : ℕ := 40

/-- where an absolute path leads, the last name not followed -/
def locate (node : Nodes) (path : List Name) : Option Loc := walk node false MAXSYMLINKS [] path

/-- `.` and `..` at the end of a path, which rmdir refuses -/
def endsInDots (path : List Name) : Bool := path.getLast? = some dot ∨ path.getLast? = some dotdot

namespace System

variable (sys : System)

def lstatCall (path : List Name) (fs : Fs) : Option Inode := do
  let l ← locate fs.node path
  if sys.lstat l then fs.node l else none

/-- the names that `readdir` returns -/
def opendirCall (path : List Name) (fs : Fs) : Option (List Name) := do
  let l ← walk fs.node true MAXSYMLINKS [] path
  if isDir (fs.node l) ∧ sys.opendir l then some (dot :: dotdot :: fs.names l) else none

/-- a directory cannot be unlinked -/
def unlinkCall (path : List Name) (fs : Fs) : Option Fs := do
  let l ← locate fs.node path
  if (fs.node l).isSome ∧ isDir (fs.node l) = false ∧ sys.unlink l then some (fs.erase l) else none

/-- only an empty directory can be removed -/
def rmdirCall (path : List Name) (fs : Fs) : Option Fs := do
  let l ← locate fs.node path
  if isDir (fs.node l) ∧ endsInDots path = false ∧ fs.names l = [] ∧ sys.rmdir l then some (fs.erase l) else none

end System

/-! ## Unlink and Rm -/

section

variable (sys : System)

def Unlink (filename : List Name) (exist : Bool) (fs : Fs) : Bool × Fs :=
  if exist = false ∧ (sys.lstatCall filename fs).isNone then (true, fs)
  else match sys.unlinkCall filename fs with
    | none => (false, fs)
    | some fs' => (true, fs')

/-- `while((dp = readdir(dir)))`, with the recursive call as `rm`; `ret` is overwritten -/
def rmEntries (rm : List Name → Fs → Option (Bool × Fs)) (path : List Name) : List Name → Bool × Fs → Option (Bool × Fs)
  | [], s => some s
  | name :: names, (ret, fs) =>
    if name = dot ∨ name = dotdot then rmEntries rm path names (ret, fs)
    else do rmEntries rm path names (← rm (path ++ [name]) fs)

/-- the result and the file system after it; `none` is out of fuel -/
def Rm : ℕ → List Name → Fs → Option (Bool × Fs)
  | 0, _, _ => none
  | fuel + 1, path, fs =>
    match sys.lstatCall path fs with
    | none => some (true, fs)
    | some st =>
      if st.st_mode &&& S_IFDIR = 0 then some (Unlink sys path false fs)
      else match sys.opendirCall path fs with
        | none => some (false, fs)
        | some names => do
          let (ret, fs) ← rmEntries (Rm fuel) path names (true, fs)
          match sys.rmdirCall path fs with
          | none => return (false, fs)
          | some fs' => return (ret, fs')

end

/-! ## The bit test -/

theorem st_mode_and (n : Inode) : n.st_mode &&& S_IFDIR = n.kind.fmt &&& S_IFDIR := by
  have hperm : (n.perm : ℕ) &&& 2 ^ 14 = 0 := by
    have hlt : (n.perm : ℕ) < 2 ^ 14 := n.perm.isLt.trans (by norm_num)
    apply Nat.eq_of_testBit_eq
    intro i
    rw [Nat.testBit_and, Nat.zero_testBit, Nat.testBit_two_pow]
    by_cases hi : 14 = i
    · rw [← hi, Nat.testBit_lt_two_pow hlt, Bool.false_and]
    · rw [decide_eq_false hi, Bool.and_false]
  rw [Inode.st_mode, Nat.and_or_distrib_right, show S_IFDIR = 2 ^ 14 from rfl, hperm, Nat.or_zero]

/-- no directory, but its mode has all the bits of one -/
def Kind.looksLikeDir (k : Kind) : Prop := k = .socket ∨ k = .blk

theorem hasDirBit_iff (n : Inode) : n.st_mode &&& S_IFDIR ≠ 0 ↔ n.kind = .dir ∨ n.kind.looksLikeDir := by
  rw [st_mode_and, Kind.looksLikeDir]
  cases n.kind <;> simp [Kind.fmt, S_IFDIR]

theorem isDir_some {n : Inode} : isDir (some n) = true ↔ n.kind = .dir := by
  obtain ⟨kind, perm⟩ := n
  cases kind <;> simp [isDir]

/-! ## Nodes -/

namespace Fs

variable {fs : Fs}

theorem node_eq_some {l : Loc} {n : Inode} : fs.node l = some n ↔ (l, n) ∈ fs.nodes := by
  rw [node, Option.map_eq_some_iff]
  refine ⟨fun h => ?_, fun h => ?_⟩
  · obtain ⟨e, hfind, rfl⟩ := h
    have hkey : e.1 = l := by simpa using List.find?_some hfind
    exact hkey ▸ List.mem_of_find?_eq_some hfind
  · cases hfind : fs.nodes.find? fun e => decide (e.1 = l) with
    | none => exact absurd (by simp) (List.find?_eq_none.1 hfind (l, n) h)
    | some e =>
      have hkey : e.1 = l := by simpa using List.find?_some hfind
      have hsame : e = (l, n) := List.inj_on_of_nodup_map fs.functional (List.mem_of_find?_eq_some hfind) h hkey
      exact ⟨e, rfl, by rw [hsame]⟩

theorem mem_names {d : Loc} {x : Name} : x ∈ fs.names d ↔ ∃ n, fs.node (d ++ [x]) = some n := by
  rw [names, List.mem_filterMap]
  refine ⟨fun h => ?_, fun h => ?_⟩
  · obtain ⟨⟨m, n⟩, hmem, hx⟩ := h
    split at hx
    · rename_i hd
      have hm : m = d ++ [x] := by
        have hne : m ≠ [] := fun hnil => by simp [hnil] at hx
        rw [← List.dropLast_append_getLast hne, hd]
        rw [List.getLast?_eq_some_getLast hne, Option.some_inj] at hx
        rw [hx]
      exact ⟨n, node_eq_some.2 (hm ▸ hmem)⟩
    · cases hx
  · obtain ⟨n, hn⟩ := h
    exact ⟨(d ++ [x], n), node_eq_some.1 hn, by simp⟩

theorem names_ne_dots {d : Loc} {x : Name} (hx : x ∈ fs.names d) : x ≠ dot ∧ x ≠ dotdot := by
  obtain ⟨n, hn⟩ := mem_names.1 hx
  obtain ⟨h1, h2⟩ := fs.named _ (node_eq_some.1 hn)
  refine ⟨fun heq => ?_, fun heq => ?_⟩
  · exact h1 (heq ▸ List.mem_append_right d List.mem_cons_self)
  · exact h2 (heq ▸ List.mem_append_right d List.mem_cons_self)

theorem parent_isDir {d : Loc} {x : Name} {n : Inode} (h : fs.node (d ++ [x]) = some n) : isDir (fs.node d) = true := by
  obtain ⟨f, hf, rfl, hdir⟩ := fs.parents _ (node_eq_some.1 h) d x rfl
  rw [node_eq_some.2 (show (f.1, f.2) ∈ fs.nodes from hf), isDir_some]
  exact hdir

/-- a node below `l` is in one of its entries, and `l` is a directory -/
theorem below_isDir {l m : Loc} {n : Inode} (h : fs.node m = some n) (hpre : l <+: m) (hne : m ≠ l) :
    isDir (fs.node l) = true ∧ ∃ x ∈ fs.names l, l ++ [x] <+: m := by
  obtain ⟨ys, rfl⟩ := hpre
  induction ys using List.reverseRecOn generalizing n with
  | nil => exact absurd (List.append_nil l) hne
  | append_singleton ys y ih =>
    rw [← List.append_assoc] at h
    have hparent := parent_isDir h
    by_cases hys : ys = []
    · subst hys
      rw [List.append_nil] at h hparent
      exact ⟨hparent, y, mem_names.2 ⟨n, h⟩, List.prefix_rfl⟩
    · obtain ⟨n', hn'⟩ : ∃ n', fs.node (l ++ ys) = some n' := by
        cases hnode : fs.node (l ++ ys) with
        | none =>
          rw [hnode] at hparent
          exact absurd hparent (by simp [isDir])
        | some n' => exact ⟨n', rfl⟩
      obtain ⟨hdir, x, hx, hpre⟩ := ih hn' (by simpa using hys)
      exact ⟨hdir, x, hx, hpre.trans (by simp)⟩

theorem node_erase (fs : Fs) (l m : Loc) : (fs.erase l).node m = if l <+: m then none else fs.node m := by
  rw [node, erase, node]
  by_cases hpre : l <+: m
  · rw [if_pos hpre, Option.map_eq_none_iff, List.find?_eq_none]
    intro e he heq
    rw [decide_eq_true_eq] at heq
    have hkeep := (List.mem_filter.1 he).2
    rw [heq] at hkeep
    simp [hpre] at hkeep
  · rw [if_neg hpre, List.find?_filter]
    congr 2
    funext e
    by_cases heq : e.1 = m
    · simp [heq, hpre]
    · simp [heq]

end Fs

/-! ## Paths -/

/-- what `node'` has, `node` has -/
def Sub (node' node : Nodes) : Prop := ∀ m n, node' m = some n → node m = some n

theorem Sub.isDir {node' node : Nodes} (h : Sub node' node) {m : Loc} (hd : isDir (node' m) = true) :
    node m = node' m := by
  cases hm : node' m with
  | none =>
    rw [hm] at hd
    exact absurd hd (by simp [FSUtil.isDir])
  | some n => exact h m n hm

theorem Sub.gone {node' node : Nodes} (h : Sub node' node) {m : Loc} (hm : node m = none) : node' m = none := by
  cases hm' : node' m with
  | none => rfl
  | some n =>
    rw [h m n hm'] at hm
    cases hm

/-- a directory is no link -/
theorem walkFrom_dir {node : Nodes} {follow : Bool} {jump : Loc → List Name → Option Loc} {cur : Loc} {name : Name}
    {rest : List Name} (hcur : isDir (node cur) = true) (hname : name ≠ dot ∧ name ≠ dotdot)
    (hrest : ¬ (rest = [] ∧ follow = false)) (hdir : isDir (node (cur ++ [name])) = true) :
    walkFrom node follow jump cur (name :: rest) = walkFrom node follow jump (cur ++ [name]) rest := by
  rw [walkFrom, if_neg (by simp [hcur]), if_neg hname.1, if_neg hname.2, if_neg hrest]
  split
  · rename_i hlink
    rw [hlink] at hdir
    exact absurd hdir (by simp [isDir])
  · rfl

theorem walkFrom_mono {node' node : Nodes} (hsub : Sub node' node) {jump' jump : Loc → List Name → Option Loc}
    (hjump : ∀ cur path l, jump' cur path = some l → jump cur path = some l) {path : List Name} {cur l : Loc}
    (h : walkFrom node' false jump' cur path = some l) : walkFrom node false jump cur path = some l := by
  induction path generalizing cur with
  | nil => exact h
  | cons name rest ih =>
    rw [walkFrom] at h
    split at h
    · cases h
    rename_i hcur
    have hcur' : isDir (node' cur) = true := by simpa using hcur
    have hcur'' : ¬ isDir (node cur) = false := by rw [hsub.isDir hcur', hcur']; simp
    rw [walkFrom, if_neg hcur'']
    split_ifs at h ⊢ with hdot hdotdot hlast
    · exact ih h
    · exact ih h
    · exact h
    · have hrest : rest ≠ [] := fun hnil => hlast ⟨hnil, rfl⟩
      cases hnode : node' (cur ++ [name]) with
      | none =>
        -- nothing is found below what is missing
        rw [hnode] at h
        obtain ⟨next, rest', rfl⟩ := List.exists_cons_of_ne_nil hrest
        simp only [walkFrom, hnode, isDir, if_true] at h
        cases h
      | some n =>
        rw [hsub _ n hnode]
        rw [hnode] at h
        split at h
        · exact hjump _ _ _ h
        · exact ih h

theorem walk_mono {node' node : Nodes} (hsub : Sub node' node) {links : ℕ} {path : List Name} {cur l : Loc}
    (h : walk node' false links cur path = some l) : walk node false links cur path = some l := by
  induction links generalizing cur path l with
  | zero => exact walkFrom_mono hsub (fun _ _ _ hj => hj) h
  | succ links ih => exact walkFrom_mono hsub (fun _ _ _ hj => ih hj) h

theorem walkFrom_child {node : Nodes} {jump : Loc → List Name → Option Loc} {l : Loc} (hl : isDir (node l) = true)
    {x : Name} (hx : x ≠ dot ∧ x ≠ dotdot)
    (hjump : ∀ cur path, path ≠ [] → jump cur path = some l → jump cur (path ++ [x]) = some (l ++ [x]))
    {path : List Name} {cur : Loc} (h : walkFrom node false jump cur path = some l) :
    walkFrom node false jump cur (path ++ [x]) = some (l ++ [x]) := by
  have hend : walkFrom node false jump l [x] = some (l ++ [x]) := by
    rw [walkFrom, if_neg (by simp [hl]), if_neg hx.1, if_neg hx.2, if_pos ⟨rfl, rfl⟩]
  induction path generalizing cur with
  | nil =>
    cases h
    exact hend
  | cons name rest ih =>
    rw [List.cons_append]
    rw [walkFrom] at h
    split_ifs at h with hcur hdot hdotdot hlast
    · rw [walkFrom, if_neg hcur, if_pos hdot]
      exact ih h
    · rw [walkFrom, if_neg hcur, if_neg hdot, if_pos hdotdot]
      exact ih h
    · cases h
      rw [hlast.1, walkFrom_dir (by simpa using hcur) ⟨hdot, hdotdot⟩ (by simp) hl]
      exact hend
    · have hrest : rest ≠ [] := fun hnil => hlast ⟨hnil, rfl⟩
      rw [walkFrom, if_neg hcur, if_neg hdot, if_neg hdotdot, if_neg (by simp)]
      split at h
      · rw [← List.append_assoc]
        exact hjump _ _ (by simp [hrest]) h
      · exact ih h

/-- the path of an entry of the directory that `path` leads to -/
theorem walk_child {node : Nodes} {l : Loc} (hl : isDir (node l) = true) {x : Name} (hx : x ≠ dot ∧ x ≠ dotdot)
    {links : ℕ} {path : List Name} {cur : Loc} (h : walk node false links cur path = some l) :
    walk node false links cur (path ++ [x]) = some (l ++ [x]) := by
  induction links generalizing cur path with
  | zero => exact walkFrom_child hl hx (fun _ _ _ hj => by cases hj) h
  | succ links ih => exact walkFrom_child hl hx (fun _ _ _ hj => ih hj) h

theorem walkFrom_follow {node : Nodes} {jump' jump : Loc → List Name → Option Loc} {l : Loc}
    (hl : ∀ absolute target perm, node l ≠ some ⟨.symlink absolute target, perm⟩)
    (hjump : ∀ cur path, path ≠ [] → jump' cur path = some l → jump cur path = some l) {path : List Name} {cur : Loc}
    (h : walkFrom node false jump' cur path = some l) : walkFrom node true jump cur path = some l := by
  induction path generalizing cur with
  | nil => exact h
  | cons name rest ih =>
    rw [walkFrom] at h
    split_ifs at h with hcur hdot hdotdot hlast
    · rw [walkFrom, if_neg hcur, if_pos hdot]
      exact ih h
    · rw [walkFrom, if_neg hcur, if_neg hdot, if_pos hdotdot]
      exact ih h
    · cases h
      rw [walkFrom, if_neg hcur, if_neg hdot, if_neg hdotdot, if_neg (by simp), hlast.1]
      split
      · rename_i hlink
        exact absurd hlink (hl _ _ _)
      · rw [walkFrom]
    · have hrest : rest ≠ [] := fun hnil => hlast ⟨hnil, rfl⟩
      rw [walkFrom, if_neg hcur, if_neg hdot, if_neg hdotdot, if_neg (by simp)]
      split at h
      · exact hjump _ _ (by simp [hrest]) h
      · exact ih h

/-- following the last name changes nothing where it is no link -/
theorem walk_follow {node : Nodes} {l : Loc}
    (hl : ∀ absolute target perm, node l ≠ some ⟨.symlink absolute target, perm⟩) {links : ℕ} {path : List Name}
    {cur : Loc} (h : walk node false links cur path = some l) : walk node true links cur path = some l := by
  induction links generalizing cur path with
  | zero => exact walkFrom_follow hl (fun _ _ _ hj => by cases hj) h
  | succ links ih => exact walkFrom_follow hl (fun _ _ _ hj => ih hj) h

/-- what is in an entry of `l` is below `l` -/
theorem child_below {l m : Loc} {x : Name} (h : l ++ [x] <+: m) : l <+: m ∧ m ≠ l := by
  refine ⟨(List.prefix_append l [x]).trans h, fun heq => ?_⟩
  have hlen := h.length_le
  rw [heq, List.length_append, List.length_singleton] at hlen
  omega

/-! ## What a call does -/

/-- the nodes without those below `l` -/
def clear (node : Nodes) (l : Loc) : Nodes := fun m => if l <+: m ∧ m ≠ l then none else node m

theorem sub_clear (node : Nodes) (l : Loc) : Sub (clear node l) node := by
  intro m n h
  rw [clear] at h
  split at h
  · cases h
  · exact h

theorem sub_erase (fs : Fs) (l : Loc) : Sub (fs.erase l).node fs.node := by
  intro m n h
  rw [Fs.node_erase] at h
  split at h
  · cases h
  · exact h

section

variable (sys : System)

/-- a node that `Rm` can deal with: no socket and no block device, and the system shows it -/
def Fine (m : Loc) (n : Inode) : Prop :=
  ¬ n.kind.looksLikeDir ∧ sys.lstat m = true ∧ (n.kind = .dir → sys.opendir m = true)

/-- the system lets the node be removed, a directory when it is empty -/
def Granted (m : Loc) (n : Inode) : Prop := if n.kind = .dir then sys.rmdir m = true else sys.unlink m = true

/-- what `Rm(path)` returns and leaves, where `path` leads to `l` or nowhere any more -/
structure RmSpec (fs : Fs) (path : List Name) (l : Loc) (ret : Bool) (fs' : Fs) : Prop where
  outside : ∀ m, ¬ l <+: m → fs'.node m = fs.node m
  sub : Sub fs'.node fs.node
  fine : ∀ m n, fs.node m = some n → fs'.node m = none → Fine sys m n
  reports : locate fs.node path = some l → (fs.node l ≠ none → sys.lstat l = true) → ret = true →
    (∀ m, l <+: m → fs'.node m = none) ∧ (fs.node l ≠ none → locate (clear fs.node l) path = some l)
  removes : locate (clear fs.node l) path = some l → endsInDots path = false →
    (∀ m n, l <+: m → fs.node m = some n → Fine sys m n ∧ Granted sys m n) →
    ret = true ∧ ∀ m, l <+: m → fs'.node m = none

/-- what the loop over entries `xs` of the directory `l` returns and leaves -/
structure EntriesSpec (fs : Fs) (path : List Name) (l : Loc) (xs : List Name) (ret ret' : Bool) (fs' : Fs) : Prop where
  outside : ∀ m, ¬ (l <+: m ∧ m ≠ l) → fs'.node m = fs.node m
  sub : Sub fs'.node fs.node
  fine : ∀ m n, fs.node m = some n → fs'.node m = none → Fine sys m n
  removes : locate (clear fs.node l) path = some l →
    (∀ m n, l <+: m → fs.node m = some n → Fine sys m n ∧ Granted sys m n) →
    (ret = true → ret' = true) ∧ ∀ x ∈ xs, ∀ m, l ++ [x] <+: m → fs'.node m = none

end

section

variable {sys : System} {fs : Fs} {path : List Name} {l : Loc}

theorem none_below (h : isDir (fs.node l) = false) {m : Loc} (hpre : l <+: m) (hne : m ≠ l) : fs.node m = none := by
  cases hm : fs.node m with
  | none => rfl
  | some n =>
    have hdir := (Fs.below_isDir hm hpre hne).1
    rw [h] at hdir
    cases hdir

theorem clear_eq (h : isDir (fs.node l) = false) : clear fs.node l = fs.node := by
  funext m
  rw [clear]
  split
  · rename_i hm
    exact (none_below h hm.1 hm.2).symm
  · rfl

/-- what two changes remove, one of them removes -/
theorem fine_trans {fs1 fs2 : Fs} (hsub : Sub fs1.node fs.node)
    (h1 : ∀ m n, fs.node m = some n → fs1.node m = none → Fine sys m n)
    (h2 : ∀ m n, fs1.node m = some n → fs2.node m = none → Fine sys m n) (m : Loc) (n : Inode)
    (h : fs.node m = some n) (hnone : fs2.node m = none) : Fine sys m n := by
  cases hm : fs1.node m with
  | none => exact h1 m n h hm
  | some n' =>
    have hsame := hsub m n' hm
    rw [h] at hsame
    cases hsame
    exact h2 m n hm hnone

/-- with nothing below it, a node goes alone -/
theorem fine_erase {st : Inode} (hempty : ∀ m, l <+: m → m ≠ l → fs.node m = none) (hnode : fs.node l = some st)
    (hfine : Fine sys l st) (m : Loc) (n : Inode) (h : fs.node m = some n) (hnone : (fs.erase l).node m = none) :
    Fine sys m n := by
  rw [Fs.node_erase] at hnone
  split at hnone
  · rename_i hpre
    have heq : m = l := by
      by_contra hne
      rw [hempty m hpre hne] at h
      cases h
    subst heq
    rw [hnode] at h
    cases h
    exact hfine
  · rw [h] at hnone
    cases hnone

theorem lstatCall_eq (hloc : locate fs.node path = some l) :
    sys.lstatCall path fs = if sys.lstat l then fs.node l else none := by
  rw [System.lstatCall, hloc]
  rfl

/-- a call that does nothing -/
theorem rmSpec_same {ret : Bool} (hreports : locate fs.node path = some l → (fs.node l ≠ none → sys.lstat l = true) →
      ret = true → fs.node l = none)
    (hremoves : locate (clear fs.node l) path = some l →
      (∀ m n, l <+: m → fs.node m = some n → Fine sys m n ∧ Granted sys m n) → ret = true ∧ fs.node l = none) :
    RmSpec sys fs path l ret fs := by
  have hgone : fs.node l = none → ∀ m, l <+: m → fs.node m = none := by
    intro hnone m hpre
    by_cases hm : m = l
    · rw [hm, hnone]
    · exact none_below (by rw [hnone]; rfl) hpre hm
  refine ⟨fun m _ => rfl, fun m n h => h, fun m n h hnone => ?_, fun hloc hstat hret => ?_, fun hclear _ hall => ?_⟩
  · rw [h] at hnone
    cases hnone
  · have hnone := hreports hloc hstat hret
    exact ⟨hgone hnone, fun hsome => absurd hnone hsome⟩
  · obtain ⟨hret, hnone⟩ := hremoves hclear hall
    exact ⟨hret, hgone hnone⟩

/-- nothing is there, or it cannot be seen -/
theorem rmSpec_unseen (hstat : sys.lstatCall path fs = none) : RmSpec sys fs path l true fs := by
  have hnone : locate fs.node path = some l → (fs.node l ≠ none → sys.lstat l = true) → fs.node l = none := by
    intro hloc hok
    by_contra hne
    rw [lstatCall_eq hloc, if_pos (hok hne)] at hstat
    exact hne hstat
  refine rmSpec_same (fun hloc hok _ => hnone hloc hok) fun hclear hall => ⟨rfl, ?_⟩
  refine hnone (walk_mono (sub_clear fs.node l) hclear) fun hne => ?_
  obtain ⟨n, hn⟩ := Option.ne_none_iff_exists'.1 hne
  exact (hall l n List.prefix_rfl hn).1.2.1

/-- a node whose mode has no bit of a directory is unlinked -/
theorem rmSpec_unlink {st : Inode} (hloc : locate fs.node path = some l) (hstat : sys.lstat l = true)
    (hnode : fs.node l = some st) (hbit : st.st_mode &&& S_IFDIR = 0) :
    RmSpec sys fs path l (Unlink sys path false fs).1 (Unlink sys path false fs).2 := by
  have hkind : ¬ (st.kind = .dir ∨ st.kind.looksLikeDir) := fun h => (hasDirBit_iff st).2 h hbit
  rw [not_or] at hkind
  have hdir : isDir (fs.node l) = false := by rw [hnode, ← Bool.not_eq_true, isDir_some]; exact hkind.1
  have hseen : (sys.lstatCall path fs).isNone = false := by rw [lstatCall_eq hloc, if_pos hstat, hnode]; rfl
  have hcall : sys.unlinkCall path fs = if sys.unlink l then some (fs.erase l) else none := by
    rw [System.unlinkCall, hloc]
    simp [hnode, hnode ▸ hdir]
  rw [Unlink, if_neg (by simp [hseen]), hcall]
  by_cases hgrant : sys.unlink l = true
  · rw [if_pos hgrant]
    have hgone : ∀ m, l <+: m → (fs.erase l).node m = none := fun m hm => by rw [Fs.node_erase, if_pos hm]
    have hfine : Fine sys l st := ⟨hkind.2, hstat, fun h => absurd h hkind.1⟩
    exact ⟨fun m hm => by rw [Fs.node_erase, if_neg hm], sub_erase fs l,
      fine_erase (fun m hpre hne => none_below hdir hpre hne) hnode hfine,
      fun _ _ _ => ⟨hgone, fun _ => by rw [clear_eq hdir, hloc]⟩, fun _ _ _ => ⟨rfl, hgone⟩⟩
  · rw [if_neg hgrant]
    refine rmSpec_same (fun _ _ h => by cases h) fun _ hall => ?_
    have hgranted := (hall l st List.prefix_rfl hnode).2
    rw [Granted, if_neg hkind.1] at hgranted
    exact absurd hgranted hgrant

/-- `opendir` of what the bit test lets through -/
theorem opendirCall_eq {st : Inode} (hloc : locate fs.node path = some l) (hnode : fs.node l = some st)
    (hbit : st.st_mode &&& S_IFDIR ≠ 0) : sys.opendirCall path fs =
      if st.kind = .dir ∧ sys.opendir l = true then some (dot :: dotdot :: fs.names l) else none := by
  have hlink : ∀ absolute target perm, fs.node l ≠ some ⟨.symlink absolute target, perm⟩ := by
    intro absolute target perm h
    rw [hnode] at h
    cases h
    rcases (hasDirBit_iff _).1 hbit with h | h | h
    · cases h
    · cases h
    · cases h
  rw [System.opendirCall, walk_follow hlink hloc]
  simp only [Option.bind_eq_bind, Option.bind_some, hnode, isDir_some]

/-- what is left when a path to the directory `l` is still found with nothing below it -/
theorem locate_clear_child (hdir : isDir (fs.node l) = true) {x : Name} (hx : x ≠ dot ∧ x ≠ dotdot)
    (hclear : locate (clear fs.node l) path = some l) :
    locate (clear fs.node (l ++ [x])) (path ++ [x]) = some (l ++ [x]) := by
  have hnode : clear fs.node (l ++ [x]) l = fs.node l := by rw [clear, if_neg fun h => (child_below h.1).2 rfl]
  have hsub : Sub (clear fs.node l) (clear fs.node (l ++ [x])) := by
    intro m n h
    rw [clear] at h ⊢
    split_ifs at h with hm
    rw [if_neg fun hcon => hm (child_below hcon.1), h]
  exact walk_child (by rw [hnode]; exact hdir) hx (walk_mono hsub hclear)

/-- the calls for the entries, one after the other; `orig` are nodes in which the path still leads to `l` -/
theorem rmEntries_spec {rm : List Name → Fs → Option (Bool × Fs)} {orig : Nodes} (horig : locate orig path = some l)
    (hdir : isDir (fs.node l) = true) (hsub : Sub fs.node orig) (xs : List Name)
    (hxs : ∀ x ∈ xs, x ≠ dot ∧ x ≠ dotdot) (ret : Bool)
    (hrm : ∀ fs1, Sub fs1.node fs.node → ∀ x ∈ xs, locate orig (path ++ [x]) = some (l ++ [x]) →
      ∃ ret' fs2, rm (path ++ [x]) fs1 = some (ret', fs2) ∧ RmSpec sys fs1 (path ++ [x]) (l ++ [x]) ret' fs2) :
    ∃ ret' fs', rmEntries rm path xs (ret, fs) = some (ret', fs') ∧ EntriesSpec sys fs path l xs ret ret' fs' := by
  induction xs generalizing fs ret with
  | nil =>
    refine ⟨ret, fs, rfl, fun m _ => rfl, fun m n h => h, fun m n h hnone => ?_, fun _ _ => ⟨id, by simp⟩⟩
    rw [h] at hnone
    cases hnone
  | cons x xs ih =>
    have hx := hxs x List.mem_cons_self
    have hchild : locate orig (path ++ [x]) = some (l ++ [x]) :=
      walk_child (by rw [hsub.isDir hdir]; exact hdir) hx horig
    obtain ⟨ret1, fs1, hcall, h1⟩ := hrm fs (fun _ _ h => h) x List.mem_cons_self hchild
    have hout1 : ∀ m, ¬ (l <+: m ∧ m ≠ l) → fs1.node m = fs.node m := fun m hm =>
      h1.outside m fun hpre => hm (child_below hpre)
    have hdir1 : isDir (fs1.node l) = true := by rw [hout1 l (by simp)]; exact hdir
    obtain ⟨ret2, fs2, hrest, h2⟩ := ih hdir1 (fun m n h => hsub m n (h1.sub m n h))
      (fun y hy => hxs y (List.mem_cons_of_mem x hy)) ret1
      fun fs3 hsub3 y hy => hrm fs3 (fun m n h => h1.sub m n (hsub3 m n h)) y (List.mem_cons_of_mem x hy)
    refine ⟨ret2, fs2, ?_, fun m hm => ?_, fun m n h => h1.sub m n (h2.sub m n h), fine_trans h1.sub h1.fine h2.fine,
      fun hclear hall => ?_⟩
    · rw [rmEntries, if_neg (not_or.2 hx), hcall]
      exact hrest
    · rw [h2.outside m hm, hout1 m hm]
    · -- the entry `x` and everything below it goes, and the rest of the directory is as before
      obtain ⟨hret1, hgone1⟩ := h1.removes (locate_clear_child hdir hx hclear) (by simp [endsInDots, hx.1, hx.2])
        fun m n hm h => hall m n ((List.prefix_append l [x]).trans hm) h
      have hclear1 : clear fs1.node l = clear fs.node l := by
        funext m
        rw [clear, clear]
        split
        · rfl
        · exact hout1 m (by assumption)
      obtain ⟨hret2, hgone2⟩ := h2.removes (hclear1 ▸ hclear) fun m n hm h => hall m n hm (h1.sub m n h)
      refine ⟨fun _ => hret2 hret1, fun y hy m hm => ?_⟩
      rcases List.mem_cons.1 hy with rfl | hy'
      · exact h2.sub.gone (hgone1 m hm)
      · exact hgone2 y hy' m hm

/-- the entries of a directory and then the directory itself -/
theorem rmSpec_dir {st : Inode} {fs1 : Fs} {ret1 : Bool} (hloc : locate fs.node path = some l)
    (hstat : sys.lstat l = true) (hnode : fs.node l = some st) (hkind : st.kind = .dir) (hopen : sys.opendir l = true)
    (h1 : EntriesSpec sys fs path l (fs.names l) true ret1 fs1) :
    match sys.rmdirCall path fs1 with
    | none => RmSpec sys fs path l false fs1
    | some fs2 => RmSpec sys fs path l ret1 fs2 := by
  have hnode1 : fs1.node l = some st := by rw [h1.outside l (by simp), hnode]
  have hout1 : ∀ m, ¬ l <+: m → fs1.node m = fs.node m := fun m hm => h1.outside m fun hcon => hm hcon.1
  have hsub1 : Sub (clear fs.node l) fs1.node := by
    intro m n h
    rw [clear] at h
    split_ifs at h with hm
    rw [h1.outside m hm, h]
  -- an empty directory has nothing below it
  have hempty : fs1.names l = [] → ∀ m, l <+: m → m ≠ l → fs1.node m = none := by
    intro hnames m hpre hne
    cases hm : fs1.node m with
    | none => rfl
    | some n =>
      obtain ⟨_, x, hx, _⟩ := Fs.below_isDir hm hpre hne
      rw [hnames] at hx
      cases hx
  have hloc1 : ∀ l', locate fs1.node path = some l' → l' = l := by
    intro l' hl'
    have hsame := walk_mono h1.sub hl'
    rw [locate] at hloc
    rw [hloc] at hsame
    exact (Option.some_inj.1 hsame).symm
  have hcall : sys.rmdirCall path fs1 = if locate fs1.node path = some l ∧ endsInDots path = false ∧
      fs1.names l = [] ∧ sys.rmdir l = true then some (fs1.erase l) else none := by
    rw [System.rmdirCall]
    cases hl' : locate fs1.node path with
    | none => simp
    | some l' =>
      rw [hloc1 l' hl']
      have hdir1 : isDir (fs1.node l) = true := by rw [hnode1, isDir_some]; exact hkind
      simp [hdir1]
  by_cases hremove : locate fs1.node path = some l ∧ endsInDots path = false ∧ fs1.names l = [] ∧ sys.rmdir l = true
  · rw [hcall, if_pos hremove]
    have hgone : ∀ m, l <+: m → (fs1.erase l).node m = none := fun m hm => by rw [Fs.node_erase, if_pos hm]
    have hdirect : locate (clear fs.node l) path = some l := by
      refine walk_mono (fun m n h => ?_) hremove.1
      by_cases hm : l <+: m ∧ m ≠ l
      · rw [hempty hremove.2.2.1 m hm.1 hm.2] at h
        cases h
      · rw [clear, if_neg hm, ← h1.outside m hm, h]
    have hfine : Fine sys l st := ⟨by rw [hkind]; simp [Kind.looksLikeDir], hstat, fun _ => hopen⟩
    exact ⟨fun m hm => by rw [Fs.node_erase, if_neg hm, hout1 m hm], fun m n h => h1.sub m n (sub_erase fs1 l m n h),
      fine_trans h1.sub h1.fine (fine_erase (hempty hremove.2.2.1) hnode1 hfine), fun _ _ _ => ⟨hgone, fun _ => hdirect⟩,
      fun hclear _ hall => ⟨(h1.removes hclear hall).1 rfl, hgone⟩⟩
  · rw [hcall, if_neg hremove]
    refine ⟨hout1, h1.sub, h1.fine, fun _ _ h => (by cases h), fun hclear hdots hall => absurd ?_ hremove⟩
    have hgone := (h1.removes hclear hall).2
    have hgranted := (hall l st List.prefix_rfl hnode).2
    rw [Granted, if_pos hkind] at hgranted
    refine ⟨walk_mono hsub1 hclear, hdots, List.eq_nil_iff_forall_not_mem.2 fun x hx => ?_, hgranted⟩
    obtain ⟨n, hn⟩ := Fs.mem_names.1 hx
    have hx' : x ∈ fs.names l := Fs.mem_names.2 ⟨n, h1.sub _ n hn⟩
    rw [hgone x hx' _ List.prefix_rfl] at hn
    cases hn

end

/-! ## The recursion -/

/-- **Every call ends and does what it should**, with enough fuel for the names below it. The path leads to `l` in nodes
`orig` that there were before. -/
theorem Rm_spec (sys : System) (fuel : ℕ) {fs : Fs} {path : List Name} {l : Loc} {orig : Nodes}
    (horig : locate orig path = some l) (hsub : Sub fs.node orig) (hfuel : 0 < fuel)
    (hdeep : ∀ m n, fs.node m = some n → l <+: m → m.length < l.length + fuel) :
    ∃ ret fs', Rm sys fuel path fs = some (ret, fs') ∧ RmSpec sys fs path l ret fs' := by
  induction fuel generalizing fs path l with
  | zero => exact absurd hfuel (by omega)
  | succ fuel ih =>
    cases hst : sys.lstatCall path fs with
    | none => exact ⟨true, fs, by rw [Rm, hst], rmSpec_unseen hst⟩
    | some st =>
      -- the call sees the node at `l`
      obtain ⟨l', hloc, hseen⟩ : ∃ l', locate fs.node path = some l' ∧
          (if sys.lstat l' then fs.node l' else none) = some st := Option.bind_eq_some_iff.1 hst
      have hl : l' = l := by
        have hsame : locate orig path = some l' := walk_mono hsub hloc
        rw [horig] at hsame
        exact (Option.some_inj.1 hsame).symm
      subst hl
      split_ifs at hseen with hstat
      by_cases hbit : st.st_mode &&& S_IFDIR = 0
      · exact ⟨_, _, by rw [Rm, hst]; exact if_pos hbit, rmSpec_unlink hloc hstat hseen hbit⟩
      · have hopendir := @opendirCall_eq sys fs path l' st hloc hseen hbit
        by_cases hopen : st.kind = .dir ∧ sys.opendir l' = true
        · rw [if_pos hopen] at hopendir
          have hdir : isDir (fs.node l') = true := by rw [hseen, isDir_some]; exact hopen.1
          obtain ⟨ret1, fs1, hloop, h1⟩ := @rmEntries_spec sys fs path l' (Rm sys fuel) orig horig hdir hsub (fs.names l')
            (fun x hx => Fs.names_ne_dots hx) true fun fs1 hsub1 x hx hchild => by
              obtain ⟨n, hn⟩ := Fs.mem_names.1 hx
              have hlong := hdeep _ n hn (List.prefix_append l' [x])
              rw [List.length_append, List.length_singleton] at hlong
              refine ih hchild (fun m n h => hsub m n (hsub1 m n h)) (by omega) fun m n h hm => ?_
              have hshort := hdeep m n (hsub1 m n h) ((List.prefix_append l' [x]).trans hm)
              rw [List.length_append, List.length_singleton]
              omega
          have hentries : rmEntries (Rm sys fuel) path (dot :: dotdot :: fs.names l') (true, fs) = some (ret1, fs1) := by
            rw [rmEntries, if_pos (Or.inl rfl), rmEntries, if_pos (Or.inr rfl), hloop]
          have hdone := rmSpec_dir hloc hstat hseen hopen.1 hopen.2 h1
          have hstep : Rm sys (fuel + 1) path fs = match sys.rmdirCall path fs1 with
              | none => some (false, fs1)
              | some fs2 => some (ret1, fs2) := by
            simp only [Rm, hst, if_neg hbit, hopendir, hentries, Option.bind_eq_bind, Option.bind_some]
            rfl
          rw [hstep]
          cases hrmdir : sys.rmdirCall path fs1 with
          | none =>
            rw [hrmdir] at hdone
            exact ⟨false, fs1, rfl, hdone⟩
          | some fs2 =>
            rw [hrmdir] at hdone
            exact ⟨ret1, fs2, rfl, hdone⟩
        · rw [if_neg hopen] at hopendir
          refine ⟨false, fs, by simp only [Rm, hst, if_neg hbit, hopendir], rmSpec_same (fun _ _ h => by cases h) ?_⟩
          intro _ hall
          have hfine := (hall l' st List.prefix_rfl hseen).1
          have hkind := ((hasDirBit_iff st).1 hbit).resolve_right hfine.1
          exact absurd ⟨hkind, hfine.2.2 hkind⟩ hopen

/-! ## Whole trees -/

def Fs.depth (fs : Fs) : ℕ := (fs.nodes.map fun e => e.1.length).foldr max 0

theorem Fs.length_le_depth {fs : Fs} {m : Loc} {n : Inode} (h : fs.node m = some n) : m.length ≤ fs.depth := by
  have hmem : m.length ∈ fs.nodes.map fun e => e.1.length := List.mem_map.2 ⟨(m, n), node_eq_some.1 h, rfl⟩
  exact List.le_max_of_le hmem le_rfl

section

variable (sys : System) (fs : Fs) (path : List Name) (l : Loc)

/-- every unlink of a non-directory and every rmdir of an empty directory in the tree succeeds -/
def AllGranted : Prop :=
  endsInDots path = false ∧ ∀ m n, l <+: m → fs.node m = some n → Granted sys m n

/-- where the system allows it the whole tree is removed, a failure is reported, and nothing outside changes -/
structure Correct (ret : Bool) (fs' : Fs) : Prop where
  removes : AllGranted sys fs path l → ret = true ∧ ∀ m, l <+: m → fs'.node m = none
  reports : ret = true → ∀ m, l <+: m → fs'.node m = none
  outside : ∀ m, ¬ l <+: m → fs'.node m = fs.node m

/-- the root of the tree can be seen; and where everything may be removed, the tree has no socket and no block device, all
of it can be seen and listed, and the path does not lead through the tree itself -/
structure Manageable : Prop where
  seen : fs.node l ≠ none → sys.lstat l = true
  fine : AllGranted sys fs path l →
    (∀ m n, l <+: m → fs.node m = some n → Fine sys m n) ∧ locate (clear fs.node l) path = some l

end

theorem correct_iff_of_spec {sys : System} {fs fs' : Fs} {path : List Name} {l : Loc} {ret : Bool}
    (hloc : locate fs.node path = some l) (hspec : RmSpec sys fs path l ret fs')
    (hunseen : fs.node l ≠ none → sys.lstat l ≠ true → ret = true ∧ fs' = fs) :
    Correct sys fs path l ret fs' ↔ Manageable sys fs path l := by
  refine ⟨fun h => ?_, fun h => ?_⟩
  · have hseen : fs.node l ≠ none → sys.lstat l = true := by
      intro hne
      by_contra hstat
      obtain ⟨hret, hsame⟩ := hunseen hne hstat
      have hgone := h.reports hret l List.prefix_rfl
      rw [hsame] at hgone
      exact hne hgone
    refine ⟨hseen, fun hgrant => ?_⟩
    obtain ⟨hret, hgone⟩ := h.removes hgrant
    refine ⟨fun m n hm hn => hspec.fine m n hn (hgone m hm), ?_⟩
    by_cases hne : fs.node l = none
    · rw [clear_eq (by rw [hne]; rfl), hloc]
    · exact (hspec.reports hloc hseen hret).2 hne
  · refine ⟨fun hgrant => ?_, fun hret => (hspec.reports hloc h.seen hret).1, hspec.outside⟩
    obtain ⟨hfine, hclear⟩ := h.fine hgrant
    exact hspec.removes hclear hgrant.1 fun m n hm hn => ⟨hfine m n hm hn, hgrant.2 m n hm hn⟩

/-- **Removing whole trees.** A path that leads nowhere is left alone. Of any other `Rm` ends, and does what it should
exactly on the trees that it can deal with. -/
theorem Rm_correct_iff (sys : System) (fs : Fs) (path : List Name) (fuel : ℕ) (hfuel : fs.depth < fuel) :
    (locate fs.node path = none → Rm sys fuel path fs = some (true, fs)) ∧
    ∀ l, locate fs.node path = some l → ∃ ret fs', Rm sys fuel path fs = some (ret, fs') ∧
      (Correct sys fs path l ret fs' ↔ Manageable sys fs path l) := by
  obtain ⟨fuel, rfl⟩ : ∃ k, fuel = k + 1 := ⟨fuel - 1, by omega⟩
  refine ⟨fun hloc => ?_, fun l hloc => ?_⟩
  · have hst : sys.lstatCall path fs = none := by rw [System.lstatCall, hloc]; rfl
    rw [Rm, hst]
  · obtain ⟨ret, fs', hRm, hspec⟩ := Rm_spec sys (fuel + 1) hloc (fun _ _ h => h) (by omega) fun m n h _ => by
      have hle := Fs.length_le_depth h
      omega
    refine ⟨ret, fs', hRm, correct_iff_of_spec hloc hspec fun _ hstat => ?_⟩
    have hst : sys.lstatCall path fs = none := by rw [lstatCall_eq hloc, if_neg hstat]
    rw [Rm, hst] at hRm
    cases hRm
    exact ⟨rfl, rfl⟩

/-- a system that refuses nothing -/
def everything : System := ⟨fun _ => true, fun _ => true, fun _ => true, fun _ => true⟩

/-- `/d`, with a file and a link to `/` in it -/
def treeFs : Fs where
  nodes := [([], ⟨.dir, 493⟩), ([[100]], ⟨.dir, 493⟩), ([[100], [102]], ⟨.reg, 420⟩),
    ([[100], [108]], ⟨.symlink true [], 511⟩)]
  parents := by
    intro e he d x hd
    simp only [List.mem_cons, List.not_mem_nil, or_false] at he
    rcases he with rfl | rfl | rfl | rfl
    · simp at hd
    · obtain ⟨rfl, _⟩ := List.append_inj' (show ([] : Loc) ++ [[100]] = d ++ [x] from hd) rfl
      exact ⟨_, List.mem_cons_self, rfl, rfl⟩
    · obtain ⟨rfl, _⟩ := List.append_inj' (show ([[100]] : Loc) ++ [[102]] = d ++ [x] from hd) rfl
      exact ⟨_, List.mem_cons_of_mem _ List.mem_cons_self, rfl, rfl⟩
    · obtain ⟨rfl, _⟩ := List.append_inj' (show ([[100]] : Loc) ++ [[108]] = d ++ [x] from hd) rfl
      exact ⟨_, List.mem_cons_of_mem _ List.mem_cons_self, rfl, rfl⟩
  functional := by decide
  named := by decide

theorem Rm_correct_treeFs : ∃ ret fs', Rm everything 3 [[100]] treeFs = some (ret, fs') ∧
    (Correct everything treeFs [[100]] [[100]] ret fs' ↔ Manageable everything treeFs [[100]] [[100]]) :=
  (Rm_correct_iff everything treeFs [[100]] 3 (by decide)).2 [[100]] (by decide)

/-- `/s`, a socket -/
def socketFs : Fs where
  nodes := [([], ⟨.dir, 493⟩), ([[115]], ⟨.socket, 493⟩)]
  parents := by
    intro e he d x hd
    simp only [List.mem_cons, List.not_mem_nil, or_false] at he
    rcases he with rfl | rfl
    · simp at hd
    · obtain ⟨rfl, _⟩ := List.append_inj' (show ([] : Loc) ++ [[115]] = d ++ [x] from hd) rfl
      exact ⟨_, List.mem_cons_self, rfl, rfl⟩
  functional := by decide
  named := by decide

/-- a socket is taken for a directory: it may be unlinked, and is still there -/
theorem Rm_keeps_socket : AllGranted everything socketFs [[115]] [[115]] ∧
    Rm everything 2 [[115]] socketFs = some (false, socketFs) ∧
    ¬ Correct everything socketFs [[115]] [[115]] false socketFs := by
  have hgrant : AllGranted everything socketFs [[115]] [[115]] := by
    refine ⟨by decide, fun m n _ _ => ?_⟩
    rw [Granted]
    split <;> rfl
  refine ⟨hgrant, rfl, fun h => ?_⟩
  have hret := (h.removes hgrant).1
  cases hret

end Sylar.FSUtil

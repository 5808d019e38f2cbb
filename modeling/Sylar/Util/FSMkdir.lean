/-
`FSUtil::Mkdir` of util.cc, on the file systems of `FSUtil::Rm`.

A path is absolute and has no slash at its end. Where `lstat` finds anything, be it a file or a link that leads nowhere, the
function is done. Otherwise every prefix of the path is made that `access` does not find; `access` follows links, and mkdir
does not.

Results:
- `walk_front`, `walk_grow`: a path leads somewhere if a longer one does, and where it does with more nodes;
- `mkdirFrom_missing`: the directories behind the first one that is missing;
- `Mkdir_iff`: when a directory is made, and what is left when it is not.
-/
import Sylar.Util.FSMove
import Sylar.Util.FSList

namespace Sylar.FSUtil

/-! ## Model -/

/-- the calls that succeed, and the umask -/
structure Maker extends Reader where
  mkdir : Loc → Bool
  umask : Fin 512

section

variable (sys : Maker)

def S_ISGID : ℕ := 0o2000

/-- `S_IRWXU | S_IRWXG | S_IROTH | S_IXOTH` without the umask, and the set-group-ID bit of the directory it is in -/
def Maker.newDir (parent : Option Inode) : Inode :=
  ⟨.dir, ⟨(0o775 &&& (0o777 ^^^ sys.umask.val) ||| (parent.elim 0 fun n => n.perm.val &&& S_ISGID)) % 4096,
    Nat.mod_lt _ (by decide)⟩⟩

def Maker.mkdirCall (path : List Name) (fs : Fs) : Option Fs := do
  let l ← locate fs.node path
  if sys.mkdir l then fs.create l (sys.newDir (fs.node l.dropLast)) else none

/-- `__mkdir`; none: it does not return 0 -/
def mkdirOne (dirname : List Name) (fs : Fs) : Option Fs :=
  if sys.accessCall dirname fs then some fs else sys.mkdirCall dirname fs

/-- the loop over the slashes, from the prefix `path` on, and the whole path behind it -/
def mkdirFrom : List Name → List Name → Fs → Bool × Fs
  | path, [], fs =>
    match mkdirOne sys path fs with
    | none => (false, fs)
    | some fs' => (true, fs')
  | path, name :: rest, fs =>
    match mkdirOne sys path fs with
    | none => (false, fs)
    | some fs' => mkdirFrom (path ++ [name]) rest fs'

/-- the first slash is not looked at -/
def Mkdir (dirname : List Name) (fs : Fs) : Bool × Fs :=
  if (sys.lstatCall dirname fs).isSome then (true, fs)
  else mkdirFrom sys (dirname.take 1) (dirname.drop 1) fs

end

/-! ## Paths -/

theorem walkFrom_front {node : Nodes} {jump : Loc → List Name → Option Loc} {l : Loc} {x : Name}
    (hjump : ∀ cur path, jump cur (path ++ [x]) = some l → ∃ d, jump cur path = some d) {path : List Name} {cur : Loc}
    (h : walkFrom node true jump cur (path ++ [x]) = some l) : ∃ d, walkFrom node true jump cur path = some d := by
  induction path generalizing cur with
  | nil => exact ⟨cur, rfl⟩
  | cons name rest ih =>
    rw [List.cons_append, walkFrom, if_neg (by simp : ¬ (rest ++ [x] = [] ∧ true = false))] at h
    rw [walkFrom, if_neg (by simp : ¬ (rest = [] ∧ true = false))]
    split_ifs at h ⊢ with hcur hdot hdotdot
    · exact ih h
    · exact ih h
    · split at h
      · rw [← List.append_assoc] at h
        exact hjump _ _ h
      · exact ih h

theorem walk_front {node : Nodes} {l : Loc} {x : Name} {links : ℕ} {path : List Name} {cur : Loc}
    (h : walk node true links cur (path ++ [x]) = some l) : ∃ d, walk node true links cur path = some d := by
  induction links generalizing cur path with
  | zero => exact walkFrom_front (fun _ _ hj => by cases hj) h
  | succ links ih => exact walkFrom_front (fun cur path hj => @ih path cur hj) h

theorem walkFrom_grow {node' node : Nodes} (hsub : Sub node' node) {jump' jump : Loc → List Name → Option Loc} {l : Loc}
    (hl : node' l ≠ none) (hjump : ∀ cur path, jump' cur path = some l → jump cur path = some l) {path : List Name}
    {cur : Loc} (h : walkFrom node' true jump' cur path = some l) : walkFrom node true jump cur path = some l := by
  induction path generalizing cur with
  | nil => exact h
  | cons name rest ih =>
    rw [walkFrom, if_neg (by simp : ¬ (rest = [] ∧ true = false))] at h
    split at h
    · cases h
    rename_i hcur
    have hcur' : isDir (node' cur) = true := by simpa using hcur
    have hcur'' : ¬ isDir (node cur) = false := by rw [hsub.isDir hcur', hcur']; simp
    rw [walkFrom, if_neg hcur'', if_neg (by simp : ¬ (rest = [] ∧ true = false))]
    split_ifs at h ⊢ with hdot hdotdot
    · exact ih h
    · exact ih h
    · cases hnode : node' (cur ++ [name]) with
      | none =>
        -- the path ends here, and leads to nothing
        rw [hnode] at h
        cases rest with
        | nil =>
          obtain rfl : cur ++ [name] = l := Option.some.inj h
          exact absurd hnode hl
        | cons next rest =>
          simp only [walkFrom, hnode, isDir, if_true] at h
          cases h
      | some n =>
        rw [hsub _ n hnode]
        rw [hnode] at h
        split at h
        · exact hjump _ _ h
        · exact ih h

/-- a path that leads to something does so with more nodes -/
theorem walk_grow {node' node : Nodes} (hsub : Sub node' node) {l : Loc} (hl : node' l ≠ none) {links : ℕ}
    {path : List Name} {cur : Loc} (h : walk node' true links cur path = some l) : walk node true links cur path = some l := by
  induction links generalizing cur path with
  | zero => exact walkFrom_grow hsub hl (fun _ _ hj => hj) h
  | succ links ih => exact walkFrom_grow hsub hl (fun _ _ hj => ih hj) h

theorem locate_enter {node : Nodes} {path : List Name} {d : Loc} (hloc : walk node true MAXSYMLINKS [] path = some d)
    {x : Name} (hx : x ≠ dot ∧ x ≠ dotdot) :
    locate node (path ++ [x]) = if isDir (node d) = true then some (d ++ [x]) else none := by
  refine walk_enter (fun jump => ?_) hloc
  rw [walkFrom]
  cases isDir (node d) with
  | false => simp
  | true => simp [hx.1, hx.2]

/-! ## The missing directories -/

section

variable {sys : Maker} {fs : Fs}

/-- the process may search every directory -/
def SeesAll (sys : Maker) : Prop := ∀ l, sys.access l = true ∧ sys.lstat l = true

theorem accessCall_iff (hsee : SeesAll sys) {path : List Name} :
    sys.accessCall path fs = true ↔ ∃ l, walk fs.node true MAXSYMLINKS [] path = some l ∧ fs.node l ≠ none := by
  rw [Reader.accessCall]
  cases hloc : walk fs.node true MAXSYMLINKS [] path with
  | none => simp
  | some l => simp [(hsee l).1, Option.isSome_iff_ne_none]

/-- what is behind the link is there, and then the link is -/
theorem lstat_of_access (hsee : SeesAll sys) {path : List Name} {x : Name} (hx : x ≠ dot ∧ x ≠ dotdot)
    (h : sys.accessCall (path ++ [x]) fs = true) : (sys.lstatCall (path ++ [x]) fs).isSome = true := by
  obtain ⟨l, hl, hnode⟩ := (accessCall_iff hsee).1 h
  obtain ⟨d, hd⟩ := walk_front hl
  have hloc := locate_enter hd hx
  have hdir : isDir (fs.node d) = true := by
    by_contra hnot
    have hnone : walk fs.node true MAXSYMLINKS [] (path ++ [x]) = none := by
      refine walk_enter (fun jump => ?_) hd
      rw [walkFrom, if_pos (by simpa using hnot)]
    rw [hnone] at hl
    cases hl
  rw [if_pos hdir] at hloc
  rw [System.lstatCall, hloc]
  simp only [Option.bind_eq_bind, Option.bind_some, (hsee _).2, if_true]
  rw [Option.isSome_iff_ne_none]
  intro hgone
  have hsame : walk fs.node true MAXSYMLINKS [] (path ++ [x]) = some (d ++ [x]) :=
    walk_enter (walkFrom_entry hdir hx (by simp [hgone]) true) hd
  obtain rfl := Option.some.inj (hl.symm.trans hsame)
  exact hnode hgone

/-- nothing is in the way of a new directory `x` in `d` -/
def Room (fs : Fs) (d : Loc) (x : Name) : Prop := isDir (fs.node d) = true ∧ fs.node (d ++ [x]) = none

/-- the directory `l` and those of `rest` below it may be made -/
def Permitted (sys : Maker) (l : Loc) (rest : List Name) : Prop := ∀ r, r <+: rest → sys.mkdir (l ++ r) = true

theorem permitted_cons {l : Loc} {y : Name} {rest : List Name} :
    Permitted sys l (y :: rest) ↔ sys.mkdir l = true ∧ Permitted sys (l ++ [y]) rest := by
  constructor
  · intro h
    refine ⟨by simpa using h [] List.nil_prefix, fun r hr => ?_⟩
    simpa using h (y :: r) ((List.prefix_cons_inj y).2 hr)
  · rintro ⟨hl, h⟩ r hr
    cases r with
    | nil => simpa using hl
    | cons z r =>
      obtain ⟨rfl, hrest⟩ := List.cons_prefix_cons.1 hr
      simpa using h r hrest

theorem permitted_nil {l : Loc} : Permitted sys l [] ↔ sys.mkdir l = true := by
  refine ⟨fun h => by simpa using h [] List.nil_prefix, fun h r hr => ?_⟩
  obtain rfl := List.prefix_nil.1 hr
  simpa using h

/-- the bit is handed on all the way down -/
theorem newDir_newDir (parent : Option Inode) : sys.newDir (some (sys.newDir parent)) = sys.newDir parent := by
  have hmode : 0o775 &&& (0o777 ^^^ sys.umask.val) &&& S_ISGID = 0 := by
    rw [Nat.and_assoc, Nat.and_comm (0o777 ^^^ sys.umask.val), ← Nat.and_assoc]
    simp [S_ISGID]
  have hbit : ∀ g, g &&& S_ISGID = g → g < 2 ^ 12 →
      (0o775 &&& (0o777 ^^^ sys.umask.val) ||| g) % 2 ^ 12 &&& S_ISGID = g := by
    intro g hg hlt
    have hsmall : 0o775 &&& (0o777 ^^^ sys.umask.val) < 2 ^ 12 := lt_of_le_of_lt Nat.and_le_left (by norm_num)
    rw [Nat.mod_eq_of_lt (Nat.or_lt_two_pow hsmall hlt), Nat.and_or_distrib_right, hmode, Nat.zero_or, hg]
  have hsame : ∀ g, g &&& S_ISGID = g → g < 2 ^ 12 →
      (⟨.dir, Fin.ofNat 4096 (0o775 &&& (0o777 ^^^ sys.umask.val) |||
        ((0o775 &&& (0o777 ^^^ sys.umask.val) ||| g) % 2 ^ 12 &&& S_ISGID))⟩ : Inode) =
      ⟨.dir, Fin.ofNat 4096 (0o775 &&& (0o777 ^^^ sys.umask.val) ||| g)⟩ := by
    intro g hg hlt
    rw [hbit g hg hlt]
  cases parent with
  | none => exact hsame 0 (by simp) (by norm_num)
  | some n =>
    refine hsame (n.perm.val &&& S_ISGID) ?_ (lt_of_le_of_lt Nat.and_le_right (by norm_num [S_ISGID]))
    rw [Nat.and_assoc, Nat.and_self]

/-- what is made of `d ++ [x]` and `rest` below it, up to the first directory that is refused -/
def Made (sys : Maker) (fs : Fs) (d : Loc) (x : Name) (rest : List Name) (m : Loc) : Prop :=
  Room fs d x ∧ ∃ r, r <+: rest ∧ m = d ++ [x] ++ r ∧ Permitted sys (d ++ [x]) r

/-- what a run of the loop leaves of `fs`, from the missing directory `x` of `d` on -/
def Makes (sys : Maker) (fs : Fs) (d : Loc) (x : Name) (rest : List Name) (out : Bool × Fs) : Prop :=
  (out.1 = true ↔ Room fs d x ∧ Permitted sys (d ++ [x]) rest) ∧
    ∀ m, (Made sys fs d x rest m → out.2.node m = some (sys.newDir (fs.node d))) ∧
      (¬ Made sys fs d x rest m → out.2.node m = fs.node m)

/-- a directory that is refused ends the loop -/
theorem makes_nothing {d : Loc} {x : Name} {rest : List Name} (h : ¬ (Room fs d x ∧ sys.mkdir (d ++ [x]) = true)) :
    Makes sys fs d x rest (false, fs) := by
  have hfirst : ∀ r, Permitted sys (d ++ [x]) r → sys.mkdir (d ++ [x]) = true := fun r hr => by
    simpa using hr [] List.nil_prefix
  refine ⟨iff_of_false (by simp) fun hall => h ⟨hall.1, hfirst rest hall.2⟩, fun m => ⟨?_, fun _ => rfl⟩⟩
  rintro ⟨hroom, r, -, -, hr⟩
  exact absurd ⟨hroom, hfirst r hr⟩ h

theorem Room.insertable {d : Loc} {x : Name} (hx : x ≠ dot ∧ x ≠ dotdot) (h : Room fs d x) :
    d ++ [x] ≠ [] ∧ isDir (fs.node (d ++ [x]).dropLast) = true ∧ fs.node (d ++ [x]) = none ∧
      dot ∉ d ++ [x] ∧ dotdot ∉ d ++ [x] := by
  obtain ⟨hne, hdir, hdots⟩ := InDirectory.names ⟨d, x, rfl, h.1, hx⟩
  exact ⟨hne, hdir, h.2, hdots⟩

/-- one directory -/
theorem mkdirOne_missing {pre : List Name} {d : Loc} (hpre : walk fs.node true MAXSYMLINKS [] pre = some d) {x : Name}
    (hx : x ≠ dot ∧ x ≠ dotdot) (hmissing : sys.accessCall (pre ++ [x]) fs = false) :
    (¬ (Room fs d x ∧ sys.mkdir (d ++ [x]) = true) → mkdirOne sys (pre ++ [x]) fs = none) ∧
      (Room fs d x ∧ sys.mkdir (d ++ [x]) = true → ∃ fs', mkdirOne sys (pre ++ [x]) fs = some fs' ∧
        ∀ m, fs'.node m = if m = d ++ [x] then some (sys.newDir (fs.node d)) else fs.node m) := by
  have hloc := locate_enter hpre hx
  rw [mkdirOne, if_neg (by simp [hmissing]), Maker.mkdirCall, hloc]
  constructor
  · intro hnot
    by_cases hdir : isDir (fs.node d) = true
    · rw [if_pos hdir]
      simp only [Option.bind_eq_bind, Option.bind_some]
      split_ifs with hmk
      · exact dif_neg fun hins => hnot ⟨⟨hdir, hins.2.2.1⟩, hmk⟩
      · rfl
    · rw [if_neg hdir]
      rfl
  · rintro ⟨hroom, hmk⟩
    obtain ⟨fs', hcreate, hnode⟩ := fs.create_spec (n := sys.newDir (fs.node d)) (hroom.insertable hx)
    refine ⟨fs', ?_, hnode⟩
    rw [if_pos hroom.1]
    simp only [Option.bind_eq_bind, Option.bind_some, List.dropLast_concat]
    rw [if_pos hmk, hcreate]

theorem mkdirFrom_missing {rest : List Name} {pre : List Name} {d : Loc}
    (hpre : walk fs.node true MAXSYMLINKS [] pre = some d) {x : Name} (hx : x ≠ dot ∧ x ≠ dotdot)
    (hrest : dot ∉ rest ∧ dotdot ∉ rest) (hmissing : sys.accessCall (pre ++ [x]) fs = false) :
    Makes sys fs d x rest (mkdirFrom sys (pre ++ [x]) rest fs) := by
  induction rest generalizing fs pre d x with
  | nil =>
    obtain ⟨hrefused, hmade⟩ := mkdirOne_missing hpre hx hmissing
    rw [mkdirFrom]
    by_cases h : Room fs d x ∧ sys.mkdir (d ++ [x]) = true
    · obtain ⟨fs', hone, hnode⟩ := hmade h
      rw [hone]
      refine ⟨iff_of_true rfl ⟨h.1, permitted_nil.2 h.2⟩, fun m => ⟨?_, fun hm => ?_⟩⟩
      · rintro ⟨-, r, hr, rfl, -⟩
        obtain rfl := List.prefix_nil.1 hr
        simp [hnode]
      · refine (hnode m).trans (if_neg fun heq => hm ⟨h.1, [], List.nil_prefix, by simp [heq], permitted_nil.2 h.2⟩)
    · rw [hrefused h]
      exact makes_nothing h
  | cons y rest ih =>
    obtain ⟨hrefused, hmade⟩ := mkdirOne_missing hpre hx hmissing
    rw [mkdirFrom]
    by_cases h : Room fs d x ∧ sys.mkdir (d ++ [x]) = true
    · obtain ⟨fs', hone, hnode⟩ := hmade h
      have hy : y ≠ dot ∧ y ≠ dotdot := ⟨fun h => hrest.1 (by simp [h]), fun h => hrest.2 (by simp [h])⟩
      have hrest' : dot ∉ rest ∧ dotdot ∉ rest :=
        ⟨fun h => hrest.1 (List.mem_cons_of_mem _ h), fun h => hrest.2 (List.mem_cons_of_mem _ h)⟩
      -- nothing was below the directory that is new
      have hnew : fs'.node (d ++ [x]) = some (sys.newDir (fs.node d)) := by rw [hnode, if_pos rfl]
      have hempty : fs'.node (d ++ [x] ++ [y]) = none := by
        rw [hnode, if_neg (by simp)]
        cases hbelow : fs.node (d ++ [x] ++ [y]) with
        | none => rfl
        | some n =>
          have hdir := Fs.parent_isDir hbelow
          rw [h.1.2] at hdir
          cases hdir
      have hroom' : Room fs' (d ++ [x]) y := ⟨by rw [hnew]; rfl, hempty⟩
      have hsub : Sub fs.node fs'.node := by
        intro m n hm
        rw [hnode, if_neg (fun heq => by rw [heq, h.1.2] at hm; cases hm), hm]
      have hd : fs.node d ≠ none := by
        intro hgone
        have hdir := h.1.1
        rw [hgone] at hdir
        cases hdir
      have hpre' : walk fs'.node true MAXSYMLINKS [] (pre ++ [x]) = some (d ++ [x]) := by
        refine walk_enter (walkFrom_entry ?_ hx ?_ true) (walk_grow hsub hd hpre)
        · rw [hsub.isDir h.1.1]
          exact h.1.1
        · intro absolute target perm
          rw [hnew]
          simp [Maker.newDir]
      have hmissing' : sys.accessCall (pre ++ [x] ++ [y]) fs' = false := by
        have hend : walk fs'.node true MAXSYMLINKS [] (pre ++ [x] ++ [y]) = some (d ++ [x] ++ [y]) :=
          walk_enter (walkFrom_entry hroom'.1 hy (by rw [hempty]; simp) true) hpre'
        simp only [Reader.accessCall, hend, hempty, Option.isSome_none, Bool.false_and]
      rw [hone]
      obtain ⟨hret, hall⟩ := ih hpre' hy hrest' hmissing'
      rw [hnew, newDir_newDir] at hall
      have hMade : ∀ m, Made sys fs d x (y :: rest) m ↔ m = d ++ [x] ∨ Made sys fs' (d ++ [x]) y rest m := by
        intro m
        constructor
        · rintro ⟨-, r, hr, rfl, hper⟩
          cases r with
          | nil => exact .inl (by simp)
          | cons z r =>
            obtain ⟨rfl, htail⟩ := List.cons_prefix_cons.1 hr
            exact .inr ⟨hroom', r, htail, by simp, (permitted_cons.1 hper).2⟩
        · rintro (rfl | ⟨-, r, hr, rfl, hper⟩)
          · exact ⟨h.1, [], List.nil_prefix, by simp, permitted_nil.2 h.2⟩
          · exact ⟨h.1, y :: r, (List.prefix_cons_inj y).2 hr, by simp, permitted_cons.2 ⟨h.2, hper⟩⟩
      refine ⟨hret.trans ?_, fun m => ?_⟩
      · rw [permitted_cons]
        exact ⟨fun hp => ⟨h.1, h.2, hp.2⟩, fun hp => ⟨hroom', hp.2.2⟩⟩
      · rw [hMade]
        by_cases hm : Made sys fs' (d ++ [x]) y rest m
        · exact ⟨fun _ => (hall m).1 hm, fun hnot => absurd (.inr hm) hnot⟩
        · rw [(hall m).2 hm, hnode]
          by_cases heq : m = d ++ [x]
          · rw [if_pos heq]
            exact ⟨fun _ => rfl, fun hnot => absurd (.inl heq) hnot⟩
          · rw [if_neg heq]
            exact ⟨fun hor => absurd hor (by simp [heq, hm]), fun _ => rfl⟩
    · rw [hrefused h]
      exact makes_nothing h

/-- the loop passes by what is there -/
theorem mkdirFrom_reach (hsee : SeesAll sys) {rest : List Name} {pre : List Name} {x : Name} {d : Loc}
    (hpre : walk fs.node true MAXSYMLINKS [] pre = some d) (hd : fs.node d ≠ none)
    (hend : sys.accessCall (pre ++ x :: rest) fs = false) :
    ∃ pre' y rest' d', pre ++ x :: rest = pre' ++ y :: rest' ∧ walk fs.node true MAXSYMLINKS [] pre' = some d' ∧
      fs.node d' ≠ none ∧ sys.accessCall (pre' ++ [y]) fs = false ∧
      mkdirFrom sys (pre ++ [x]) rest fs = mkdirFrom sys (pre' ++ [y]) rest' fs := by
  induction rest generalizing pre x d with
  | nil => exact ⟨pre, x, [], d, rfl, hpre, hd, hend, rfl⟩
  | cons z rest ih =>
    by_cases hthere : sys.accessCall (pre ++ [x]) fs = true
    · obtain ⟨l, hl, hnode⟩ := (accessCall_iff hsee).1 hthere
      have hsplit : pre ++ x :: z :: rest = pre ++ [x] ++ z :: rest := by simp
      rw [hsplit] at hend ⊢
      obtain ⟨pre', y, rest', d', hpath, hwalk, hd', hmissing, hsame⟩ := ih hl hnode hend
      refine ⟨pre', y, rest', d', hpath, hwalk, hd', hmissing, ?_⟩
      rw [mkdirFrom, mkdirOne, if_pos hthere]
      exact hsame
    · exact ⟨pre, x, z :: rest, d, rfl, hpre, hd, by simpa using hthere, rfl⟩

end

end Sylar.FSUtil

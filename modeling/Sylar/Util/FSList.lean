/-
`FSUtil::ListAllFile` of util.cc, on the file systems of `FSUtil::Rm`.

The directory named by the path may be reached through symbolic links, those below it may not: `d_type`, which the file
system fills in, is that of the entry itself. A directory that `access` or `opendir` refuses counts as empty.

Results:
- `walk_enter`: the path of an entry of what a path leads to;
- `ListAllFile_iff`: exactly which paths are listed, each of them once.
-/
import Sylar.Util.FSUtil

namespace Sylar.FSUtil

/-! ## Model -/

/-- the calls that succeed, by the locations of what they are about -/
structure Reader extends System where
  access : Loc → Bool

/-- the entries of a directory with their d_type, without `.` and `..` -/
def Fs.entries (fs : Fs) (l : Loc) : List (Name × Kind) :=
  (fs.names l).filterMap fun x => (fs.node (l ++ [x])).map fun n => (x, n.kind)

section

variable (sys : Reader)

/-- `access(path, F_OK) == 0` -/
def Reader.accessCall (path : List Name) (fs : Fs) : Bool :=
  match walk fs.node true MAXSYMLINKS [] path with
  | none => false
  | some l => (fs.node l).isSome && sys.access l

/-- what `readdir` returns -/
def Reader.readdirCall (path : List Name) (fs : Fs) : Option (List (Name × Kind)) := do
  let l ← walk fs.node true MAXSYMLINKS [] path
  if isDir (fs.node l) ∧ sys.opendir l then some ((dot, .dir) :: (dotdot, .dir) :: fs.entries l) else none

/-- the body of the loop, with the recursive call as `list` -/
def listEntry (list : List Name → List (List Name) → Option (List (List Name))) (path : List Name) (subfix : Name)
    (files : List (List Name)) (dp : Name × Kind) : Option (List (List Name)) :=
  let (d_name, d_type) := dp
  if d_type = .dir then
    if d_name = dot ∨ d_name = dotdot then some files else list (path ++ [d_name]) files
  else if d_type = .reg then
    if subfix = [] then some (files ++ [path ++ [d_name]])
    else if d_name.length < subfix.length then some files
    else if d_name.drop (d_name.length - subfix.length) = subfix then some (files ++ [path ++ [d_name]])
    else some files
  else some files

/-- `files` with what is found behind them; `none` is out of fuel -/
def ListAllFile (fs : Fs) (subfix : Name) : ℕ → List Name → List (List Name) → Option (List (List Name))
  | 0, _, _ => none
  | fuel + 1, path, files =>
    if sys.accessCall path fs = false then some files
    else match sys.readdirCall path fs with
      | none => some files
      | some entries => entries.foldlM (listEntry (ListAllFile fs subfix fuel) path subfix) files

end

/-! ## Paths -/

theorem walkFrom_enter {node : Nodes} {follow : Bool} {jump jump' : Loc → List Name → Option Loc} {l : Loc} {x : Name}
    {r : Option Loc} (hend : walkFrom node follow jump' l [x] = r)
    (hjump : ∀ cur path, jump cur path = some l → jump' cur (path ++ [x]) = r) {path : List Name} {cur : Loc}
    (h : walkFrom node true jump cur path = some l) : walkFrom node follow jump' cur (path ++ [x]) = r := by
  induction path generalizing cur with
  | nil =>
    obtain rfl := Option.some.inj h
    exact hend
  | cons name rest ih =>
    rw [walkFrom, if_neg (by simp : ¬ (rest = [] ∧ true = false))] at h
    rw [List.cons_append, walkFrom, if_neg (by simp : ¬ (rest ++ [x] = [] ∧ follow = false))]
    split_ifs at h ⊢ with hcur hdot hdotdot
    · exact ih h
    · exact ih h
    · split at h
      · rw [← List.append_assoc]
        exact hjump _ _ h
      · exact ih h

/-- what the last name leads to from where the path in front of it leads -/
theorem walk_enter {node : Nodes} {follow : Bool} {l : Loc} {x : Name} {r : Option Loc}
    (hend : ∀ jump, walkFrom node follow jump l [x] = r) {links : ℕ} {path : List Name} {cur : Loc}
    (h : walk node true links cur path = some l) : walk node follow links cur (path ++ [x]) = r := by
  induction links generalizing cur path with
  | zero => exact walkFrom_enter (hend _) (fun _ _ hj => by cases hj) h
  | succ links ih => exact walkFrom_enter (hend _) (fun _ _ hj => ih hj) h

theorem walkFrom_entry {node : Nodes} {l : Loc} (hdir : isDir (node l) = true) {x : Name} (hx : x ≠ dot ∧ x ≠ dotdot)
    (hlink : ∀ absolute target perm, node (l ++ [x]) ≠ some ⟨.symlink absolute target, perm⟩) (follow : Bool)
    (jump : Loc → List Name → Option Loc) : walkFrom node follow jump l [x] = some (l ++ [x]) := by
  rw [walkFrom, if_neg (by simp [hdir]), if_neg hx.1, if_neg hx.2]
  split_ifs
  · rfl
  · split
    · rename_i h
      exact absurd h (hlink _ _ _)
    · rfl

/-! ## What is listed -/

theorem nodup_names (fs : Fs) (d : Loc) : (fs.names d).Nodup := by
  have hlocs : fs.names d =
      (fs.nodes.map Prod.fst).filterMap fun m => if m.dropLast = d then m.getLast? else none := by
    rw [List.filterMap_map]
    rfl
  rw [hlocs]
  refine fs.functional.filterMap fun m m' x hm hm' => ?_
  have hsplit : ∀ m : Loc, x ∈ (if m.dropLast = d then m.getLast? else none) → m = d ++ [x] := by
    intro m hm
    split_ifs at hm with hd
    · rw [← hd]
      exact (List.dropLast_append_getLast? x hm).symm
    · cases hm
  rw [hsplit m hm, hsplit m' hm']

theorem mem_entries {fs : Fs} {l : Loc} {e : Name × Kind} :
    e ∈ fs.entries l ↔ ∃ n, fs.node (l ++ [e.1]) = some n ∧ n.kind = e.2 := by
  rw [Fs.entries, List.mem_filterMap]
  constructor
  · rintro ⟨x, -, hmap⟩
    obtain ⟨n, hn, rfl⟩ := Option.map_eq_some_iff.1 hmap
    exact ⟨n, hn, rfl⟩
  · rintro ⟨n, hn, hkind⟩
    exact ⟨e.1, Fs.mem_names.2 ⟨n, hn⟩, by rw [hn, Option.map_some, hkind]⟩

theorem entries_differ (fs : Fs) (l : Loc) : (fs.entries l).Pairwise fun e e' => e.1 ≠ e'.1 := by
  rw [Fs.entries, List.pairwise_filterMap]
  refine (nodup_names fs l).imp fun hne e he e' he' => ?_
  obtain ⟨n, -, rfl⟩ := Option.map_eq_some_iff.1 he
  obtain ⟨n', -, rfl⟩ := Option.map_eq_some_iff.1 he'
  exact hne

/-- a loop of which every round adds something of its own -/
theorem foldlM_append {α β : Type*} {f : List β → α → Option (List β)} {part : α → List β} {es : List α}
    (h : ∀ e ∈ es, ∀ files, f files e = some (files ++ part e)) (files : List β) :
    es.foldlM f files = some (files ++ es.flatMap part) := by
  induction es generalizing files with
  | nil => simp
  | cons e es ih =>
    rw [List.foldlM_cons, h e List.mem_cons_self]
    show es.foldlM f (files ++ part e) = _
    rw [ih fun e' he' => h e' (List.mem_cons_of_mem e he'), List.flatMap_cons, List.append_assoc]

section

variable (sys : Reader) (fs : Fs) (subfix : Name)

/-- a regular file below `l` whose name ends as it should, and all the directories on the way let it be seen -/
structure Listed (l : Loc) (rel : List Name) (x : Name) : Prop where
  file : ∃ n, fs.node (l ++ (rel ++ [x])) = some n ∧ n.kind = .reg
  subfix : subfix <:+ x
  way : ∀ r, r <+: rel → sys.access (l ++ r) = true ∧ sys.opendir (l ++ r) = true

variable {sys fs subfix}

theorem Listed.isDir {l : Loc} {rel : List Name} {x : Name} (h : Listed sys fs subfix l rel x) : isDir (fs.node l) = true := by
  obtain ⟨n, hn, -⟩ := h.file
  exact (Fs.below_isDir hn (List.prefix_append _ _) (by simp)).1

/-- the way begins in an entry -/
theorem Listed.entry {l : Loc} {rel : List Name} {x : Name} (h : Listed sys fs subfix l rel x) :
    ∃ e ∈ fs.entries l, (rel ++ [x]).head? = some e.1 := by
  obtain ⟨n, hn, -⟩ := h.file
  cases rel with
  | nil => exact ⟨(x, n.kind), mem_entries.2 ⟨n, hn, rfl⟩, rfl⟩
  | cons y rel =>
    have hsub : l ++ [y] <+: l ++ (y :: rel ++ [x]) := (List.prefix_append_right_inj l).2 ⟨rel ++ [x], rfl⟩
    have hisDir := (Fs.below_isDir hn hsub (by simp)).1
    cases hnode : fs.node (l ++ [y]) with
    | none =>
      rw [hnode] at hisDir
      cases hisDir
    | some n' => exact ⟨(y, n'.kind), mem_entries.2 ⟨n', hnode, rfl⟩, rfl⟩

theorem listed_cons {l : Loc} {y : Name} {rel : List Name} {x : Name}
    (hl : sys.access l = true ∧ sys.opendir l = true) :
    Listed sys fs subfix l (y :: rel) x ↔ Listed sys fs subfix (l ++ [y]) rel x := by
  constructor
  · intro h
    refine ⟨by simpa using h.file, h.subfix, fun r hr => ?_⟩
    simpa using h.way (y :: r) ((List.prefix_cons_inj y).2 hr)
  · intro h
    refine ⟨by simpa using h.file, h.subfix, fun r hr => ?_⟩
    cases r with
    | nil => simpa using hl
    | cons z r =>
      obtain ⟨rfl, hrest⟩ := List.cons_prefix_cons.1 hr
      simpa using h.way r hrest

theorem listed_nil {l : Loc} {x : Name} (hl : sys.access l = true ∧ sys.opendir l = true) :
    Listed sys fs subfix l [] x ↔ (∃ n, fs.node (l ++ [x]) = some n ∧ n.kind = .reg) ∧ subfix <:+ x := by
  refine ⟨fun h => ⟨h.file, h.subfix⟩, fun h => ⟨h.1, h.2, fun r hr => ?_⟩⟩
  obtain rfl := List.prefix_nil.1 hr
  simpa using hl

/-- the test of the last bytes -/
theorem subfix_iff {list : List Name → List (List Name) → Option (List (List Name))} {path : List Name}
    (files : List (List Name)) (x : Name) : listEntry list path subfix files (x, .reg) =
      some (files ++ if subfix <:+ x then [path ++ [x]] else []) := by
  have hsuffix : subfix <:+ x ↔ subfix.length ≤ x.length ∧ x.drop (x.length - subfix.length) = subfix := by
    refine ⟨fun h => ⟨h.length_le, (List.suffix_iff_eq_drop.1 h).symm⟩, fun h => ?_⟩
    exact List.suffix_iff_eq_drop.2 h.2.symm
  simp only [listEntry, reduceCtorEq, if_false, if_true]
  by_cases hnil : subfix = []
  · rw [if_pos hnil, if_pos (hnil ▸ List.nil_suffix)]
  · rw [if_neg hnil]
    by_cases hshort : x.length < subfix.length
    · rw [if_pos hshort, if_neg fun h => by
        have hle := (hsuffix.1 h).1
        omega, List.append_nil]
    · rw [if_neg hshort]
      by_cases hlast : x.drop (x.length - subfix.length) = subfix
      · rw [if_pos hlast, if_pos (hsuffix.2 ⟨by omega, hlast⟩)]
      · rw [if_neg hlast, if_neg fun h => hlast (hsuffix.1 h).2, List.append_nil]

/-- what one call adds: the listed paths, each of them once -/
def Adds (sys : Reader) (fs : Fs) (subfix : Name) (fuel : ℕ) (path : List Name) (l : Loc) : Prop :=
  ∃ new, (∀ files, ListAllFile sys fs subfix fuel path files = some (files ++ new)) ∧ new.Nodup ∧
    ∀ p, p ∈ new ↔ ∃ rel x, p = path ++ (rel ++ [x]) ∧ Listed sys fs subfix l rel x

/-- a directory that is not read -/
theorem adds_nothing {fuel : ℕ} {path : List Name} {l : Loc}
    (h : ∀ files, ListAllFile sys fs subfix fuel path files = some files)
    (hnot : isDir (fs.node l) = true → sys.access l = true → sys.opendir l = true → False) : Adds sys fs subfix fuel path l := by
  refine ⟨[], fun files => by rw [h, List.append_nil], List.nodup_nil, fun p => iff_of_false (by simp) ?_⟩
  rintro ⟨rel, x, -, hlisted⟩
  obtain ⟨haccess, hopendir⟩ := hlisted.way [] List.nil_prefix
  rw [List.append_nil] at haccess hopendir
  exact hnot hlisted.isDir haccess hopendir

/-- what one entry adds -/
theorem entry_adds {fuel : ℕ} {path : List Name} {l : Loc} (hl : sys.access l = true ∧ sys.opendir l = true)
    (ih : ∀ x n, fs.node (l ++ [x]) = some n → n.kind = .dir → Adds sys fs subfix fuel (path ++ [x]) (l ++ [x])) {x : Name}
    {n : Inode} (hx : x ≠ dot ∧ x ≠ dotdot) (hn : fs.node (l ++ [x]) = some n) :
    ∃ new, (∀ files, listEntry (ListAllFile sys fs subfix fuel) path subfix files (x, n.kind) = some (files ++ new)) ∧
      new.Nodup ∧
      ∀ p, p ∈ new ↔ ∃ rel y, p = path ++ (rel ++ [y]) ∧ (rel ++ [y]).head? = some x ∧ Listed sys fs subfix l rel y := by
  by_cases hdir : n.kind = .dir
  · obtain ⟨new, hnew, hnodup, hmem⟩ := ih x n hn hdir
    refine ⟨new, fun files => ?_, hnodup, fun p => (hmem p).trans ?_⟩
    · simp only [listEntry, hdir, if_true]
      rw [if_neg (by simp [hx]), hnew]
    · constructor
      · rintro ⟨rel, y, rfl, h⟩
        exact ⟨x :: rel, y, by simp, rfl, (listed_cons hl).2 h⟩
      · rintro ⟨rel, y, rfl, hhead, h⟩
        cases rel with
        | nil =>
          -- a directory is no regular file
          obtain rfl : y = x := by simpa using hhead
          obtain ⟨n', hn', hreg⟩ := ((listed_nil hl).1 h).1
          obtain rfl := Option.some.inj (hn.symm.trans hn')
          rw [hdir] at hreg
          cases hreg
        | cons z rel =>
          obtain rfl : z = x := by simpa using hhead
          exact ⟨rel, y, by simp, (listed_cons hl).1 h⟩
  · -- nothing is below
    have hbelow : ∀ rel y, (rel ++ [y]).head? = some x → Listed sys fs subfix l rel y → rel = [] ∧ y = x := by
      intro rel y hhead h
      cases rel with
      | nil => exact ⟨rfl, by simpa using hhead⟩
      | cons z rel =>
        obtain rfl : z = x := by simpa using hhead
        have hisDir := ((listed_cons hl).1 h).isDir
        rw [hn, isDir_some] at hisDir
        exact absurd hisDir hdir
    by_cases hreg : n.kind = .reg
    · refine ⟨if subfix <:+ x then [path ++ [x]] else [], fun files => ?_, ?_, fun p => ?_⟩
      · rw [hreg]
        exact subfix_iff files x
      · split_ifs <;> simp
      · constructor
        · intro hp
          split_ifs at hp with hsub
          · exact ⟨[], x, by simpa using hp, rfl, (listed_nil hl).2 ⟨⟨n, hn, hreg⟩, hsub⟩⟩
          · cases hp
        · rintro ⟨rel, y, rfl, hhead, h⟩
          obtain ⟨rfl, rfl⟩ := hbelow rel y hhead h
          rw [if_pos h.subfix]
          simp
    · refine ⟨[], fun files => ?_, List.nodup_nil, fun p => iff_of_false (by simp) ?_⟩
      · simp [listEntry, hdir, hreg]
      · rintro ⟨rel, y, rfl, hhead, h⟩
        obtain ⟨rfl, rfl⟩ := hbelow rel y hhead h
        obtain ⟨n', hn', hreg'⟩ := ((listed_nil hl).1 h).1
        obtain rfl := Option.some.inj (hn.symm.trans hn')
        exact hreg hreg'

theorem ListAllFile_adds {fuel : ℕ} {path : List Name} {l : Loc} (hloc : walk fs.node true MAXSYMLINKS [] path = some l)
    (hpos : 0 < fuel) (hdeep : ∀ m n, l <+: m → fs.node m = some n → m.length < l.length + fuel) :
    Adds sys fs subfix fuel path l := by
  induction fuel generalizing path l with
  | zero => exact absurd hpos (Nat.lt_irrefl 0)
  | succ fuel ih =>
    have haccessCall : sys.accessCall path fs = ((fs.node l).isSome && sys.access l) := by rw [Reader.accessCall, hloc]
    by_cases hread : isDir (fs.node l) = true ∧ sys.access l = true ∧ sys.opendir l = true
    · obtain ⟨hdir, hl⟩ := hread
      have hsome : (fs.node l).isSome = true := by
        cases hnode : fs.node l with
        | none =>
          rw [hnode] at hdir
          cases hdir
        | some n => rfl
      have hseen : ¬ sys.accessCall path fs = false := by simp [haccessCall, hsome, hl.1]
      have hreaddir : sys.readdirCall path fs = some ((dot, .dir) :: (dotdot, .dir) :: fs.entries l) := by
        rw [Reader.readdirCall, hloc]
        exact if_pos ⟨hdir, hl.2⟩
      have hbelow : ∀ x n, fs.node (l ++ [x]) = some n → n.kind = .dir →
          Adds sys fs subfix fuel (path ++ [x]) (l ++ [x]) := by
        intro x n hn hkind
        have hx := Fs.names_ne_dots (Fs.mem_names.2 ⟨n, hn⟩)
        have hlen : (l ++ [x]).length = l.length + 1 := by simp
        have hlt := hdeep _ n (List.prefix_append l [x]) hn
        refine ih (walk_enter (fun jump => walkFrom_entry hdir hx (fun absolute target perm h => ?_) true jump) hloc)
          (by omega) fun m n' hm hn' => ?_
        · rw [hn] at h
          obtain rfl := Option.some.inj h
          cases hkind
        · have hle := hdeep m n' ((List.prefix_append l [x]).trans hm) hn'
          omega
      have hpart : ∀ e : Name × Kind, ∃ new : List (List Name), e ∈ fs.entries l →
          (∀ files, listEntry (ListAllFile sys fs subfix fuel) path subfix files e = some (files ++ new)) ∧ new.Nodup ∧
          ∀ p, p ∈ new ↔ ∃ rel y, p = path ++ (rel ++ [y]) ∧ (rel ++ [y]).head? = some e.1 ∧
            Listed sys fs subfix l rel y := by
        intro e
        by_cases he : e ∈ fs.entries l
        · obtain ⟨n, hn, hkind⟩ := mem_entries.1 he
          obtain ⟨new, hnew⟩ := entry_adds hl hbelow (Fs.names_ne_dots (Fs.mem_names.2 ⟨n, hn⟩)) hn
          rw [hkind] at hnew
          exact ⟨new, fun _ => hnew⟩
        · exact ⟨[], fun h => absurd h he⟩
      choose part hpart using hpart
      refine ⟨(fs.entries l).flatMap part, fun files => ?_, ?_, fun p => ?_⟩
      · have hdots : ∀ x, x = dot ∨ x = dotdot → ∀ files,
            listEntry (ListAllFile sys fs subfix fuel) path subfix files (x, .dir) = some files := by
          intro x hx files
          simp [listEntry, hx]
        rw [ListAllFile, if_neg hseen, hreaddir]
        simp only [List.foldlM_cons, hdots dot (.inl rfl), hdots dotdot (.inr rfl), Option.bind_eq_bind, Option.bind_some]
        exact foldlM_append (fun e he => (hpart e he).1) files
      · refine List.nodup_flatMap.2 ⟨fun e he => (hpart e he).2.1, ?_⟩
        refine (entries_differ fs l).imp_of_mem fun {e e'} he he' hne p hp hp' => hne ?_
        -- the entry shows behind the path
        obtain ⟨rel, y, rfl, hhead, -⟩ := ((hpart e he).2.2 p).1 hp
        obtain ⟨rel', y', heq, hhead', -⟩ := ((hpart e' he').2.2 _).1 hp'
        rw [List.append_cancel_left heq, hhead'] at hhead
        exact (Option.some.inj hhead).symm
      · rw [List.mem_flatMap]
        constructor
        · rintro ⟨e, he, hp⟩
          obtain ⟨rel, y, hpath, -, h⟩ := ((hpart e he).2.2 p).1 hp
          exact ⟨rel, y, hpath, h⟩
        · rintro ⟨rel, y, hpath, h⟩
          obtain ⟨e, he, hhead⟩ := h.entry
          exact ⟨e, he, ((hpart e he).2.2 p).2 ⟨rel, y, hpath, hhead, h⟩⟩
    · refine adds_nothing (fun files => ?_) fun hdir haccess hopendir => hread ⟨hdir, haccess, hopendir⟩
      rw [ListAllFile, Reader.readdirCall, hloc]
      split_ifs with hseen
      · rfl
      · have hnot : ¬ (isDir (fs.node l) = true ∧ sys.opendir l = true) := by
          rintro ⟨hdir, hopendir⟩
          refine hread ⟨hdir, ?_, hopendir⟩
          rw [haccessCall, Bool.not_eq_false, Bool.and_eq_true] at hseen
          exact hseen.2
        simp [hnot]

end

end Sylar.FSUtil

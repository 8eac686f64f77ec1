import MToolkit.Library.PosixTree

/-!
# Making a directory

The call `mkdir`. A new directory needs a serial number that is not in use, and a file system
has them from a supply (`Posix.Supply`).

What a call makes is one directory and one entry that names it, so a file system that directories
have been made in has grown (`Posix.FileSystem.Grown`): every file is of the kind it was, no entry
is gone, and a path name that led somewhere leads there still.
-/

namespace Posix

/-! ### Growing -/

/-- The kind of a file. -/
inductive Kind where
  | directory : Kind
  | regular : Kind
  | link : Kind
  deriving DecidableEq

def Node.kind : Node → Kind
  | .directory _ => .directory
  | .regular _ => .regular
  | .link _ => .link

/-- What becomes of a file, or of none: a directory may get more entries, and where there was
nothing there may be a directory. -/
inductive Node.Grown : Option Node → Option Node → Prop
  | same (node : Option Node) : Node.Grown node node
  | more (dir : Directory) (es : List (Name × Ino)) : Node.Grown (some (.directory dir))
      (some (.directory { dir with entries := dir.entries ++ es }))
  | new (dir : Directory) : Node.Grown none (some (.directory dir))

theorem Node.Grown.trans {a b c : Option Node} (h : Node.Grown a b) (h' : Node.Grown b c) :
    Node.Grown a c := by
  rcases h with _ | ⟨dir, es⟩ | dir
  · exact h'
  · generalize hb : some (Node.directory { dir with entries := dir.entries ++ es }) = b at h'
    rcases h' with _ | ⟨dir', es'⟩ | _
    · exact hb ▸ .more dir es
    · obtain rfl := Node.directory.inj (Option.some.inj hb)
      simpa using Node.Grown.more dir (es ++ es')
    · cases hb
  · generalize hb : some (Node.directory dir) = b at h'
    rcases h' with _ | ⟨dir', es'⟩ | _
    · exact hb ▸ .new dir
    · exact .new _
    · cases hb

namespace FileSystem

/-- Something in the file system **refers to the serial number**. -/
def Mentions (fs : FileSystem) (i : Ino) : Prop :=
  i = fs.root ∨ i = fs.cwd ∨
    ∃ d dir, fs.node d = some (.directory dir) ∧ (dir.parent = i ∨ ∃ n, (n, i) ∈ dir.entries)

/-- The second file system is the first with **more directories** in it. -/
structure Grown (fs fs' : FileSystem) : Prop where
  root : fs'.root = fs.root
  cwd : fs'.cwd = fs.cwd
  symloopMax : fs'.symloopMax = fs.symloopMax
  pathMax : fs'.pathMax = fs.pathMax
  node : ∀ i, Node.Grown (fs.node i) (fs'.node i)
  /-- A serial number that something refers to is not used for a new directory. -/
  vacant : ∀ i, fs.Mentions i → fs.node i = none → fs'.node i = none

variable {fs fs' fs'' : FileSystem} {d i : Ino} {n : Name} {c : Component} {cs ys : List Component}
  {budget : ℕ} {path rest : Path}

theorem Grown.refl (fs : FileSystem) : Grown fs fs where
  root := rfl
  cwd := rfl
  symloopMax := rfl
  pathMax := rfl
  node _ := .same _
  vacant _ _ h := h

/-- A directory keeps its parent, its mode bits and its entries. -/
theorem Grown.directory (h : Grown fs fs') {dir : Directory}
    (hd : fs.node d = some (.directory dir)) :
    ∃ es, fs'.node d = some (.directory { dir with entries := dir.entries ++ es }) := by
  have hnode := h.node d
  generalize hd' : fs'.node d = node' at hnode
  rw [hd] at hnode
  rcases hnode with _ | ⟨_, es⟩ | _
  · exact ⟨[], by simp⟩
  · exact ⟨es, rfl⟩

theorem Grown.mentions (h : Grown fs fs') (hi : fs.Mentions i) : fs'.Mentions i := by
  rcases hi with rfl | rfl | ⟨d, dir, hd, hi⟩
  · exact Or.inl h.root.symm
  · exact Or.inr (Or.inl h.cwd.symm)
  · obtain ⟨es, hd'⟩ := h.directory hd
    refine Or.inr (Or.inr ⟨d, _, hd', hi.imp_right ?_⟩)
    rintro ⟨n, hn⟩
    exact ⟨n, List.mem_append_left _ hn⟩

theorem Grown.trans (h : Grown fs fs') (h' : Grown fs' fs'') : Grown fs fs'' where
  root := h'.root.trans h.root
  cwd := h'.cwd.trans h.cwd
  symloopMax := h'.symloopMax.trans h.symloopMax
  pathMax := h'.pathMax.trans h.pathMax
  node i := (h.node i).trans (h'.node i)
  vacant i hi hnone := h'.vacant i (h.mentions hi) (h.vacant i hi hnone)

theorem Grown.step (h : Grown fs fs') (hstep : fs.step d c = some i) : fs'.step d c = some i := by
  obtain ⟨dir, hd⟩ := isDirectory_eq_true.1 (isDirectory_of_step hstep)
  obtain ⟨es, hd'⟩ := h.directory hd
  rw [FileSystem.step, hd] at hstep
  rw [FileSystem.step, hd']
  simp only at hstep ⊢
  split_ifs at hstep ⊢
  rcases c with _ | _ | n
  · exact hstep
  · exact hstep
  · -- the first entry of the name comes before the new ones
    obtain ⟨e, he, hi⟩ := Option.map_eq_some_iff.1 hstep
    simp [Directory.find, List.find?_append, he, hi]

theorem Grown.link (h : Grown fs fs') (i : Ino) (target : Path) :
    fs.node i = some (.link target) ↔ fs'.node i = some (.link target) := by
  have hnode := h.node i
  generalize fs.node i = a at hnode
  generalize fs'.node i = b at hnode
  rcases hnode with _ | _ | _
  · exact Iff.rfl
  · simp
  · simp

/-- **A path name that leads to a file leads there still.** -/
theorem Grown.finds (h : Grown fs fs') : Finds fs fs' where
  root := h.root
  cwd := h.cwd
  symloopMax := h.symloopMax
  pathMax := h.pathMax
  step _ _ _ := h.step
  link := h.link

theorem Grown.isDirectory (h : Grown fs fs') (hd : fs.isDirectory d) : fs'.isDirectory d := by
  obtain ⟨dir, hd⟩ := isDirectory_eq_true.1 hd
  obtain ⟨es, hd'⟩ := h.directory hd
  exact isDirectory_eq_true.2 ⟨_, hd'⟩

theorem Grown.entries (h : Grown fs fs') {e : Name × Ino} (he : e ∈ fs.entries d) :
    e ∈ fs'.entries d := by
  rcases hd : fs.node d with _ | (dir | _ | _)
  · simp [FileSystem.entries, hd] at he
  · obtain ⟨es, hd'⟩ := h.directory hd
    rw [FileSystem.entries, hd] at he
    rw [FileSystem.entries, hd']
    exact List.mem_append_left _ he
  · simp [FileSystem.entries, hd] at he
  · simp [FileSystem.entries, hd] at he

/-- **A file is of the kind it was**, and where there was none that something refers to there is
none. -/
theorem Grown.kind (h : Grown fs fs') (hi : fs.node i ≠ none ∨ fs.Mentions i) :
    (fs'.node i).map Node.kind = (fs.node i).map Node.kind := by
  rcases hnone : fs.node i with _ | node
  · rw [h.vacant i (hi.resolve_left (absurd hnone)) hnone]
  · have hnode := h.node i
    rw [hnone] at hnode
    generalize fs'.node i = node' at hnode ⊢
    rcases hnode with _ | _ | _
    · rfl
    · rfl

/-! ### What a path name leads to is referred to -/

theorem mentions_start {d e : Ino} (hd : fs.Mentions d) (h : fs.start d path = some e) :
    fs.Mentions e := by
  rcases path with _ | ⟨c, path⟩
  · cases h
  · rw [start] at h
    split_ifs at h
    · exact Or.inl (Option.some.inj h).symm
    · exact Option.some.inj h ▸ hd

theorem mentions_step (hd : fs.Mentions d) (h : fs.step d c = some i) : fs.Mentions i := by
  obtain ⟨dir, hdir⟩ := isDirectory_eq_true.1 (isDirectory_of_step h)
  rcases c with _ | _ | n
  · exact step_dot h ▸ hd
  · rw [step, hdir] at h
    simp only at h
    split_ifs at h
    exact Or.inr (Or.inr ⟨d, dir, hdir, Or.inl (Option.some.inj h)⟩)
  · have hmem := mem_entries_of_step h
    rw [entries, hdir] at hmem
    exact Or.inr (Or.inr ⟨d, dir, hdir, Or.inr ⟨n, hmem⟩⟩)

theorem mentions_follow (hd : fs.Mentions d) (h : fs.follow budget d cs = some i) :
    fs.Mentions i := by
  induction budget using Nat.strongRecOn generalizing d cs with
  | _ budget ihb =>
    induction cs generalizing d with
    | nil =>
      obtain rfl : d = i := by cases budget <;> exact Option.some.inj h
      exact hd
    | cons c cs ih =>
      obtain ⟨e, hstep, h⟩ := follow_cons.1 h
      have he := mentions_step hd hstep
      rcases h with ⟨target, -, left, e', rfl, hstart, h⟩ | ⟨-, h⟩
      · exact ihb left (Nat.lt_succ_self left) (mentions_start hd hstart) h
      · exact ih he h

theorem mentions_stat (h : fs.stat path = some i) : fs.Mentions i := by
  obtain ⟨-, d, hstart, h⟩ := resolve_eq_some.1 h
  exact mentions_follow (mentions_start (Or.inr (Or.inl rfl)) hstart) h

/-! ### The call -/

end FileSystem

/-- Serial numbers for new files: none that is in use, nor one that something refers to. -/
structure Supply where
  next : FileSystem → Option Ino
  unused : ∀ fs i, next fs = some i → fs.node i = none ∧ ¬ fs.Mentions i

open Classical in
/-- Any number that may be used, as long as there is one. -/
noncomputable def Supply.any : Supply where
  next fs := if h : ∃ i, fs.node i = none ∧ ¬ fs.Mentions i then some h.choose else none
  unused fs i hi := by
    split_ifs at hi with h
    exact Option.some.inj hi ▸ h.choose_spec

namespace FileSystem

/-- The file system with a new directory in one of its directories. -/
def insert (fs : FileSystem) (d : Ino) (dir : Directory) (n : Name) (i : Ino) : FileSystem :=
  { fs with node := fun j =>
      if j = i then some (.directory ⟨d, [], true, true, true⟩)
      else if j = d then some (.directory { dir with entries := dir.entries ++ [(n, i)] })
      else fs.node j }

/-- `mkdir`: a new directory that the process may use in every way, unless the name is there, the
directory it is to be in is none or may not be written, or no serial number is left. -/
def mkdir (supply : Supply) (fs : FileSystem) (path : Path) : Option FileSystem :=
  match fs.entryOf path with
  | none => none
  | some (d, n) =>
    match fs.node d, supply.next fs with
    | some (.directory dir), some i =>
      if dir.writable && dir.searchable && (dir.find n).isNone then some (fs.insert d dir n i)
      else none
    | _, _ => none

variable {fs fs' : FileSystem} {supply : Supply} {d i : Ino} {dir : Directory} {n : Name}
  {path rest : Path}

theorem node_insert (j : Ino) : (fs.insert d dir n i).node j =
    if j = i then some (.directory ⟨d, [], true, true, true⟩)
    else if j = d then some (.directory { dir with entries := dir.entries ++ [(n, i)] })
    else fs.node j := rfl

/-- **What a call has done** when it succeeds. -/
theorem mkdir_eq_some (h : fs.mkdir supply path = some fs') : ∃ d dir n i,
    fs.entryOf path = some (d, n) ∧ fs.node d = some (.directory dir) ∧ dir.searchable ∧
      dir.find n = none ∧ supply.next fs = some i ∧ fs' = fs.insert d dir n i := by
  rw [mkdir] at h
  split at h
  · cases h
  · rename_i d n hentry
    split at h
    · rename_i dir i hdir hi
      split_ifs at h with hok
      simp only [Bool.and_eq_true, Option.isNone_iff_eq_none] at hok
      exact ⟨d, dir, n, i, hentry, hdir, hok.1.2, hok.2, hi, (Option.some.inj h).symm⟩
    · cases h

/-- **The file system grows** by a new directory. -/
theorem grown_insert (hdir : fs.node d = some (.directory dir)) (hi : fs.node i = none)
    (hfree : ¬ fs.Mentions i) : Grown fs (fs.insert d dir n i) where
  root := rfl
  cwd := rfl
  symloopMax := rfl
  pathMax := rfl
  node j := by
    rw [node_insert]
    split_ifs with hj hjd
    · rw [hj, hi]
      exact .new _
    · rw [hjd, hdir]
      exact .more dir _
    · exact .same _
  vacant j hj hnone := by
    rw [node_insert]
    split_ifs with hji hjd
    · exact absurd (hji ▸ hj) hfree
    · rw [hjd, hdir] at hnone
      cases hnone
    · exact hnone

theorem grown_mkdir (h : fs.mkdir supply path = some fs') : Grown fs fs' := by
  obtain ⟨d, dir, n, i, -, hdir, -, -, hi, rfl⟩ := mkdir_eq_some h
  obtain ⟨hnone, hfree⟩ := supply.unused fs i hi
  exact grown_insert hdir hnone hfree

/-- **The new directory** is what the path name leads to afterwards. -/
theorem stat_mkdir (h : fs.mkdir supply path = some fs') :
    ∃ i, fs'.stat path = some i ∧ fs'.isDirectory i := by
  have hgrown := grown_mkdir h
  obtain ⟨d, dir, n, i, hentry, hdir, hsearch, hfind, hi, rfl⟩ := mkdir_eq_some h
  obtain ⟨hnone, -⟩ := supply.unused fs i hi
  have hne : d ≠ i := by
    rintro rfl
    rw [hnone] at hdir
    cases hdir
  have hnew : (fs.insert d dir n i).node i = some (.directory ⟨d, [], true, true, true⟩) :=
    if_pos rfl
  have hold : (fs.insert d dir n i).node d =
      some (.directory { dir with entries := dir.entries ++ [(n, i)] }) := by
    simp [node_insert, hne]
  have hstep : (fs.insert d dir n i).step d (.name n) = some i := by
    rw [Directory.find, Option.map_eq_none_iff] at hfind
    simp [step, hold, hsearch, Directory.find, List.find?_append, hfind]
  obtain ⟨cs, hcs, hd⟩ := entryOf_eq_some.1 hentry
  have hlink : ∀ target, (fs.insert d dir n i).node i ≠ some (.link target) := by simp [hnew]
  have hresolve := resolve_concat (hgrown.finds.resolve hd) hstep hlink
  rw [← hcs] at hresolve
  refine ⟨i, ?_, isDirectory_eq_true.2 ⟨_, hnew⟩⟩
  rw [stat, parts]
  split_ifs
  · exact resolve_concat hresolve (by simp [step, hnew]) hlink
  · exact hresolve

/-- **A name that is there** is not made again. -/
theorem mkdir_eq_none_of_stat (h : fs.stat path = some i) : fs.mkdir supply path = none := by
  rw [Option.eq_none_iff_forall_not_mem]
  intro fs' hfs'
  obtain ⟨d, dir, n, j, hentry, hdir, -, hfind, -⟩ := mkdir_eq_some hfs'
  obtain ⟨cs, hcs, hd⟩ := entryOf_eq_some.1 hentry
  have hresolve := resolve_of_stat h
  rw [hcs] at hresolve
  obtain ⟨hfits, e, hstart, hresolve⟩ := resolve_eq_some.1 hresolve
  obtain ⟨d', left, hd', hname⟩ := follow_append hresolve
  obtain rfl : d' = d :=
    Option.some.inj ((resolve_eq_some.2 ⟨hfits, e, hstart, hd'⟩).symm.trans hd)
  obtain ⟨k, hstep, -⟩ := follow_cons.1 hname
  rw [step, hdir] at hstep
  simp [hfind] at hstep

/-! ### Path names before a slash -/

/-- Where a component is resolved, a dot is. -/
theorem step_dot_of_step {c : Component} (h : fs.step d c = some i) : fs.step d .dot = some d := by
  rw [step] at h ⊢
  split at h
  · rename_i hdir
    split_ifs at h with hsearch
    simp [hsearch]
  · cases h

/-- A path name leads to a directory when **a component can be resolved behind it**. -/
theorem stat_of_step {c : Component} (h : fs.resolve path (components path) = some d)
    (hstep : fs.step d c = some i) : fs.stat path = some d ∧ fs.isDirectory d := by
  have hd := isDirectory_of_step hstep
  refine ⟨?_, hd⟩
  rw [stat, parts]
  split_ifs
  · exact resolve_concat h (step_dot_of_step hstep) (not_link_of_isDirectory hd)
  · exact h

theorem stat_of_resolve_append {c : Component} {cs : List Component}
    (h : fs.resolve path (components path ++ c :: cs) = some i) :
    ∃ d, fs.stat path = some d ∧ fs.isDirectory d := by
  obtain ⟨hfits, e, hstart, h⟩ := resolve_eq_some.1 h
  obtain ⟨d, left, hd, h⟩ := follow_append h
  obtain ⟨j, hstep, -⟩ := follow_cons.1 h
  exact ⟨d, stat_of_step (resolve_eq_some.2 ⟨hfits, e, hstart, hd⟩) hstep⟩

end FileSystem

/-- The first path name is a part of the second that **ends before a slash**, and not the empty
one. -/
def Before (q path : Path) : Prop := q ≠ [] ∧ ∃ rest, path = q ++ '/' :: rest

/-- Only slashes have no component, so a slash comes last where none follows one. -/
theorem slashed_of_components_eq_nil {rest : Path} (h : components rest = []) :
    slashed ('/' :: rest) := by
  induction hlen : rest.length using Nat.strongRecOn generalizing rest with
  | _ len ih =>
    by_cases hmem : '/' ∈ rest
    · obtain ⟨front, back, rfl⟩ := List.append_of_mem hmem
      rw [components_append_slash, List.append_eq_nil_iff] at h
      simp only [List.length_append, List.length_cons] at hlen
      have hback := ih back.length (by omega) h.2 rfl
      simpa [slashed, List.getLast?_cons, List.getLast?_append] using hback
    · rw [components, List.splitOn_eq_singleton hmem, List.filterMap_cons] at h
      rcases hc : Component.ofChars rest with _ | c
      · obtain rfl : rest = [] := by
          by_contra hne
          rw [Component.ofChars] at hc
          split_ifs at hc with h₁ h₂ h₃
          exact h₃ ⟨hne, hmem, h₁, h₂⟩
        rfl
      · rw [hc] at h
        cases h

/-- Behind the slash **something is resolved** in any case. -/
theorem parts_slash (path rest : Path) :
    ∃ c cs, parts (path ++ '/' :: rest) = components path ++ c :: cs := by
  rw [parts, components_append_slash]
  rcases hrest : components rest with _ | ⟨c, cs⟩
  · have hslash : slashed (path ++ '/' :: rest) := by
      have hlast := slashed_of_components_eq_nil hrest
      simpa [slashed, List.getLast?_append, List.getLast?_cons] using hlast
    rw [if_pos hslash]
    exact ⟨.dot, [], by simp⟩
  · split_ifs
    · exact ⟨c, cs ++ [.dot], by simp⟩
    · exact ⟨c, cs, rfl⟩

namespace FileSystem

variable {fs fs' : FileSystem} {supply : Supply} {i : Ino} {q path : Path}

/-- **Before a slash of a path name that leads somewhere** lies a directory. -/
theorem stat_before (hq : Before q path) (h : fs.stat path = some i) :
    ∃ d, fs.stat q = some d ∧ fs.isDirectory d := by
  obtain ⟨hne, rest, rfl⟩ := hq
  obtain ⟨c, cs, hparts⟩ := parts_slash q rest
  rw [stat, hparts] at h
  exact stat_of_resolve_append (resolve_append hne h)

/-- A slash at the end stands for a dot, which is resolved in a directory. -/
theorem isDirectory_of_slashed (hslash : slashed path) (h : fs.stat path = some i) :
    fs.isDirectory i := by
  have hdot := h
  rw [stat, parts, if_pos hslash] at hdot
  obtain ⟨d, hd, hdir⟩ := stat_of_resolve_append hdot
  rwa [Option.some.inj (h.symm.trans hd)]

/-- **A directory is made in a directory**: what comes before a slash of its path name is there,
or is another path name for it. -/
theorem mkdir_before (hq : Before q path) (h : fs.mkdir supply path = some fs') :
    (fs.stat q).isSome ∨ fs.mkdir supply q = some fs' := by
  obtain ⟨hne, rest, rfl⟩ := hq
  obtain ⟨d, dir, n, i, hentry, hdir, hsearch, -⟩ := mkdir_eq_some h
  obtain ⟨cs, hcs, hd⟩ := entryOf_eq_some.1 hentry
  have hd := resolve_append hne hd
  rw [components_append_slash] at hcs
  rcases (components rest).eq_nil_or_concat with hrest | ⟨front, c, hrest⟩
  · -- there are only slashes behind it
    rw [hrest, List.append_nil] at hcs
    have hsame : fs.entryOf q = some (d, n) := entryOf_eq_some.2 ⟨cs, hcs, hd⟩
    rw [mkdir, hentry] at h
    rw [mkdir, hsame]
    exact Or.inr h
  · rw [hrest, List.concat_eq_append, ← List.append_assoc] at hcs
    obtain ⟨rfl, -⟩ := List.append_inj' hcs rfl
    refine Or.inl ?_
    rcases front with _ | ⟨c', front⟩
    · rw [List.append_nil] at hd
      have hdot : fs.step d .dot = some d := by simp [step, hdir, hsearch]
      rw [(stat_of_step hd hdot).1]
      rfl
    · obtain ⟨e, he, -⟩ := stat_of_resolve_append hd
      rw [he]
      rfl

end FileSystem

end Posix
